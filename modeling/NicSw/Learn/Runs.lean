/-
The endpoint database is consistent in every run of packets, mapping calls, timeouts,
clears and delayed frees.
-/
import NicSw.Lib.Run
import NicSw.Learn.Packets

namespace NicSw.Learn

/-- What happens to the endpoint database. -/
inductive Op
  | pkt (pkt : Pkt)
  | mapping (call : MappingCall)
  | ipAging (ip : IpKey)
  | macAging (k : MacKey)
  | clearIps (ips : List IpKey)
  | clearMac (k : MacKey)
  | clearMacs (filter : Db → MacKey → Bool) (ks : List MacKey)
  | freeDelayed (e : MacEntry)

section Runs

variable (subnets : Subnets)

/-- One operation; its object calls succeed if the object is absent (create) or present. -/
def Op.run (db : Db) : Op → Ret × Db
  | .pkt p => processLearnPkt subnets never p db
  | .mapping call => processApi never db call
  | .ipAging ip => ipAgingCb never db ip
  | .macAging k => macAgeout never db k
  | .clearIps ips => Learn.clearIps never ips db
  | .clearMac k => epMacEntryClear never db k
  | .clearMacs filter ks => Learn.clearMacs never filter ks db
  | .freeDelayed e => (.ok, db.freeDelayed e)

/-- The states that operations lead to. -/
def Reached : Db → Prop :=
  Reachable (· = Db.init) fun db db' => ∃ op : Op, db' = (op.run subnets db).2

/-- **The consistency of the endpoint database.** -/
structure Db.Consistent (db : Db) : Prop where
  /-- The VNIC ids of MACs are distinct. -/
  distinct : ∀ k k' e e', db.macDb k = some e → db.macDb k' = some e' →
    e.vnicObjId = e'.vnicObjId → k = k'
  /-- There is a VNIC with the id, the MAC and the subnet. -/
  vnic : ∀ k e, db.macDb k = some e → ∃ v, db.vnics e.vnicObjId = some v ∧ v.macKey = k
  /-- An IP is on the list of exactly one MAC, once, and has its VNIC id. -/
  listed : ∀ ip i, db.ipDb ip = some i → ∃ k e, db.macDb k = some e ∧
    e.vnicObjId = i.vnicObjId ∧ e.ipList.count ip = 1 ∧
    ∀ k' e', db.macDb k' = some e' → ip ∈ e'.ipList → k' = k
  /-- What is on a list is in the database. -/
  entry : ∀ k e ip, db.macDb k = some e → ip ∈ e.ipList → (db.ipDb ip).isSome
  /-- There are local mappings for the IPs, and for no other. -/
  mapping : ∀ ip, (db.localMappings ip).isSome ↔ (db.ipDb ip).isSome
  /-- What is local is not remote. -/
  macLocal : ∀ k, (db.macDb k).isSome → db.remoteMappings (.l2 k) = none
  ipLocal : ∀ ip, (db.ipDb ip).isSome → db.remoteMappings (.l3 ip) = none

variable {subnets} {db : Db}

/-- **Step.**  An operation does not crash, and keeps the agreement. -/
theorem sound_run (h : db.Agrees) (op : Op) : Sound (op.run subnets db) := by
  cases op with
  | pkt p => exact (pktOutcome h).1
  | mapping call => exact sound_processApi h call
  | ipAging ip => exact sound_ipAgingCb h ip
  | macAging k => exact sound_macAgeout h k
  | clearIps ips => exact sound_clearIps ips h
  | clearMac k => exact sound_epMacEntryClear h k
  | clearMacs filter ks => exact sound_clearMacs filter ks h
  | freeDelayed e => exact sound_of (by decide) (sound_freeDelayed h e)

/-- **Run.** -/
theorem Reached.agrees (h : Reached subnets db) : db.Agrees := by
  refine h.invariant ?_ ?_
  · rintro _ rfl
    exact Db.Agrees.init
  · rintro db _ hagrees ⟨op, rfl⟩
    exact (sound_run hagrees op).agrees

/-- Databases and objects that agree are consistent. -/
theorem Db.Agrees.consistent (h : db.Agrees) : db.Consistent where
  distinct _ _ _ _ hk hk' hid := h.vnicObjId_inj hk hk' hid
  vnic _ _ hk := h.vnic hk
  listed ip i hi := by
    obtain ⟨k, e, hk, hmem, hid⟩ := h.owner hi
    refine ⟨k, e, hk, hid, List.count_eq_one_of_mem (h.nodup hk) hmem, fun k' e' hk' hmem' => ?_⟩
    exact h.owner_unique hk' hk hmem' hmem
  entry k e ip hk hmem := by
    obtain ⟨i, hi, -⟩ := h.listed hk hmem
    rw [hi]
    rfl
  mapping := h.mapping
  macLocal k hk := by
    obtain ⟨e, hk⟩ := Option.isSome_iff_exists.mp hk
    exact h.macLocal hk
  ipLocal ip hi := by
    obtain ⟨i, hi⟩ := Option.isSome_iff_exists.mp hi
    exact h.ipLocal hi

/-- **The endpoint database is consistent in every run**, and no operation crashes. -/
theorem Reached.endpointsConsistent (h : Reached subnets db) :
    db.Consistent ∧ ∀ op : Op, (op.run subnets db).1 ≠ .crash :=
  ⟨h.agrees.consistent, fun op => (sound_run h.agrees op).ret⟩

variable (subnets) in
/-- An operation, or a packet some of whose object calls fail. -/
def StepAmidFailures (db db' : Db) : Prop :=
  (∃ op : Op, db' = (op.run subnets db).2) ∨
    ∃ fails p, db' = (processLearnPkt subnets fails p db).2

/-- **Failures do not harm the endpoint database**: whichever object calls of the packets fail,
it stays consistent, and neither an operation nor another packet crashes. -/
theorem consistent_amid_failures (h : Reachable (· = Db.init) (StepAmidFailures subnets) db) :
    db.Consistent ∧ (∀ op : Op, (op.run subnets db).1 ≠ .crash) ∧
      ∀ fails p, (processLearnPkt subnets fails p db).1 ≠ .crash := by
  have hagrees : db.Agrees := by
    refine h.invariant ?_ ?_
    · rintro _ rfl
      exact Db.Agrees.init
    · rintro db _ hagrees (⟨op, rfl⟩ | ⟨fails, p, rfl⟩)
      · exact (sound_run hagrees op).agrees
      · exact (pktOutcome hagrees).1.agrees
  exact ⟨hagrees.consistent, fun op => (sound_run hagrees op).ret,
    fun _ _ => (pktOutcome hagrees).1.ret⟩

end Runs

/-- One subnet in one VPC. -/
def oneSubnet : Subnets := ⟨fun _ => 1, fun _ _ => true⟩

/-- MAC 7 with IP 9 in VLAN 5, in VNIC 3. -/
def pktOfHost : Pkt := ⟨⟨1, 7⟩, some 9, 1, ⟨true, 0x8100, 0, 5⟩, some 3, true, true⟩

/-- The IP of a host cannot be mapped, and the host sends again. -/
theorem consistent_amid_failures_host :
    let db := (processLearnPkt oneSubnet (fun c => c matches .localMappingCreate _) pktOfHost
      Db.init).2
    (db.ipDb ⟨1, 9⟩).isNone ∧ (db.vnics 3).isSome ∧
      ((Op.pkt { pktOfHost with vnicObjId := some 4 }).run oneSubnet db).2.Consistent :=
  ⟨by decide, by decide, (consistent_amid_failures
    (.step (.step (.start rfl) (.inr ⟨_, _, rfl⟩)) (.inl ⟨_, rfl⟩))).1⟩

/-- A host that is learnt, and whose IP moves to a remote TEP. -/
theorem Reached.endpointsConsistent_host :
    ((((Op.pkt pktOfHost).run oneSubnet Db.init).2.ipDb ⟨1, 9⟩).isSome ∧
      ((Op.mapping ⟨.create, .l3 ⟨1, 9⟩, 5, true⟩).run oneSubnet
        ((Op.pkt pktOfHost).run oneSubnet Db.init).2).2.Consistent) := by
  refine ⟨by decide, ?_⟩
  have hlearnt : Reached oneSubnet ((Op.pkt pktOfHost).run oneSubnet Db.init).2 :=
    .step (.start rfl) ⟨.pkt pktOfHost, rfl⟩
  exact (Reached.endpointsConsistent (.step hlearnt ⟨.mapping _, rfl⟩)).1

end NicSw.Learn
