/-
What a packet does to the endpoint database.

The objects of the MAC of a packet come first, then those of its IP, and the databases are
updated at the end.  Each part has one inversion lemma, which says for any failing calls
what it can come to (`macOutcome`, `ipOutcome`).  They are put together to one statement
about the packet: it keeps the databases and the objects in agreement, and what it does to
the VNICs, their ids and the MACs that hold them is one of two things (`pktOutcome`).
-/
import Mathlib.Data.Finset.Basic
import NicSw.Learn.Ageouts

namespace NicSw.Learn

open Option (bind_eq_bind bind_some some)

open PktCtxt

open Function (update update_self update_of_ne update_eq_self)

/-! ### VNICs, their ids and their holders -/

/-- A MAC of the database holds the VNIC id. -/
def Db.Held (db : Db) (id : Nat) : Prop := ∃ k e, db.macDb k = some e ∧ e.vnicObjId = id

/-- The MAC that holds an id, the VNIC and the allocated id that are new in `db'`. -/
structure Changes (db db' : Db) (held vnic objId : Option Nat) : Prop where
  held : ∀ id, db'.Held id ↔ db.Held id ∨ held = some id
  vnics : ∀ id, (db'.vnics id).isSome ↔ (db.vnics id).isSome ∨ vnic = some id
  objIds : ∀ id, id ∈ db'.vnicObjIds ↔ id ∈ db.vnicObjIds ∨ objId = some id

section Packets

variable {subnets : Subnets} {fails : ObjCall → Bool} {pkt : Pkt} {db : Db}
  {macType ipType : LearnType} {k : IpKey} {db' : Db}

/-- Nothing that matters here has changed. -/
theorem Changes.of_eq (hmac : db'.macDb = db.macDb) (hvnics : db'.vnics = db.vnics)
    (hids : db'.vnicObjIds = db.vnicObjIds) : Changes db db' none none none where
  held id := by simp [Db.Held, hmac]
  vnics id := by simp [hvnics]
  objIds id := by simp [hids]

/-- `reset` leaves the databases and the objects as they are. -/
theorem Db.Agrees.reset {c : PktCtxt} (h : c.db.Agrees) : c.reset.Agrees := by
  rw [PktCtxt.reset]
  split
  · rw [Db.destroyMac]
    split
    · exact h
    · exact h
  · exact h

variable {e : MacEntry}

/-- `reset` destroys a MAC entry that is still being learnt. -/
theorem reset_learning {c : PktCtxt} (hnew : c.newMac = some e) (hpos : e.vnicObjId ≠ 0) :
    c.reset = c.db.vnicObjIdFree e.vnicObjId := by
  rw [reset, hnew]
  exact if_pos hpos

/-! ### The MAC of a packet -/

variable (fails pkt db) in
/-- Whether `process_new_local_mac` creates a VNIC. -/
def vnicCreated : Bool :=
  match pkt.vnicObjId with
  | none => false
  | some id =>
    id ≠ 0 && id ∉ db.vnicObjIds && pkt.macAlloc && !fails (.vnicCreate id) && (db.vnics id).isNone

variable (fails pkt db) in
/-- Whether the MAC of a packet is new, and its objects are created. -/
def macCreated : LearnType → Bool
  | .newLocal => vnicCreated fails pkt db
  | .moveR2L => !fails (.remoteMappingDelete (.l2 pkt.macKey)) && vnicCreated fails pkt db
  | _ => false

variable (pkt db macType ipType) in
/-- The state after the objects of a new MAC are created. -/
def macLearnt (id : Nat) : PktCtxt :=
  { db := { db with
      vnicObjIds := insert id db.vnicObjIds
      vnics := update db.vnics id (some pkt.vnicSpec)
      remoteMappings := update db.remoteMappings (.l2 pkt.macKey) none }
    macLearnType := macType
    ipLearnType := ipType
    newMac := some ⟨id, .learning, []⟩
    newIp := none }

variable (pkt db) in
/-- The encapsulation of a packet is read right, and the VNIC of its MAC does not differ in the
type of its encapsulation only, which is not a move. -/
def SameEncap : Prop :=
  pkt.encap = pkt.hdr.encap ∧ ∀ e v, db.macDb pkt.macKey = some e → db.vnics e.vnicObjId = some v →
    v.hostIf = pkt.lif → v.encap.vlanTag = pkt.encap.vlanTag → v.encap = pkt.encap

variable (pkt) in
/-- VNIC `id` is on the interface and has the encapsulation of a packet. -/
def VnicFollows (vnics : Nat → Option VnicSpec) (id : Nat) : Prop :=
  ∃ v, vnics id = some v ∧ v.hostIf = pkt.lif ∧ v.encap = pkt.hdr.encap

/-- A VNIC that is made for a packet. -/
theorem vnicFollows_update {vnics : Nat → Option VnicSpec} {id : Nat} :
    VnicFollows pkt (update vnics id (some pkt.vnicSpec)) id ↔ pkt.encap = pkt.hdr.encap := by
  simp [VnicFollows, Pkt.vnicSpec]

variable (fails pkt db macType ipType) in
/-- What the objects of the MAC of a packet come to. -/
inductive MacOutcome : Ret × PktCtxt → Prop
  | failed {c} (hnot : macCreated fails pkt db macType = false) (hagrees : c.reset.Agrees)
      (hsame : Changes db c.reset none none none) : MacOutcome (.err, c)
  | known {e vnics} (hnot : macCreated fails pkt db macType = false)
      (htype : macType = .none ∨ macType = .moveL2L) (hk : db.macDb pkt.macKey = some e)
      (hagrees : { db with vnics := vnics }.Agrees)
      (hdom : ∀ id, (vnics id).isSome ↔ (db.vnics id).isSome)
      (hvnic : VnicFollows pkt vnics e.vnicObjId ↔ SameEncap pkt db) :
      MacOutcome (.ok, ⟨{ db with vnics := vnics }, macType, ipType, none, none⟩)
  | learnt {id} (hcreated : macCreated fails pkt db macType = true)
      (htype : macType = .newLocal ∨ macType = .moveR2L) (hk : db.macDb pkt.macKey = none)
      (hpos : id ≠ 0) (hfree : id ∉ db.vnicObjIds) (hv : db.vnics id = none) :
      MacOutcome (.ok, macLearnt pkt db macType ipType id)

/-- What `process_new_local_mac` comes to. -/
theorem processNewLocalMac_cases (c : PktCtxt) :
    vnicCreated fails pkt c.db = false ∧ processNewLocalMac fails pkt c = (.err, c) ∨
    (∃ id, vnicCreated fails pkt c.db = false ∧ id ≠ 0 ∧ id ∉ c.db.vnicObjIds ∧
      processNewLocalMac fails pkt c = (.err, { c with
        db := { c.db with vnicObjIds := insert id c.db.vnicObjIds }
        newMac := some ⟨id, .learning, []⟩ })) ∨
    (∃ id, vnicCreated fails pkt c.db = true ∧ id ≠ 0 ∧ id ∉ c.db.vnicObjIds ∧
      c.db.vnics id = none ∧
      processNewLocalMac fails pkt c = (.ok, { c with
        db := { c.db with
          vnicObjIds := insert id c.db.vnicObjIds
          vnics := update c.db.vnics id (some pkt.vnicSpec) }
        newMac := some ⟨id, .learning, []⟩ })) := by
  cases hid : pkt.vnicObjId with
  | none => exact .inl ⟨by simp [vnicCreated, hid], by simp [processNewLocalMac, hid]⟩
  | some id =>
    by_cases hbusy : id = 0 ∨ id ∈ c.db.vnicObjIds
    · refine .inl ⟨?_, by simp [processNewLocalMac, hid, hbusy]⟩
      rcases hbusy with h | h <;> simp [vnicCreated, hid, h]
    obtain ⟨hpos, hfree⟩ := not_or.mp hbusy
    cases halloc : pkt.macAlloc with
    | false =>
      exact .inl ⟨by simp [vnicCreated, hid, halloc], by simp [processNewLocalMac, hid, halloc]⟩
    | true =>
      by_cases hcreate : fails (.vnicCreate id) = true ∨ (c.db.vnics id).isSome = true
      · refine .inr (.inl ⟨id, ?_, hpos, hfree, ?_⟩)
        · rcases hcreate with h | h <;> simp [vnicCreated, hid, h]
        · simp [processNewLocalMac, hid, hpos, hfree, halloc, call, Db.vnicCreate, hcreate]
      obtain ⟨hfails, hv⟩ := not_or.mp hcreate
      rw [Option.not_isSome_iff_eq_none] at hv
      refine .inr (.inr ⟨id, ?_, hpos, hfree, hv, ?_⟩)
      · simp [vnicCreated, hid, hpos, hfree, halloc, hfails, hv]
      · simp [processNewLocalMac, hid, hpos, hfree, halloc, call, Db.vnicCreate, hfails, hv]

variable (pkt db) in
/-- The state without a remote mapping of the MAC of a packet. -/
def withoutRemoteMac : Db :=
  { db with remoteMappings := update db.remoteMappings (.l2 pkt.macKey) none }

/-- The part that `process_new_local_mac` has in the outcome. -/
theorem macOutcome_new (h : db.Agrees) (hk : db.macDb pkt.macKey = none)
    (htype : macType = .newLocal ∨ macType = .moveR2L)
    (hcreated : macCreated fails pkt db macType = vnicCreated fails pkt db) :
    MacOutcome fails pkt db macType ipType
      (processNewLocalMac fails pkt ⟨withoutRemoteMac pkt db, macType, ipType, none, none⟩) := by
  have hagrees : (withoutRemoteMac pkt db).Agrees := h.setRemoteMac hk none
  have hsame : Changes db (withoutRemoteMac pkt db) none none none := Changes.of_eq rfl rfl rfl
  rcases @processNewLocalMac_cases fails pkt
      ⟨withoutRemoteMac pkt db, macType, ipType, none, none⟩
    with ⟨hnot, hret⟩ | ⟨id, hnot, hpos, hfree, hret⟩ | ⟨id, hyes, hpos, hfree, hv, hret⟩
  · rw [hret]
    exact .failed (hcreated.trans hnot) hagrees hsame
  · -- the entry is destroyed again, and its id with it
    rw [hret]
    have hids := Finset.erase_insert hfree
    refine .failed (hcreated.trans hnot) ?_ ?_
    · exact Db.Agrees.reset hagrees
    · rw [reset_learning rfl hpos]
      exact Changes.of_eq rfl rfl hids
  · rw [hret]
    exact .learnt (hcreated.trans hyes) htype hk hpos hfree hv

theorem detectMac_of_local {v : VnicSpec} (hk : db.macDb pkt.macKey = some e)
    (hv : db.vnics e.vnicObjId = some v) (ht : detectMac pkt db = some macType) :
    macType = .none ∧ (VnicFollows pkt db.vnics e.vnicObjId ↔ SameEncap pkt db) ∨
      macType = .moveL2L ∧ (pkt.encap = pkt.hdr.encap ↔ SameEncap pkt db) := by
  -- the condition is about this VNIC
  have hsame : SameEncap pkt db ↔ pkt.encap = pkt.hdr.encap ∧
      (v.hostIf = pkt.lif → v.encap.vlanTag = pkt.encap.vlanTag → v.encap = pkt.encap) := by
    refine and_congr_right fun _ => ⟨fun h => h e v hk hv, fun h e' v' hk' hv' => ?_⟩
    cases hk.symm.trans hk'
    cases hv.symm.trans hv'
    exact h
  rw [detectMac, hk] at ht
  simp only [hv, bind_eq_bind, bind_some, some.injEq] at ht
  rw [← ht, hsame]
  split
  · rename_i hmoved
    exact .inr ⟨rfl, iff_self_and.mpr fun _ hif htag => (hmoved.elim (· hif) (· htag)).elim⟩
  · rename_i hstays
    obtain ⟨hif, htag⟩ := not_or.mp hstays
    have htag := not_not.mp htag
    refine .inl ⟨rfl, ?_⟩
    simp only [VnicFollows, hv, not_not.mp hif, htag, some.injEq, exists_eq_left', true_and,
      forall_const]
    refine ⟨fun heq => ?_, fun h => h.2.trans h.1⟩
    have hread := fillEncap_eq (htag.symm.trans (congrArg _ heq))
    exact ⟨hread, heq.trans hread.symm⟩

/-- **The objects of the MAC of a packet.** -/
theorem macOutcome (h : db.Agrees) (ht : detectMac pkt db = some macType) :
    MacOutcome fails pkt db macType ipType
      (processMac fails pkt ⟨db, macType, ipType, none, none⟩) := by
  cases hk : db.macDb pkt.macKey with
  | some e =>
    obtain ⟨v, hv, hkey⟩ := h.vnic hk
    rcases detectMac_of_local hk hv ht with ⟨rfl, hvnic⟩ | ⟨rfl, hsame⟩
    · exact .known rfl (.inl rfl) hk h (fun _ => Iff.rfl) hvnic
    cases hfails : fails (.vnicUpdate e.vnicObjId) with
    | true =>
      have hret : processMac fails pkt ⟨db, .moveL2L, ipType, none, none⟩
          = (.err, ⟨db, .moveL2L, ipType, none, none⟩) := by
        simp [processMac, processL2lMoveMac, vnicObjId, hk, call, Db.vnicUpdate, hfails]
      rw [hret]
      exact .failed rfl h (Changes.of_eq rfl rfl rfl)
    | false =>
      have hret : processMac fails pkt ⟨db, .moveL2L, ipType, none, none⟩
          = (.ok, ⟨{ db with
              vnics := update db.vnics e.vnicObjId (some pkt.vnicSpec) },
            .moveL2L, ipType, none, none⟩) := by
        simp [processMac, processL2lMoveMac, vnicObjId, hk, call, Db.vnicUpdate, hfails, hv]
      rw [hret]
      refine .known rfl (.inr rfl) hk ?_ (fun id => ?_)
        (vnicFollows_update.trans hsame)
      · refine h.setVnic fun k' e' hk' hid => ?_
        exact h.vnicObjId_inj hk hk' hid.symm
      · by_cases hid : id = e.vnicObjId
        · subst hid
          simp [hv]
        · rw [update_of_ne hid]
  | none =>
    cases hremote : db.remoteMappings (.l2 pkt.macKey) with
    | none =>
      have htype : macType = .newLocal := by simpa [detectMac, hk, hremote] using ht.symm
      subst htype
      have hsame : withoutRemoteMac pkt db = db := by
        rw [withoutRemoteMac, ← hremote, update_eq_self]
      have hnew := @macOutcome_new fails pkt db .newLocal ipType h hk (.inl rfl) rfl
      rw [hsame] at hnew
      exact hnew
    | some spec =>
      have htype : macType = .moveR2L := by simpa [detectMac, hk, hremote] using ht.symm
      subst htype
      cases hfails : fails (.remoteMappingDelete (.l2 pkt.macKey)) with
      | true =>
        have hret : processMac fails pkt ⟨db, .moveR2L, ipType, none, none⟩
            = (.err, ⟨db, .moveR2L, ipType, none, none⟩) := by
          simp [processMac, processR2lMoveMac, call, Db.remoteMappingDelete, hfails, andThen_of_ne]
        rw [hret]
        exact .failed (by simp [macCreated, hfails]) h (Changes.of_eq rfl rfl rfl)
      | false =>
        have hret : processMac fails pkt ⟨db, .moveR2L, ipType, none, none⟩
            = processNewLocalMac fails pkt
              ⟨withoutRemoteMac pkt db, .moveR2L, ipType, none, none⟩ := by
          simp [processMac, processR2lMoveMac, call, Db.remoteMappingDelete, hfails,
            hremote, withoutRemoteMac]
        rw [hret]
        exact macOutcome_new h hk (.inr rfl) (by simp [macCreated, hfails])

/-! ### The IP of a packet -/

variable (fails pkt k) in
/-- Whether a call for the IP of a packet fails. -/
def ipFails : LearnType → Bool
  | .newLocal => !pkt.ipAlloc || fails (.localMappingCreate k)
  | .moveL2L => fails (.localMappingDelete k) || (!pkt.ipAlloc || fails (.localMappingCreate k))
  | .moveR2L =>
    fails (.remoteMappingDelete (.l3 k)) || (!pkt.ipAlloc || fails (.localMappingCreate k))
  | _ => false

variable (pkt db k) in
/-- What the learn type says of the IP of a packet. -/
inductive IpType : LearnType → Prop
  | same {i} (hi : db.ipDb k = some i)
      (howner : ∀ k' e, db.macDb k' = some e → k ∈ e.ipList → k'.macAddr = pkt.macKey.macAddr) :
      IpType .none
  | moved {i} (hi : db.ipDb k = some i)
      (howner : ∀ k' e, db.macDb k' = some e → k ∈ e.ipList → k'.macAddr ≠ pkt.macKey.macAddr) :
      IpType .moveL2L
  | remote {spec} (hi : db.ipDb k = none) (hremote : db.remoteMappings (.l3 k) = some spec) :
      IpType .moveR2L
  | new (hi : db.ipDb k = none) (hremote : db.remoteMappings (.l3 k) = none) : IpType .newLocal

theorem ipType_of_detectIp (h : db.Agrees) (ht : detectIp pkt db k = some ipType) :
    IpType pkt db k ipType := by
  cases hi : db.ipDb k with
  | some i =>
    obtain ⟨k', e, hk', hmem, -, howner⟩ := h.macEntryOf hi
    rw [detectIp, hi] at ht
    simp only [howner, bind_eq_bind, bind_some, some.injEq] at ht
    have hunique : ∀ k'' e'', db.macDb k'' = some e'' → k ∈ e''.ipList → k'' = k' :=
      fun k'' e'' hk'' hmem'' => h.owner_unique hk'' hk' hmem'' hmem
    rw [← ht]
    split
    · rename_i hne
      exact .moved hi fun k'' e'' hk'' hmem'' => hunique k'' e'' hk'' hmem'' ▸ hne
    · rename_i heq
      exact .same hi fun k'' e'' hk'' hmem'' => hunique k'' e'' hk'' hmem'' ▸ not_not.mp heq
  | none =>
    cases hremote : db.remoteMappings (.l3 k) with
    | none =>
      have htype : ipType = .newLocal := by simpa [detectIp, hi, hremote] using ht.symm
      subst htype
      exact .new hi hremote
    | some spec =>
      have htype : ipType = .moveR2L := by simpa [detectIp, hi, hremote] using ht.symm
      subst htype
      exact .remote hi hremote

variable (pkt) in
/-- The state from which an IP is learnt, after what it had before is deleted. -/
structure Based (db base : Db) : Prop where
  agrees : base.Agrees
  own : base.macDb pkt.macKey = db.macDb pkt.macKey
  held : ∀ id, base.Held id ↔ db.Held id
  vnics : base.vnics = db.vnics
  objIds : base.vnicObjIds = db.vnicObjIds
  remoteMac : base.remoteMappings (.l2 pkt.macKey) = db.remoteMappings (.l2 pkt.macKey)

theorem Based.refl (h : db.Agrees) : Based pkt db db := ⟨h, rfl, fun _ => Iff.rfl, rfl, rfl, rfl⟩

/-- The remote mapping of the IP is deleted. -/
theorem Based.deleteRemote (h : db.Agrees) (hi : db.ipDb k = none) :
    Based pkt db { db with remoteMappings := update db.remoteMappings (.l3 k) none } where
  agrees := h.setRemoteIp hi none
  own := rfl
  held _ := Iff.rfl
  vnics := rfl
  objIds := rfl
  remoteMac := by simp

variable (k) in
/-- The IP is forgotten. -/
def Db.forgetIp (db : Db) (owner : MacKey) (e : MacEntry) : Db :=
  { db with
    macDb := update db.macDb owner (some { e with ipList := e.ipList.filter (· ≠ k) })
    ipDb := update db.ipDb k none
    ipCount := db.ipCount - 1
    localMappings := update db.localMappings k none }

/-- An entry that changes but for its VNIC id still holds it. -/
theorem held_of_update {owner : MacKey} {e' : MacEntry} {id : Nat} (hk : db.macDb owner = some e)
    (hdb : db'.macDb = update db.macDb owner (some e')) (hid : e'.vnicObjId = e.vnicObjId) :
    db'.Held id ↔ db.Held id := by
  rw [Db.Held, hdb]
  constructor
  · rintro ⟨k1, e1, hk1, hid1⟩
    rcases update_eq_some_iff.mp hk1 with ⟨-, heq⟩ | ⟨-, hk1⟩
    · cases heq
      exact ⟨owner, e, hk, hid.symm.trans hid1⟩
    · exact ⟨k1, e1, hk1, hid1⟩
  · rintro ⟨k1, e1, hk1, hid1⟩
    by_cases heq : k1 = owner
    · subst heq
      rw [hk] at hk1
      cases hk1
      exact ⟨k1, e', update_self .., hid.trans hid1⟩
    · exact ⟨k1, e1, (update_of_ne heq ..).trans hk1, hid1⟩

/-- The IP is taken from another MAC. -/
theorem Based.forget (h : db.Agrees) {owner : MacKey} (hk : db.macDb owner = some e)
    (hmem : k ∈ e.ipList) (hne : owner ≠ pkt.macKey) : Based pkt db (db.forgetIp k owner e) where
  agrees := h.forgetIp hk hmem
  own := update_of_ne hne.symm ..
  held _ := held_of_update hk rfl rfl
  vnics := rfl
  objIds := rfl
  remoteMac := rfl

variable (pkt k) in
/-- The state after the objects of an IP are created. -/
def ipLearnt (c : PktCtxt) (base : Db) (id : Nat) : PktCtxt :=
  { c with
    db := { base with
      localMappings := update base.localMappings k (some ⟨id, pkt.macKey⟩) }
    newIp := some ⟨id, .learning, 0⟩ }

variable (fails pkt k) in
/-- What the objects of the IP of a packet come to. -/
inductive IpOutcome (c : PktCtxt) (id : Nat) : Ret × PktCtxt → Prop
  | failed {base newIp} (hfails : ipFails fails pkt k c.ipLearnType = true)
      (hbase : Based pkt c.db base) : IpOutcome c id (.err, { c with db := base, newIp := newIp })
  | same {i} (hok : ipFails fails pkt k c.ipLearnType = false) (htype : c.ipLearnType = .none)
      (hi : c.db.ipDb k = some i) : IpOutcome c id (.ok, c)
  | learnt {base} (hok : ipFails fails pkt k c.ipLearnType = false)
      (htype : c.ipLearnType = .newLocal ∨ c.ipLearnType = .moveR2L ∨ c.ipLearnType = .moveL2L)
      (hbase : Based pkt c.db base) (hi : base.ipDb k = none)
      (hremote : base.remoteMappings (.l3 k) = none) :
      IpOutcome c id (.ok, ipLearnt pkt k c base id)

/-- The part that `process_new_local_ip` has in the outcome. -/
theorem ipOutcome_new {c : PktCtxt} {base : Db} {id : Nat} (hid : c.vnicObjId pkt = some id)
    (hbase : Based pkt c.db base) (hi : base.ipDb k = none)
    (hremote : base.remoteMappings (.l3 k) = none)
    (htype : c.ipLearnType = .newLocal ∨ c.ipLearnType = .moveR2L ∨ c.ipLearnType = .moveL2L)
    (hfails : ipFails fails pkt k c.ipLearnType = (!pkt.ipAlloc || fails (.localMappingCreate k))) :
    IpOutcome fails pkt k c id (processNewLocalIp fails pkt k { c with db := base }) := by
  have hbaseId : { c with db := base }.vnicObjId pkt = some id := by
    rw [← hid]
    unfold vnicObjId
    rw [hbase.own]
  have hmap : base.localMappings k = none := by
    rw [← Option.not_isSome_iff_eq_none, hbase.agrees.mapping k, hi]
    exact Bool.false_ne_true
  cases halloc : pkt.ipAlloc with
  | false =>
    have hret : processNewLocalIp fails pkt k { c with db := base }
        = (.err, { c with db := base, newIp := c.newIp }) := by
      simp [processNewLocalIp, hbaseId, halloc]
    rw [hret]
    exact .failed (by simp [hfails, halloc]) hbase
  | true =>
    cases hcreate : fails (.localMappingCreate k) with
    | true =>
      have hret : processNewLocalIp fails pkt k { c with db := base }
          = (.err, { c with db := base, newIp := some ⟨id, .learning, 0⟩ }) := by
        simp [processNewLocalIp, hbaseId, halloc, call, Db.localMappingCreate, hcreate]
      rw [hret]
      exact .failed (by simp [hfails, hcreate]) hbase
    | false =>
      have hret : processNewLocalIp fails pkt k { c with db := base }
          = (.ok, ipLearnt pkt k c base id) := by
        simp [processNewLocalIp, hbaseId, halloc, call, Db.localMappingCreate, hcreate,
          hmap, ipLearnt]
      rw [hret]
      exact .learnt (by simp [hfails, halloc, hcreate]) htype hbase hi hremote

/-- **The objects of the IP of a packet.** -/
theorem ipOutcome {newMac : Option MacEntry} {newIp : Option IpEntry} {id : Nat} (h : db.Agrees)
    (hid : vnicObjId pkt ⟨db, macType, ipType, newMac, newIp⟩ = some id)
    (ht : IpType pkt db k ipType) :
    IpOutcome fails pkt k ⟨db, macType, ipType, newMac, newIp⟩ id
      (processIp fails pkt k ⟨db, macType, ipType, newMac, newIp⟩) := by
  cases ht with
  | same hi _ => exact .same rfl rfl hi
  | @moved i hi howner =>
    obtain ⟨owner, e, hk, hmem, -, hfind⟩ := h.macEntryOf hi
    obtain ⟨m, hm⟩ := h.localMapping hi
    have hbase := Based.forget h hk hmem fun heq => howner owner e hk hmem (by rw [heq])
    cases hfails : fails (.localMappingDelete k) with
    | true =>
      have hret : processIp fails pkt k ⟨db, macType, .moveL2L, newMac, newIp⟩
          = (.err, ⟨db, macType, .moveL2L, newMac, newIp⟩) := by
        simp [processIp, processL2lMoveIp, call, Db.localMappingDelete, hfails, andThen_of_ne]
      rw [hret]
      exact .failed (by simp [ipFails, hfails]) (Based.refl h)
    | false =>
      let db1 : Db := { db with localMappings := update db.localMappings k none }
      have hlocal : db.localMappingDelete fails k = (.ok, db1) := by
        simp [Db.localMappingDelete, hfails, hm, db1]
      have hdelete : db1.deleteIpEntry k owner = (.ok, db.forgetIp k owner e) :=
        deleteIpEntry_eq (show db1.macDb owner = some e from hk) hi
      have hret : processIp fails pkt k ⟨db, macType, .moveL2L, newMac, newIp⟩
          = processNewLocalIp fails pkt k
            ⟨db.forgetIp k owner e, macType, .moveL2L, newMac, newIp⟩ := by
        simp [processIp, processL2lMoveIp, call, hlocal, show db1.ipDb k = _ from hi,
          show db1.macEntryOf i = _ from hfind, hdelete]
      rw [hret]
      refine ipOutcome_new hid hbase (update_self ..) (h.ipLocal hi) (by simp) ?_
      simp [ipFails, hfails]
  | remote hi hremote =>
    cases hfails : fails (.remoteMappingDelete (.l3 k)) with
    | true =>
      have hret : processIp fails pkt k ⟨db, macType, .moveR2L, newMac, newIp⟩
          = (.err, ⟨db, macType, .moveR2L, newMac, newIp⟩) := by
        simp [processIp, processR2lMoveIp, call, Db.remoteMappingDelete, hfails, andThen_of_ne]
      rw [hret]
      exact .failed (by simp [ipFails, hfails]) (Based.refl h)
    | false =>
      have hret : processIp fails pkt k ⟨db, macType, .moveR2L, newMac, newIp⟩
          = processNewLocalIp fails pkt k
            ⟨{ db with remoteMappings := update db.remoteMappings (.l3 k) none },
              macType, .moveR2L, newMac, newIp⟩ := by
        simp [processIp, processR2lMoveIp, call, Db.remoteMappingDelete, hfails, hremote]
      rw [hret]
      refine ipOutcome_new hid (Based.deleteRemote h hi) hi (update_self ..) (by simp) ?_
      simp [ipFails, hfails]
  | new hi hremote => exact ipOutcome_new hid (Based.refl h) hi hremote (.inl rfl) rfl

/-! ### The databases -/

variable (pkt) in
/-- The databases after `update_ep_mac`. -/
def putMac (c : PktCtxt) (base : Db) : Db :=
  match c.newMac with
  | none => base
  | some e =>
    { base with
      macDb := update base.macDb pkt.macKey (some { e with state := .created })
      macCount := base.macCount + 1 }

section

variable (c : PktCtxt) (base : Db)

@[simp] theorem putMac_ipDb : (putMac pkt c base).ipDb = base.ipDb := by
  rw [putMac]
  split <;> rfl

@[simp] theorem putMac_vnics : (putMac pkt c base).vnics = base.vnics := by
  rw [putMac]
  split <;> rfl

@[simp] theorem putMac_remoteMappings :
    (putMac pkt c base).remoteMappings = base.remoteMappings := by
  rw [putMac]
  split <;> rfl

/-- Local mappings do not matter to `update_ep_mac`. -/
theorem putMac_mapped (locals : IpKey → Option LocalMapping) :
    putMac pkt c { base with localMappings := locals }
      = { putMac pkt c base with localMappings := locals } := by
  unfold putMac
  split <;> rfl

@[simp] theorem putMac_localMappings : (putMac pkt c base).localMappings = base.localMappings := by
  rw [putMac]
  split <;> rfl

end

variable (pkt db) in
/-- The MAC of a packet is there; `created` is the id of its VNIC if that is new. -/
structure MacReady (c : PktCtxt) (id : Nat) (created : Option Nat) : Prop where
  agrees : c.db.Agrees
  objId : c.vnicObjId pkt = some id
  macDb : c.db.macDb = db.macDb
  ipDb : c.db.ipDb = db.ipDb
  remoteIp : ∀ k, c.db.remoteMappings (.l3 k) = db.remoteMappings (.l3 k)
  vnic : VnicFollows pkt c.db.vnics id ↔ SameEncap pkt db
  /-- An entry that was there has the id. -/
  own : ∀ k e, db.macDb k = some e → (e.vnicObjId = id ↔ k = pkt.macKey)
  /-- The entry is put into the database. -/
  update : ∀ base newIp, updateEpMac pkt { c with db := base, newIp := newIp }
    = (.ok, { c with db := putMac pkt c base, newMac := none, newIp := newIp })
  put : ∀ base, Based pkt c.db base → (putMac pkt c base).Agrees ∧
    (∃ e, (putMac pkt c base).macDb pkt.macKey = some e ∧ e.vnicObjId = id) ∧
    Changes db (putMac pkt c base) created created created
  /-- The entry is destroyed if it is new, but the VNIC stays. -/
  undo : ∀ base newIp, Based pkt c.db base →
    Changes db { c with db := base, newIp := newIp }.reset none created none

theorem MacReady.of_known {vnics : Nat → Option VnicSpec} (h : db.Agrees)
    (htype : macType = .none ∨ macType = .moveL2L) (hk : db.macDb pkt.macKey = some e)
    (hagrees : { db with vnics := vnics }.Agrees)
    (hdom : ∀ id, (vnics id).isSome ↔ (db.vnics id).isSome)
    (hvnic : VnicFollows pkt vnics e.vnicObjId ↔ SameEncap pkt db) :
    MacReady pkt db ⟨{ db with vnics := vnics }, macType, ipType, none, none⟩ e.vnicObjId none := by
  have hchanges : ∀ base, Based pkt { db with vnics := vnics } base →
      Changes db base none none none := by
    intro base hbase
    refine ⟨fun id => ?_, fun id => ?_, fun id => ?_⟩
    · rw [hbase.held id]
      simp [Db.Held]
    · rw [hbase.vnics]
      simpa using hdom id
    · rw [hbase.objIds]
      simp
  exact {
    agrees := hagrees
    objId := by simp [vnicObjId, hk]
    macDb := rfl
    ipDb := rfl
    remoteIp := fun _ => rfl
    vnic := hvnic
    own := fun k' e' hk' => ⟨h.vnicObjId_inj hk' hk, fun heq => by
      rw [heq, hk] at hk'
      rw [some.inj hk']⟩
    update := fun base newIp => by rcases htype with rfl | rfl <;> rfl
    put := fun base hbase =>
      ⟨hbase.agrees, ⟨e, hbase.own.trans hk, rfl⟩, hchanges base hbase⟩
    undo := fun base newIp hbase => hchanges base hbase }

/-- A MAC that is put into the database holds its id. -/
theorem held_put {key : MacKey} {count id : Nat} (hk : db.macDb key = none) :
    { db with macDb := update db.macDb key (some e), macCount := count }.Held id ↔
      db.Held id ∨ e.vnicObjId = id := by
  constructor
  · rintro ⟨k', e', hk', hid⟩
    rcases update_eq_some_iff.mp hk' with ⟨-, heq⟩ | ⟨-, hk'⟩
    · cases heq
      exact .inr hid
    · exact .inl ⟨k', e', hk', hid⟩
  · rintro (⟨k', e', hk', hid⟩ | hid)
    · have hne : k' ≠ key := by
        rintro rfl
        rw [hk] at hk'
        cases hk'
      exact ⟨k', e', (update_of_ne hne ..).trans hk', hid⟩
    · exact ⟨key, e, update_self .., hid⟩

theorem MacReady.of_learnt (h : db.Agrees) {id : Nat}
    (htype : macType = .newLocal ∨ macType = .moveR2L) (hk : db.macDb pkt.macKey = none)
    (hpos : id ≠ 0) (hfree : id ∉ db.vnicObjIds) (hv : db.vnics id = none) :
    MacReady pkt db (macLearnt pkt db macType ipType id) id (some id) := by
  have hvnics : ∀ id', (Function.update db.vnics id (some pkt.vnicSpec) id').isSome ↔
      (db.vnics id').isSome ∨ some id = some id' := by
    intro id'
    by_cases hid : id' = id
    · subst hid
      simp
    · simp [update_of_ne hid, Ne.symm hid]
  have hagrees : (macLearnt pkt db macType ipType id).db.Agrees := by
    refine Agree.setRemoteMac (h.setVnic fun k' e' hk' hid => ?_) hk none
    obtain ⟨v, hv', -⟩ := h.vnic hk'
    exact absurd hid (ne_of_eq_none hv hv')
  refine {
    agrees := hagrees
    objId := rfl
    macDb := rfl
    ipDb := rfl
    remoteIp := fun k => by simp [macLearnt]
    vnic := vnicFollows_update.trans
      (iff_self_and.mpr fun _ e v hk' => nomatch hk.symm.trans hk')
    own := fun k' e' hk' => iff_of_false (fun hid => ?_) (ne_of_eq_none hk hk')
    update := fun base newIp => by rcases htype with rfl | rfl <;> rfl
    put := fun base hbase => ⟨?_, ⟨_, update_self .., rfl⟩, ?_⟩
    undo := fun base newIp hbase => ?_ }
  · obtain ⟨v, hv', -⟩ := h.vnic hk'
    exact absurd hid (ne_of_eq_none hv hv')
  · refine hbase.agrees.learnMac (v := pkt.vnicSpec) (hbase.own.trans hk) ?_ rfl rfl ?_
    · rw [hbase.vnics]
      exact update_self ..
    · rw [hbase.remoteMac]
      exact update_self ..
  · refine ⟨fun id' => ?_, fun id' => ?_, fun id' => ?_⟩
    · refine (held_put (hbase.own.trans hk)).trans ?_
      rw [hbase.held id', some.injEq]
      exact Iff.rfl
    · show (base.vnics id').isSome ↔ _
      rw [hbase.vnics]
      exact hvnics id'
    · show id' ∈ base.vnicObjIds ↔ _
      rw [hbase.objIds]
      simp [macLearnt, or_comm, eq_comm]
  · rw [reset_learning (c := { macLearnt pkt db macType ipType id with db := base, newIp := newIp })
      rfl hpos]
    refine ⟨fun id' => ?_, fun id' => ?_, fun id' => ?_⟩
    · show base.Held id' ↔ _
      rw [hbase.held id']
      simp [Db.Held, macLearnt]
    · show (base.vnics id').isSome ↔ _
      rw [hbase.vnics]
      exact hvnics id'
    · show id' ∈ base.vnicObjIds.erase id ↔ _
      rw [hbase.objIds, macLearnt, Finset.erase_insert hfree]
      simp

/-- Only the lists of IPs have changed. -/
theorem Changes.of_ipLists {db1 db2 : Db} {held vnic objId : Option Nat}
    (h : Changes db db1 held vnic objId) (hheld : ∀ id, db2.Held id ↔ db1.Held id)
    (hvnics : db2.vnics = db1.vnics) (hids : db2.vnicObjIds = db1.vnicObjIds) :
    Changes db db2 held vnic objId where
  held id := (hheld id).trans (h.held id)
  vnics id := by rw [hvnics]; exact h.vnics id
  objIds id := by rw [hids]; exact h.objIds id

/-! ### Where a packet leads -/

variable (subnets pkt db) in
/-- **The database is as a packet says**: its MAC is local, on its interface and with its
encapsulation, its IP is local and linked to that MAC only, and neither is remote. -/
structure Follows : Prop where
  mac : ∃ e, db.macDb pkt.macKey = some e ∧ VnicFollows pkt db.vnics e.vnicObjId
  macLocal : db.remoteMappings (.l2 pkt.macKey) = none
  linked : ∀ ip, pkt.ipAddr = some ip → ∃ i e, db.ipDb (pkt.ipKey subnets ip) = some i ∧
    db.macDb pkt.macKey = some e ∧ pkt.ipKey subnets ip ∈ e.ipList ∧ i.vnicObjId = e.vnicObjId
  only : ∀ ip, pkt.ipAddr = some ip → ∀ k e, db.macDb k = some e →
    pkt.ipKey subnets ip ∈ e.ipList → k = pkt.macKey
  ipLocal : ∀ ip, pkt.ipAddr = some ip → db.remoteMappings (.l3 (pkt.ipKey subnets ip)) = none

variable (pkt db k) in
/-- An IP is not linked to the MAC address of a packet in another subnet, which is not a move. -/
def SameOwner : Prop :=
  ∀ k' e, db.macDb k' = some e → k ∈ e.ipList → k'.macAddr = pkt.macKey.macAddr → k' = pkt.macKey

/-- What follows a packet is linked through VNIC ids. -/
theorem Db.Agrees.follows_iff (h : db.Agrees) (hk : db.macDb pkt.macKey = some e) :
    Follows subnets pkt db ↔ VnicFollows pkt db.vnics e.vnicObjId ∧ ∀ ip, pkt.ipAddr = some ip →
      ∃ i, db.ipDb (pkt.ipKey subnets ip) = some i ∧ i.vnicObjId = e.vnicObjId := by
  constructor
  · rintro ⟨⟨e', hk', hv⟩, -, hlinked, -, -⟩
    cases hk.symm.trans hk'
    refine ⟨hv, fun ip hip => ?_⟩
    obtain ⟨i, e', hi, hk', -, hid⟩ := hlinked ip hip
    cases hk.symm.trans hk'
    exact ⟨i, hi, hid⟩
  · rintro ⟨hv, hlinked⟩
    have hmem : ∀ ip, pkt.ipAddr = some ip → pkt.ipKey subnets ip ∈ e.ipList := by
      intro ip hip
      obtain ⟨i, hi, hid⟩ := hlinked ip hip
      obtain ⟨k', e', hk', hmem, hid'⟩ := h.owner hi
      obtain rfl := h.vnicObjId_inj hk' hk (hid'.trans hid)
      cases hk.symm.trans hk'
      exact hmem
    refine ⟨⟨e, hk, hv⟩, h.macLocal hk, fun ip hip => ?_, fun ip hip k' e' hk' hmem' =>
      h.owner_unique hk' hk hmem' (hmem ip hip), fun ip hip => ?_⟩
    · obtain ⟨i, hi, hid⟩ := hlinked ip hip
      exact ⟨i, e, hi, hk, hmem ip hip, hid⟩
    · obtain ⟨i, hi, -⟩ := hlinked ip hip
      exact h.ipLocal hi

/-- An IP that is not moved is linked to the MAC of the packet if no other owns it. -/
theorem MacReady.sameOwner {c : PktCtxt} {id : Nat} {created : Option Nat}
    (h : MacReady pkt db c id created) (h0 : db.Agrees) (ht : IpType pkt db k ipType) :
    (ipType = .none ∧ ∃ i, db.ipDb k = some i ∧ (i.vnicObjId = id ↔ SameOwner pkt db k)) ∨
      (ipType ≠ .none ∧ SameOwner pkt db k) := by
  have hfree : db.ipDb k = none → SameOwner pkt db k := by
    intro hi k' e hk' hmem
    obtain ⟨i, hi', -⟩ := h0.listed hk' hmem
    exact absurd rfl (ne_of_eq_none hi hi')
  cases ht with
  | @same i hi howner =>
    obtain ⟨k', e, hk', hmem, hid⟩ := h0.owner hi
    refine .inl ⟨rfl, i, hi, ?_⟩
    rw [← hid, h.own k' e hk']
    refine ⟨fun heq k'' e'' hk'' hmem'' _ => ?_, fun h => h k' e hk' hmem (howner k' e hk' hmem)⟩
    rw [← heq, h0.owner_unique hk' hk'' hmem hmem'']
  | moved hi howner =>
    exact .inr ⟨by simp, fun k' e hk' hmem heq => absurd heq (howner k' e hk' hmem)⟩
  | remote hi => exact .inr ⟨by simp, hfree hi⟩
  | new hi => exact .inr ⟨by simp, hfree hi⟩

variable (subnets pkt db) in
/-- What a packet comes to, after its MAC is there. -/
structure PktOutcome (created : Option Nat) (failed : Bool) (r : Ret × Db) : Prop where
  sound : Sound r
  changes : Changes db r.2 (if failed then none else created) created
    (if failed then none else created)
  follows : r.1 = .ok → (Follows subnets pkt r.2 ↔ SameEncap pkt db ∧
    ∀ ip, pkt.ipAddr = some ip → SameOwner pkt db (pkt.ipKey subnets ip))

section

variable {c : PktCtxt} {id ip : Nat} {created : Option Nat} (h : MacReady pkt db c id created)
include h

theorem MacReady.updateEp_mac (hip : pkt.ipAddr = none) : updateEp subnets pkt c
    = (.ok, { c with db := putMac pkt c c.db, newMac := none, newIp := c.newIp }) := by
  have hupdate := h.update c.db c.newIp
  rw [updateEp, hip, hupdate]
  rfl

theorem MacReady.updateEp_same (hip : pkt.ipAddr = some ip) (htype : c.ipLearnType = .none)
    {i : IpEntry} (hi : c.db.ipDb (pkt.ipKey subnets ip) = some i) : updateEp subnets pkt c
    = (.ok, { c with
        db := { putMac pkt c c.db with
          ipDb := Function.update c.db.ipDb (pkt.ipKey subnets ip)
            (some { i with state := .created }) }
        newMac := none }) := by
  rw [updateEp, hip, h.update c.db c.newIp]
  simp [updateEpIp, htype, hi]

variable (subnets pkt) in
/-- The databases after an IP is learnt on the MAC entry `e`. -/
def putIp (c : PktCtxt) (base : Db) (id ip : Nat) (e : MacEntry) : Db :=
  { putMac pkt c base with
    macDb := update (putMac pkt c base).macDb pkt.macKey
      (some { e with ipList := pkt.ipKey subnets ip :: e.ipList })
    ipDb := update base.ipDb (pkt.ipKey subnets ip) (some ⟨id, .created, 0⟩)
    ipCount := (putMac pkt c base).ipCount + 1
    localMappings := update base.localMappings (pkt.ipKey subnets ip) (some ⟨id, pkt.macKey⟩) }

theorem MacReady.updateEp_learnt {base : Db} (hip : pkt.ipAddr = some ip)
    (htype : c.ipLearnType = .newLocal ∨ c.ipLearnType = .moveR2L ∨ c.ipLearnType = .moveL2L)
    (hk : (putMac pkt c base).macDb pkt.macKey = some e) :
    updateEp subnets pkt (ipLearnt pkt (pkt.ipKey subnets ip) c base id)
      = (.ok, { c with db := putIp subnets pkt c base id ip e, newMac := none, newIp := none }) := by
  rw [updateEp, hip, ipLearnt, h.update, putMac_mapped]
  rcases htype with htype | htype | htype <;>
    simp [updateEpIp, htype, addIp, hk, putIp]

/-- A packet without an IP. -/
theorem MacReady.pktOutcome_mac (hip : pkt.ipAddr = none) : PktOutcome subnets pkt db created false
    ((updateEp subnets pkt c).1, (updateEp subnets pkt c).2.reset) := by
  obtain ⟨hagrees, ⟨e, hk, hid⟩, hchanges⟩ := h.put c.db (Based.refl h.agrees)
  rw [h.updateEp_mac hip]
  refine ⟨sound_of (r := .ok) (by decide) hagrees, hchanges, fun _ => ?_⟩
  show Follows subnets pkt (putMac pkt c c.db) ↔ _
  rw [hagrees.follows_iff hk, hid, putMac_vnics, h.vnic]
  simp [hip]

variable (h0 : db.Agrees)
include h0

theorem MacReady.follows_iff (hip : pkt.ipAddr = some ip)
    (ht : IpType pkt db (pkt.ipKey subnets ip) c.ipLearnType) (hagrees : db'.Agrees)
    (hk : db'.macDb pkt.macKey = some e) (hid : e.vnicObjId = id) (hv : db'.vnics = c.db.vnics)
    {i : IpEntry} (hi : db'.ipDb (pkt.ipKey subnets ip) = some i)
    (hmoved : c.ipLearnType ≠ .none → i.vnicObjId = id)
    (hsame : c.ipLearnType = .none →
      ∀ j, db.ipDb (pkt.ipKey subnets ip) = some j → i.vnicObjId = j.vnicObjId) :
    Follows subnets pkt db' ↔ SameEncap pkt db ∧
      ∀ ip, pkt.ipAddr = some ip → SameOwner pkt db (pkt.ipKey subnets ip) := by
  rw [hagrees.follows_iff hk, hid, hv, h.vnic]
  simp only [hip, some.injEq, forall_eq', hi, exists_eq_left']
  rcases h.sameOwner h0 ht with ⟨htype, j, hj, hiff⟩ | ⟨htype, hown⟩
  · rw [hsame htype j hj, hiff]
  · simp [hmoved htype, hown]

/-- A packet with an IP. -/
theorem MacReady.pktOutcome_ip {r : Ret × PktCtxt} (hip : pkt.ipAddr = some ip)
    (ht : IpType pkt db (pkt.ipKey subnets ip) c.ipLearnType)
    (hr : IpOutcome fails pkt (pkt.ipKey subnets ip) c id r) :
    PktOutcome subnets pkt db created (ipFails fails pkt (pkt.ipKey subnets ip) c.ipLearnType)
      ((andThen r (updateEp subnets pkt)).1, (andThen r (updateEp subnets pkt)).2.reset) := by
  cases hr with
  | @failed base newIp hfails hbase =>
    rw [andThen_of_ne (by simp), hfails]
    exact ⟨sound_of (r := .err) (by decide) hbase.agrees.reset, h.undo base newIp hbase, nofun⟩
  | @same i hok htype hi =>
    obtain ⟨hagrees, ⟨e, hk, hid⟩, hchanges⟩ := h.put c.db (Based.refl h.agrees)
    rw [andThen_ok, h.updateEp_same hip htype hi, hok]
    have hsound : Db.Agrees { putMac pkt c c.db with
        ipDb := Function.update c.db.ipDb (pkt.ipKey subnets ip)
          (some { i with state := .created }) } := by
      have hi' : (putMac pkt c c.db).ipDb (pkt.ipKey subnets ip) = some i := by
        rw [putMac_ipDb, hi]
      show Agree _ (Function.update c.db.ipDb _ _) _ _ _
      rw [← putMac_ipDb]
      exact hagrees.setIp hi' rfl
    refine ⟨sound_of (r := .ok) (by decide) hsound,
      hchanges.of_ipLists (fun _ => Iff.rfl) rfl rfl, fun _ =>
      h.follows_iff h0 hip ht hsound hk hid (putMac_vnics ..) (update_self ..)
        (absurd htype) fun _ j hj => ?_⟩
    rw [← h.ipDb, hi] at hj
    rw [← some.inj hj]
  | @learnt base hok htype hbase hi hremote =>
    obtain ⟨hagrees, ⟨e, hk, hid⟩, hchanges⟩ := h.put base hbase
    rw [andThen_ok, h.updateEp_learnt hip htype hk, hok]
    have hsound : (putIp subnets pkt c base id ip e).Agrees := by
      have hi' : (putMac pkt c base).ipDb (pkt.ipKey subnets ip) = none := by
        rw [putMac_ipDb, hi]
      have hlearn := hagrees.learnIp (m := ⟨id, pkt.macKey⟩) (i := ⟨id, .created, 0⟩) hk hi'
        hid.symm (by rw [putMac_remoteMappings, hremote])
      rw [putMac_ipDb, putMac_localMappings] at hlearn
      exact hlearn
    refine ⟨sound_of (r := .ok) (by decide) hsound,
      hchanges.of_ipLists (fun _ => held_of_update hk rfl rfl) rfl rfl, fun _ =>
      h.follows_iff h0 hip ht hsound (update_self ..) hid ((putMac_vnics ..).trans hbase.vnics)
        (update_self ..) (fun _ => rfl) fun hnone => ?_⟩
    rw [hnone] at htype
    simp at htype

end

/-! ### A packet -/

theorem IpType.congr (h : IpType pkt db k ipType) (hmac : db'.macDb = db.macDb)
    (hip : db'.ipDb = db.ipDb)
    (hremote : ∀ k, db'.remoteMappings (.l3 k) = db.remoteMappings (.l3 k)) :
    IpType pkt db' k ipType := by
  cases h with
  | same hi howner => exact .same ((congrFun hip k).trans hi) (by rwa [hmac])
  | moved hi howner => exact .moved ((congrFun hip k).trans hi) (by rwa [hmac])
  | remote hi hr => exact .remote ((congrFun hip k).trans hi) ((hremote k).trans hr)
  | new hi hr => exact .new ((congrFun hip k).trans hi) ((hremote k).trans hr)

variable (subnets fails pkt) in
/-- Whether a call for the IP of a packet fails, if it has one. -/
def pktFails (ipType : LearnType) : Bool :=
  match pkt.ipAddr with
  | none => false
  | some ip => ipFails fails pkt (pkt.ipKey subnets ip) ipType

variable (subnets fails pkt db) in
/-- **The packets that leave a VNIC behind**: the VNIC of a new MAC is created, and then a call
for the IP fails. -/
def LeavesVnic : Prop :=
  ∃ macType ipType, extractLearnInfo subnets pkt db = some (macType, ipType) ∧
    validateLearn subnets pkt db macType ipType = true ∧
    macCreated fails pkt db macType = true ∧ pktFails subnets fails pkt ipType = true

variable (fails) in
/-- A packet, after its MAC is there. -/
theorem MacReady.pktOutcome {c : PktCtxt} {id : Nat} {created : Option Nat}
    (h : MacReady pkt db c id created) (h0 : db.Agrees)
    (ht : ∀ ip, pkt.ipAddr = some ip → IpType pkt db (pkt.ipKey subnets ip) c.ipLearnType) :
    let r := andThen (match pkt.ipAddr with
      | none => (.ok, c)
      | some ip => processIp fails pkt (pkt.ipKey subnets ip) c) (updateEp subnets pkt)
    PktOutcome subnets pkt db created (pktFails subnets fails pkt c.ipLearnType)
      (r.1, r.2.reset) := by
  intro r
  cases hip : pkt.ipAddr with
  | none =>
    rw [show r = updateEp subnets pkt c by simp only [r, hip, andThen_ok], pktFails, hip]
    exact h.pktOutcome_mac hip
  | some ip =>
    have hout : IpOutcome fails pkt (pkt.ipKey subnets ip) c id
        (processIp fails pkt (pkt.ipKey subnets ip) c) :=
      ipOutcome h.agrees h.objId ((ht ip hip).congr h.macDb h.ipDb h.remoteIp)
    simp only [r, hip, pktFails]
    exact h.pktOutcome_ip h0 hip (ht ip hip) hout

theorem extractLearnInfo_of_agrees (h : db.Agrees) :
    ∃ macType ipType, extractLearnInfo subnets pkt db = some (macType, ipType) ∧
      detectMac pkt db = some macType ∧
      ∀ ip, pkt.ipAddr = some ip → IpType pkt db (pkt.ipKey subnets ip) ipType := by
  obtain ⟨macType, hmac⟩ : ∃ macType, detectMac pkt db = some macType := by
    cases hk : db.macDb pkt.macKey with
    | none => exact ⟨_, by rw [detectMac, hk]⟩
    | some e =>
      obtain ⟨v, hv, -⟩ := h.vnic hk
      exact ⟨_, by simp only [detectMac, hk, hv, bind_eq_bind, bind_some]; rfl⟩
  cases hip : pkt.ipAddr with
  | none =>
    refine ⟨macType, .invalid, by simp [extractLearnInfo, hmac, hip], hmac, ?_⟩
    rintro ip ⟨⟩
  | some ip =>
    obtain ⟨ipType, ht⟩ : ∃ ipType, detectIp pkt db (pkt.ipKey subnets ip) = some ipType := by
      cases hi : db.ipDb (pkt.ipKey subnets ip) with
      | none => exact ⟨_, by rw [detectIp, hi]⟩
      | some i =>
        obtain ⟨k', e, -, -, -, howner⟩ := h.macEntryOf hi
        exact ⟨_, by
          simp only [detectIp, hi, howner, bind_eq_bind, bind_some]; rfl⟩
    refine ⟨macType, ipType, by simp [extractLearnInfo, hmac, hip, ht], hmac, ?_⟩
    rintro ip ⟨⟩
    exact ipType_of_detectIp h ht

/-- **What a packet does**, whichever of its calls fail. -/
theorem pktOutcome (h : db.Agrees) :
    Sound (processLearnPkt subnets fails pkt db) ∧
    ((processLearnPkt subnets fails pkt db).1 = .ok →
      (Follows subnets pkt (processLearnPkt subnets fails pkt db).2 ↔ SameEncap pkt db ∧
        ∀ ip, pkt.ipAddr = some ip → SameOwner pkt db (pkt.ipKey subnets ip))) ∧
    (¬ LeavesVnic subnets fails pkt db ∧
        (∃ o, Changes db (processLearnPkt subnets fails pkt db).2 o o o) ∨
      LeavesVnic subnets fails pkt db ∧ ∃ id, id ∉ db.vnicObjIds ∧
        Changes db (processLearnPkt subnets fails pkt db).2 none (some id) none) := by
  obtain ⟨macType, ipType, hextract, hmac, ht⟩ := @extractLearnInfo_of_agrees subnets pkt db h
  have hleaves : LeavesVnic subnets fails pkt db ↔
      validateLearn subnets pkt db macType ipType = true ∧
      macCreated fails pkt db macType = true ∧ pktFails subnets fails pkt ipType = true := by
    simp [LeavesVnic, hextract]
  rw [hleaves]
  cases hvalid : validateLearn subnets pkt db macType ipType with
  | false =>
    rw [show processLearnPkt subnets fails pkt db = (.err, db) by
      simp [processLearnPkt, hextract, hvalid]]
    exact ⟨sound_of (by decide) h, nofun, .inl ⟨by simp, none, Changes.of_eq rfl rfl rfl⟩⟩
  | true =>
    rw [show processLearnPkt subnets fails pkt db =
        let r := andThen (processLearn subnets fails pkt ⟨db, macType, ipType, none, none⟩)
          (updateEp subnets pkt)
        (r.1, r.2.reset) by simp [processLearnPkt, hextract, hvalid], processLearn]
    have hout := @macOutcome fails pkt db macType ipType h hmac
    generalize processMac fails pkt ⟨db, macType, ipType, none, none⟩ = m at hout
    cases hout with
    | failed hnot hagrees hsame =>
      exact ⟨sound_of (r := .err) (by decide) hagrees, nofun, .inl ⟨by simp [hnot], none, hsame⟩⟩
    | known hnot htype hk hagrees hdom hvnic =>
      obtain ⟨hsound, hchanges, hfollows⟩ :=
        (MacReady.of_known h htype hk hagrees hdom hvnic).pktOutcome fails h ht
      rw [ite_self] at hchanges
      exact ⟨hsound, hfollows, .inl ⟨by simp [hnot], none, hchanges⟩⟩
    | learnt hcreated htype hk hpos hfree hv =>
      obtain ⟨hsound, hchanges, hfollows⟩ :=
        (MacReady.of_learnt h htype hk hpos hfree hv).pktOutcome fails h ht
      refine ⟨hsound, hfollows, ?_⟩
      cases hfails : pktFails subnets fails pkt ipType with
      | false =>
        rw [show (macLearnt pkt db macType ipType _).ipLearnType = ipType from rfl, hfails]
          at hchanges
        exact .inl ⟨by simp, _, hchanges⟩
      | true =>
        rw [show (macLearnt pkt db macType ipType _).ipLearnType = ipType from rfl, hfails]
          at hchanges
        exact .inr ⟨⟨rfl, hcreated, rfl⟩, _, hfree, hchanges⟩

end Packets

end NicSw.Learn
