/-
What it means that the endpoint databases and the objects agree, and the changes that
keep them in agreement.

Moves and deletions change the databases and the objects in different orders, so the
invariant is broken in the middle of a packet or call.  The proofs first say what each
change as a whole does to a consistent state (`learnMac`, `learnIp`, `forgetIp`,
`forgetMac`), and then that a packet, call, timeout or clear comes to such changes.

VNIC ids are freed twice, once when a MAC entry is deleted and again when it is freed, so
an id may be given out while it is in use.  That does not break the invariant: the VNIC
with that id exists, and `pds_vnic_create` fails.
-/
import NicSw.Learn.Process

namespace NicSw.Learn

open Function

/-! ### The invariant -/

/-- What a map holds after an update. -/
theorem update_eq_some_iff {α β : Type*} [DecidableEq α] {f : α → Option β} {a x : α}
    {o : Option β} {b : β} :
    update f a o x = some b ↔ x = a ∧ o = some b ∨ x ≠ a ∧ f x = some b := by
  by_cases h : x = a
  · subst h
    simp
  · simp [h]

section Update

variable {α β : Type*} {P : α → β → Prop} {f : α → Option β} {a : α}

theorem ne_of_eq_none {x : α} {b : β} (ha : f a = none) (hx : f x = some b) : x ≠ a := by
  rintro rfl
  rw [ha] at hx
  cases hx

variable [DecidableEq α] (hf : ∀ {x y}, f x = some y → P x y)
include hf

/-- What holds of the entries of a map and of a new one holds after the update. -/
theorem forall_update {b : β} (hb : P a b) :
    ∀ {x y}, update f a (some b) x = some y → P x y := by
  intro x y hx
  rcases update_eq_some_iff.mp hx with ⟨rfl, heq⟩ | ⟨-, hx⟩
  · cases heq
    exact hb
  · exact hf hx

theorem forall_update_none : ∀ {x y}, update f a none x = some y → P x y := by
  intro x y hx
  rcases update_eq_some_iff.mp hx with ⟨-, heq⟩ | ⟨-, hx⟩
  · cases heq
  · exact hf hx

end Update

section Changes

variable {macDb : MacKey → Option MacEntry} {ipDb : IpKey → Option IpEntry}
  {vnics : Nat → Option VnicSpec} {locals : IpKey → Option LocalMapping}
  {remotes : MappingKey → Option RemoteSpec}

variable (macDb ipDb vnics locals remotes) in
/-- **Consistency**, as it is kept. -/
structure Agree : Prop where
  /-- A MAC has its VNIC. -/
  vnic : ∀ {k e}, macDb k = some e → ∃ v, vnics e.vnicObjId = some v ∧ v.macKey = k
  /-- An IP is on the list of a MAC with the same VNIC id. -/
  owner : ∀ {ip i}, ipDb ip = some i →
    ∃ k e, macDb k = some e ∧ ip ∈ e.ipList ∧ e.vnicObjId = i.vnicObjId
  /-- The IPs on the list of a MAC have its VNIC id. -/
  listed : ∀ {k e ip}, macDb k = some e → ip ∈ e.ipList →
    ∃ i, ipDb ip = some i ∧ i.vnicObjId = e.vnicObjId
  nodup : ∀ {k e}, macDb k = some e → e.ipList.Nodup
  mapping : ∀ ip, (locals ip).isSome ↔ (ipDb ip).isSome
  macLocal : ∀ {k e}, macDb k = some e → remotes (.l2 k) = none
  ipLocal : ∀ {ip i}, ipDb ip = some i → remotes (.l3 ip) = none

variable {k k' : MacKey} {e e' : MacEntry} {ip : IpKey} {i : IpEntry}

section

variable (h : Agree macDb ipDb vnics locals remotes) (hk : macDb k = some e) (hk' : macDb k' = some e')
include h hk hk'

/-- VNIC ids of MACs are distinct. -/
theorem Agree.vnicObjId_inj (heq : e.vnicObjId = e'.vnicObjId) : k = k' := by
  obtain ⟨v, hv, rfl⟩ := h.vnic hk
  obtain ⟨v', hv', rfl⟩ := h.vnic hk'
  rw [heq, hv'] at hv
  cases hv
  rfl

/-- An IP is on one list only. -/
theorem Agree.owner_unique (hip : ip ∈ e.ipList) (hip' : ip ∈ e'.ipList) : k = k' := by
  obtain ⟨i, hi, hid⟩ := h.listed hk hip
  obtain ⟨i', hi', hid'⟩ := h.listed hk' hip'
  rw [hi] at hi'
  cases hi'
  exact h.vnicObjId_inj hk hk' (hid.symm.trans hid')

end

/-! ### Changes -/

section

variable (h : Agree macDb ipDb vnics locals remotes)
include h

/-- A VNIC is created or updated; a MAC that has the id is that of the VNIC. -/
theorem Agree.setVnic {id : Nat} {spec : VnicSpec}
    (hid : ∀ k e, macDb k = some e → e.vnicObjId = id → spec.macKey = k) :
    Agree macDb ipDb (update vnics id (some spec)) locals remotes := { h with
  vnic := by
    intro k e hk
    obtain ⟨v, hv, hkey⟩ := h.vnic hk
    by_cases heq : e.vnicObjId = id
    · exact ⟨spec, by rw [heq, update_self], hid k e hk heq⟩
    · exact ⟨v, by rw [update_of_ne heq, hv], hkey⟩ }

/-- The remote mapping of a MAC that is not local is set. -/
theorem Agree.setRemoteMac (hk : macDb k = none) (spec : Option RemoteSpec) :
    Agree macDb ipDb vnics locals (update remotes (.l2 k) spec) := { h with
  macLocal := by
    intro k1 e1 hk1
    have hne : MappingKey.l2 k1 ≠ .l2 k := fun heq =>
      ne_of_eq_none hk hk1 (MappingKey.l2.inj heq)
    rw [update_of_ne hne, h.macLocal hk1]
  ipLocal := by
    intro ip i hi
    rw [update_of_ne (by simp), h.ipLocal hi] }

/-- The remote mapping of an IP that is not local is set. -/
theorem Agree.setRemoteIp (hip : ipDb ip = none) (spec : Option RemoteSpec) :
    Agree macDb ipDb vnics locals (update remotes (.l3 ip) spec) := { h with
  macLocal := by
    intro k e hk
    rw [update_of_ne (by simp), h.macLocal hk]
  ipLocal := by
    intro ip1 i1 hi1
    have hne : MappingKey.l3 ip1 ≠ .l3 ip := fun heq =>
      ne_of_eq_none hip hi1 (MappingKey.l3.inj heq)
    rw [update_of_ne hne, h.ipLocal hi1] }

/-- The state of an IP changes. -/
theorem Agree.setIp {i' : IpEntry} (hi : ipDb ip = some i) (hid : i'.vnicObjId = i.vnicObjId) :
    Agree macDb (update ipDb ip (some i')) vnics locals remotes := { h with
  owner := forall_update @h.owner (hid ▸ h.owner hi)
  listed := by
    intro k e ip1 hk hmem
    obtain ⟨i1, hi1, hid1⟩ := h.listed hk hmem
    by_cases hip : ip1 = ip
    · subst hip
      rw [hi] at hi1
      cases hi1
      exact ⟨i', update_self .., hid.trans hid1⟩
    · exact ⟨i1, update_eq_some_iff.mpr (.inr ⟨hip, hi1⟩), hid1⟩
  mapping ip1 := by
    rw [h.mapping]
    by_cases hip : ip1 = ip
    · subst hip
      simp [hi]
    · rw [update_of_ne hip]
  ipLocal := forall_update @h.ipLocal (h.ipLocal hi) }

/-- **A MAC is learnt**: its VNIC is there. -/
theorem Agree.learnMac {v : VnicSpec}
    (hk : macDb k = none) (hv : vnics e.vnicObjId = some v) (hkey : v.macKey = k)
    (hlist : e.ipList = []) (hremote : remotes (.l2 k) = none) :
    Agree (update macDb k (some e)) ipDb vnics locals remotes := { h with
  vnic := forall_update @h.vnic ⟨v, hv, hkey⟩
  owner := by
    intro ip i hi
    obtain ⟨k1, e1, hk1, hmem, hid⟩ := h.owner hi
    exact ⟨k1, e1, update_eq_some_iff.mpr (.inr ⟨ne_of_eq_none hk hk1, hk1⟩), hmem, hid⟩
  listed := by
    intro k1 e1 ip hk1 hmem
    rcases update_eq_some_iff.mp hk1 with ⟨rfl, heq⟩ | ⟨-, hk1⟩
    · cases heq
      simp [hlist] at hmem
    · exact h.listed hk1 hmem
  nodup := forall_update @h.nodup (by simp [hlist])
  macLocal := forall_update @h.macLocal hremote }

/-- The list of a MAC changes by one IP, together with the IP and its mapping. -/
theorem Agree.setIpList {l : List IpKey} {oi : Option IpEntry} {om : Option LocalMapping}
    (hk : macDb k = some e) (hnodup : l.Nodup)
    (hmem : ∀ ip1, ip1 ≠ ip → (ip1 ∈ l ↔ ip1 ∈ e.ipList)) (hsome : ip ∈ l → oi.isSome)
    (hnew : ∀ i, oi = some i → ip ∈ l ∧ i.vnicObjId = e.vnicObjId ∧ remotes (.l3 ip) = none)
    (hother : ∀ {k1 e1}, k1 ≠ k → macDb k1 = some e1 → ip ∉ e1.ipList)
    (hmap : om.isSome ↔ oi.isSome) :
    Agree (update macDb k (some { e with ipList := l })) (update ipDb ip oi) vnics
      (update locals ip om) remotes where
  vnic hk1 := by
    have hold := h.vnic hk
    exact forall_update @h.vnic (by exact hold) hk1
  owner := by
    intro ip1 i1 hi1
    rcases update_eq_some_iff.mp hi1 with ⟨rfl, heq⟩ | ⟨hne, hi1⟩
    · obtain ⟨hin, hid, -⟩ := hnew i1 heq
      exact ⟨k, _, update_self .., hin, hid.symm⟩
    obtain ⟨k1, e1, hk1, hin, hid1⟩ := h.owner hi1
    by_cases heq : k1 = k
    · subst heq
      rw [hk] at hk1
      cases hk1
      exact ⟨k1, _, update_self .., (hmem ip1 hne).mpr hin, hid1⟩
    · exact ⟨k1, e1, update_eq_some_iff.mpr (.inr ⟨heq, hk1⟩), hin, hid1⟩
  listed := by
    intro k1 e1 ip1 hk1 hin
    -- an IP that was listed is another one
    have hold : ∀ {k1 e1}, macDb k1 = some e1 → ip1 ∈ e1.ipList → ip1 ≠ ip →
        ∃ i1, update ipDb ip oi ip1 = some i1 ∧ i1.vnicObjId = e1.vnicObjId := by
      intro k1 e1 hk1 hin hne
      obtain ⟨i1, hi1, hid1⟩ := h.listed hk1 hin
      exact ⟨i1, update_eq_some_iff.mpr (.inr ⟨hne, hi1⟩), hid1⟩
    rcases update_eq_some_iff.mp hk1 with ⟨rfl, heq⟩ | ⟨hne, hk1⟩
    · cases heq
      by_cases hip : ip1 = ip
      · subst hip
        obtain ⟨i, hi⟩ := Option.isSome_iff_exists.mp (hsome hin)
        exact ⟨i, (update_self ..).trans hi, (hnew i hi).2.1⟩
      · have hlisted := hold hk ((hmem ip1 hip).mp hin) hip
        exact hlisted
    · refine hold hk1 hin ?_
      rintro rfl
      exact hother hne hk1 hin
  nodup := forall_update @h.nodup hnodup
  mapping ip1 := by
    by_cases heq : ip1 = ip
    · subst heq
      rw [update_self, update_self]
      exact hmap
    · rw [update_of_ne heq, update_of_ne heq, h.mapping]
  macLocal := forall_update @h.macLocal (h.macLocal hk)
  ipLocal := by
    intro ip1 i1 hi1
    rcases update_eq_some_iff.mp hi1 with ⟨rfl, heq⟩ | ⟨-, hi1⟩
    · exact (hnew i1 heq).2.2
    · exact h.ipLocal hi1

/-- **An IP is learnt** on a MAC, with its mapping. -/
theorem Agree.learnIp {m : LocalMapping}
    (hk : macDb k = some e) (hip : ipDb ip = none) (hid : i.vnicObjId = e.vnicObjId)
    (hremote : remotes (.l3 ip) = none) :
    Agree (update macDb k (some { e with ipList := ip :: e.ipList }))
      (update ipDb ip (some i)) vnics (update locals ip (some m)) remotes := by
  have hnot : ∀ {k1 e1}, macDb k1 = some e1 → ip ∉ e1.ipList := by
    intro k1 e1 hk1 hin
    obtain ⟨i1, hi1, -⟩ := h.listed hk1 hin
    exact ne_of_eq_none hip hi1 rfl
  refine h.setIpList hk (List.nodup_cons.mpr ⟨hnot hk, h.nodup hk⟩) (fun ip1 hne => by simp [hne])
    (fun _ => rfl) (fun i1 hi1 => ?_) (fun _ hk1 => hnot hk1) (by simp)
  cases hi1
  exact ⟨List.mem_cons_self, hid, hremote⟩

/-- **An IP is forgotten**, with its mapping. -/
theorem Agree.forgetIp (hk : macDb k = some e) (hip : ip ∈ e.ipList) :
    Agree (update macDb k (some { e with ipList := e.ipList.filter (· ≠ ip) }))
      (update ipDb ip none) vnics (update locals ip none) remotes :=
  h.setIpList hk ((h.nodup hk).filter _) (fun ip1 hne => by simp [hne]) (fun hin => by simp at hin)
    nofun (fun hne hk1 hin => hne (h.owner_unique hk1 hk hin hip)) (by simp)

end

/-- A map without some keys. -/
def without {α β : Type*} [DecidableEq α] (f : α → Option β) (l : List α) (x : α) : Option β :=
  if x ∈ l then none else f x

theorem without_eq_some_iff {α β : Type*} [DecidableEq α] {f : α → Option β} {l : List α} {x : α}
    {b : β} : without f l x = some b ↔ x ∉ l ∧ f x = some b := by
  by_cases h : x ∈ l <;> simp [without, h]

/-- **A MAC is forgotten**, with its VNIC and its IPs and their mappings. -/
theorem Agree.forgetMac (h : Agree macDb ipDb vnics locals remotes) (hk : macDb k = some e) :
    Agree (update macDb k none) (without ipDb e.ipList)
      (update vnics e.vnicObjId none) (without locals e.ipList) remotes where
  vnic := by
    intro k1 e1 hk1
    rcases update_eq_some_iff.mp hk1 with ⟨-, heq⟩ | ⟨hne, hk1⟩
    · cases heq
    · obtain ⟨v, hv, hkey⟩ := h.vnic hk1
      have hid : e1.vnicObjId ≠ e.vnicObjId := fun heq => hne (h.vnicObjId_inj hk1 hk heq)
      exact ⟨v, update_eq_some_iff.mpr (.inr ⟨hid, hv⟩), hkey⟩
  owner := by
    intro ip i hi
    obtain ⟨hnot, hi⟩ := without_eq_some_iff.mp hi
    obtain ⟨k1, e1, hk1, hmem, hid⟩ := h.owner hi
    have hne : k1 ≠ k := by
      rintro rfl
      rw [hk] at hk1
      cases hk1
      exact hnot hmem
    exact ⟨k1, e1, update_eq_some_iff.mpr (.inr ⟨hne, hk1⟩), hmem, hid⟩
  listed := by
    intro k1 e1 ip hk1 hmem
    rcases update_eq_some_iff.mp hk1 with ⟨-, heq⟩ | ⟨hne, hk1⟩
    · cases heq
    · obtain ⟨i, hi, hid⟩ := h.listed hk1 hmem
      have hnot : ip ∉ e.ipList := fun hin => hne (h.owner_unique hk1 hk hmem hin)
      exact ⟨i, without_eq_some_iff.mpr ⟨hnot, hi⟩, hid⟩
  nodup := forall_update_none @h.nodup
  mapping ip := by
    by_cases hin : ip ∈ e.ipList
    · simp [without, hin]
    · simpa [without, hin] using h.mapping ip
  macLocal := forall_update_none @h.macLocal
  ipLocal hi := h.ipLocal (without_eq_some_iff.mp hi).2

end Changes

end NicSw.Learn
