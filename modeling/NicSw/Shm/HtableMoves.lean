/-
The moves a table is changed by, each with what it does to the chains, to the
references handed out and to the map.
-/
import NicSw.Shm.HtableInv

namespace NicSw.Shm

open Function List

variable {t t' : HTable} {i j off curr : Nat} {key : Key} {e e' : HtEntry}
variable {chain : Nat → List Nat} {refs refs' : Nat → Nat}
variable {abs abs' : Key → Option (Nat × List UInt8)} {l l1 l2 : List Nat}

theorem next_eq (he : t.mem off = some e) : t.next off = e.nextEntry := by
  simp [HTable.next, he]

/-! ### Changing an entry in place -/

/-- **Rule for a change of one entry** that is not relinked.  If it is linked, it keeps its key
and its link. -/
theorem TblInv.set (h : TblInv t chain refs abs) (oe : Option HtEntry) (r : Nat)
    (hkept : Linked chain off → ∃ e e', t.mem off = some e ∧ oe = some e' ∧ e'.key = e.key ∧
      e'.nextEntry = e.nextEntry ∧ abs' e.key = some (off, e'.value))
    (hok : ∀ e', oe = some e' → off ≠ 0 ∧ EntryOk e' r (Linked chain off))
    (hdead : oe = none → r = 0)
    (hother : ∀ k, (∀ e, Linked chain off → t.mem off = some e → k ≠ e.key) → abs' k = abs k) :
    TblInv { t with mem := update t.mem off oe } chain (update refs off r) abs' := by
  refine ⟨⟨h.shape.pos, h.shape.perTablet, h.shape.cover, h.shape.tablets⟩, ?_, h.outside,
    h.nodup, ?_, ?_, ?_, ?_, h.numEntries⟩
  · intro i hi
    refine (h.chains i hi).congr fun x hx => ?_
    show ((update t.mem off oe x).map HtEntry.nextEntry).getD 0 = t.next x
    rcases eq_or_ne x off with rfl | hne
    · obtain ⟨e, e', he, rfl, -, hnext, -⟩ := hkept ⟨i, hx⟩
      rw [update_self, next_eq he]
      exact hnext
    · rw [update_of_ne hne, HTable.next]
  · intro i x hx
    rcases eq_or_ne x off with rfl | hne
    · obtain ⟨e, e', he, rfl, hkey, -, habs⟩ := hkept ⟨i, hx⟩
      exact ⟨e', update_self .., hkey ▸ h.idx_eq hx he, hkey ▸ habs⟩
    · obtain ⟨e, he, hidx, habs⟩ := h.linked i x hx
      refine ⟨e, (update_of_ne hne ..).trans he, hidx, ?_⟩
      rw [hother _ fun e' hl he' heq => hne (h.unique ⟨i, hx⟩ hl he he' heq)]
      exact habs
  · intro x e hx
    rcases eq_or_ne x off with rfl | hne
    · rw [update_self]
      exact hok e ((update_self x oe t.mem).symm.trans hx)
    · rw [update_of_ne hne]
      exact h.entry x e ((update_of_ne hne oe t.mem).symm.trans hx)
  · intro k v hk
    by_cases hcase : ∃ e, Linked chain off ∧ t.mem off = some e ∧ k = e.key
    · obtain ⟨e, hl, he, rfl⟩ := hcase
      obtain ⟨e1, e', he1, rfl, hkey, -⟩ := hkept hl
      cases he.symm.trans he1
      exact ⟨off, e', hl, update_self .., hkey⟩
    rw [hother k fun e hl he heq => hcase ⟨e, hl, he, heq⟩] at hk
    obtain ⟨x, e, hl, he, rfl⟩ := h.complete k v hk
    have hne : x ≠ off := by
      rintro rfl
      exact hcase ⟨e, hl, he, rfl⟩
    exact ⟨x, e, hl, (update_of_ne hne ..).trans he, rfl⟩
  · intro x hx
    rcases eq_or_ne x off with rfl | hne
    · rw [update_self]
      exact hdead ((update_self x oe t.mem).symm.trans hx)
    · rw [update_of_ne hne]
      exact h.dead x ((update_of_ne hne oe t.mem).symm.trans hx)

/-- A change of one entry that keeps its key and its link. -/
theorem TblInv.modify (h : TblInv t chain refs abs) (he : t.mem off = some e) {r : Nat}
    (hkey : e'.key = e.key) (hlen : e'.keyLen = e.keyLen) (hnext : e'.nextEntry = e.nextEntry)
    (hlt : e'.refcnt < 2 ^ 31) (href : e'.refcnt + refs off = e.refcnt + r)
    (hr : ¬ Linked chain off → 1 ≤ r)
    (hself : Linked chain off → abs' e.key = some (off, e'.value))
    (hother : ∀ k, (Linked chain off → k ≠ e.key) → abs' k = abs k) :
    TblInv (t.setEntry off e') chain (update refs off r) abs' := by
  obtain ⟨h0, hok⟩ := h.entry off e he
  refine h.set (some e') r (fun hl => ⟨e, e', he, rfl, hkey, hnext, hself hl⟩) ?_ nofun
    fun k hk => hother k fun hl => hk e hl he
  rintro _ ⟨⟩
  refine ⟨h0, by rw [hlen, hkey]; exact hok.keyLen, hkey ▸ hok.pos, hkey ▸ hok.le, hlt,
    fun hl => ?_, fun hl => ?_⟩
  · have := hok.counted hl
    omega
  · have := hok.unlinked hl
    exact ⟨by omega, hr hl, hnext.trans this.2.2⟩

/-! ### References -/

/-- No count is at the end of an `int32_t`. -/
def Room (t : HTable) : Prop := ∀ off e, t.mem off = some e → e.refcnt + 1 < 2 ^ 31

theorem Room.setEntry (h : Room t) (off : Nat) (hlt : e.refcnt + 1 < 2 ^ 31) :
    Room (t.setEntry off e) := by
  intro x ex hx
  rcases eq_or_ne x off with rfl | hne
  · rw [setEntry_mem_self] at hx
    exact Option.some.inj hx ▸ hlt
  · exact h x ex (setEntry_mem_of_ne t e hne ▸ hx)

theorem int32_eq {n : Int} (h0 : 0 ≤ n) (hlt : n < 2 ^ 31) : int32 n = n :=
  Int.bmod_eq_of_le_mul_two (by omega) (by omega)

theorem EntryOk.refcnt_pos {r : Nat} {p : Prop} (h : EntryOk e r p) : 1 ≤ e.refcnt := by
  by_cases hl : p
  · have := h.counted hl
    omega
  · have := h.unlinked hl
    omega

section

variable (h : TblInv t chain refs abs)
include h

/-- There is room while few references are handed out. -/
theorem TblInv.room (hrefs : ∀ x, refs x < 2 ^ 31 - 2) : Room t := by
  intro x e he
  have hok := (h.entry x e he).2
  have hx := hrefs x
  by_cases hl : Linked chain x
  · have := hok.counted hl
    omega
  · have := (hok.unlinked hl).1
    omega

/-- **Taking a reference.** -/
theorem acquire_spec (hroom : Room t) (he : t.mem off = some e) :
    ∃ t', t.acquire off = some t' ∧ t'.first = t.first ∧
      TblInv t' chain (update refs off (refs off + 1)) abs := by
  have hlt := hroom off e he
  have hpos := (h.entry off e he).2.refcnt_pos
  refine ⟨_, modEntry_eq he _, ?_, ?_⟩
  · funext b
    cases b <;> rfl
  · rw [int32_eq (by omega) hlt]
    refine h.modify he rfl rfl rfl hlt ?_ (fun _ => Nat.succ_pos _) (fun hl => h.abs_eq hl he)
      fun _ _ => rfl
    push_cast
    omega

theorem TblInv.live_of_refs (hr : 1 ≤ refs off) : ∃ e, t.mem off = some e := by
  rcases hm : t.mem off with - | e
  · rw [h.dead off hm] at hr
    omega
  · exact ⟨e, rfl⟩

/-- An entry that is not linked may go. -/
theorem TblInv.drop (hl : ¬ Linked chain off) :
    TblInv { t with mem := update t.mem off none } chain (update refs off 0) abs :=
  h.set none 0 (fun hl' => absurd hl' hl) nofun (fun _ => rfl) fun _ _ => rfl

/-- **Giving a reference back.**  With the last one the entry goes, unless it is
linked. -/
theorem release_spec (hr : 1 ≤ refs off) :
    ∃ t', t.release off = some t' ∧ t.Same t' ∧ (Room t → Room t') ∧
      TblInv t' chain (update refs off (refs off - 1)) abs := by
  obtain ⟨e, he⟩ := h.live_of_refs hr
  have hok := (h.entry off e he).2
  have hlt := hok.lt
  by_cases hlast : e.refcnt ≤ 1
  · have hl : ¬ Linked chain off := fun hl => by
      have := hok.counted hl
      omega
    have hone : refs off - 1 = 0 := by
      have := (hok.unlinked hl).1
      omega
    have hrel : t.release off = some { t with mem := update t.mem off none } := by
      simp [HTable.release, he, hlast, HTable.free, HTable.setEntry]
    refine ⟨_, hrel, ⟨rfl, rfl, rfl, rfl, fun _ => rfl⟩, fun hroom x ex hx => ?_, ?_⟩
    · have hne : x ≠ off := by
        rintro rfl
        simp at hx
      exact hroom x ex ((update_of_ne hne none t.mem).symm.trans hx)
    · rw [hone]
      exact h.drop hl
  · have hrel : t.release off = some (t.setEntry off { e with refcnt := e.refcnt - 1 }) := by
      simp [HTable.release, he, hlast, int32_eq (n := e.refcnt - 1) (by omega) (by omega)]
    refine ⟨_, hrel, ⟨rfl, rfl, rfl, rfl, fun _ => rfl⟩, fun hroom => ?_, ?_⟩
    · exact hroom.setEntry off (by dsimp only; omega)
    refine h.modify he rfl rfl rfl (by dsimp only; omega) ?_ (fun hl => ?_)
      (fun hl => h.abs_eq hl he) fun _ _ => rfl
    · show e.refcnt - 1 + (refs off : Int) = e.refcnt + ((refs off - 1 : Nat) : Int)
      omega
    · have := (hok.unlinked hl).1
      omega

end

/-! ### Creating -/

/-- **A new entry**, not linked yet; its creator has the one reference. -/
theorem TblInv.create (h : TblInv t chain refs abs) (hfree : t.mem off = none) (h0 : off ≠ 0)
    (hlen : e.keyLen = e.key.length) (hpos : 0 < e.key.length) (hle : e.key.length ≤ maxKeyLen)
    (hcnt : e.refcnt = 1) (hnext : e.nextEntry = 0) :
    TblInv (t.setEntry off e) chain (update refs off 1) abs := by
  have hl : ¬ Linked chain off := by
    rintro ⟨i, hi⟩
    obtain ⟨e1, he1, -, -⟩ := h.linked i off hi
    cases hfree.symm.trans he1
  refine h.set (some e) 1 (fun hl' => absurd hl' hl) ?_ nofun fun _ _ => rfl
  rintro _ ⟨⟩
  exact ⟨h0, hlen, hpos, hle, by rw [hcnt]; decide, fun hx => absurd hx hl,
    fun _ => ⟨hcnt, le_rfl, hnext⟩⟩

/-! ### Linking, replacing and unlinking -/

/-- The entries are the same but for their links. -/
def SameEntries (t t' : HTable) : Prop :=
  ∀ x, (t'.mem x).map (fun e => { e with nextEntry := 0 }) =
    (t.mem x).map fun e => { e with nextEntry := 0 }

theorem SameEntries.of_some (h : SameEntries t t') (he : t'.mem off = some e) :
    ∃ e0, t.mem off = some e0 ∧ e.key = e0.key ∧ e.keyLen = e0.keyLen ∧ e.refcnt = e0.refcnt ∧
      e.value = e0.value := by
  have hoff := h off
  rw [he] at hoff
  rcases hm : t.mem off with - | e0
  · rw [hm] at hoff
    cases hoff
  · rw [hm] at hoff
    obtain ⟨-, -, hlen, -, hkey, hcnt, hval⟩ := HtEntry.mk.inj (Option.some.inj hoff)
    exact ⟨e0, rfl, hkey, hlen, hcnt, hval⟩

theorem SameEntries.symm (h : SameEntries t t') : SameEntries t' t := fun x => (h x).symm

theorem SameEntries.trans {t'' : HTable} (h : SameEntries t t') (h' : SameEntries t' t'') :
    SameEntries t t'' := fun x => (h' x).trans (h x)

theorem SameEntries.none_iff (h : SameEntries t t') : t'.mem off = none ↔ t.mem off = none := by
  rw [← Option.map_eq_none_iff, h off, Option.map_eq_none_iff]

theorem sameEntries_setEntry (he : t.mem off = some e) (n : Nat) :
    SameEntries t (t.setEntry off { e with nextEntry := n }) := by
  intro x
  rcases eq_or_ne x off with rfl | hne
  · rw [setEntry_mem_self, he]
    rfl
  · rw [setEntry_mem_of_ne _ _ hne]

theorem sameEntries_of_mem (h : t'.mem = t.mem) : SameEntries t t' := fun x => by rw [h]

theorem TblInv.setUsed (h : TblInv t chain refs abs) (k : Int) :
    TblInv { t with numUsedBuckets := k } chain refs abs :=
  ⟨⟨h.shape.pos, h.shape.perTablet, h.shape.cover, h.shape.tablets⟩, h.chains, h.outside, h.nodup,
    h.linked, h.entry, h.complete, h.dead, h.numEntries⟩

section

variable (hchain : Chain t.next (t.head i) (l1 ++ curr :: l2)) (hnodup : (l1 ++ curr :: l2).Nodup)
  (hlive : ∀ x ∈ l1, ∃ e, t.mem x = some e)
include hchain hnodup hlive

/-- Writing the slot before a node of the chain makes `n` follow `l1`. -/
theorem setSlot_spec {n : Nat} (hl : Chain t.next n l) (hdisj : ∀ x ∈ l1, x ∉ l) :
    ∃ t', t.setSlot (t.bkt i) l1.getLast? n = some t' ∧ t.Same t' ∧ SameEntries t t' ∧
      t'.numEntries = t.numEntries ∧ (∀ j ≠ i, t'.head j = t.head j) ∧
      (∀ x, x ∉ l1 → t'.next x = t.next x) ∧ Chain t'.next (t'.head i) (l1 ++ l) := by
  rcases eq_nil_or_concat' l1 with rfl | ⟨l1, p, rfl⟩
  · refine ⟨t.setFirst (t.bkt i) n, rfl, same_setFirst t i n, sameEntries_of_mem (setFirst_mem ..),
      setFirst_numEntries .., fun j hj => ?_, fun x _ => by rw [setFirst_next], ?_⟩
    · rw [head_setFirst, update_of_ne hj]
    · rw [head_setFirst, update_self, setFirst_next]
      exact hl
  · obtain ⟨ep, hep⟩ := hlive p (by simp)
    have hnd : (l1 ++ [p]).Nodup := (nodup_append.mp hnodup).1
    refine ⟨t.setEntry p { ep with nextEntry := n }, ?_, ⟨rfl, rfl, rfl, rfl, fun _ => rfl⟩,
      sameEntries_setEntry hep n, rfl, fun _ _ => rfl, fun x hx => ?_, ?_⟩
    · rw [getLast?_concat]
      exact modEntry_eq hep _
    · have hxp : x ≠ p := fun e => hx (e ▸ by simp)
      rw [next_setEntry, update_of_ne hxp]
    · rw [next_setEntry, setEntry_head, append_assoc, singleton_append]
      rw [append_assoc, singleton_append] at hchain
      exact hchain.splice hnd hl (hdisj p (by simp))

/-- The writes that take an entry out of its chain: the slot before it leads to
`n`, its own link is cleared. -/
theorem cut_spec (he : t.mem curr = some e) {n : Nat} (hl : Chain t.next n l)
    (hdisj : ∀ x ∈ l1, x ∉ l) (hcl : curr ∉ l) :
    ∃ t1 t2, t.setSlot (t.bkt i) l1.getLast? n = some t1 ∧
      t1.modEntry curr (fun e => { e with nextEntry := 0 }) = some t2 ∧ t.Same t2 ∧
      SameEntries t t2 ∧ t2.numEntries = t.numEntries ∧ (∀ j ≠ i, t2.head j = t.head j) ∧
      (∀ x, x ∉ l1 → x ≠ curr → t2.next x = t.next x) ∧ t2.next curr = 0 ∧
      Chain t2.next (t2.head i) (l1 ++ l) := by
  obtain ⟨t1, hslot, hsame, hentries, hnum, hhead, hnext, hchain1⟩ :=
    setSlot_spec hchain hnodup hlive hl hdisj
  obtain ⟨e1, he1, -⟩ := hentries.symm.of_some he
  refine ⟨t1, _, hslot, modEntry_eq he1 _, ?_, hentries.trans (sameEntries_setEntry he1 0), hnum,
    hhead, ?_, ?_, ?_⟩
  · exact hsame.trans ⟨rfl, rfl, rfl, rfl, fun _ => rfl⟩
  · intro x hx hxc
    rw [next_setEntry, update_of_ne hxc]
    exact hnext x hx
  · rw [next_setEntry, update_self]
  · rw [next_setEntry]
    refine hchain1.congr fun x hx => ?_
    have hxc : x ≠ curr := by
      rintro rfl
      rcases mem_append.mp hx with hx | hx
      · exact (nodup_append.mp hnodup).2.2 x hx x mem_cons_self rfl
      · exact hcl hx
    exact update_of_ne hxc ..

end

section

variable {old new : List Nat} (h : TblInv t chain refs abs) (hc : chain i = l1 ++ (old ++ l2))
include h hc

theorem TblInv.nodup_old : (old ++ (l1 ++ l2)).Nodup :=
  (perm_append_comm_assoc l1 old l2).nodup_iff.mp (hc ▸ h.nodup i)

omit h in
theorem mem_chain_iff {x : Nat} : x ∈ chain i ↔ x ∈ old ∨ x ∈ l1 ++ l2 := by
  rw [hc, (perm_append_comm_assoc l1 old l2).mem_iff, mem_append]

/-- With `new` in the place of `old`, a chain has what it had but for `old`, and chain `i` has
`new`. -/
theorem TblInv.mem_exchange {x j : Nat} : x ∈ update chain i (l1 ++ (new ++ l2)) j ↔
    x ∈ new ∧ j = i ∨ x ∈ chain j ∧ x ∉ old := by
  rcases eq_or_ne j i with rfl | hji
  · rw [update_self, (perm_append_comm_assoc l1 new l2).mem_iff, mem_append, mem_chain_iff hc]
    have hdisj : x ∈ l1 ++ l2 → x ∉ old := fun hx hxo =>
      (nodup_append.mp (h.nodup_old hc)).2.2 x hxo x hx rfl
    tauto
  · have hxo : x ∈ chain j → x ∉ old := fun hx hxo =>
      hji (h.chain_unique hx ((mem_chain_iff hc).mpr (.inl hxo)))
    rw [update_of_ne hji]
    tauto

theorem TblInv.linked_exchange {x : Nat} : Linked (update chain i (l1 ++ (new ++ l2))) x ↔
    x ∈ new ∨ Linked chain x ∧ x ∉ old := by
  simp only [Linked, h.mem_exchange hc, exists_or, exists_and_left, exists_and_right, exists_eq,
    and_true]

end

/-- **Rule for exchanging the entries `old`** of bucket `i` for the entries `new`, none or one
with the same key: links become references and references links. -/
theorem TblInv.exchange {v : Option (Nat × List UInt8)} (h : TblInv t chain refs abs)
    (old new : List Nat) (hi : t.idx key = i) (hc : chain i = l1 ++ (old ++ l2))
    (hold : ∀ x ∈ chain i, ∀ e, t.mem x = some e → (e.key = key ↔ x ∈ old))
    (hnew : ∀ x ∈ new, ¬ Linked chain x ∧ ∃ e', t.mem x = some e' ∧ e'.key = key ∧
      v = some (x, e'.value))
    (hnewnd : new.Nodup) (hv : v.isSome → new ≠ [])
    (hsame : t.Same t') (hhead : ∀ j ≠ i, t'.head j = t.head j) (hentries : SameEntries t t')
    (hnext : ∀ x, x ∉ chain i → x ∉ new → t'.next x = t.next x)
    (hgone : ∀ x ∈ old, t'.next x = 0)
    (hchain : Chain t'.next (t'.head i) (l1 ++ (new ++ l2)))
    (hrefs : ∀ x, refs' x + (if x ∈ new then 1 else 0) = refs x + if x ∈ old then 1 else 0)
    (hnum : t'.numEntries + old.length = t.numEntries + new.length) :
    TblInv t' (update chain i (l1 ++ (new ++ l2))) refs' (update abs key v) := by
  have hmem : ∀ {x}, x ∈ old → x ∈ chain i := fun hx => (mem_chain_iff hc).mpr (.inl hx)
  have hnewc : ∀ {x j}, x ∈ new → x ∉ chain j := fun hx hxj => (hnew _ hx).1 ⟨_, hxj⟩
  have hkept : ∀ {x e}, Linked chain x → t.mem x = some e → (e.key = key ↔ x ∈ old) := by
    rintro x e ⟨j, hj⟩ he
    refine ⟨fun hk => ?_, fun hxo => (hold x (hmem hxo) e he).mpr hxo⟩
    exact (hold x (by rwa [← hi, ← hk, h.idx_eq hj he]) e he).mp hk
  refine ⟨hsame.shape h.shape, fun j hj => ?_, fun j hj => ?_, fun j => ?_, fun j x hx => ?_,
    fun x e he => ?_, fun k w hk => ?_, fun x hx => ?_, ?_⟩
  · rcases eq_or_ne j i with rfl | hji
    · rwa [update_self]
    rw [update_of_ne hji, hhead j hji]
    refine (h.chains j (hsame.numBuckets ▸ hj)).congr fun x hx => hnext x ?_ fun hxn => hnewc hxn hx
    exact fun hxi => hji (h.chain_unique hx hxi)
  · have hji : j ≠ i := by
      have := hi ▸ idx_lt h.shape key
      have := hsame.numBuckets
      omega
    rw [update_of_ne hji]
    exact h.outside j (hsame.numBuckets ▸ hj)
  · rcases eq_or_ne j i with rfl | hji
    · rw [update_self, (perm_append_comm_assoc l1 new l2).nodup_iff]
      refine nodup_append.mpr ⟨hnewnd, (nodup_append.mp (h.nodup_old hc)).2.1, ?_⟩
      rintro x hx y hy rfl
      exact hnewc hx ((mem_chain_iff hc).mpr (.inr hy))
    · rw [update_of_ne hji]
      exact h.nodup j
  · rcases (h.mem_exchange hc).mp hx with ⟨hxn, rfl⟩ | ⟨hxj, hxo⟩
    · obtain ⟨-, e, he, rfl, rfl⟩ := hnew x hxn
      obtain ⟨e', he', hkey, -, -, hval⟩ := hentries.symm.of_some he
      exact ⟨e', he', (hsame.idx _).trans (hkey ▸ hi), by rw [hkey, hval, update_self]⟩
    · obtain ⟨e, he, hk, habs⟩ := h.linked j x hxj
      obtain ⟨e', he', hkey, -, -, hval⟩ := hentries.symm.of_some he
      have hne : e.key ≠ key := fun hk => hxo ((hkept ⟨j, hxj⟩ he).mp hk)
      exact ⟨e', he', (hsame.idx _).trans (hkey ▸ hk),
        by rw [← hkey, ← hval, update_of_ne hne, habs]⟩
  · obtain ⟨e0, he0, hkey, hlen, hcnt, -⟩ := hentries.of_some he
    obtain ⟨h0, hok⟩ := h.entry x e0 he0
    have hr := hrefs x
    refine ⟨h0, by rw [hlen, hkey]; exact hok.keyLen, hkey ▸ hok.pos, hkey ▸ hok.le, hcnt ▸ hok.lt,
      fun hx => ?_, fun hx => ?_⟩
    · rw [hcnt]
      rcases (h.linked_exchange hc).mp hx with hxn | ⟨hxl, hxo⟩
      · rw [if_pos hxn, if_neg fun hxo => hnewc hxn (hmem hxo)] at hr
        have := (hok.unlinked (hnew x hxn).1).1
        omega
      · rw [if_neg fun hxn => (hnew x hxn).1 hxl, if_neg hxo] at hr
        have := hok.counted hxl
        omega
    · rw [h.linked_exchange hc, not_or, not_and_not_right] at hx
      rw [if_neg hx.1] at hr
      rw [hcnt, ← next_eq he]
      by_cases hxo : x ∈ old
      · have hxi := hmem hxo
        rw [if_pos hxo] at hr
        have := hok.counted ⟨i, hxi⟩
        exact ⟨by omega, by omega, hgone x hxo⟩
      · have hxl : ¬ Linked chain x := fun hxl => hxo (hx.2 hxl)
        rw [if_neg hxo] at hr
        have := hok.unlinked hxl
        rw [hnext x (fun hxi => hxl ⟨i, hxi⟩) hx.1, next_eq he0]
        exact ⟨by omega, by omega, this.2.2⟩
  · rcases eq_or_ne k key with rfl | hke
    · rw [update_self] at hk
      obtain ⟨x, new', rfl⟩ := exists_cons_of_ne_nil (hv (by rw [hk]; rfl))
      obtain ⟨-, e, he, hke, -⟩ := hnew x mem_cons_self
      obtain ⟨e', he', hkey, -⟩ := hentries.symm.of_some he
      exact ⟨x, e', (h.linked_exchange hc).mpr (.inl mem_cons_self), he', hkey.symm.trans hke⟩
    · rw [update_of_ne hke] at hk
      obtain ⟨x, e, hl, he, rfl⟩ := h.complete k w hk
      obtain ⟨e', he', hkey, -⟩ := hentries.symm.of_some he
      exact ⟨x, e', (h.linked_exchange hc).mpr (.inr ⟨hl, fun hxo => hke ((hkept hl he).mpr hxo)⟩), he',
        hkey.symm⟩
  · have hxn := hentries.none_iff.mp hx
    have hxo : x ∉ old := fun hxo => by
      obtain ⟨e, he, -⟩ := h.linked i x (hmem hxo)
      cases hxn.symm.trans he
    have hr := hrefs x
    rw [if_neg hxo, h.dead x hxn] at hr
    omega
  · have hsum := sum_length_update chain (hi ▸ idx_lt h.shape key) (l1 ++ (new ++ l2))
    rw [hsame.numBuckets]
    have hnumEntries := h.numEntries
    simp only [hc, length_append] at hsum
    omega

/-- An entry put before the chain of bucket `i`. -/
def HTable.link (t : HTable) (i off : Nat) (e : HtEntry) : HTable :=
  let t' := (t.setEntry off { e with nextEntry := t.head i }).setFirst (t.bkt i) off
  { t' with numEntries := t'.numEntries + 1 }

section

variable (h : TblInv t chain refs abs)
include h

theorem TblInv.link (he : t.mem off = some e)
    (hl : ¬ Linked chain off) (hkey : abs e.key = none) (hi : t.idx e.key = i) :
    TblInv (t.link i off e) (update chain i (off :: chain i))
      (update refs off (refs off - 1))
      (update abs e.key (some (off, e.value))) := by
  have hnot : off ∉ chain i := fun hoff => hl ⟨i, hoff⟩
  have hhead : (t.link i off e).head = update t.head i off :=
    head_setFirst (t.setEntry off { e with nextEntry := t.head i }) i off
  have hnext : (t.link i off e).next = update t.next off (t.head i) :=
    (setFirst_next ..).trans (next_setEntry t off { e with nextEntry := t.head i })
  have hmem : (t.link i off e).mem = (t.setEntry off { e with nextEntry := t.head i }).mem :=
    setFirst_mem ..
  have hone := (h.entry off e he).2.unlinked hl
  have hset := same_setFirst (t.setEntry off { e with nextEntry := t.head i }) i off
  have hc : chain i = [] ++ ([] ++ chain i) := rfl
  refine h.exchange [] [off] hi hc ?_ ?_ (nodup_singleton off)
    (fun _ => cons_ne_nil off [])
    { hset with } ?_
    ((sameEntries_setEntry he (t.head i)).trans (sameEntries_of_mem hmem)) ?_
    (fun x hx => absurd hx not_mem_nil) ?_ ?_ ?_
  · intro x hx e1 he1
    refine iff_of_false (fun hk => ?_) not_mem_nil
    cases hkey.symm.trans (hk ▸ h.abs_eq ⟨i, hx⟩ he1)
  · intro x hx
    obtain rfl := mem_singleton.mp hx
    exact ⟨hl, e, he, rfl, rfl⟩
  · intro j hj
    rw [hhead, update_of_ne hj]
  · intro x _ hx
    rw [hnext, update_of_ne (ne_of_not_mem_cons hx)]
  · rw [hhead, hnext, update_self]
    exact (h.chains i (hi ▸ idx_lt h.shape e.key)).push hnot (h.entry off e he).1
  · intro x
    rcases eq_or_ne x off with rfl | hx
    · simp only [update_self, mem_singleton, if_true, not_mem_nil, if_false]
      omega
    · simp [hx]
  · have hnum : (t.link i off e).numEntries = t.numEntries + 1 :=
      congrArg (· + 1) (setFirst_numEntries ..)
    simp [hnum]

section

variable (hc : chain i = l1 ++ curr :: l2) (he : t.mem curr = some e)
include hc he

/-- The nodes of a chain before, at and after an entry, which is the only one with its key. -/
theorem TblInv.split :
    Chain t.next (t.head i) (l1 ++ curr :: l2) ∧ (l1 ++ curr :: l2).Nodup ∧
      (∀ x ∈ l1, ∃ e, t.mem x = some e) ∧ t.idx e.key = i ∧
      ∀ x ∈ chain i, ∀ e1, t.mem x = some e1 → (e1.key = e.key ↔ x ∈ [curr]) := by
  have hcurr : curr ∈ chain i := hc ▸ by simp
  refine ⟨hc ▸ h.chains i (h.bucket_lt hcurr), hc ▸ h.nodup i, fun x hx => ?_, h.idx_eq hcurr he,
    fun x hx e1 he1 => ?_⟩
  · obtain ⟨e, he, -⟩ := h.linked i x (hc ▸ mem_append_left _ hx)
    exact ⟨e, he⟩
  · rw [mem_singleton]
    refine ⟨h.unique ⟨i, hx⟩ ⟨i, hcurr⟩ he1 he, ?_⟩
    rintro rfl
    cases he.symm.trans he1
    rfl

/-- **Unlinking** the entry at `curr`: its link becomes a reference. -/
theorem TblInv.unlink :
    ∃ t1 t2, t.setSlot (t.bkt i) l1.getLast? e.nextEntry = some t1 ∧
      t1.modEntry curr (fun e => { e with nextEntry := 0 }) = some t2 ∧ t.Same t2 ∧
      TblInv { t2 with numEntries := t2.numEntries - 1 } (update chain i (l1 ++ l2))
        (update refs curr (refs curr + 1)) (update abs e.key none) := by
  obtain ⟨hchain, hnodup, hlive, hidx, hold⟩ := h.split hc he
  have hnd := nodup_append.mp hnodup
  have hafter : Chain t.next e.nextEntry l2 := next_eq he ▸ hchain.suffix.2.2
  obtain ⟨t1, t2, hslot, hmod, hsame, hentries, hnum, hhead, hnext, hcurr0, hchain2⟩ :=
    cut_spec hchain hnodup hlive he hafter
      (fun x hx hx' => hnd.2.2 x hx x (mem_cons_of_mem _ hx') rfl)
      (nodup_cons.mp hnd.2.1).1
  refine ⟨t1, t2, hslot, hmod, hsame, ?_⟩
  refine h.exchange [curr] [] hidx hc hold (fun x hx => absurd hx not_mem_nil)
    nodup_nil (fun hv => absurd hv (by simp))
    { hsame with } hhead
    hentries ?_ (fun x hx => mem_singleton.mp hx ▸ hcurr0) hchain2 ?_ ?_
  · intro x hx _
    rw [hc] at hx
    simp only [mem_append, mem_cons, not_or] at hx
    exact hnext x hx.1 hx.2.1
  · intro x
    rcases eq_or_ne x curr with rfl | hx
    · simp
    · simp [hx]
  · show t2.numEntries - 1 + 1 = t.numEntries + 0
    omega

/-- **Replacing** the entry at `curr` by one with the same key that has no place
yet. -/
theorem TblInv.replace (hoff : t.mem off = some e') (hl : ¬ Linked chain off)
    (hkey : e'.key = e.key) :
    ∃ t0 t1 t2, t.modEntry off (fun e' => { e' with nextEntry := e.nextEntry }) = some t0 ∧
      t0.setSlot (t.bkt i) l1.getLast? off = some t1 ∧
      t1.modEntry curr (fun e => { e with nextEntry := 0 }) = some t2 ∧ t.Same t2 ∧
      TblInv t2 (update chain i (l1 ++ off :: l2))
        (update (update refs off (refs off - 1)) curr (refs curr + 1))
        (update abs e.key (some (off, e'.value))) := by
  obtain ⟨hchain, hnodup, hlive, hidx, hold⟩ := h.split hc he
  have hnd := nodup_append.mp hnodup
  have hnot : ∀ x ∈ l1 ++ curr :: l2, x ≠ off := fun x hx hxo => hl ⟨i, hxo ▸ hc ▸ hx⟩
  have hcurr : curr ≠ off := hnot curr (by simp)
  obtain ⟨t0, ht0⟩ : ∃ t0, t0 = t.setEntry off { e' with nextEntry := e.nextEntry } := ⟨_, rfl⟩
  have hnext0 : t0.next = update t.next off e.nextEntry :=
    ht0 ▸ next_setEntry t off { e' with nextEntry := e.nextEntry }
  have hmem0 : ∀ x ∈ l1 ++ curr :: l2, t0.mem x = t.mem x := fun x hx =>
    ht0 ▸ setEntry_mem_of_ne _ _ (hnot x hx)
  have hchain0 : Chain t0.next (t0.head i) (l1 ++ curr :: l2) := by
    have hhead0 : t0.head i = t.head i := by rw [ht0, setEntry_head]
    rw [hhead0, hnext0]
    exact hchain.congr fun x hx => update_of_ne (hnot x hx) ..
  have hafter : Chain t0.next off (off :: l2) := by
    have hrest : Chain t.next e.nextEntry l2 := next_eq he ▸ hchain.suffix.2.2
    rw [hnext0]
    exact hrest.push (fun hx => hnot off (by simp [hx]) rfl) (h.entry off e' hoff).1
  obtain ⟨t1, t2, hslot, hmod, hsame, hentries, hnum, hhead, hnext, hcurr0, hchain2⟩ :=
    cut_spec hchain0 hnodup
      (fun x hx => by rw [hmem0 x (mem_append_left _ hx)]; exact hlive x hx)
      ((hmem0 curr (by simp)).trans he) hafter
      (fun x hx hx' => (mem_cons.mp hx').elim (hnot x (mem_append_left _ hx))
        fun hx' => hnd.2.2 x hx x (mem_cons_of_mem _ hx') rfl)
      (fun hx => (mem_cons.mp hx).elim hcurr (nodup_cons.mp hnd.2.1).1)
  have hsame0 : t.Same t0 := ht0 ▸ ⟨rfl, rfl, rfl, rfl, fun _ => rfl⟩
  refine ⟨t0, t1, t2, ?_, ?_, hmod, hsame0.trans hsame, ?_⟩
  · rw [modEntry_eq hoff, ht0]
  · rw [← hsame0.bkt]
    exact hslot
  refine h.exchange [curr] [off] hidx hc hold ?_ (nodup_singleton off)
    (fun _ => cons_ne_nil off []) (hsame0.trans hsame) ?_ ?_ ?_
    (fun x hx => mem_singleton.mp hx ▸ hcurr0) hchain2 ?_ ?_
  · intro x hx
    obtain rfl := mem_singleton.mp hx
    exact ⟨hl, e', hoff, hkey, rfl⟩
  · intro j hj
    rw [hhead j hj, ht0, setEntry_head]
  · exact SameEntries.trans (ht0 ▸ sameEntries_setEntry hoff e.nextEntry) hentries
  · intro x hx hxo
    rw [hc] at hx
    simp only [mem_append, mem_cons, not_or] at hx
    rw [hnext x hx.1 hx.2.1, hnext0, update_of_ne (ne_of_not_mem_cons hxo)]
  · have hone := ((h.entry off e' hoff).2.unlinked hl).2.1
    intro x
    rcases eq_or_ne x curr with rfl | hx
    · simp [hcurr]
    · rw [update_of_ne hx, if_neg (not_mem_cons_of_ne_of_not_mem hx not_mem_nil)]
      rcases eq_or_ne x off with rfl | hxo
      · simp only [update_self, mem_singleton, if_true]
        omega
      · simp [hxo]
  · rw [hnum, ht0]
    rfl

end

end

end NicSw.Shm
