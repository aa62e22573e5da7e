/-
What the TCAM calls do, by key and outside transactions.

`Sltcam.Ok` is the invariant: the first `count` elements of the index are
allocated hardware indexes, strictly sorted by the key of their entry.  The
search ends at the slot of the key or at the slot where the key belongs, so an
insertion keeps the order.
-/
import NicSw.Lib.Run
import NicSw.Sltcam.Table

namespace NicSw

open Handle (null valid)

open SltCtx (create)

variable {K D : Type*} [LinearOrder K] {P : SltProps K}

namespace Sltcam

/-- The key that an element of the index leads to. -/
def slotKey (hw : Nat → K × D) (e : Option Nat) : K := (hw (e.getD 0)).1

/-- **The invariant of a TCAM** outside transactions. -/
structure Ok (P : SltProps K) (T : Sltcam K D) : Prop where
  idle : T.txn.valid = false
  indexer : T.indexer.Ok
  size : T.indexer.size = P.tableSize
  elems : ∀ i < T.db.count, ∃ idx, T.db.elems i = some idx ∧ idx < P.tableSize ∧
    T.indexer.isUsed idx = true
  sorted : SortedSlots (slotKey T.hw) T.db.elems T.db.count
  empty : T.db.count = 0 → T.db.elems 0 = none

/-- Hardware index `idx` is in the index and holds key `k` and data `d`. -/
def StoresAt (T : Sltcam K D) (k : K) (d : D) (idx : Nat) : Prop :=
  (∃ i < T.db.count, T.db.elems i = some idx) ∧ T.hw idx = (k, d)

/-- The TCAM holds data `d` for key `k`. -/
def Stores (T : Sltcam K D) (k : K) (d : D) : Prop := ∃ idx, T.StoresAt k d idx

variable {T T' : Sltcam K D} {k k' : K} {d d' : D} {idx idx' s : Nat}

theorem Ok.used (hok : Ok P T) (h : ∃ i < T.db.count, T.db.elems i = some idx) :
    idx < P.tableSize ∧ T.indexer.isUsed idx = true := by
  obtain ⟨i, hi, he⟩ := h
  obtain ⟨idx', he', hlt, hu⟩ := hok.elems i hi
  cases he'.symm.trans he
  exact ⟨hlt, hu⟩

/-! ### The search -/

/-- What the search for `key` stops at: its slot, or the slot where it belongs. -/
def Found (db : SltDb) (hw : Nat → K × D) (key : K) : Nat × Option Nat → Prop
  | (slot, some idx) => slot < db.count ∧ db.elems slot = some idx ∧ (hw idx).1 = key
  | (slot, none) => SlotOf (slotKey hw) db.elems db.count key slot

/-- **The loop of `findslot_`**: the key is neither below `lo` nor above `hi`. -/
theorem findslotLoop_found {db : SltDb} {hw : Nat → K × D} {key : K} {n lo hi : Nat}
    (helems : ∀ i < db.count, ∃ idx, db.elems i = some idx)
    (hsorted : SortedSlots (slotKey hw) db.elems db.count)
    (hlo : ∀ i < lo, slotKey hw (db.elems i) < key)
    (hhi : ∀ i < db.count, hi < i → key < slotKey hw (db.elems i))
    (hle : lo ≤ hi + 1) (hcount : hi < db.count) (hfuel : hi + 2 ≤ lo + n) :
    Found db hw key (db.findslotLoop hw key n lo hi (sltMid lo hi)) := by
  induction n generalizing lo hi with
  | zero => omega
  | succ n ih =>
    unfold SltDb.findslotLoop
    by_cases hlh : lo ≤ hi
    · have hmid : sltMid lo hi = (hi + lo) / 2 := if_pos hlh
      set slot := sltMid lo hi
      obtain ⟨idx, hidx⟩ := helems slot (by omega)
      have hkey : slotKey hw (db.elems slot) = (hw idx).1 := by rw [hidx]; rfl
      rw [if_pos hlh, hidx]
      cases hc : compare key (hw idx).1 with
      | eq =>
        simp only [hc]
        exact ⟨by omega, hidx, (compare_eq_iff_eq.mp hc).symm⟩
      | lt =>
        have hlt : key < slotKey hw (db.elems slot) := hkey ▸ compare_lt_iff_lt.mp hc
        -- everything from the slot on is above the key
        have habove : ∀ i < db.count, slot ≤ i → key < slotKey hw (db.elems i) := by
          intro i hi' hsi
          rcases Nat.lt_or_eq_of_le hsi with hsi | rfl
          · exact hlt.trans (hsorted slot i hsi hi')
          · exact hlt
        simp only [hc]
        by_cases h0 : slot = 0
        · rw [if_pos h0]
          exact ⟨by omega, fun i hi' => absurd hi' (by omega), habove⟩
        · rw [if_neg h0]
          exact ih hlo (fun i hi' hsi => habove i hi' (by omega)) (by omega) (by omega) (by omega)
      | gt =>
        have hgt : slotKey hw (db.elems slot) < key := hkey ▸ compare_gt_iff_gt.mp hc
        have hbelow : ∀ i < slot + 1, slotKey hw (db.elems i) < key := by
          intro i hi'
          rcases Nat.lt_or_eq_of_le (Nat.lt_succ_iff.mp hi') with hsi | rfl
          · exact (hsorted i slot hsi (by omega)).trans hgt
          · exact hgt
        simp only [hc]
        exact ih hbelow hhi (by omega) hcount (by omega)
    · have hmid : sltMid lo hi = lo := if_neg hlh
      rw [if_neg hlh, hmid]
      exact ⟨by omega, hlo, fun i hi' hsi => hhi i hi' (by omega)⟩

/-- What `find` returns. -/
inductive FindPost (T : Sltcam K D) (ctx : SltCtx K D) : SdkRet × SltCtx K D → Prop
  | ok {slot idx : Nat} (lt : slot < T.db.count) (elem : T.db.elems slot = some idx)
      (key : (T.hw idx).1 = ctx.params.key) :
      FindPost T ctx (.ok, { ctx with
        dbslotValid := true, dbslot := slot, tcamIndex := idx, tcamIndexValid := true })
  | notFound {slot : Nat} (slotOf : SlotOf (slotKey T.hw) T.db.elems T.db.count ctx.params.key slot) :
      FindPost T ctx (.entryNotFound, { ctx with dbslotValid := true, dbslot := slot })

theorem find_post (hok : Ok P T) (ctx : SltCtx K D) : FindPost T ctx (T.db.find T.hw ctx) := by
  have hfound : Found T.db T.hw ctx.params.key (T.db.findslotLoop T.hw ctx.params.key
      (T.db.count + 1) 0 (if T.db.count ≠ 0 then T.db.count - 1 else 0)
      (sltMid 0 (if T.db.count ≠ 0 then T.db.count - 1 else 0))) := by
    by_cases h0 : T.db.count = 0
    · have hloop : T.db.findslotLoop T.hw ctx.params.key (0 + 1) 0 0 (sltMid 0 0)
          = (sltMid 0 0, none) := by
        unfold SltDb.findslotLoop
        rw [if_pos (Nat.le_refl 0), show T.db.elems (sltMid 0 0) = none from hok.empty h0]
      simp only [h0, ne_eq, not_true_eq_false, if_false]
      rw [hloop]
      exact ⟨by simp [sltMid], fun i hi => absurd hi (Nat.not_lt_zero i),
        fun i hi => absurd hi (by omega)⟩
    · simp only [h0, ne_eq, not_false_eq_true, if_true]
      refine findslotLoop_found (fun i hi => ?_) hok.sorted
        (fun i hi => absurd hi (Nat.not_lt_zero i)) (fun i hi hlt => ?_) (by omega) (by omega)
        (by omega)
      · obtain ⟨idx, he, -⟩ := hok.elems i hi
        exact ⟨idx, he⟩
      · omega
  unfold SltDb.find
  simp only
  generalize T.db.findslotLoop T.hw ctx.params.key _ _ _ _ = r at hfound
  obtain ⟨slot, idx⟩ := r
  cases idx with
  | none => exact .notFound hfound
  | some idx => exact .ok hfound.1 hfound.2.1 hfound.2.2

/-- A key that belongs between the entries is not in the TCAM. -/
theorem not_stores_of_slotOf (h : SlotOf (slotKey T.hw) T.db.elems T.db.count k s) :
    ¬ T.Stores k d := by
  rintro ⟨idx, ⟨i, hi, he⟩, hw⟩
  refine h.ne hi ?_
  rw [he]
  show (T.hw idx).1 = k
  rw [hw]

omit [LinearOrder K] in
theorem storesAt_of_elem (hs : s < T.db.count) (he : T.db.elems s = some idx)
    (hk : (T.hw idx).1 = k) : T.StoresAt k (T.hw idx).2 idx :=
  ⟨⟨s, hs, he⟩, hk ▸ rfl⟩

omit [LinearOrder K] in
theorem validate_of_idle (hidle : T.txn.valid = false) (ctx : SltCtx K D) :
    T.txn.validate ctx = .ok := by
  unfold SltTxn.validate
  rw [hidle]
  rfl

omit [LinearOrder K] in
theorem release_of_idle (hidle : T.txn.valid = false) (ctx : SltCtx K D) :
    T.txn.release ctx = some T.txn := by
  unfold SltTxn.release SltTxn.releaseRet
  rw [hidle]
  rfl

/-! ### A new entry -/

/-- An element in use is valid, so `grow_` opens the slot. -/
theorem insert_elems (hok : Ok P T) (hs : SlotOf (slotKey T.hw) T.db.elems T.db.count k s)
    {ctx : SltCtx K D} (hv : ctx.dbslotValid = true) (hslot : ctx.dbslot = s) :
    T.db.insert ctx
      = some ⟨T.db.count + 1, insertSlot T.db.elems s T.db.count (some ctx.tcamIndex)⟩ := by
  unfold SltDb.insert insertSlot
  subst hslot
  rw [if_neg (by simp [hv])]
  split
  · rfl
  rename_i hnone
  -- only the slot past the end can be free, and there is nothing above it
  have hlast : T.db.count - ctx.dbslot = 0 := by
    by_contra hlt
    obtain ⟨idx, he, -⟩ := hok.elems ctx.dbslot (by omega)
    exact hnone (by rw [he]; rfl)
  rw [hlast, memmove_zero]

/-- The TCAM with an entry for `k` at the index `idx`, put into slot `s`. -/
def inserted (T : Sltcam K D) (ix : Indexer) (s idx : Nat) (k : K) (d : D) : Sltcam K D where
  indexer := ix
  txn := T.txn
  db := ⟨T.db.count + 1, insertSlot T.db.elems s T.db.count (some idx)⟩
  hw := Function.update T.hw idx (k, d)

section Inserted

variable {ix : Indexer}

omit [LinearOrder K] in
theorem hw_inserted_self : (T.inserted ix s idx k d).hw idx = (k, d) := Function.update_self ..

variable (hne : ∀ i < T.db.count, T.db.elems i ≠ some idx)

include hne

omit [LinearOrder K] in
/-- The entries that were there are at other indexes. -/
theorem hw_inserted (h : ∃ i < T.db.count, T.db.elems i = some idx') :
    (T.inserted ix s idx k d).hw idx' = T.hw idx' := by
  refine Function.update_of_ne ?_ _ _
  rintro rfl
  obtain ⟨i, hi, he⟩ := h
  exact hne i hi he

variable (hs : SlotOf (slotKey T.hw) T.db.elems T.db.count k s)

include hs

theorem stores_inserted :
    (T.inserted ix s idx k d).Stores k' d' ↔ (k' = k ∧ d' = d) ∨ T.Stores k' d' := by
  have hexists : ∀ idx', (∃ i < T.db.count + 1,
      insertSlot T.db.elems s T.db.count (some idx) i = some idx') ↔
        some idx = some idx' ∨ ∃ i < T.db.count, T.db.elems i = some idx' :=
    fun idx' => exists_insertSlot hs.le
  constructor
  · rintro ⟨idx', hin, hw⟩
    rcases (hexists idx').mp hin with heq | hold
    · cases heq
      cases hw_inserted_self.symm.trans hw
      exact .inl ⟨rfl, rfl⟩
    · rw [hw_inserted hne hold] at hw
      exact .inr ⟨idx', hold, hw⟩
  · rintro (⟨rfl, rfl⟩ | ⟨idx', hold, hw⟩)
    · exact ⟨idx, (hexists idx).mpr (.inl rfl), hw_inserted_self⟩
    · refine ⟨idx', (hexists idx').mpr (.inr hold), ?_⟩
      rw [hw_inserted hne hold]
      exact hw

variable (hok : Ok P T)

include hok

/-- A key put where it belongs keeps the index sorted. -/
theorem sorted_inserted : SortedSlots (slotKey (T.inserted ix s idx k d).hw)
    (T.inserted ix s idx k d).db.elems (T.inserted ix s idx k d).db.count := by
  have hkey : ∀ i < T.db.count,
      slotKey (T.inserted ix s idx k d).hw (T.db.elems i) = slotKey T.hw (T.db.elems i) := by
    intro i hi
    obtain ⟨idx', he, -⟩ := hok.elems i hi
    rw [he]
    exact congrArg Prod.fst (hw_inserted hne ⟨i, hi, he⟩)
  have hnew : slotKey (T.inserted ix s idx k d).hw (some idx) = k :=
    congrArg Prod.fst hw_inserted_self
  refine SortedSlots.insert (hok.sorted.congr hkey) ?_
  rw [hnew]
  refine ⟨hs.le, fun i hi => ?_, fun i hi hsi => ?_⟩
  · rw [hkey i (Nat.lt_of_lt_of_le hi hs.le)]
    exact hs.below i hi
  · rw [hkey i hi]
    exact hs.above i hi hsi

theorem ok_inserted (hix : ix.Ok) (hsize : ix.size = P.tableSize) (hlt : idx < P.tableSize)
    (hself : ix.isUsed idx = true) (hold : ∀ j, T.indexer.isUsed j = true → ix.isUsed j = true) :
    Ok P (T.inserted ix s idx k d) := by
  refine ⟨hok.idle, hix, hsize, fun i hi => ?_, sorted_inserted hne hs hok,
    fun h0 => absurd h0 (Nat.succ_ne_zero _)⟩
  rcases (exists_insertSlot hs.le).mp ⟨i, hi, rfl⟩ with heq | ⟨j, hj, hej⟩
  · exact ⟨idx, heq.symm, hlt, hself⟩
  · obtain ⟨idx', he, hlt', hu⟩ := hok.elems j hj
    exact ⟨idx', hej.symm.trans he, hlt', hold idx' hu⟩

end Inserted

/-- `insert` with an index and a slot makes the new entry. -/
theorem insertAt_of_slotOf (hok : Ok P T)
    (hs : SlotOf (slotKey T.hw) T.db.elems T.db.count k s) {ctx : SltCtx K D} (ix : Indexer)
    (hv : ctx.dbslotValid = true) (hslot : ctx.dbslot = s) :
    insertAt { T with indexer := ix } ctx = some (.ok, saveHandle ctx.copyin,
      T.inserted ix s ctx.tcamIndex ctx.params.key ctx.params.data) := by
  have hins : T.db.insert ctx.copyin = _ := insert_elems hok hs hv hslot
  show (T.db.insert ctx.copyin).bind _ = _
  rw [hins, Option.bind_some]
  show (T.txn.release ctx.copyin).bind _ = _
  rw [release_of_idle hok.idle, Option.bind_some]
  rfl

/-! ### An entry given up -/

/-- The TCAM without the entry of slot `s`, whose hardware index `idx` is
overwritten with `z`. -/
def removed (T : Sltcam K D) (ix : Indexer) (s idx : Nat) (z : K × D) : Sltcam K D where
  indexer := ix
  txn := T.txn
  db := ⟨T.db.count - 1, removeSlot T.db.elems s T.db.count none⟩
  hw := Function.update T.hw idx z

section Removed

variable {ix : Indexer} {z : K × D} (hok : Ok P T) (hs : s < T.db.count)
  (he : T.db.elems s = some idx)

include hok hs he

/-- The index of another slot is another index. -/
theorem index_ne (h : ∃ i < T.db.count, i ≠ s ∧ T.db.elems i = some idx') : idx' ≠ idx := by
  obtain ⟨i, hi, hne, hei⟩ := h
  rintro rfl
  exact hne (hok.sorted.inj hi hs (by rw [he, hei]))

theorem hw_removed (h : ∃ i < T.db.count, i ≠ s ∧ T.db.elems i = some idx') :
    (T.removed ix s idx z).hw idx' = T.hw idx' :=
  Function.update_of_ne (index_ne hok hs he h) _ _

theorem stores_removed :
    (T.removed ix s idx z).Stores k' d' ↔ T.Stores k' d' ∧ k' ≠ (T.hw idx).1 := by
  have hexists : ∀ idx', (∃ i < T.db.count - 1,
      removeSlot T.db.elems s T.db.count none i = some idx') ↔
        ∃ i < T.db.count, i ≠ s ∧ T.db.elems i = some idx' :=
    fun idx' => exists_removeSlot hs
  constructor
  · rintro ⟨idx', hin, hw⟩
    have hold := (hexists idx').mp hin
    rw [hw_removed hok hs he hold] at hw
    obtain ⟨i, hi, hne, hei⟩ := hold
    refine ⟨⟨idx', ⟨i, hi, hei⟩, hw⟩, fun hk => hne (hok.sorted.inj hi hs ?_)⟩
    rw [hei, he]
    show (T.hw idx').1 = (T.hw idx).1
    rw [hw, hk]
  · rintro ⟨⟨idx', ⟨i, hi, hei⟩, hw⟩, hk⟩
    have hne : i ≠ s := by
      rintro rfl
      cases he.symm.trans hei
      exact hk (by rw [hw])
    have hold : ∃ i < T.db.count, i ≠ s ∧ T.db.elems i = some idx' := ⟨i, hi, hne, hei⟩
    refine ⟨idx', (hexists idx').mpr hold, ?_⟩
    rw [hw_removed hok hs he hold]
    exact hw

theorem ok_removed (hix : ix.Ok) (hsize : ix.size = P.tableSize)
    (hused : ∀ j, ix.isUsed j = (!decide (j = idx) && T.indexer.isUsed j)) :
    Ok P (T.removed ix s idx z) := by
  have hfrom : ∀ i < T.db.count - 1, ∃ j < T.db.count, j ≠ s ∧
      T.db.elems j = removeSlot T.db.elems s T.db.count none i := fun i hi =>
    (exists_removeSlot hs).mp ⟨i, hi, rfl⟩
  refine ⟨hok.idle, hix, hsize, fun i hi => ?_, ?_, fun h0 => ?_⟩
  · obtain ⟨j, hj, hne, hej⟩ := hfrom i hi
    obtain ⟨idx', he', hlt, hu⟩ := hok.elems j hj
    have hidx := index_ne hok hs he ⟨j, hj, hne, he'⟩
    exact ⟨idx', hej.symm.trans he', hlt, by simp [removed, hused, hu, hidx]⟩
  · refine (hok.sorted.remove hs).congr fun i hi => ?_
    obtain ⟨j, hj, hne, hej⟩ := hfrom i hi
    obtain ⟨idx', he', -⟩ := hok.elems j hj
    rw [← hej, he']
    exact congrArg Prod.fst (hw_removed hok hs he ⟨j, hj, hne, he'⟩)
  · -- the last entry is in slot 0
    have h0' : T.db.count - 1 = 0 := h0
    obtain rfl : s = 0 := by omega
    show removeSlot T.db.elems 0 T.db.count none 0 = none
    rw [show T.db.count = 0 + 1 by omega]
    exact removeSlot_last

end Removed

/-! ### Get and update -/

section Calls

variable [Zero D] {params : SltParams K D}

/-- **All that a get by key can do.** -/
inductive GetPost (T : Sltcam K D) (params : SltParams K D) :
    Option (SdkRet × SltParams K D) → Prop
  | ok {d : D} {idx : Nat} (stores : T.StoresAt params.key d idx) :
      GetPost T params (some (.ok, { params with data := d, handle := null.setPindex idx }))
  | notFound (absent : ∀ d, ¬ T.Stores params.key d) :
      GetPost T params (some (.entryNotFound, params))

theorem get_post (hok : Ok P T) (hnull : params.handle = null) :
    GetPost T params (T.get P params) := by
  have hctx : (create P .get params).tcamIndexValid = false := by
    show params.handle.pvalid = false
    rw [hnull]
    rfl
  have hfind := find_post hok (create P .get params)
  unfold Sltcam.get
  simp only [hctx, Bool.false_eq_true, if_false]
  generalize T.db.find T.hw (create P .get params) = r at hfind
  cases hfind with
  | @ok slot idx lt elem key =>
    have hkey : (T.hw idx).1 = params.key := key
    have hlt := (hok.used ⟨slot, lt, elem⟩).1
    have hpost : GetPost T params _ := .ok (storesAt_of_elem lt elem hkey)
    simp only [ne_eq, not_true_eq_false, if_false, Sltcam.read, hlt, if_true, Option.bind_some]
    rw [← hnull] at hpost
    simp only [saveHandle, SltCtx.copyout, create, hkey]
    exact hpost
  | notFound slotOf => exact .notFound fun d => not_stores_of_slotOf slotOf

/-- Writing an entry again with its own key and data changes nothing. -/
theorem update_same (hok : Ok P T) (hp : params.handle.pvalid = true)
    (hw : T.hw params.handle.pindex = (params.key, params.data)) :
    T.update P params = some (.ok, params, T) := by
  have hvalid : params.handle.valid = true := by
    unfold valid
    rw [hp]
    rfl
  have hwrite : T.write (create P .update params).copyin = T := by
    show { T with hw := Function.update T.hw params.handle.pindex (params.key, params.data) } = T
    rw [← hw, Function.update_eq_self]
  unfold Sltcam.update
  simp only [validate_of_idle hok.idle]
  rw [show (create P .update params).params.handle.valid = true from hvalid, if_pos rfl,
    hwrite]
  rfl

/-! ### Insert -/

/-- **All that an insert by key can do.** -/
inductive InsertPost (P : SltProps K) (T : Sltcam K D) (params : SltParams K D) :
    Option (SdkRet × SltParams K D × Sltcam K D) → Prop
  | entryExists {p : SltParams K D} {d : D} (stores : T.Stores params.key d) :
      InsertPost P T params (some (.entryExists, p, T))
  | noResource {p : SltParams K D} (absent : ∀ d, ¬ T.Stores params.key d) :
      InsertPost P T params (some (.noResource, p, T))
  | ok {p : SltParams K D} {T' : Sltcam K D} (absent : ∀ d, ¬ T.Stores params.key d)
      (handle : p.handle.pvalid = true) (ok' : Ok P T')
      (stores : ∀ k d, T'.Stores k d ↔ (k = params.key ∧ d = params.data) ∨ T.Stores k d) :
      InsertPost P T params (some (.ok, p, T'))

theorem insert_post (hok : Ok P T) (hnull : params.handle = null) :
    InsertPost P T params (T.insert P params) := by
  have hctx : (create P .insert params).params.handle.valid = false := by
    show params.handle.valid = false
    rw [hnull]
    rfl
  have hidx : (create P .insert params).tcamIndexValid = false := by
    show params.handle.pvalid = false
    rw [hnull]
    rfl
  have hfind := find_post hok (create P .insert params)
  unfold Sltcam.insert
  simp only [validate_of_idle hok.idle]
  generalize T.db.find T.hw (create P .insert params) = r at hfind
  cases hfind with
  | ok lt elem key => exact .entryExists ⟨_, storesAt_of_elem lt elem key⟩
  | @notFound slot slotOf =>
    have habs : ∀ d, ¬ T.Stores params.key d := fun d => not_stores_of_slotOf slotOf
    simp only [hctx, Bool.false_eq_true, if_false, Sltcam.alloc, hidx]
    have hhigh : (create P .insert params).params.highest = params.highest := rfl
    rw [hhigh]
    cases ha : T.indexer.alloc (!params.highest) with
    | error e => exact .noResource habs
    | ok r =>
      obtain ⟨idx, ix⟩ := r
      obtain ⟨hlt, hfree, hused, hix, hsize⟩ := Indexer.alloc_ok hok.indexer ha
      rw [hok.size] at hlt hsize
      simp only [Option.bind_some]
      rw [insertAt_of_slotOf hok slotOf ix rfl rfl]
      have hne : ∀ i < T.db.count, T.db.elems i ≠ some idx := by
        intro i hi he
        rw [(hok.used ⟨i, hi, he⟩).2] at hfree
        cases hfree
      exact .ok habs rfl (ok_inserted hne slotOf hok hix hsize hlt (by simp [hused])
        fun j hj => by simp [hused, hj]) fun k d => stores_inserted hne slotOf

/-! ### Remove -/

theorem sltFreeLoop_one_used {ix : Indexer} {i : Nat} (hok : ix.Ok) (hi : i < ix.size)
    (hu : ix.isUsed i = true) :
    ∃ ix', sltFreeLoop ix i 1 = (true, ix') ∧
      (∀ k, ix'.isUsed k = (!decide (k = i) && ix.isUsed k)) ∧ ix'.Ok ∧ ix'.size = ix.size := by
  obtain ⟨ix', hf, hused, hok', hsize⟩ := Indexer.free_ok hok hi hu
  exact ⟨ix', by simp [sltFreeLoop, hf], hused, hok', hsize⟩

/-- `remove` of a key in the TCAM gives up its entry. -/
theorem removeKey_of_stores (hok : Ok P T) {ctx : SltCtx K D}
    (hst : T.StoresAt ctx.params.key d idx) :
    ∃ p T', T.removeKey P ctx = some (.ok, p, T') ∧ Ok P T' ∧
      ∀ k' d', T'.Stores k' d' ↔ T.Stores k' d' ∧ k' ≠ ctx.params.key := by
  have hfind := find_post hok ctx
  unfold Sltcam.removeKey
  generalize T.db.find T.hw ctx = r at hfind
  cases hfind with
  | notFound slotOf => exact absurd ⟨idx, hst⟩ (not_stores_of_slotOf slotOf)
  | @ok slot idx lt elem key =>
    obtain ⟨hsize, hu⟩ := hok.used ⟨slot, lt, elem⟩
    rw [← hok.size] at hsize
    obtain ⟨ix, hloop, hused, hix, hsz⟩ := sltFreeLoop_one_used hok.indexer hsize hu
    rw [hok.size] at hsz
    have hrem : ∀ c : SltCtx K D, c.dbslotValid = true → c.dbslot = slot →
        T.db.remove c = some ⟨T.db.count - 1, removeSlot T.db.elems slot T.db.count none⟩ := by
      rintro c hv rfl
      unfold SltDb.remove
      have : T.db.count ≠ 0 := by omega
      simp [hv, this]
    have hdealloc : ∀ (c : SltCtx K D) (db : SltDb) (hw : Nat → K × D),
        c.tcamIndexValid = true → c.tcamIndex = idx → c.params.numHandles = 1 →
        dealloc ⟨T.indexer, T.txn, db, hw⟩ c = some (.ok, ⟨ix, T.txn, db, hw⟩) := by
      rintro c db hw hv rfl hn
      have hhandles : c.params.handles = 1 := by
        rw [SltParams.handles, hn]
        rfl
      unfold Sltcam.dealloc
      rw [if_neg (by simp [hv]), hhandles, hloop]
    refine ⟨{ ctx.params with numHandles := 1 }, T.removed ix slot idx (P.clearKey, 0), ?_,
      ok_removed hok lt elem hix hsz hused, fun k' d' => ?_⟩
    · show ((T.db.remove _).bind _) = _
      rw [hrem _ rfl rfl, Option.bind_some]
      show ((T.txn.release _).bind _) = _
      rw [release_of_idle hok.idle, Option.bind_some]
      show ((dealloc ⟨T.indexer, T.txn, _, _⟩ _).bind _) = _
      rw [hdealloc _ _ _ rfl rfl rfl, Option.bind_some]
      rfl
    · rw [stores_removed hok lt elem, key]

/-- **`remove` through the handle of an entry** removes its key and nothing
else. -/
theorem remove_of_stores (hok : Ok P T) (hst : T.StoresAt k d idx)
    (hp : params.handle = null.setPindex idx) :
    ∃ p T', T.remove P params = some (.ok, p, T') ∧ Ok P T' ∧
      ∀ k' d', T'.Stores k' d' ↔ T.Stores k' d' ∧ k' ≠ k := by
  have hlt := (hok.used hst.1).1
  have hmod : idx % 2 ^ 32 = idx := by
    have := P.tableSize_le
    exact Nat.mod_eq_of_lt (by omega)
  have hindex : (create P .remove params).tcamIndex = idx := by
    show params.handle.pindex = idx
    rw [hp]
    exact hmod
  have hvalid : (create P .remove params).tcamIndexValid = true := by
    show params.handle.pvalid = true
    rw [hp]
    rfl
  unfold Sltcam.remove
  simp only [validate_of_idle hok.idle, hvalid, if_true, Sltcam.read, hindex, hlt,
    Option.bind_some, hst.2]
  exact removeKey_of_stores hok hst

end Calls

/-- A fresh TCAM is empty. -/
theorem init_ok [Zero D] (P : SltProps K) :
    Ok P (init P : Sltcam K D) ∧ ∀ k d, ¬ (init P : Sltcam K D).Stores k d := by
  obtain ⟨hix, hsize, -⟩ := Indexer.init_ok P.tableSize
  refine ⟨⟨rfl, hix, hsize, fun i hi => absurd hi (Nat.not_lt_zero i),
    fun i j _ hj => absurd hj (Nat.not_lt_zero j), fun _ => rfl⟩, ?_⟩
  rintro k d ⟨idx, ⟨i, hi, -⟩, -⟩
  exact Nat.not_lt_zero i hi

/-! ### Runs -/

/-- A TCAM and the keys that were inserted and not removed since. -/
structure Keyed (K D : Type*) where
  table : Sltcam K D
  keys : Finset K

/-- **What the index is over a run**: sorted, with one element for each key, and
a search ends at the slot of the key or at the slot where an insert of it
keeps the order. -/
structure Keyed.Indexed (s : Keyed K D) : Prop where
  sorted : SortedSlots (slotKey s.table.hw) s.table.db.elems s.table.db.count
  count : s.table.db.count = s.keys.card
  present : ∀ ctx : SltCtx K D, ctx.params.key ∈ s.keys →
    ∃ slot < s.table.db.count, ∃ idx, s.table.db.elems slot = some idx ∧
      (s.table.hw idx).1 = ctx.params.key ∧ s.table.db.find s.table.hw ctx = (.ok, { ctx with
        dbslotValid := true, dbslot := slot, tcamIndex := idx, tcamIndexValid := true })
  absent : ∀ ctx : SltCtx K D, ctx.params.key ∉ s.keys →
    ∃ slot ≤ s.table.db.count, s.table.db.find s.table.hw ctx = (.entryNotFound, { ctx with
        dbslotValid := true, dbslot := slot }) ∧
      ∀ idx d, (∀ i < s.table.db.count, s.table.db.elems i ≠ some idx) →
        ∃ db', s.table.db.insert { ctx with
            dbslotValid := true, dbslot := slot, tcamIndex := idx } = some db' ∧
          db'.elems slot = some idx ∧ db'.count = s.table.db.count + 1 ∧
          SortedSlots (slotKey (Function.update s.table.hw idx (ctx.params.key, d)))
            db'.elems db'.count

theorem Ok.indexed {s : Keyed K D} (hok : Ok P s.table)
    (hkeys : ∀ k, k ∈ s.keys ↔ ∃ d, s.table.Stores k d) : s.Indexed := by
  refine ⟨hok.sorted, ?_, fun ctx hk => ?_, fun ctx hk => ?_⟩
  · have himage : s.keys
        = (Finset.range s.table.db.count).image fun i =>
            slotKey s.table.hw (s.table.db.elems i) := by
      ext k
      simp only [hkeys, Finset.mem_image, Finset.mem_range]
      constructor
      · rintro ⟨d, idx, ⟨i, hi, he⟩, hw⟩
        exact ⟨i, hi, by rw [he]; exact congrArg Prod.fst hw⟩
      · rintro ⟨i, hi, rfl⟩
        obtain ⟨idx, he, -⟩ := hok.elems i hi
        exact ⟨_, idx, storesAt_of_elem hi he (by rw [he]; rfl)⟩
    rw [himage, Finset.card_image_of_injOn, Finset.card_range]
    intro i hi j hj hij
    exact hok.sorted.inj (Finset.mem_range.mp hi) (Finset.mem_range.mp hj) hij
  · have hfind := find_post hok ctx
    generalize s.table.db.find s.table.hw ctx = r at hfind
    cases hfind with
    | ok lt elem key => exact ⟨_, lt, _, elem, key, rfl⟩
    | notFound slotOf =>
      obtain ⟨d, hst⟩ := (hkeys _).mp hk
      exact absurd hst (not_stores_of_slotOf slotOf)
  · have hfind := find_post hok ctx
    generalize s.table.db.find s.table.hw ctx = r at hfind
    cases hfind with
    | ok lt elem key =>
      exact absurd ((hkeys _).mpr ⟨_, _, storesAt_of_elem lt elem key⟩) hk
    | @notFound slot hs =>
      exact ⟨slot, hs.le, rfl, fun idx d hne => ⟨_, insert_elems hok hs rfl rfl, insertSlot_self,
        rfl, @sorted_inserted _ _ _ P s.table _ d idx slot s.table.indexer hne hs hok⟩⟩

section Keyed

variable [Zero D]

/-- **An insert of a key that is absent, or a remove of one that is present**,
which the caller names by the key or by the handle of its entry. -/
inductive Keyed.Step (P : SltProps K) (s : Keyed K D) : Keyed K D → Prop
  | insert {p ret p' T'} (null : p.handle = null) (absent : p.key ∉ s.keys)
      (call : s.table.insert P p = some (ret, p', T')) :
      Keyed.Step P s ⟨T', if ret = .ok then Insert.insert p.key s.keys else s.keys⟩
  | remove {p k ret p' T'} (present : k ∈ s.keys)
      (names : (p.handle = null ∧ p.key = k) ∨
        ∃ d idx, p.handle = null.setPindex idx ∧ s.table.StoresAt k d idx)
      (call : s.table.remove P p = some (ret, p', T')) :
      Keyed.Step P s ⟨T', s.keys.erase k⟩

/-- `remove` of a key in the TCAM, named in either way. -/
theorem remove_of_names (hok : Ok P T) {params : SltParams K D} (hst : T.Stores k d)
    (hnames : (params.handle = null ∧ params.key = k) ∨
      ∃ d idx, params.handle = null.setPindex idx ∧ T.StoresAt k d idx) :
    ∃ p T', T.remove P params = some (.ok, p, T') ∧ Ok P T' ∧
      ∀ k' d', T'.Stores k' d' ↔ T.Stores k' d' ∧ k' ≠ k := by
  rcases hnames with ⟨hnull, rfl⟩ | ⟨d, idx, hp, hat⟩
  · obtain ⟨idx, hat⟩ := hst
    have hvalid : (create P .remove params).tcamIndexValid = false := by
      show params.handle.pvalid = false
      rw [hnull]
      rfl
    unfold Sltcam.remove
    simp only [validate_of_idle hok.idle, hvalid, Bool.false_eq_true, if_false]
    exact @removeKey_of_stores _ _ _ P T d idx _ hok (create P .remove params) hat
  · exact remove_of_stores hok hat hp

/-- **The sorted index**: over every sequence of inserts of absent keys and
removes of present keys. -/
theorem Keyed.indexed_of_reachable {s : Keyed K D}
    (hr : Reachable (· = ⟨init P, ∅⟩) (Keyed.Step P) s) : s.Indexed := by
  have hi : Ok P s.table ∧ ∀ k, k ∈ s.keys ↔ ∃ d, s.table.Stores k d := by
    refine hr.invariant (I := fun s => Ok P s.table ∧
      ∀ k, k ∈ s.keys ↔ ∃ d, s.table.Stores k d) ?_ ?_
    · rintro _ rfl
      exact ⟨(init_ok P).1, fun k => by simpa using (init_ok P).2 k⟩
    rintro s s' ⟨hok, hkeys⟩ hstep
    cases hstep with
    | @insert p ret p' T' null absent call =>
      have hpost := insert_post hok null
      rw [call] at hpost
      cases hpost with
      | entryExists | noResource => exact ⟨hok, hkeys⟩
      | ok _ _ ok' stores =>
        refine ⟨ok', fun k => ?_⟩
        rw [if_pos rfl, Finset.mem_insert, hkeys]
        simp [stores, exists_or]
    | @remove p k ret p' T' present names call =>
      obtain ⟨d, hst⟩ := (hkeys k).mp present
      obtain ⟨q, T₁, hcall, hok', hstores⟩ := remove_of_names hok hst names
      cases hcall.symm.trans call
      refine ⟨hok', fun k' => ?_⟩
      rw [Finset.mem_erase, hkeys]
      simp [hstores, and_comm]
  exact hi.1.indexed hi.2

/-- The second key goes before the first one. -/
theorem Keyed.indexed_of_reachable_two :
    ∃ s : Keyed Nat Nat, Reachable (· = ⟨init smallTcam, ∅⟩) (Keyed.Step smallTcam) s ∧
      s.keys = {3, 7} ∧ s.Indexed := by
  have h0 : Reachable (· = ⟨init smallTcam, ∅⟩) (Keyed.Step smallTcam)
      (⟨init smallTcam, ∅⟩ : Keyed Nat Nat) := .start rfl
  have h1 := h0.step (.insert (p := ⟨7, 1, null, 0, false⟩) rfl (by simp) rfl)
  have h2 := h1.step (.insert (p := ⟨3, 2, null, 0, false⟩) rfl (by simp) rfl)
  exact ⟨_, h2, rfl, Keyed.indexed_of_reachable h2⟩

end Keyed

end Sltcam

end NicSw
