/-
Equivalence classes of phase 0 (`rfc_compute_p0_itree_classes`): a sweep over a sorted
interval table that keeps the bitmap of the open rules, and gives each bitmap a class.

A class table is a list of bitmaps, and `cbm_map` finds the class of a bitmap in it; both are
changed together, so the list stands for both.

The classes of a tree are the different bitmaps of the sweep, numbered in the order in which
they come, and building fails (`SDK_ASSERT`) if and only if there are too many of them
(`runCb_classId`).
-/
import NicSw.Lib.Sweep
import NicSw.Rfc.Bitmap
import NicSw.Rfc.Itable

namespace NicSw.Rfc

open List

/-! ### Class tables -/

/-- `cbm_te_t`. -/
structure CbmTe where
  classId : Nat
  cbm : RteBitmap
  deriving DecidableEq, Repr

/-- `rfc_table_t`; `num_classes` is the length of the list. -/
structure RfcTable where
  maxClasses : Nat
  cbmTable : List CbmTe
  deriving DecidableEq, Repr

def RfcTable.numClasses (t : RfcTable) : Nat := t.cbmTable.length

/-- The bitmap of a class. -/
def RfcTable.cbmOf (t : RfcTable) (classId : Nat) : Option RteBitmap :=
  (t.cbmTable.find? fun te => te.classId = classId).map CbmTe.cbm

/-- `RFC_MAX_EQ_CLASSES`. -/
def rfcMaxEqClasses : Nat := 1024

/-- The number of slabs of a bitmap for `max_rules` bits, in whole cache lines. -/
def slabsFor (maxRules : Nat) : Nat := 8 * ((maxRules + 511) / 512)

/-- The slabs of a policy have room for its rules. -/
theorem le_slabsFor (maxRules : Nat) : maxRules ≤ 64 * slabsFor maxRules := by
  rw [slabsFor]
  omega

/-- `rfc_compute_class_id_cb`, with bitmaps of `n` slabs. -/
def rfcComputeClassIdCb (n : Nat) (t : RfcTable) (cbm : RteBitmap) : Option (Nat × RfcTable) :=
  match t.cbmTable.find? fun te => te.cbm = cbm with
  | some te => some (te.classId, t)
  | none =>
    if t.numClasses < rfcMaxEqClasses then
      some (t.numClasses, { t with
        cbmTable := t.cbmTable ++ [⟨t.numClasses, cbm.or (RteBitmap.reset n)⟩] })
    else none

/-- `rfc_tree_add_defaults`. -/
def rfcTreeAddDefaults (n : Nat) (t : RfcTable) : RfcTable :=
  { t with cbmTable := t.cbmTable ++ [⟨t.numClasses, RteBitmap.reset n⟩] }

/-! ### The sweep -/

/-- A node of a tree that has been swept. -/
structure Interval where
  key : Nat
  classId : Nat
  deriving DecidableEq, Repr

/-- A node opens or closes its rule. -/
def toggle (cbm : RteBitmap) (inode : Inode) : RteBitmap :=
  if inode.start then cbm.set inode.ruleNo else cbm.clear inode.ruleNo

/-- A callback on a list, with what is made of its answers. -/
def runCb {σ α β : Type} (cb : σ → α → Option (Nat × σ)) (mk : α → Nat → β) :
    List α → σ → Option (List β × σ)
  | [], s => some ([], s)
  | x :: xs, s => do
      let (v, s) ← cb s x
      let (ys, s) ← runCb cb mk xs s
      some (mk x v :: ys, s)

variable {σ α β : Type} {xs : List α} {cb : σ → α → Option (Nat × σ)} {ys : List β}

theorem runCb_cons_eq_some {mk : α → Nat → β} {x : α} {s s' : σ}
    (h : runCb cb mk (x :: xs) s = some (ys, s')) :
    ∃ v s1 ys', cb s x = some (v, s1) ∧ runCb cb mk xs s1 = some (ys', s') ∧
      ys = mk x v :: ys' := by
  obtain ⟨⟨v, s1⟩, hcb, h⟩ := Option.bind_eq_some_iff.mp h
  obtain ⟨⟨ys', s2⟩, hrun, h⟩ := Option.bind_eq_some_iff.mp h
  cases h
  exact ⟨v, s1, ys', hcb, hrun, rfl⟩

section Loop

variable (cb : RfcTable → RteBitmap → Inode → Option (Nat × RfcTable))

/-- The loop of `rfc_compute_p0_itree_classes`. -/
def classesLoop : List Inode → RteBitmap → RfcTable → Option (List Interval × RfcTable)
  | [], _, t => some ([], t)
  | inode :: inodes, cbm, t =>
    let cbm := toggle cbm inode
    -- the next node has the same key
    if inodes.head?.map Inode.key = some inode.key then classesLoop inodes cbm t
    else do
      let (classId, t) ← cb t cbm inode
      let (intervals, t) ← classesLoop inodes cbm t
      some (⟨inode.key, classId⟩ :: intervals, t)

/-- Classes for the bitmaps that a sweep emits. -/
def assignClasses (xs : List (Inode × RteBitmap)) (t : RfcTable) :
    Option (List Interval × RfcTable) :=
  runCb (fun t x => cb t x.2 x.1) (fun x classId => ⟨x.1.key, classId⟩) xs t

/-- The loop is a sweep, and classes for what it emits. -/
theorem classesLoop_eq (inodes : List Inode) (cbm : RteBitmap) (t : RfcTable) :
    classesLoop cb inodes cbm t = assignClasses cb (sweep Inode.key toggle inodes cbm) t := by
  induction inodes generalizing cbm t with
  | nil => rfl
  | cons inode inodes ih =>
    rw [classesLoop, sweep]
    dsimp only
    split
    · exact ih ..
    · rw [assignClasses, runCb]
      refine bind_congr fun r => ?_
      rw [ih]
      rfl

end Loop

/-! ### Classes of bitmaps -/

/-- Class ids are positions, the bitmaps are different, and the table has room for them. -/
structure RfcTable.Good (t : RfcTable) : Prop where
  classId : ∀ i (te : CbmTe), t.cbmTable[i]? = some te → te.classId = i
  nodup : (t.cbmTable.map CbmTe.cbm).Nodup
  room : t.numClasses ≤ rfcMaxEqClasses

/-- The bitmaps of a table. -/
def RfcTable.cbms (t : RfcTable) : Finset RteBitmap := (t.cbmTable.map CbmTe.cbm).toFinset

/-- `t'` has the classes of `t`. -/
def RfcTable.Extends (t' t : RfcTable) : Prop :=
  ∀ id cbm, t.cbmOf id = some cbm → t'.cbmOf id = some cbm

section Good

variable {t t' : RfcTable} {cbm : RteBitmap} {n : Nat}

theorem RfcTable.Good.cbmOf_iff (h : t.Good) {i : Nat} :
    t.cbmOf i = some cbm ↔ ∃ te, t.cbmTable[i]? = some te ∧ te.cbm = cbm := by
  rw [cbmOf, Option.map_eq_some_iff]
  constructor
  · rintro ⟨te, hfind, rfl⟩
    obtain ⟨j, hj⟩ := mem_iff_getElem?.mp (mem_of_find?_eq_some hfind)
    have hid : te.classId = i := by simpa using find?_some hfind
    rw [h.classId j te hj] at hid
    exact ⟨te, hid ▸ hj, rfl⟩
  · rintro ⟨te, hte, rfl⟩
    refine ⟨te, ?_, rfl⟩
    cases hfind : t.cbmTable.find? fun te => te.classId = i with
    | none =>
      have hnot := find?_eq_none.mp hfind te (mem_of_getElem? hte)
      exact absurd (h.classId i te hte) (by simpa using hnot)
    | some te' =>
      obtain ⟨j, hj⟩ := mem_iff_getElem?.mp (mem_of_find?_eq_some hfind)
      have hid : te'.classId = i := by simpa using find?_some hfind
      rw [h.classId j te' hj] at hid
      rw [hid, hte] at hj
      exact hj.symm

theorem RfcTable.Good.card_cbms (h : t.Good) : t.cbms.card = t.numClasses := by
  rw [cbms, toFinset_card_of_nodup h.nodup, length_map, numClasses]

theorem RfcTable.mem_cbms : cbm ∈ t.cbms ↔ ∃ te ∈ t.cbmTable, te.cbm = cbm := by
  rw [cbms, mem_toFinset, mem_map]

/-- The class of a bitmap. -/
def RfcTable.classOf (t : RfcTable) (cbm : RteBitmap) : Nat :=
  ((t.cbmTable.find? fun te => te.cbm = cbm).map CbmTe.classId).getD 0

/-- A bitmap has one class. -/
theorem RfcTable.Good.classOf_eq (h : t.Good) {id : Nat} (hid : t.cbmOf id = some cbm) :
    t.classOf cbm = id := by
  obtain ⟨te, hte, hcbm⟩ := h.cbmOf_iff.mp hid
  have hlt : id < (t.cbmTable.map CbmTe.cbm).length := by
    rw [length_map]
    exact (List.getElem?_eq_some_iff.mp hte).1
  rw [classOf]
  cases hfind : t.cbmTable.find? fun te => te.cbm = cbm with
  | none =>
    have hnot := find?_eq_none.mp hfind te (mem_of_getElem? hte)
    exact absurd hcbm (by simpa using hnot)
  | some te' =>
    obtain ⟨j, hj⟩ := mem_iff_getElem?.mp (mem_of_find?_eq_some hfind)
    have hcbm' : te'.cbm = cbm := by simpa using find?_some hfind
    have hidx : id = j := by
      refine (getElem?_inj hlt h.nodup).mp ?_
      rw [getElem?_map, getElem?_map, hte, hj, Option.map_some, Option.map_some, hcbm, hcbm']
    rw [Option.map_some, Option.getD_some, h.classId j te' hj, hidx]

/-- A bitmap of the table has a class. -/
theorem RfcTable.Good.cbmOf_classOf (h : t.Good) (hcbm : cbm ∈ t.cbms) :
    t.cbmOf (t.classOf cbm) = some cbm := by
  obtain ⟨te, hmem, hte⟩ := RfcTable.mem_cbms.mp hcbm
  obtain ⟨i, hi⟩ := mem_iff_getElem?.mp hmem
  have hof : t.cbmOf i = some cbm := h.cbmOf_iff.mpr ⟨te, hi, hte⟩
  rw [h.classOf_eq hof, hof]

/-- A new class. -/
theorem RfcTable.Good.concat (h : t.Good) (hcbm : cbm ∉ t.cbms)
    (hroom : t.numClasses < rfcMaxEqClasses)
    (ht' : t'.cbmTable = t.cbmTable ++ [⟨t.numClasses, cbm⟩]) :
    t'.Good ∧ t'.cbms = insert cbm t.cbms ∧ t'.cbmOf t.numClasses = some cbm ∧ t'.Extends t := by
  have hgood : t'.Good := by
    refine ⟨fun i te hte => ?_, ?_, ?_⟩
    · rw [ht', getElem?_append] at hte
      split at hte
      · exact h.classId i te hte
      rename_i hge
      rw [getElem?_singleton] at hte
      split at hte
      · cases hte
        show t.cbmTable.length = i
        omega
      · cases hte
    · rw [ht', map_append, map_cons, map_nil, nodup_append]
      refine ⟨h.nodup, by simp, ?_⟩
      intro b hb c hc
      rw [mem_singleton.mp hc]
      rintro rfl
      exact hcbm (mem_toFinset.mpr hb)
    · rw [numClasses, ht', length_append]
      exact hroom
  refine ⟨hgood, ?_, ?_, ?_⟩
  · ext b
    simp [cbms, ht']
  · refine hgood.cbmOf_iff.mpr ⟨⟨t.numClasses, cbm⟩, ?_, rfl⟩
    rw [ht', numClasses, getElem?_concat_length]
  · intro id b hb
    obtain ⟨te, hte, rfl⟩ := h.cbmOf_iff.mp hb
    refine hgood.cbmOf_iff.mpr ⟨te, ?_, rfl⟩
    rw [ht', List.getElem?_append_left (List.getElem?_eq_some_iff.mp hte).1, hte]

/-- **The class of a bitmap**: the one that it has, or a new one if there is room. -/
theorem rfcComputeClassIdCb_spec (h : t.Good) (hlen : cbm.length = n) :
    (insert cbm t.cbms).card ≤ rfcMaxEqClasses ∧
        (∃ id t', rfcComputeClassIdCb n t cbm = some (id, t') ∧ t'.Good ∧
          t'.cbms = insert cbm t.cbms ∧ t'.cbmOf id = some cbm ∧ t'.Extends t ∧
          t'.maxClasses = t.maxClasses) ∨
      rfcMaxEqClasses < (insert cbm t.cbms).card ∧ rfcComputeClassIdCb n t cbm = none := by
  rw [rfcComputeClassIdCb]
  cases hfind : t.cbmTable.find? fun te => te.cbm = cbm with
  | some te =>
    have hmem : te ∈ t.cbmTable := mem_of_find?_eq_some hfind
    have hte : te.cbm = cbm := by simpa using find?_some hfind
    have hin : insert cbm t.cbms = t.cbms :=
      Finset.insert_eq_self.mpr (RfcTable.mem_cbms.mpr ⟨te, hmem, hte⟩)
    obtain ⟨i, hi⟩ := mem_iff_getElem?.mp hmem
    have hof : t.cbmOf te.classId = some cbm :=
      h.cbmOf_iff.mpr ⟨te, (h.classId i te hi).symm ▸ hi, hte⟩
    rw [hin, h.card_cbms]
    exact .inl ⟨h.room, te.classId, t, rfl, h, rfl, hof, fun _ _ h => h, rfl⟩
  | none =>
    have hnot : cbm ∉ t.cbms := by
      intro hin
      obtain ⟨te, hmem, hte⟩ := RfcTable.mem_cbms.mp hin
      exact absurd hte (by simpa using find?_eq_none.mp hfind te hmem)
    rw [Finset.card_insert_of_notMem hnot, h.card_cbms, RteBitmap.or_reset hlen]
    by_cases hroom : t.numClasses < rfcMaxEqClasses
    · obtain ⟨hgood, hcbms, hof, hext⟩ := @RfcTable.Good.concat t
        { t with cbmTable := t.cbmTable ++ [⟨t.numClasses, cbm⟩] } cbm h hnot hroom rfl
      exact .inl ⟨hroom, t.numClasses, _, if_pos hroom, hgood, hcbms, hof, hext, rfl⟩
    · exact .inr ⟨Nat.lt_succ_of_le (Nat.le_of_not_lt hroom), if_neg hroom⟩

end Good

/-- `rfc_compute_class_id_cb` does not look at the node. -/
def classIdCb (n : Nat) (t : RfcTable) (cbm : RteBitmap) (_inode : Inode) :
    Option (Nat × RfcTable) :=
  rfcComputeClassIdCb n t cbm

theorem assignClasses_classIdCb (n : Nat) (xs : List (Inode × RteBitmap)) (t : RfcTable) :
    assignClasses (classIdCb n) xs t
      = runCb (fun t x => rfcComputeClassIdCb n t x.2) (fun x id => ⟨x.1.key, id⟩) xs t := rfl

/-- The bitmaps of some items. -/
def bitmapsOf {α : Type} (f : α → RteBitmap) (xs : List α) : Finset RteBitmap :=
  (xs.map f).toFinset

/-- Each of `ys` is made of an item and of the class of its bitmap in `t`. -/
def Assigned {α β : Type} (f : α → RteBitmap) (mk : α → Nat → β) (t : RfcTable) (ys : List β)
    (xs : List α) : Prop :=
  List.Forall₂ (fun y x => ∃ id, y = mk x id ∧ t.cbmOf id = some (f x)) ys xs

theorem Assigned.exists_mem {f : α → RteBitmap} {mk : α → Nat → β} {t : RfcTable}
    (h : Assigned f mk t ys xs) : ∀ y ∈ ys, ∃ x ∈ xs, ∃ id, y = mk x id ∧ t.cbmOf id = some (f x) := by
  induction h with
  | nil => exact fun _ hy => absurd hy not_mem_nil
  | cons hx _ ih =>
    intro y hy
    rcases mem_cons.mp hy with rfl | hy
    · exact ⟨_, mem_cons_self, hx⟩
    · obtain ⟨x, hx, hid⟩ := ih y hy
      exact ⟨x, mem_cons_of_mem _ hx, hid⟩

/-- **Classes of a list of bitmaps**: one for each, if there is room for all of them. -/
theorem runCb_classId {n : Nat} {f : α → RteBitmap} {mk : α → Nat → β} {t : RfcTable} (h : t.Good)
    (hlen : ∀ x ∈ xs, (f x).length = n) :
    (t.cbms ∪ bitmapsOf f xs).card ≤ rfcMaxEqClasses ∧
        (∃ ys t', runCb (fun t x => rfcComputeClassIdCb n t (f x)) mk xs t = some (ys, t') ∧
          t'.Good ∧ t'.cbms = t.cbms ∪ bitmapsOf f xs ∧ t'.Extends t ∧
          t'.maxClasses = t.maxClasses ∧ Assigned f mk t' ys xs) ∨
      rfcMaxEqClasses < (t.cbms ∪ bitmapsOf f xs).card ∧
        runCb (fun t x => rfcComputeClassIdCb n t (f x)) mk xs t = none := by
  induction xs generalizing t with
  | nil =>
    have hnil : t.cbms ∪ bitmapsOf f [] = t.cbms := by simp [bitmapsOf]
    rw [hnil, h.card_cbms]
    exact .inl ⟨h.room, [], t, rfl, h, rfl, fun _ _ h => h, rfl, .nil⟩
  | cons x xs ih =>
    obtain ⟨hx, hxs⟩ := forall_mem_cons.mp hlen
    have hcons : t.cbms ∪ bitmapsOf f (x :: xs) = insert (f x) t.cbms ∪ bitmapsOf f xs := by
      simp [bitmapsOf]
    rw [hcons, runCb]
    rcases rfcComputeClassIdCb_spec h hx with
      ⟨_, id, t1, hcb, hgood, hcbms, hof, hext, hmax⟩ | ⟨hlt, hcb⟩
    · rcases ih hgood hxs with
        ⟨hle, ys, t2, hrun, hgood2, hcbms2, hext2, hmax2, has⟩ | ⟨hlt, hrun⟩
      · rw [hcbms] at hle hcbms2
        refine .inl ⟨hle, mk x id :: ys, t2, ?_, hgood2, hcbms2, ?_, hmax2.trans hmax, ?_⟩
        · simp [hcb, hrun]
        · exact fun i b hb => hext2 i b (hext i b hb)
        · exact .cons ⟨id, rfl, hext2 _ _ hof⟩ has
      · rw [hcbms] at hlt
        exact .inr ⟨hlt, by simp [hcb, hrun]⟩
    · refine .inr ⟨lt_of_lt_of_le hlt (Finset.card_le_card Finset.subset_union_left), ?_⟩
      simp [hcb]

end NicSw.Rfc
