/-
The indexer over a DPDK bitmap (`rte_indexer.cc`).

A set bit is a free index.  `alloc` scans a cached slab behind the index it gave
last and falls back on the circular scan of the bitmap.  The cache is refreshed
only on some paths, but the slab is read again before it is scanned, so nothing
depends on it.

`alloc_block` looks at the words behind the bitmap as well: when no slab is left
its search still reads the next word, and takes what it finds there for free
indexes.  What stands there is not the indexer's, so each call gets it as an
argument.
-/
import Mathlib.Order.Interval.Finset.Nat
import NicSw.Lib.Run
import NicSw.Sdk.RteBitmap
import NicSw.Sdk.Table

namespace NicSw

open RteBitmap Finset

/-- `rte_indexer`. -/
structure RteIndexer where
  /-- `size_`. -/
  size : Nat
  /-- `indexer_`. -/
  bits : RteBitmap
  /-- `usage_`. -/
  usage : Nat
  /-- `curr_index_`. -/
  currIndex : Nat
  /-- `curr_slab_`. -/
  currSlab : BitVec 64

namespace RteIndexer

/-! ### Single indexes -/

/-- `set_curr_slab_`. -/
def setCurrSlab (x : RteIndexer) (pos : Nat) : RteIndexer :=
  { x with currSlab := x.bits.array2 (pos / 64) }

/-- `rte_compare_indexes`: both in one slab of `array1`. -/
def compareIndexes (index1 index2 : Nat) : Bool := index1 / 2 ^ 15 == index2 / 2 ^ 15

/-- The cached slab is read again if `index` may be in it. -/
def refresh (x : RteIndexer) (index : Nat) : RteIndexer :=
  if compareIndexes x.currIndex index then x.setCurrSlab x.currIndex else x

/-- The end of `alloc`: the index is taken and becomes the current one. -/
def take (x : RteIndexer) (index : Nat) : RteIndexer :=
  let x := setCurrSlab { x with bits := x.bits.clear index, currIndex := index } index
  { x with usage := x.usage + 1 }

/-- `alloc` without the cache: the circular scan. -/
def allocScan (x : RteIndexer) (S : Bitmap.Scan) (nextpos : Nat) :
    Except SdkRet Nat × RteIndexer :=
  match x.bits.scan S nextpos 0#64 with
  | (true, (pos, slab), bits) =>
    let index := pos + (lowestSet slab).getD pos
    (.ok index, { x with bits := bits }.take index)
  | (false, _, bits) => (.error .noResource, { x with bits := bits })

/-- `alloc(&index)`. -/
def alloc (x : RteIndexer) (S : Bitmap.Scan) : Except SdkRet Nat × RteIndexer :=
  if x.size = 0 ∨ x.size ≤ x.usage then (.error .noResource, x)
  else if x.currSlab ≠ 0#64 then
    let x := x.setCurrSlab x.currIndex
    let offset := x.currIndex % 64
    match slabScan x.currSlab offset with
    | some nextpos =>
      let index := x.currIndex + nextpos - offset
      (.ok index, x.take index)
    | none => x.allocScan S (x.currIndex - offset)
  else x.allocScan S 0

/-- `alloc(index)`. -/
def allocAt (x : RteIndexer) (index : Nat) : SdkRet × RteIndexer :=
  if x.size ≤ index then (.oob, x)
  else if !x.bits.get index then (.entryExists, x)
  else
    let x := { x with bits := x.bits.clear index }.refresh index
    (.ok, { x with usage := x.usage + 1 })

/-! ### Blocks -/

/-- A word of `array2` as `alloc_block` reads it: the words from `array2_size` on
stand behind the bitmap. -/
def slabAt (x : RteIndexer) (behind : Nat → BitVec 64) (index2 : Nat) : BitVec 64 :=
  if index2 < x.bits.array2Size then x.bits.array2 index2 else behind index2

/-- The loop of `alloc_block`, at most `fuel` rounds: where the block ends.  A round
goes on in the block or to a later slab, so `blockFuel` is enough. -/
def blockLoop (x : RteIndexer) (behind : Nat → BitVec 64) (size : Nat) :
    Nat → Nat → Nat → Nat → Option Nat
  | 0, _, _, _ => none
  | fuel + 1, start, currSize, nextpos =>
    if currSize = 0 then some start
    else
      let index2 := start / 64
      let slab2 := x.slabAt behind index2
      let slabSize := blockSize start currSize
      let next := (lowestSet (x.slabAt behind (index2 + 1))).getD nextpos
      if checkSlabSet (start % 64) slab2 slabSize then
        x.blockLoop behind size fuel (start + slabSize) (currSize - slabSize) nextpos
      else if index2 < x.bits.array2Size then
        -- `slab_size` is `curr_size` at most, so the first branch is never taken
        if currSize < slabSize then
          match slabScan slab2 start with
          | none => x.blockLoop behind size fuel ((index2 + 1) * 64 + next) size next
          | some pos => x.blockLoop behind size fuel pos size pos
        else x.blockLoop behind size fuel ((index2 + 1) * 64 + next) size next
      else none

/-- Rounds enough for the loop. -/
def blockFuel (x : RteIndexer) (size : Nat) : Nat := (x.bits.array2Size + 2) * (size + 1)

/-- The end of `alloc_block`: the block is taken. -/
def takeBlock (x : RteIndexer) (start size : Nat) : RteIndexer :=
  let x := { x with bits := x.bits.clearSlabs start size }.refresh start
  { x with usage := x.usage + size }

/-- `alloc_block(&index, size)`. -/
def allocBlock (x : RteIndexer) (behind : Nat → BitVec 64) (size : Nat) :
    Except SdkRet Nat × RteIndexer :=
  if x.size = 0 ∨ x.size < x.usage + size then (.error .noResource, x)
  else
    match x.bits.leftmostSlabScan with
    | none => (.error .noResource, x)
    | some start =>
      match x.blockLoop behind size (x.blockFuel size) start size 0 with
      | some fin => (.ok (fin - size), x.takeBlock (fin - size) size)
      | none => (.error .noResource, x)

/-- The loop of `alloc_block(index, size)`; a round takes one index at least. -/
def checkLoop (x : RteIndexer) (behind : Nat → BitVec 64) : Nat → Nat → Nat → Bool
  | 0, _, currSize => currSize == 0
  | fuel + 1, start, currSize =>
    if currSize = 0 then true
    else
      let slabSize := blockSize start currSize
      if checkSlabSet (start % 64) (x.slabAt behind (start / 64)) slabSize then
        x.checkLoop behind fuel (start + slabSize) (currSize - slabSize)
      else false

/-- `alloc_block(index, size)`. -/
def allocBlockAt (x : RteIndexer) (behind : Nat → BitVec 64) (index size : Nat) :
    SdkRet × RteIndexer :=
  if x.size = 0 ∨ x.size < x.usage + size then (.noResource, x)
  else if x.checkLoop behind size index size then (.ok, x.takeBlock index size)
  else (.noResource, x)

/-- `free`. -/
def free (x : RteIndexer) (index blockSize : Nat) : SdkRet × RteIndexer :=
  if x.size ≤ index then (.oob, x)
  else if x.bits.get index then (.entryNotFound, x)
  else
    let x := { x with bits := x.bits.setSlabs index blockSize }.refresh index
    let x := { x with usage := x.usage - blockSize }
    if x.usage = 0 then (.ok, { x with currIndex := 0, currSlab := 0#64, bits := x.bits.scanInit })
    else (.ok, x)

/-- `init_`; `none` if index `0` cannot be skipped.  An indexer of size `0` has no
bitmap. -/
def init (size : Nat) (skipZero : Bool) : Option RteIndexer :=
  let x : RteIndexer :=
    { size := size
      bits := if size = 0 then .init 0 else .initFree size
      usage := 0, currIndex := 0, currSlab := 0#64 }
  if skipZero then
    match x.allocAt 0 with
    | (.ok, x) => some (setCurrSlab { x with currIndex := 0 } 0)
    | _ => none
  else some x

/-! ### The indexes -/

/-- The index is below the size and not given out. -/
def Free (x : RteIndexer) (k : Nat) : Prop := k < x.size ∧ x.bits.get k = true

/-- The indexes that are given out. -/
def allocated (x : RteIndexer) : Finset Nat :=
  (Finset.range x.size).filter fun k => x.bits.get k = false

/-- The words behind the bitmap read as zero. -/
def ClearBehind (x : RteIndexer) (behind : Nat → BitVec 64) : Prop :=
  ∀ w, x.bits.array2Size ≤ w → behind w = 0#64

/-- What a client does, where `P` says what may stand behind the bitmap when it asks
for a block.  It frees indexes that are given out: a block that it was given, or a
part of it. -/
inductive Step (S : Bitmap.Scan) (P : RteIndexer → (Nat → BitVec 64) → Prop) (x : RteIndexer) :
    RteIndexer → Prop
  | alloc : Step S P x (x.alloc S).2
  | allocAt (index : Nat) : Step S P x (x.allocAt index).2
  | allocBlock {behind : Nat → BitVec 64} (hbehind : P x behind) (size : Nat) :
      Step S P x (x.allocBlock behind size).2
  | allocBlockAt {behind : Nat → BitVec 64} (hbehind : P x behind) (index size : Nat) :
      Step S P x (x.allocBlockAt behind index size).2
  | free {index blockSize : Nat}
      (hgiven : ∀ k, index ≤ k → k < index + blockSize → k ∈ x.allocated) :
      Step S P x (x.free index blockSize).2

/-- The indexer is reached by such a history. -/
def Reached (S : Bitmap.Scan) (P : RteIndexer → (Nat → BitVec 64) → Prop) (size : Nat)
    (skipZero : Bool) : RteIndexer → Prop :=
  Reachable (fun x => init size skipZero = some x) (Step S P)

/-- **Invariant.** -/
structure Inv (x : RteIndexer) : Prop where
  ready : x.bits.Ready
  below : ∀ k, x.bits.get k = true → k < x.size
  lines : ∀ k < x.size, k / 512 < x.bits.array1Size * 64
  slabs : x.size ≤ x.bits.array2Size * 64
  usage : x.usage = x.allocated.card

variable {x x' : RteIndexer} {S : Bitmap.Scan} {index start n size : Nat}
  {behind : Nat → BitVec 64} {k currSize fuel : Nat}

theorem mem_allocated : k ∈ x.allocated ↔ k < x.size ∧ x.bits.get k = false := by
  unfold allocated
  rw [mem_filter, mem_range]

/-- A block is given out: its indexes are counted. -/
theorem card_allocated (start : Nat) (hsize : x'.size = x.size)
    (hfree : ∀ k, start ≤ k → k < start + n → x.Free k)
    (hget : ∀ k, x'.bits.get k = x.bits.filled start n false k) :
    x'.allocated.card = x.allocated.card + n := by
  have hunion : x'.allocated = x.allocated ∪ Finset.Ico start (start + n) := by
    ext k
    rw [mem_union, mem_Ico, mem_allocated, mem_allocated, hsize, hget]
    unfold filled
    by_cases hin : start ≤ k ∧ k < start + n
    · rw [if_pos hin]
      exact iff_of_true ⟨(hfree k hin.1 hin.2).1, rfl⟩ (.inr hin)
    · rw [if_neg hin, or_iff_left hin]
  have hdisj : Disjoint x.allocated (Finset.Ico start (start + n)) := by
    rw [disjoint_left]
    intro k hk hin
    obtain ⟨h1, h2⟩ := mem_Ico.mp hin
    have hclear := (mem_allocated.mp hk).2
    rw [(hfree k h1 h2).2] at hclear
    cases hclear
  rw [hunion, card_union_of_disjoint hdisj, Nat.card_Ico, Nat.add_sub_cancel_left]

/-- A block is given out. -/
theorem Inv.mark (h : x.Inv) (start n : Nat) (hfree : ∀ k, start ≤ k → k < start + n → x.Free k)
    (hsets : x.bits.Sets x'.bits (x.bits.filled start n false)) (hsize : x'.size = x.size)
    (husage : x'.usage = x.usage + n) : x'.Inv := by
  refine ⟨hsets.ready, fun k hk => ?_, fun k hk => ?_, ?_, ?_⟩
  · rw [hsets.get] at hk
    unfold filled at hk
    split at hk
    · cases hk
    · rw [hsize]
      exact h.below k hk
  · rw [hsets.array1Size]
    exact h.lines k (hsize ▸ hk)
  · rw [hsize, hsets.array2Size]
    exact h.slabs
  · rw [husage, h.usage, card_allocated start hsize hfree hsets.get]

/-- A block is given back. -/
theorem Inv.unmark (h : x.Inv) (hgiven : ∀ k, start ≤ k → k < start + n → k ∈ x.allocated)
    (hsets : x.bits.Sets x'.bits (x.bits.filled start n true)) (hsize : x'.size = x.size)
    (husage : x'.usage = x.usage - n) : x'.Inv := by
  refine ⟨hsets.ready, fun k hk => ?_, fun k hk => ?_, ?_, ?_⟩
  · rw [hsets.get] at hk
    unfold filled at hk
    rw [hsize]
    split at hk
    · rename_i hin
      exact (mem_allocated.mp (hgiven k hin.1 hin.2)).1
    · exact h.below k hk
  · rw [hsets.array1Size]
    exact h.lines k (hsize ▸ hk)
  · rw [hsize, hsets.array2Size]
    exact h.slabs
  · -- giving the block out again would lead back
    have hcard : x.allocated.card = x'.allocated.card + n := by
      refine card_allocated start hsize.symm (fun k h1 h2 => ⟨?_, ?_⟩) fun k => ?_
      · rw [hsize]
        exact (mem_allocated.mp (hgiven k h1 h2)).1
      · rw [hsets.get]
        exact if_pos ⟨h1, h2⟩
      · unfold filled
        split
        · rename_i hin
          exact (mem_allocated.mp (hgiven k hin.1 hin.2)).2
        · rename_i hout
          rw [hsets.get]
          exact (if_neg hout).symm
    rw [husage, h.usage, hcard, Nat.add_sub_cancel]

/-- Only the cursor and the cache differ. -/
theorem Inv.same (h : x.Inv) (hsame : x.bits.Same x'.bits) (hsize : x'.size = x.size)
    (husage : x'.usage = x.usage) : x'.Inv := by
  refine ⟨hsame.ready h.ready, fun k hk => ?_, fun k hk => ?_, ?_, ?_⟩
  · rw [hsize]
    exact h.below k (hsame.get k ▸ hk)
  · rw [hsame.array1Size]
    exact h.lines k (hsize ▸ hk)
  · rw [hsize, hsame.array2Size]
    exact h.slabs
  · rw [husage, h.usage]
    unfold allocated
    rw [hsize]
    simp only [hsame.get]

theorem Inv.fits (h : x.Inv) (hbelow : ∀ k, start ≤ k → k < start + n → k < x.size) :
    x.bits.Fits start n :=
  fun k h1 h2 => h.lines k (hbelow k h1 h2)

/-! ### Single indexes keep the invariant -/

@[simp] theorem refresh_bits (x : RteIndexer) (index : Nat) : (x.refresh index).bits = x.bits := by
  unfold refresh
  split <;> rfl

@[simp] theorem refresh_size (x : RteIndexer) (index : Nat) : (x.refresh index).size = x.size := by
  unfold refresh
  split <;> rfl

@[simp] theorem refresh_usage (x : RteIndexer) (index : Nat) :
    (x.refresh index).usage = x.usage := by
  unfold refresh
  split <;> rfl

/-- `rte_bitmap_clear` takes a block of one index. -/
theorem Inv.clear (h : x.Inv) (index : Nat) :
    x.bits.Sets (x.bits.clear index) (x.bits.filled index 1 false) := by
  have hsets := h.ready.clear index
  refine ⟨hsets.ready, fun k => ?_, hsets.array1Size, hsets.array2Size⟩
  rw [hsets.get]
  unfold filled
  split
  · rename_i hin
    have heq : k = index := by omega
    rw [decide_eq_true heq, Bool.not_true, Bool.false_and]
  · rename_i hout
    have hne : ¬ k = index := by omega
    rw [decide_eq_false hne, Bool.not_false, Bool.true_and]

theorem Inv.take (h : x.Inv) (hfree : x.Free index) : (x.take index).Inv := by
  refine h.mark index 1 (fun k h1 h2 => ?_) (h.clear index) rfl rfl
  rwa [show k = index by omega]

/-- What `alloc` may answer. -/
inductive AllocPost (x : RteIndexer) : Except SdkRet Nat × RteIndexer → Prop
  | ok {index : Nat} {x' : RteIndexer} (hfree : x.Free index) (hinv : x'.Inv) :
      AllocPost x (.ok index, x')
  | full {x' : RteIndexer} (hfull : ∀ k, ¬ x.Free k) (hinv : x'.Inv) :
      AllocPost x (.error .noResource, x')

/-- The scan finds a free index if there is one, wherever its cursor is. -/
theorem Inv.allocScan (h : x.Inv) (nextpos : Nat) : AllocPost x (x.allocScan S nextpos) := by
  obtain ⟨hsame, hfound, hnone⟩ := h.ready.scan S nextpos 0#64
  unfold RteIndexer.allocScan
  split
  · rename_i pos slab bits hscan
    rw [hscan] at hsame hfound
    obtain ⟨hpos, hslab, hne⟩ := hfound rfl
    dsimp only at hsame hpos hslab hne
    obtain ⟨i, hi⟩ := exists_lowestSet hne
    obtain ⟨hlt, hbit, -⟩ := lowestSet_eq_some hi
    have hbits : x.bits.get (pos + i) = true := by
      unfold RteBitmap.get Bitmap.test
      rw [show (pos + i) / 64 = pos / 64 by omega, show (pos + i) % 64 = i by omega, ← hslab]
      exact hbit
    have hfree : x.Free (pos + i) := ⟨h.below _ hbits, hbits⟩
    rw [hi, Option.getD_some]
    have hinv : Inv { x with bits := bits } := h.same hsame rfl rfl
    exact .ok hfree (hinv.take ⟨hfree.1, (hsame.get _).trans hbits⟩)
  · rename_i r bits hscan
    rw [hscan] at hsame hnone
    refine .full (fun k hk => ?_) (h.same hsame rfl rfl)
    have hset := hk.2
    have hlt := hk.1
    have hslabs := h.slabs
    rw [RteBitmap.get, Bitmap.word_eq_zero.mp (hnone rfl (k / 64) (by omega)) k rfl] at hset
    cases hset

/-- **`alloc`** gives out a free index if there is one. -/
theorem Inv.alloc (h : x.Inv) : AllocPost x (x.alloc S) := by
  unfold RteIndexer.alloc
  split
  · rename_i hfull
    refine .full (fun k hk => ?_) h
    have hlt : x.allocated.card < x.size := by
      have hss : x.allocated ⊂ Finset.range x.size := by
        refine filter_ssubset.mpr ⟨k, mem_range.mpr hk.1, ?_⟩
        rw [hk.2]
        decide
      simpa using card_lt_card hss
    have husage := h.usage
    omega
  · split
    · have hinv : Inv (x.setCurrSlab x.currIndex) := h.same (RteBitmap.Same.refl _) rfl rfl
      dsimp only
      split
      · rename_i nextpos hscan
        obtain ⟨hlt, hbit⟩ := slabScan_some (Nat.mod_lt _ (by decide)) hscan
        have hidx : x.currIndex + nextpos - x.currIndex % 64
            = x.currIndex / 64 * 64 + nextpos := by omega
        have hbits : x.bits.get (x.currIndex / 64 * 64 + nextpos) = true := by
          unfold RteBitmap.get
          rw [Bitmap.test_word _ _ hlt]
          exact hbit
        have hfree : x.Free (x.currIndex / 64 * 64 + nextpos) := ⟨h.below _ hbits, hbits⟩
        have hsame : (x.setCurrSlab x.currIndex).currIndex = x.currIndex := rfl
        rw [hsame, hidx]
        exact .ok hfree (hinv.take hfree)
      · have hpost := hinv.allocScan (S := S) ((x.setCurrSlab x.currIndex).currIndex
          - (x.setCurrSlab x.currIndex).currIndex % 64)
        generalize (x.setCurrSlab x.currIndex).allocScan S _ = r at hpost ⊢
        cases hpost with
        | ok hfree hx' => exact .ok hfree hx'
        | full hfull hx' => exact .full hfull hx'
    · exact h.allocScan 0

theorem AllocPost.inv {r : Except SdkRet Nat × RteIndexer} (h : AllocPost x r) : r.2.Inv := by
  cases h with
  | ok _ hinv => exact hinv
  | full _ hinv => exact hinv

theorem Inv.allocAt (h : x.Inv) (index : Nat) : (x.allocAt index).2.Inv := by
  unfold RteIndexer.allocAt
  split
  · exact h
  rename_i hlt
  split
  · exact h
  rename_i hget
  refine h.mark index 1 (fun k h1 h2 => ?_) ?_ ?_ ?_
  · rw [show k = index by omega]
    exact ⟨Nat.not_le.mp hlt, by simpa using hget⟩
  · simpa using h.clear index
  · simp
  · simp

/-! ### Blocks keep the invariant -/

/-- The index is free as `alloc_block` reads the bitmap. -/
def reads (x : RteIndexer) (behind : Nat → BitVec 64) (k : Nat) : Bool :=
  Bitmap.test (x.slabAt behind) k

/-- The indexes from `start` on read as free, `n` of them. -/
def RunAt (x : RteIndexer) (behind : Nat → BitVec 64) (start n : Nat) : Prop :=
  ∀ k, start ≤ k → k < start + n → x.reads behind k = true

/-- What a round checks. -/
theorem checkSlabSet_run :
    checkSlabSet (start % 64) (x.slabAt behind (start / 64))
        (blockSize start currSize) = true ↔
      x.RunAt behind start (blockSize start currSize) := by
  have hle : start % 64 + blockSize start currSize ≤ 64 := by
    unfold blockSize
    split <;> omega
  rw [checkSlabSet_iff (Nat.mod_lt _ (by decide))]
  constructor
  · intro h k h1 h2
    have hbit := h (k % 64) (Nat.mod_lt _ (by decide)) (by omega) (by omega)
    unfold reads Bitmap.test
    rwa [show k / 64 = start / 64 by omega]
  · intro h i hi h1 h2
    have hbit := h (start / 64 * 64 + i) (by omega) (by omega)
    unfold reads at hbit
    rwa [Bitmap.test_word _ _ hi] at hbit

theorem RunAt.append {m : Nat} (h1 : x.RunAt behind start n) (h2 : x.RunAt behind (start + n) m) :
    x.RunAt behind start (n + m) := by
  intro k hk hk'
  rcases Nat.lt_or_ge k (start + n) with hlt | hge
  · exact h1 k hk hlt
  · exact h2 k hge (by omega)

theorem runAt_zero (start : Nat) : x.RunAt behind start 0 := fun _ h1 h2 => by omega

/-- **The block that the loop of `alloc_block` finds reads as free.**  `first` is where
the current attempt began. -/
theorem blockLoop_sound {nextpos first fin : Nat} (hle : currSize ≤ size)
    (hstart : start = first + (size - currSize)) (hrun : x.RunAt behind first (size - currSize))
    (h : x.blockLoop behind size fuel start currSize nextpos = some fin) :
    ∃ begin, fin = begin + size ∧ x.RunAt behind begin size := by
  induction fuel generalizing start currSize nextpos first with
  | zero => cases h
  | succ fuel ih =>
    -- a new attempt has found nothing yet
    have hnew : ∀ {start nextpos : Nat},
        x.blockLoop behind size fuel start size nextpos = some fin →
          ∃ begin, fin = begin + size ∧ x.RunAt behind begin size := by
      intro start nextpos hrest
      have hzero : x.RunAt behind start (size - size) := Nat.sub_self size ▸ runAt_zero start
      exact ih (Nat.le_refl size) (by omega : start = start + (size - size)) hzero hrest
    rw [blockLoop] at h
    split at h
    · rename_i h0
      subst h0
      exact ⟨first, (Option.some.inj h).symm.trans hstart, hrun⟩
    dsimp only at h
    split at h
    · rename_i hfree
      have hblock := blockSize_le start currSize
      refine ih (by omega) (by omega : _ = first + _) ?_ h
      rw [show size - (currSize - blockSize start currSize)
        = size - currSize + blockSize start currSize by omega]
      exact hrun.append (hstart ▸ checkSlabSet_run.mp hfree)
    · split at h
      · split at h
        · split at h
          · exact hnew h
          · exact hnew h
        · exact hnew h
      · cases h

theorem checkLoop_sound (hle : currSize ≤ fuel) (h : x.checkLoop behind fuel start currSize = true) :
    x.RunAt behind start currSize := by
  induction fuel generalizing start currSize with
  | zero =>
    obtain rfl : currSize = 0 := by omega
    exact runAt_zero start
  | succ fuel ih =>
    rw [checkLoop] at h
    split at h
    · rename_i h0
      subst h0
      exact runAt_zero start
    rename_i h0
    dsimp only at h
    split at h
    · rename_i hfree
      have hpos := blockSize_pos start h0
      have hblock := blockSize_le start currSize
      have hrest := (checkSlabSet_run.mp hfree).append (ih (by omega) h)
      rwa [Nat.add_sub_cancel' hblock] at hrest
    · cases h

/-- What reads as free is free if the words behind the bitmap are zero. -/
theorem Inv.free_of_reads (h : x.Inv) (hbehind : x.ClearBehind behind)
    (hk : x.reads behind k = true) : x.Free k := by
  unfold reads Bitmap.test slabAt at hk
  split at hk
  · exact ⟨h.below k hk, hk⟩
  · rename_i hout
    rw [hbehind _ (Nat.not_lt.mp hout), BitVec.getLsbD_zero] at hk
    cases hk

/-- A block of free indexes is given out. -/
theorem Inv.takeBlock (h : x.Inv) (hfree : ∀ k, start ≤ k → k < start + n → x.Free k) :
    (x.takeBlock start n).Inv := by
  have hsets := h.ready.clearSlabs (h.fits fun k h1 h2 => (hfree k h1 h2).1)
  refine h.mark start n hfree ?_ ?_ ?_
  · simpa [RteIndexer.takeBlock] using hsets
  · simp [RteIndexer.takeBlock]
  · simp [RteIndexer.takeBlock]

/-- **`alloc_block`** gives out free indexes. -/
theorem Inv.allocBlock (h : x.Inv) (hbehind : x.ClearBehind behind) (size : Nat) :
    (x.allocBlock behind size).2.Inv ∧ ∀ index, (x.allocBlock behind size).1 = .ok index →
      ∀ k, index ≤ k → k < index + size → x.Free k := by
  unfold RteIndexer.allocBlock
  split
  · exact ⟨h, fun _ hok => nomatch hok⟩
  split
  · exact ⟨h, fun _ hok => nomatch hok⟩
  split
  · rename_i fin hloop
    obtain ⟨begin, rfl, hrun⟩ := blockLoop_sound (Nat.le_refl size)
      (by rw [Nat.sub_self, Nat.add_zero]) (by rw [Nat.sub_self]; exact runAt_zero _) hloop
    rw [Nat.add_sub_cancel]
    have hfree : ∀ k, begin ≤ k → k < begin + size → x.Free k := fun k h1 h2 =>
      h.free_of_reads hbehind (hrun k h1 h2)
    refine ⟨h.takeBlock hfree, fun index hok => ?_⟩
    cases hok
    exact hfree
  · exact ⟨h, fun _ hok => nomatch hok⟩

theorem Inv.allocBlockAt (h : x.Inv) (hbehind : x.ClearBehind behind) (index size : Nat) :
    (x.allocBlockAt behind index size).2.Inv := by
  unfold RteIndexer.allocBlockAt
  split
  · exact h
  · split
    · rename_i hloop
      have hrun := checkLoop_sound (Nat.le_refl size) hloop
      exact h.takeBlock fun k h1 h2 => h.free_of_reads hbehind (hrun k h1 h2)
    · exact h

theorem Inv.free (h : x.Inv) (hgiven : ∀ k, index ≤ k → k < index + n → k ∈ x.allocated) :
    (x.free index n).2.Inv := by
  have hsets := h.ready.setSlabs (h.fits fun k h1 h2 => (mem_allocated.mp (hgiven k h1 h2)).1)
  have hinv : Inv { { x with bits := x.bits.setSlabs index n }.refresh index with
      usage := ({ x with bits := x.bits.setSlabs index n }.refresh index).usage - n } := by
    refine h.unmark hgiven ?_ ?_ ?_
    · simpa using hsets
    · simp
    · simp
  unfold RteIndexer.free
  split
  · exact h
  split
  · exact h
  · dsimp only
    split
    · exact hinv.same ⟨rfl, rfl, rfl, rfl⟩ rfl rfl
    · exact hinv

/-! ### Histories -/

theorem inv_fresh (size : Nat) : Inv
    { size := size
      bits := if size = 0 then .init 0 else .initFree size
      usage := 0, currIndex := 0, currSlab := 0#64 } := by
  split
  · rename_i h0
    subst h0
    have hget : ∀ k, (RteBitmap.init 0).get k = false := fun k => BitVec.getLsbD_zero
    refine ⟨⟨fun line => ?_, fun k hk => ?_⟩, fun k hk => ?_, fun k hk => ?_, Nat.zero_le _, rfl⟩
    · refine iff_of_false (fun hbit => ?_) fun ⟨k, _, hk⟩ => ?_
      · have hclear : Bitmap.test (RteBitmap.init 0).array1 line = false := BitVec.getLsbD_zero
        rw [hclear] at hbit
        cases hbit
      · rw [show Bitmap.test (RteBitmap.init 0).array2 k = false from hget k] at hk
        cases hk
    · rw [hget] at hk
      cases hk
    · rw [hget] at hk
      cases hk
    · exact absurd hk (Nat.not_lt_zero k)
  · rename_i h0
    obtain ⟨hready, hget, hlines⟩ := initFree_spec (Nat.pos_of_ne_zero h0)
    refine ⟨hready, fun k hk => ?_, hlines, ?_, ?_⟩
    · rw [hget] at hk
      exact of_decide_eq_true hk
    · show size ≤ (size + 511) / 512 * 8 * 64
      omega
    · refine (card_eq_zero.mpr (filter_eq_empty_iff.mpr fun k hk => ?_)).symm
      rw [hget, decide_eq_true (mem_range.mp hk)]
      decide

theorem inv_init {skipZero : Bool} (h : init size skipZero = some x) : x.Inv := by
  have hfresh := inv_fresh size
  unfold RteIndexer.init at h
  dsimp only at h
  split at h
  · split at h
    · rename_i x' hat
      cases h
      have hinv := hfresh.allocAt 0
      rw [hat] at hinv
      exact hinv.same ⟨rfl, rfl, rfl, rfl⟩ rfl rfl
    · cases h
  · cases h
    exact hfresh

theorem Inv.step (h : x.Inv) (hs : Step S ClearBehind x x') : x'.Inv := by
  cases hs with
  | alloc => exact h.alloc.inv
  | allocAt index => exact h.allocAt index
  | allocBlock hbehind size => exact (h.allocBlock hbehind size).1
  | allocBlockAt hbehind index size => exact h.allocBlockAt hbehind index size
  | free hgiven => exact h.free hgiven

theorem Reached.inv {skipZero : Bool} (hr : Reached S ClearBehind size skipZero x) : x.Inv :=
  Reachable.invariant hr (fun _ h => inv_init h) fun _ _ h hs => h.step hs

/-- **`alloc` is right**: it gives out a free index, and does so exactly if there is
one. -/
structure AllocCorrect (x : RteIndexer) (S : Bitmap.Scan) : Prop where
  ok_iff : (∃ index, (x.alloc S).1 = .ok index) ↔ ∃ k, x.Free k
  free : ∀ index, (x.alloc S).1 = .ok index → x.Free index

theorem AllocPost.correct (h : AllocPost x (x.alloc S)) : x.AllocCorrect S := by
  generalize hr : x.alloc S = r at h
  cases h with
  | @ok index x' hfree _ =>
    refine ⟨iff_of_true ⟨index, by rw [hr]⟩ ⟨index, hfree⟩, fun i hi => ?_⟩
    rw [hr] at hi
    cases hi
    exact hfree
  | full hfull _ =>
    refine ⟨iff_of_false (fun ⟨i, hi⟩ => ?_) fun ⟨k, hk⟩ => hfull k hk, fun i hi => ?_⟩
    · rw [hr] at hi
      cases hi
    · rw [hr] at hi
      cases hi

theorem not_allocCorrect_of_usage (hk : x.Free k) (husage : x.size ≤ x.usage) :
    ¬ x.AllocCorrect S := by
  intro h
  obtain ⟨i, hi⟩ := h.ok_iff.mpr ⟨k, hk⟩
  unfold RteIndexer.alloc at hi
  rw [if_pos (.inr husage)] at hi
  cases hi

/-- **In every history in which the words behind the bitmap are zero** when a block is
asked for, `alloc` is right, whatever its cached slab, its current index and the
cursor of the scan. -/
theorem Reached.alloc_correct {skipZero : Bool} (hr : Reached S ClearBehind size skipZero x) :
    x.AllocCorrect S :=
  hr.inv.alloc.correct

theorem Reached.alloc_correct_block : ∃ x,
    Reached .plain ClearBehind 100 true x ∧ x.usage = 3 ∧ x.AllocCorrect .plain := by
  obtain ⟨x, hx⟩ : ∃ x, init 100 true = some x := ⟨_, rfl⟩
  have hr : Reached .plain ClearBehind 100 true (x.allocBlock (fun _ => 0#64) 2).2 :=
    .step (.start hx) (.allocBlock (fun _ _ => rfl) 2)
  refine ⟨_, hr, ?_, Reached.alloc_correct hr⟩
  cases hx
  decide +kernel

/-- With ones behind the bitmap `alloc_block` of two indexes finds its block there: of
three indexes the middle one is taken.  Then three indexes count as given out and
`alloc` finds none, though two are free. -/
theorem not_alloc_correct_behind : ∃ x,
    Reached .plain (fun _ _ => True) 3 false x ∧ x.Free 0 ∧ ¬ x.AllocCorrect .plain := by
  obtain ⟨x, hx⟩ : ∃ x, init 3 false = some x := ⟨_, rfl⟩
  have hr : Reached .plain (fun _ _ => True) 3 false
      ((x.allocAt 1).2.allocBlock (fun _ => BitVec.allOnes 64) 2).2 :=
    .step (.step (.start hx) (.allocAt 1)) (.allocBlock trivial 2)
  cases hx
  refine ⟨_, hr, ⟨by decide +kernel, by decide +kernel⟩, ?_⟩
  exact not_allocCorrect_of_usage (k := 0) ⟨by decide +kernel, by decide +kernel⟩
    (by decide +kernel)

end RteIndexer

end NicSw
