/-
The DPDK bitmap and the operations on its slabs (`rte_slab_op.hpp`).

`array2` holds the bits, in slabs of 64, and `array1` a bit for every line of
eight slabs.  DPDK itself is not in the repository: `rte_bitmap_scan`, which goes
around, is any `Bitmap.Scan`.

A set bit is a free index.  `Ready` says that both levels agree, and each
operation says what it does to the free indexes.
-/
import NicSw.Lib.SummaryBitmap

namespace NicSw

open Function BitVec Bitmap

/-- `rte_bitmap`: two arrays and the cursor of the scan. -/
structure RteBitmap where
  array1 : Nat → BitVec 64
  array2 : Nat → BitVec 64
  array1Size : Nat
  array2Size : Nat
  index2 : Nat

namespace RteBitmap

/-! ### DPDK -/

/-- `rte_bitmap_get`. -/
def get (b : RteBitmap) (pos : Nat) : Bool := test b.array2 pos

/-- `rte_bitmap_clear`. -/
def clear (b : RteBitmap) (pos : Nat) : RteBitmap :=
  let slab2 := b.array2 (pos / 64) &&& ~~~(1#64 <<< (pos % 64))
  let array2 := update b.array2 (pos / 64) slab2
  if slab2 ≠ 0#64 then { b with array2 := array2 }
  else if lineNotEmpty array2 (pos / 64 / 8) then { b with array2 := array2 }
  else
    { b with
      array2 := array2
      array1 := update b.array1 (pos / 512 / 64)
        (b.array1 (pos / 512 / 64) &&& ~~~(1#64 <<< (pos / 512 % 64))) }

/-- `rte_bitmap_set_slab`. -/
def setSlab (b : RteBitmap) (pos : Nat) (slab : BitVec 64) : RteBitmap :=
  { b with
    array2 := update b.array2 (pos / 64) (b.array2 (pos / 64) ||| slab)
    array1 := update b.array1 (pos / 512 / 64)
      (b.array1 (pos / 512 / 64) ||| 1#64 <<< (pos / 512 % 64)) }

/-- `rte_bitmap_set`. -/
def set (b : RteBitmap) (pos : Nat) : RteBitmap :=
  { b with
    array2 := update b.array2 (pos / 64) (b.array2 (pos / 64) ||| 1#64 <<< (pos % 64))
    array1 := update b.array1 (pos / 512 / 64)
      (b.array1 (pos / 512 / 64) ||| 1#64 <<< (pos / 512 % 64)) }

/-- `__rte_bitmap_scan_init`. -/
def scanInit (b : RteBitmap) : RteBitmap := { b with index2 := b.array2Size }

/-- `rte_bitmap_scan`: whether something was found, and the position and the slab,
which are left as they were (`pos`, `slab`) if they are not written. -/
def scan (b : RteBitmap) (S : Scan) (pos : Nat) (slab : BitVec 64) :
    Bool × (Nat × BitVec 64) × RteBitmap :=
  match S.scan b.array1 b.array2 b.array2Size b.index2 with
  | (some j, index2) => (true, (j * 64, b.array2 j), { b with index2 := index2 })
  | (none, index2) => (false, (pos, slab), { b with index2 := index2 })

/-- `rte_align32pow2`. -/
def align32pow2 (x : Nat) : Nat := if x ≤ 1 then x else 2 ^ (Nat.log2 (x - 1) + 1)

/-- `rte_bitmap_init`: `array2` has whole lines, and `array1` a power of two of slabs. -/
def init (nBits : Nat) : RteBitmap :=
  let lines := (nBits + 511) / 512
  scanInit
    { array1 := fun _ => 0#64
      array2 := fun _ => 0#64
      array1Size := align32pow2 ((lines + 63) / 64)
      array2Size := lines * 8
      index2 := 0 }

/-- Words with the first `n` bits set, as `init_` fills both arrays. -/
def ones (n : Nat) (w : Nat) : BitVec 64 :=
  if w < n / 64 then allOnes 64
  else if n % 64 ≠ 0 ∧ w = n / 64 then (1#64 <<< (n % 64)) - 1#64
  else 0#64

/-- The part of `init_` that makes every index free. -/
def initFree (size : Nat) : RteBitmap :=
  let b := init size
  let lines := b.array2Size * 64 / 512 + if b.array2Size * 64 % 512 ≠ 0 then 1 else 0
  set { b with array2 := ones size, array1 := ones lines } 0

/-! ### Slabs -/

/-- `RTE_BITMAP_START_SLAB_SCAN_POS`. -/
def startSlabScanPos : Nat := 0xFFFFFFFF

/-- `rte_bitmap_slab_scan`: the next set bit after a position in a slab. -/
def slabScan (slab2 : BitVec 64) (curPos : Nat) : Option Nat :=
  if curPos = startSlabScanPos then lowestSet slab2
  else (lowestSet (slab2 >>> curPos >>> 1)).map fun i => i + (curPos + 1)

/-- The mask of the bits from `offset2` on, `size` of them at most, as
`rte_bitmap_check_slab_set_` and `rte_bitmap_set_slabs` build it. -/
def setMask (offset2 size : Nat) : BitVec 64 :=
  let block := 64 - offset2
  let mask := if 63 < block then allOnes 64 else ~~~(~~~1#64 >>> block)
  if size < block then mask &&& (~~~1#64 >>> (64 - (size + offset2))) else mask

/-- The mask of all other bits, as `rte_bitmap_clear_slabs` builds it. -/
def clearMask (offset2 size : Nat) : BitVec 64 :=
  let block := 64 - offset2
  let mask := if 63 < block then 0#64 else allOnes 64 >>> block
  if size < block then mask ||| ~~~(allOnes 64 >>> (64 - (size + offset2))) else mask

/-- `rte_bitmap_check_slab_set_`: the bits from `offset2` on are set, `size` of them. -/
def checkSlabSet (offset2 : Nat) (slab : BitVec 64) (size : Nat) : Bool :=
  let slab := if 64 - offset2 ≤ 63 then slab &&& (allOnes 64 <<< offset2) else slab
  slab &&& setMask offset2 size == setMask offset2 size

/-- How many indexes of a block are in the slab of its start. -/
def blockSize (start size : Nat) : Nat :=
  if size < 64 - start % 64 then size else 64 - start % 64

/-- One round of `rte_bitmap_clear_slabs`. -/
def clearBlock (b : RteBitmap) (start size : Nat) : RteBitmap :=
  let array2 := update b.array2 (start / 64) (b.array2 (start / 64) &&& clearMask (start % 64) size)
  if lineNotEmpty array2 (start / 64 / 8) then { b with array2 := array2 }
  else
    { b with
      array2 := array2
      array1 := update b.array1 (start / 512 / 64)
        (b.array1 (start / 512 / 64) &&& ~~~(1#64 <<< (start / 512 % 64))) }

/-- One round of `rte_bitmap_set_slabs`. -/
def setBlock (b : RteBitmap) (start size : Nat) : RteBitmap :=
  let slab2 := b.array2 (start / 64) ||| setMask (start % 64) size
  setSlab { b with array2 := update b.array2 (start / 64) slab2 } start slab2

/-- The loop of `rte_bitmap_clear_slabs` and `rte_bitmap_set_slabs`.  A round takes
at least one index, which bounds the rounds. -/
def slabLoop (round : RteBitmap → Nat → Nat → RteBitmap) :
    Nat → RteBitmap → Nat → Nat → RteBitmap
  | 0, b, _, _ => b
  | n + 1, b, start, size =>
    if size = 0 then b
    else slabLoop round n (round b start size) (start + blockSize start size)
      (size - blockSize start size)

/-- `rte_bitmap_clear_slabs`. -/
def clearSlabs (b : RteBitmap) (start size : Nat) : RteBitmap :=
  slabLoop clearBlock size b start size

/-- `rte_bitmap_set_slabs`. -/
def setSlabs (b : RteBitmap) (start size : Nat) : RteBitmap :=
  slabLoop setBlock size b start size

/-- `rte_bitmap_leftmost_slab_scan`: the position of the first set bit. -/
def leftmostSlabScan (b : RteBitmap) : Option Nat :=
  (List.range b.array1Size).findSome? fun index1 =>
    (lowestSet (b.array1 index1)).bind fun offset1 =>
      (List.range 8).findSome? fun i =>
        let index2 := (index1 * 64 + offset1) * 8 + i
        (lowestSet (b.array2 index2)).map fun offset2 => index2 * 64 + offset2

/-! ### Masks -/

variable {s i offset2 size k n line : Nat}

theorem getLsbD_not_one_shiftRight (hs : 0 < s) : (~~~1#64 >>> s).getLsbD i = decide (s + i < 64) := by
  have h0 : ¬ s + i = 0 := by omega
  rw [getLsbD_ushiftRight, getLsbD_not, getLsbD_one, decide_eq_false h0,
    Bool.and_false, Bool.not_false, Bool.and_true]

theorem getLsbD_allOnes_shiftRight : (allOnes 64 >>> s).getLsbD i = decide (s + i < 64) := by
  rw [getLsbD_ushiftRight, getLsbD_allOnes]

theorem getLsbD_setMask (ho : offset2 < 64) (hi : i < 64) :
    (setMask offset2 size).getLsbD i = decide (offset2 ≤ i ∧ i < offset2 + size) := by
  have hbase : (if 63 < 64 - offset2 then allOnes 64
      else ~~~(~~~1#64 >>> (64 - offset2))).getLsbD i = decide (offset2 ≤ i) := by
    split
    · rw [getLsbD_allOnes]
      exact decide_eq_decide.mpr (by omega)
    · rw [getLsbD_not, getLsbD_not_one_shiftRight (by omega), decide_eq_true hi,
        Bool.true_and, ← decide_not]
      exact decide_eq_decide.mpr (by omega)
  unfold setMask
  dsimp only
  split
  · rw [getLsbD_and, hbase, getLsbD_not_one_shiftRight (by omega), ← Bool.decide_and]
    exact decide_eq_decide.mpr (by omega)
  · rw [hbase]
    exact decide_eq_decide.mpr (by omega)

theorem getLsbD_clearMask (ho : offset2 < 64) (hi : i < 64) :
    (clearMask offset2 size).getLsbD i = !decide (offset2 ≤ i ∧ i < offset2 + size) := by
  have hbase : (if 63 < 64 - offset2 then 0#64
      else allOnes 64 >>> (64 - offset2)).getLsbD i = decide (i < offset2) := by
    split
    · rw [getLsbD_zero]
      exact (decide_eq_false (by omega)).symm
    · rw [getLsbD_allOnes_shiftRight]
      exact decide_eq_decide.mpr (by omega)
  unfold clearMask
  dsimp only
  rw [← decide_not]
  split
  · rw [getLsbD_or, hbase, getLsbD_not, getLsbD_allOnes_shiftRight,
      decide_eq_true hi, Bool.true_and, ← decide_not, ← Bool.decide_or]
    exact decide_eq_decide.mpr (by omega)
  · rw [hbase]
    exact decide_eq_decide.mpr (by omega)

/-- The check finds that every bit of the mask is set. -/
theorem checkSlabSet_iff {slab : BitVec 64} (ho : offset2 < 64) :
    checkSlabSet offset2 slab size = true ↔
      ∀ i < 64, offset2 ≤ i → i < offset2 + size → slab.getLsbD i = true := by
  have hslab : ∀ i < 64, offset2 ≤ i →
      (if 64 - offset2 ≤ 63 then slab &&& (allOnes 64 <<< offset2) else slab).getLsbD i
        = slab.getLsbD i := by
    intro i hi hle
    split
    · rw [getLsbD_and, getLsbD_shiftLeft, getLsbD_allOnes]
      have h1 : ¬ i < offset2 := by omega
      have h2 : i - offset2 < 64 := by omega
      simp [hi, h1, h2]
    · rfl
  unfold checkSlabSet
  rw [beq_iff_eq]
  constructor
  · intro h i hi hle hlt
    have hbit := congrArg (fun v => BitVec.getLsbD v i) h
    simp only [getLsbD_and, getLsbD_setMask ho hi, decide_eq_true (And.intro hle hlt),
      Bool.and_true] at hbit
    rw [← hslab i hi hle, hbit]
  · intro h
    refine eq_of_getLsbD_eq fun i hi => ?_
    rw [getLsbD_and, getLsbD_setMask ho hi]
    by_cases hin : offset2 ≤ i ∧ i < offset2 + size
    · rw [hslab i hi hin.1, h i hi hin.1 hin.2, Bool.true_and]
    · rw [decide_eq_false hin, Bool.and_false]

/-! ### What the operations do to the bits -/

/-- **Both levels agree**, and `array1` has a bit for every line. -/
structure Ready (b : RteBitmap) : Prop where
  summary : Bitmap.Summarizes b.array1 b.array2
  lines : ∀ k, b.get k = true → k / 512 < b.array1Size * 64

/-- The bitmap `b'` is in order and has the bits `f`. -/
structure Sets (b b' : RteBitmap) (f : Nat → Bool) : Prop where
  ready : b'.Ready
  get : ∀ k, b'.get k = f k
  array1Size : b'.array1Size = b.array1Size
  array2Size : b'.array2Size = b.array2Size

variable {b b' : RteBitmap} {pos start size : Nat}

/-- Bits of one slab are cleared, and the bit of its line if the line is empty then. -/
theorem Ready.clearWord (h : b.Ready) (w : Nat) (mask : BitVec 64)
    {f : Nat → Bool} (hf : ∀ k, f k = true → b.get k = true)
    (hword : ∀ k, test (update b.array2 w (b.array2 w &&& mask)) k = f k) (hb : b' = { b with
      array2 := update b.array2 w (b.array2 w &&& mask)
      array1 := if lineNotEmpty (update b.array2 w (b.array2 w &&& mask)) (w / 8)
        then b.array1 else update b.array1 (w / 8 / 64)
          (b.array1 (w / 8 / 64) &&& ~~~(1#64 <<< (w / 8 % 64))) }) :
    Sets b b' f := by
  subst hb
  refine ⟨⟨?_, fun k hk => h.lines k (hf k ?_)⟩, hword, rfl, rfl⟩
  · refine h.summary.clear (fun k hk => ?_) fun k hk => ?_
    · rw [test_update, if_neg hk]
    · rw [hword] at hk
      exact hf k hk
  · rwa [← hword]

/-- **`rte_bitmap_set`** sets one bit. -/
theorem Ready.set (h : b.Ready) (hfit : pos / 512 < b.array1Size * 64) :
    Sets b (b.set pos) fun k => decide (k = pos) || b.get k := by
  have hget : ∀ k, (b.set pos).get k = (decide (k = pos) || b.get k) := by
    intro k
    have hlt : pos % 64 < 64 := Nat.mod_lt _ (by decide)
    show test (update b.array2 (pos / 64) (b.array2 (pos / 64) ||| 1#64 <<< (pos % 64))) k = _
    rw [test_set hlt, Nat.div_add_mod']
    rfl
  have hdiv : pos / 512 = pos / 64 / 8 := (Nat.div_div_eq_div_mul pos 64 8).symm
  refine ⟨⟨?_, fun k hk => ?_⟩, hget, rfl, rfl⟩
  · show Bitmap.Summarizes (update b.array1 (pos / 512 / 64) _) _
    rw [hdiv]
    refine h.summary.set (fun k hk => ?_) ⟨pos, rfl, ?_⟩
    · exact (test_update _ _ _ k).trans (if_neg hk)
    · exact (hget pos).trans (by simp)
  · rw [hget, Bool.or_eq_true, decide_eq_true_eq] at hk
    rcases hk with rfl | hk
    · exact hfit
    · exact h.lines k hk

/-- **`rte_bitmap_clear`** clears one bit. -/
theorem Ready.clear (h : b.Ready) (pos : Nat) :
    Sets b (b.clear pos) fun k => !decide (k = pos) && b.get k := by
  refine h.clearWord (pos / 64) (~~~(1#64 <<< (pos % 64)))
    (fun k hk => (Bool.and_eq_true _ _ ▸ hk).2) (fun k => test_clear _ pos k) ?_
  have hdiv : pos / 512 = pos / 64 / 8 := (Nat.div_div_eq_div_mul pos 64 8).symm
  unfold RteBitmap.clear
  rw [hdiv]
  by_cases hslab : b.array2 (pos / 64) &&& ~~~(1#64 <<< (pos % 64)) = 0#64
  · rw [if_neg (not_not.mpr hslab)]
    split <;> rfl
  -- a slab that is not zero makes its line not empty
  have hline : lineNotEmpty (update b.array2 (pos / 64)
      (b.array2 (pos / 64) &&& ~~~(1#64 <<< (pos % 64)))) (pos / 64 / 8) = true := by
    refine lineNotEmpty_iff.mpr ?_
    obtain ⟨k, hk, hbit⟩ := exists_of_word_ne_zero (w := pos / 64)
      (show update b.array2 (pos / 64)
        (b.array2 (pos / 64) &&& ~~~(1#64 <<< (pos % 64))) (pos / 64) ≠ 0#64 by
          rwa [update_self])
    exact ⟨k, by omega, hbit⟩
  rw [if_pos hslab, if_pos hline]

theorem blockSize_pos (start : Nat) (hsize : size ≠ 0) : 0 < blockSize start size := by
  unfold blockSize
  split <;> omega

theorem blockSize_le (start size : Nat) : blockSize start size ≤ size := by
  unfold blockSize
  split <;> omega

/-- The bits of a block in the slab of its start. -/
theorem in_block_iff (hk : k / 64 = start / 64) :
    (start % 64 ≤ k % 64 ∧ k % 64 < start % 64 + size) ↔
      (start ≤ k ∧ k < start + blockSize start size) := by
  unfold blockSize
  split <;> omega

/-- The bits of a block get the value `v`, the others stay. -/
def filled (b : RteBitmap) (start size : Nat) (v : Bool) (k : Nat) : Bool :=
  if start ≤ k ∧ k < start + size then v else b.get k

/-- The lines of a block are lines of `array1`. -/
def Fits (b : RteBitmap) (start size : Nat) : Prop :=
  ∀ k, start ≤ k → k < start + size → k / 512 < b.array1Size * 64

theorem filled_block (b : RteBitmap) (start size : Nat) (v : Bool) (k : Nat) :
    b.filled start (blockSize start size) v k
      = if k / 64 = start / 64 then
          if start % 64 ≤ k % 64 ∧ k % 64 < start % 64 + size then v else b.get k
        else b.get k := by
  unfold filled
  split
  · rename_i hin
    have hk : k / 64 = start / 64 := by
      unfold blockSize at hin
      split at hin <;> omega
    rw [if_pos hk, if_pos ((in_block_iff hk).mpr hin)]
  · rename_i hout
    split
    · rename_i hk
      rw [if_neg fun hin => hout ((in_block_iff hk).mp hin)]
    · rfl

/-- What each round does to its block, the loop does to the whole. -/
theorem Ready.slabLoop {round : RteBitmap → Nat → Nat → RteBitmap} {v : Bool}
    (hround : ∀ (b : RteBitmap) (start size : Nat), b.Ready → size ≠ 0 → b.Fits start size →
      Sets b (round b start size) (b.filled start (blockSize start size) v)) :
    ∀ (n : Nat) (b : RteBitmap) (start size : Nat), b.Ready → size ≤ n → b.Fits start size →
      Sets b (slabLoop round n b start size) (b.filled start size v) := by
  have hempty : ∀ (b : RteBitmap) (start : Nat), b.Ready → Sets b b (b.filled start 0 v) :=
    fun b start hb => ⟨hb, fun k => (if_neg (by omega)).symm, rfl, rfl⟩
  intro n
  induction n with
  | zero =>
    intro b start size hb hle _
    obtain rfl : size = 0 := by omega
    exact hempty b start hb
  | succ n ih =>
    intro b start size hb hle hfit
    rw [RteBitmap.slabLoop]
    split
    · rename_i h0
      subst h0
      exact hempty b start hb
    rename_i h0
    have hpos := blockSize_pos start h0
    have hsize := blockSize_le start size
    have hblock := hround b start size hb h0 hfit
    have hrest := ih _ (start + blockSize start size) (size - blockSize start size)
      hblock.ready (by omega) (fun k h₁ h₂ => by
        rw [hblock.array1Size]
        exact hfit k (by omega) (by omega))
    refine ⟨hrest.ready, fun k => ?_, hrest.array1Size.trans hblock.array1Size,
      hrest.array2Size.trans hblock.array2Size⟩
    rw [hrest.get]
    unfold filled
    rw [hblock.get]
    split
    · rw [if_pos (by omega)]
    · rename_i hout
      exact if_congr (by omega) rfl rfl

theorem Ready.clearBlock (h : b.Ready) (start size : Nat) :
    Sets b (b.clearBlock start size) (b.filled start (blockSize start size) false) := by
  refine h.clearWord (start / 64) (clearMask (start % 64) size) (fun k hk => ?_) (fun k => ?_) ?_
  · unfold filled at hk
    split at hk
    · cases hk
    · exact hk
  · rw [filled_block, test_update]
    split
    · rename_i hk
      rw [getLsbD_and, getLsbD_clearMask (Nat.mod_lt _ (by decide))
        (Nat.mod_lt _ (by decide)), ← hk]
      split
      · rename_i hin
        rw [decide_eq_true hin, Bool.not_true, Bool.and_false]
      · rename_i hout
        rw [decide_eq_false hout, Bool.not_false, Bool.and_true]
        rfl
    · rfl
  · have hdiv : start / 512 = start / 64 / 8 := (Nat.div_div_eq_div_mul start 64 8).symm
    unfold RteBitmap.clearBlock
    dsimp only
    rw [hdiv]
    split <;> rfl

theorem Ready.setBlock (h : b.Ready) (hsize : size ≠ 0) (hfit : b.Fits start size) :
    Sets b (b.setBlock start size) (b.filled start (blockSize start size) true) := by
  have hget : ∀ k, (b.setBlock start size).get k
      = b.filled start (blockSize start size) true k := by
    intro k
    rw [filled_block]
    show test (update (update b.array2 _ _) _ _) k = _
    dsimp only
    rw [update_self, update_idem, test_update, BitVec.or_self]
    split
    · rename_i hk
      rw [getLsbD_or, getLsbD_setMask (Nat.mod_lt _ (by decide)) (Nat.mod_lt _ (by decide)), ← hk]
      split
      · rename_i hin
        rw [decide_eq_true hin, Bool.or_true]
      · rename_i hout
        rw [decide_eq_false hout, Bool.or_false]
        rfl
    · rfl
  have hdiv : start / 512 = start / 64 / 8 := (Nat.div_div_eq_div_mul start 64 8).symm
  refine ⟨⟨?_, fun k hk => ?_⟩, hget, rfl, rfl⟩
  · show Bitmap.Summarizes (update b.array1 (start / 512 / 64) _) _
    rw [hdiv]
    refine h.summary.set (fun k hk => ?_) ⟨start, rfl, ?_⟩
    · exact (hget k).trans ((filled_block b start size true k).trans (if_neg hk))
    · exact (hget start).trans (if_pos ⟨Nat.le_refl _, by
        have hpos := blockSize_pos start hsize
        omega⟩)
  · rw [hget] at hk
    unfold filled at hk
    split at hk
    · rename_i hin
      have hle := blockSize_le start size
      exact hfit k hin.1 (by omega)
    · exact h.lines k hk

/-- **`rte_bitmap_clear_slabs`** clears a block. -/
theorem Ready.clearSlabs (h : b.Ready) (hfit : b.Fits start size) :
    Sets b (b.clearSlabs start size) (b.filled start size false) :=
  Ready.slabLoop (fun _ start size hb _ _ => hb.clearBlock start size)
    size b start size h (Nat.le_refl _) hfit

/-- **`rte_bitmap_set_slabs`** sets a block. -/
theorem Ready.setSlabs (h : b.Ready) (hfit : b.Fits start size) :
    Sets b (b.setSlabs start size) (b.filled start size true) :=
  Ready.slabLoop (fun _ _ _ hb h0 hf => hb.setBlock h0 hf) size b start size h (Nat.le_refl _) hfit

/-! ### What the scans find -/

/-- Only the cursor differs. -/
structure Same (b b' : RteBitmap) : Prop where
  array1 : b'.array1 = b.array1
  array2 : b'.array2 = b.array2
  array1Size : b'.array1Size = b.array1Size
  array2Size : b'.array2Size = b.array2Size

theorem Same.refl (b : RteBitmap) : Same b b := ⟨rfl, rfl, rfl, rfl⟩

theorem Same.get (h : Same b b') (k : Nat) : b'.get k = b.get k := by
  unfold RteBitmap.get
  rw [h.array2]

theorem Same.ready (h : Same b b') (hb : b.Ready) : b'.Ready := by
  refine ⟨?_, fun k hk => ?_⟩
  · rw [h.array1, h.array2]
    exact hb.summary
  · rw [h.array1Size]
    exact hb.lines k (h.get k ▸ hk)

/-- A slab of the bitmap that is not zero, with its position. -/
def IsSlab (b : RteBitmap) (r : Nat × BitVec 64) : Prop :=
  r.1 % 64 = 0 ∧ r.2 = b.array2 (r.1 / 64) ∧ r.2 ≠ 0#64

/-- **`rte_bitmap_scan`** finds a slab that is not zero if there is one, whatever its
cursor. -/
theorem Ready.scan (hb : b.Ready) (S : Scan) (pos : Nat) (slab : BitVec 64) :
    Same b (b.scan S pos slab).2.2 ∧
      ((b.scan S pos slab).1 = true → b.IsSlab (b.scan S pos slab).2.1) ∧
      ((b.scan S pos slab).1 = false → ∀ w < b.array2Size, b.array2 w = 0#64) := by
  have hfound := S.found b.array2Size b.index2 hb.summary
  unfold RteBitmap.scan
  split
  · rename_i j index2 hscan
    rw [hscan] at hfound
    refine ⟨⟨rfl, rfl, rfl, rfl⟩, fun _ => ⟨Nat.mul_mod_left _ _, ?_, ?_⟩, fun hf => by cases hf⟩
    · rw [Nat.mul_div_cancel _ (by decide)]
    · exact ne_zero_of_nextWord hfound.symm
  · rename_i index2 hscan
    rw [hscan] at hfound
    exact ⟨⟨rfl, rfl, rfl, rfl⟩, (fun hf => by cases hf),
      fun _ w hw => eq_zero_of_nextWord hfound.symm hw⟩

/-- The next set bit after a position. -/
theorem slabScan_some {slab2 : BitVec 64} {curPos : Nat} (hpos : curPos < 64)
    (h : slabScan slab2 curPos = some i) : i < 64 ∧ slab2.getLsbD i = true := by
  unfold slabScan at h
  rw [if_neg (by unfold startSlabScanPos; omega)] at h
  obtain ⟨j, hj, rfl⟩ := Option.map_eq_some_iff.mp h
  obtain ⟨-, hbit, -⟩ := lowestSet_eq_some hj
  rw [getLsbD_ushiftRight, getLsbD_ushiftRight] at hbit
  have heq : curPos + (1 + j) = j + (curPos + 1) := by omega
  rw [heq] at hbit
  exact ⟨lt_of_getLsbD hbit, hbit⟩

/-- A line of `array2` with a set bit gives the scan a position, the first of the line. -/
theorem findSome_line {words : Nat → BitVec 64} {pos : Nat} (h : ((List.range 8).findSome? fun i =>
      (lowestSet (words (line * 8 + i))).map fun offset2 =>
        (line * 8 + i) * 64 + offset2) = some pos) :
    pos / 512 = line ∧ test words pos = true ∧
      ∀ k < pos, k / 512 = line → test words k = false := by
  obtain ⟨i, hi, hfound, hbefore⟩ := exists_of_findSome_range h
  obtain ⟨offset2, hlow, rfl⟩ := Option.map_eq_some_iff.mp hfound
  obtain ⟨hlt, hbit, hfirst⟩ := lowestSet_eq_some hlow
  refine ⟨by omega, ?_, fun k hk hline => ?_⟩
  · rw [test_word _ _ hlt]
    exact hbit
  · rcases Nat.lt_or_ge (k / 64) (line * 8 + i) with hslab | hslab
    · -- an earlier slab of the line is zero
      have hzero := Option.map_eq_none_iff.mp (hbefore (k / 64 - line * 8) (by omega))
      rw [lowestSet_eq_none, Nat.add_sub_cancel' (by omega)] at hzero
      exact word_eq_zero.mp hzero k rfl
    · have hsame : k / 64 = line * 8 + i := by omega
      have hoff : k % 64 < offset2 := by omega
      have hk' := hfirst (k % 64) hoff
      rw [← hsame] at hk'
      exact hk'

theorem findSome_line_isSome {words : Nat → BitVec 64} (hline : k / 512 = line)
    (hk : test words k = true) :
    ((List.range 8).findSome? fun i =>
      (lowestSet (words (line * 8 + i))).map fun offset2 =>
        (line * 8 + i) * 64 + offset2) ≠ none := by
  intro hnone
  have hzero := List.findSome?_eq_none_iff.mp hnone (k / 64 - line * 8)
    (List.mem_range.mpr (by omega))
  rw [Nat.add_sub_cancel' (by omega), Option.map_eq_none_iff, lowestSet_eq_none] at hzero
  rw [word_eq_zero.mp hzero k rfl] at hk
  cases hk

/-- A slab of `array1` with a line that has a set bit gives the scan a position: its first line
is not empty. -/
theorem Ready.findSome_slab (hb : b.Ready) (hset : b.get k = true) :
    ((lowestSet (b.array1 (k / 512 / 64))).bind fun offset1 => (List.range 8).findSome? fun i =>
      let index2 := (k / 512 / 64 * 64 + offset1) * 8 + i
      (lowestSet (b.array2 index2)).map fun offset2 => index2 * 64 + offset2) ≠ none := by
  have hsum := (hb.summary (k / 512)).mpr ⟨k, rfl, hset⟩
  obtain ⟨offset, hoff⟩ := exists_lowestSet (v := b.array1 (k / 512 / 64)) fun h0 => by
    cases (word_eq_zero.mp h0 (k / 512) rfl).symm.trans hsum
  obtain ⟨hlt, hbit, -⟩ := lowestSet_eq_some hoff
  rw [← test_word _ _ hlt] at hbit
  obtain ⟨j, hj, hset'⟩ := (hb.summary _).mp hbit
  rw [hoff]
  exact findSome_line_isSome hj hset'

/-- **`rte_bitmap_leftmost_slab_scan`** finds the first set bit. -/
theorem Ready.leftmostSlabScan_some (hb : b.Ready) (h : b.leftmostSlabScan = some pos) :
    b.get pos = true ∧ ∀ k < pos, b.get k = false := by
  obtain ⟨index1, hi, hfound, hbefore⟩ := exists_of_findSome_range h
  obtain ⟨offset1, hlow, hline⟩ := Option.bind_eq_some_iff.mp hfound
  obtain ⟨hlt, -, hfirst⟩ := lowestSet_eq_some hlow
  obtain ⟨hpos, hbit, hfirst2⟩ := findSome_line hline
  refine ⟨hbit, fun k hk => ?_⟩
  rw [← Bool.not_eq_true]
  intro hset
  have hsum := (hb.summary (k / 512)).mpr ⟨k, rfl, hset⟩
  rcases Nat.lt_trichotomy (k / 512 / 64) index1 with hslab | hslab | hslab
  · exact hb.findSome_slab hset (hbefore _ hslab)
  · have hline' : offset1 ≤ k / 512 % 64 := by
      rcases Nat.lt_or_ge (k / 512 % 64) offset1 with hlt' | hge
      · have hclear := hfirst _ hlt'
        rw [← hslab] at hclear
        rw [show test b.array1 (k / 512) = false from hclear] at hsum
        cases hsum
      · exact hge
    have hsame : k / 512 = index1 * 64 + offset1 := by omega
    rw [show b.get k = false from hfirst2 k hk hsame] at hset
    cases hset
  · omega

theorem Ready.leftmostSlabScan_none (hb : b.Ready) (h : b.leftmostSlabScan = none) (k : Nat) :
    b.get k = false := by
  rw [← Bool.not_eq_true]
  intro hset
  have hline := hb.lines k hset
  exact hb.findSome_slab hset (List.findSome?_eq_none_iff.mp h _ (List.mem_range.mpr (by omega)))

/-! ### A fresh bitmap -/

theorem le_align32pow2 (x : Nat) : x ≤ align32pow2 x := by
  unfold align32pow2
  split
  · exact Nat.le_refl x
  · have hlt : x - 1 < 2 ^ (Nat.log2 (x - 1) + 1) := Nat.lt_log2_self
    omega

theorem getLsbD_one_shiftLeft_sub_one {m : Nat} (hm : m < 64) :
    ((1#64 <<< m) - 1#64).getLsbD i = decide (i < m) := by
  have hnat : ((1#64 <<< m) - 1#64).toNat = 2 ^ m - 1 := by
    have hpow : 2 ^ m < 2 ^ 64 := Nat.pow_lt_pow_right (by decide) hm
    have hpos : 0 < 2 ^ m := Nat.two_pow_pos m
    rw [toNat_sub, toNat_shiftLeft]
    simp only [toNat_ofNat, Nat.one_mod, Nat.shiftLeft_eq, Nat.one_mul]
    omega
  rw [BitVec.getLsbD, hnat, Nat.testBit_two_pow_sub_one]

theorem test_ones (n k : Nat) : test (ones n) k = decide (k < n) := by
  unfold test ones
  split
  · rw [getLsbD_allOnes]
    exact decide_eq_decide.mpr (by omega)
  · split
    · rw [getLsbD_one_shiftLeft_sub_one (Nat.mod_lt _ (by decide))]
      exact decide_eq_decide.mpr (by omega)
    · rw [getLsbD_zero]
      exact (decide_eq_false (by omega)).symm

/-- **All indexes below the size are free at first.** -/
theorem initFree_spec (hsize : 0 < size) :
    (initFree size).Ready ∧ (∀ k, (initFree size).get k = decide (k < size)) ∧
      ∀ k < size, k / 512 < (initFree size).array1Size * 64 := by
  have hlines : (init size).array2Size * 64 / 512
      + (if (init size).array2Size * 64 % 512 ≠ 0 then 1 else 0) = (size + 511) / 512 := by
    have heq : (init size).array2Size * 64 = (size + 511) / 512 * 512 := by
      show (size + 511) / 512 * 8 * 64 = _
      omega
    rw [heq, Nat.mul_mod_left, Nat.mul_div_cancel _ (by decide), if_neg (by simp), Nat.add_zero]
  have hfit : ∀ k < size, k / 512 < (init size).array1Size * 64 := by
    intro k hk
    have hle := le_align32pow2 (((size + 511) / 512 + 63) / 64)
    show k / 512 < align32pow2 (((size + 511) / 512 + 63) / 64) * 64
    omega
  -- before the bit of index `0` is set once more
  have hready : Ready
      { init size with array2 := ones size, array1 := ones ((size + 511) / 512) } := by
    refine ⟨fun line => ?_, fun k hk => hfit k ?_⟩
    · rw [test_ones, decide_eq_true_eq]
      constructor
      · intro hline
        exact ⟨line * 512, by omega, by rw [test_ones, decide_eq_true_eq]; omega⟩
      · rintro ⟨k, rfl, hk⟩
        rw [test_ones, decide_eq_true_eq] at hk
        omega
    · unfold RteBitmap.get at hk
      rw [test_ones] at hk
      exact of_decide_eq_true hk
  unfold initFree
  dsimp only
  rw [hlines]
  have hset := hready.set (hfit 0 hsize)
  refine ⟨hset.ready, fun k => ?_, fun k hk => ?_⟩
  · rw [hset.get]
    unfold RteBitmap.get
    rw [test_ones, ← Bool.decide_or]
    exact decide_eq_decide.mpr (by omega)
  · rw [hset.array1Size]
    exact hfit k hk

end RteBitmap

end NicSw
