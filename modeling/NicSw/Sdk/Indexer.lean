/-
The SDK indexer (`sdk/lib/indexer`): a bitmap of allocated indexes.

The bits of the last word that are past the size are set when the indexer is
made, so that they are never given out.  `alloc` takes a word that is not
full and finds a free bit of it by a multiplication (`debruijn64`).
-/
import NicSw.Lib.Bitmap

namespace NicSw

open Function

/-! ### The lowest set bit of a word -/

/-- `index64_`. -/
def index64 : List Nat :=
  [0, 1, 2, 53, 3, 7, 54, 27,
    4, 38, 41, 8, 34, 55, 48, 28,
    62, 5, 39, 46, 44, 42, 22, 9,
    24, 35, 59, 56, 49, 18, 29, 11,
    63, 52, 6, 26, 37, 40, 33, 47,
    61, 45, 43, 21, 23, 58, 17, 10,
    51, 25, 36, 32, 60, 20, 57, 16,
    50, 31, 19, 15, 30, 14, 13, 12]

/-- `debruijn64_`. -/
def debruijn64 : BitVec 64 := 0x022FDD63CC95386D#64

/-- `get_rightmost_set_bit_`. -/
def getRightmostSetBit (v : BitVec 64) : Nat :=
  index64.getD (((v &&& -v) * debruijn64) >>> 58).toNat 0

/-- A power of two picks its exponent from the table. -/
theorem index64_debruijn64 : ∀ i < 64,
    index64.getD (((1#64 <<< i) * debruijn64) >>> 58).toNat 0 = i := by
  decide +kernel

variable {v : BitVec 64}

/-- `v & -v` keeps the lowest set bit. -/
theorem and_neg_eq {i : Nat} (hi : v.getLsbD i = true) (hlow : ∀ j < i, v.getLsbD j = false) :
    v &&& -v = 1#64 <<< i := by
  have hi64 : i < 64 := BitVec.lt_of_getLsbD hi
  apply BitVec.eq_of_getLsbD_eq
  intro j hj
  rw [BitVec.getLsbD_and, BitVec.getLsbD_neg, getLsbD_one_shiftLeft hj]
  rcases Nat.lt_trichotomy j i with hlt | rfl | hgt
  · simp [hlow j hlt, hlt.ne]
  · have hnone : ¬ ∃ k < j, v.getLsbD k = true := by
      rintro ⟨k, hk, hv⟩
      rw [hlow k hk] at hv
      cases hv
    simp [hi, hj, hnone]
  · have hsome : ∃ k < j, v.getLsbD k = true := ⟨i, hgt, hi⟩
    simp [hsome, hgt.ne', hj]

/-- **The multiplication finds the lowest set bit.** -/
theorem getRightmostSetBit_eq {i : Nat} (hi : v.getLsbD i = true)
    (hlow : ∀ j < i, v.getLsbD j = false) : getRightmostSetBit v = i := by
  rw [getRightmostSetBit, and_neg_eq hi hlow]
  exact index64_debruijn64 i (BitVec.lt_of_getLsbD hi)

/-- What is found in a word that is not zero is set, and nothing below it is. -/
theorem getRightmostSetBit_spec (hv : v ≠ 0#64) :
    getRightmostSetBit v < 64 ∧ v.getLsbD (getRightmostSetBit v) = true ∧
      ∀ j < getRightmostSetBit v, v.getLsbD j = false := by
  have hex : ∃ i, v.getLsbD i = true := by
    by_contra hno
    push Not at hno
    refine hv (BitVec.eq_of_getLsbD_eq fun i _ => ?_)
    simpa using hno i
  have hfind := Nat.find_spec hex
  have hlow : ∀ j < Nat.find hex, v.getLsbD j = false := fun j hj => by
    simpa using Nat.find_min hex hj
  rw [getRightmostSetBit_eq hfind hlow]
  exact ⟨BitVec.lt_of_getLsbD hfind, hfind, hlow⟩

/-! ### The indexer -/

/-- `indexer::status`, where it is not `SUCCESS`. -/
inductive IndexerError
  | invalidIndexer
  | indexerFull
  | duplicateAlloc
  | duplicateFree
  | indexOob
  deriving DecidableEq, Repr

/-- `indexer`. -/
structure Indexer where
  size : Nat
  numWords : Nat
  bits : Nat → BitVec 64
  skipZero : Bool
  usage : Nat

namespace Indexer

/-- The index is allocated. -/
def isUsed (ix : Indexer) (k : Nat) : Bool := Bitmap.test ix.bits k

/-- Mark bit `off` of word `id`. -/
def mark (ix : Indexer) (id off : Nat) : Indexer :=
  { ix with
    bits := update ix.bits id (ix.bits id ||| 1#64 <<< off)
    usage := ix.usage + 1 }

/-- `alloc_withid`; `block_size` is not read. -/
def allocWithid (ix : Indexer) (index : Nat) : Except IndexerError Indexer :=
  if ix.numWords ≤ index / 64 then .error .indexOob
  else if ix.size ≤ index then .error .indexOob
  else if (ix.bits (index / 64)).getLsbD (index % 64) then .error .duplicateAlloc
  else .ok (ix.mark (index / 64) (index % 64))

/-- The constructor. -/
def init (size : Nat) (skipZero : Bool) : Indexer :=
  let mod := size % 64
  let numWords := if mod ≠ 0 then size / 64 + 1 else size / 64
  let bits : Nat → BitVec 64 := fun _ => 0#64
  let bits :=
    if mod ≠ 0 then update bits (numWords - 1) (BitVec.allOnes 64 <<< mod) else bits
  let ix : Indexer := ⟨size, numWords, bits, skipZero, 0⟩
  let ix := if skipZero then (ix.allocWithid 0).toOption.getD ix else ix
  { ix with usage := 0 }

/-- The first loop of `alloc`: the word to allocate from, searched upwards. -/
def lowestWord (ix : Indexer) : Option Nat :=
  (List.range ix.numWords).find? fun id => ix.bits id ≠ BitVec.allOnes 64

/-- The second loop of `alloc`, searched downwards from word `id`. -/
def highestWord (ix : Indexer) : Nat → Nat
  | 0 => 0
  | id + 1 => if ix.bits (id + 1) = BitVec.allOnes 64 then ix.highestWord id else id + 1

/-- The offset that `alloc` takes in a word when it allocates upwards. -/
def lowestOff (v : BitVec 64) : Nat := getRightmostSetBit (~~~v)

/-- The offset that `alloc` takes in a word when it allocates downwards: the one
below the lowest set bit. -/
def highestOff (v : BitVec 64) : Option Nat :=
  if v = 0#64 then some 63
  else
    match getRightmostSetBit v with
    | 0 => none
    | off + 1 => some off

/-- `alloc`; `block_size` is not read. -/
def alloc (ix : Indexer) (lowest : Bool) : Except IndexerError (Nat × Indexer) :=
  if ix.numWords = 0 then .error .invalidIndexer
  else
    let found : Option (Nat × Nat) :=
      if lowest then ix.lowestWord.map fun id => (id, lowestOff (ix.bits id))
      else
        let id := ix.highestWord (ix.numWords - 1)
        (highestOff (ix.bits id)).map fun off => (id, off)
    match found with
    | none => .error .indexerFull
    | some (id, off) => .ok (id * 64 + off, ix.mark id off)

/-- `free`. -/
def free (ix : Indexer) (index : Nat) : Except IndexerError Indexer :=
  if ix.numWords ≤ index / 64 then .error .indexOob
  else if ix.size ≤ index then .error .indexOob
  else if !(ix.bits (index / 64)).getLsbD (index % 64) then .error .duplicateFree
  else
    .ok { ix with
      bits := update ix.bits (index / 64) (ix.bits (index / 64) &&& ~~~(1#64 <<< (index % 64)))
      usage := ix.usage - 1 }

/-- **The invariant**: the words cover the size, and no index past it is free. -/
structure Ok (ix : Indexer) : Prop where
  words : ix.size ≤ ix.numWords * 64
  past : ∀ k, ix.size ≤ k → k < ix.numWords * 64 → ix.isUsed k = true

variable {ix ix' : Indexer} {i id off : Nat} {lowest : Bool}

theorem isUsed_mark (hoff : off < 64) (k : Nat) :
    (ix.mark id off).isUsed k = (decide (k = id * 64 + off) || ix.isUsed k) :=
  Bitmap.test_set hoff k

theorem Ok.mark (hok : ix.Ok) (hoff : off < 64) : (ix.mark id off).Ok := by
  refine ⟨hok.words, fun k hk hw => ?_⟩
  rw [isUsed_mark hoff, hok.past k hk hw, Bool.or_true]

theorem highestWord_le (n : Nat) : ix.highestWord n ≤ n := by
  induction n with
  | zero => exact Nat.le_refl 0
  | succ n ih =>
    rw [highestWord]
    split
    · exact ih.trans (Nat.le_succ n)
    · exact Nat.le_refl _

theorem lowestOff_spec (hv : v ≠ BitVec.allOnes 64) :
    lowestOff v < 64 ∧ v.getLsbD (lowestOff v) = false := by
  have hne : ~~~v ≠ 0#64 := fun h => hv (by rw [← BitVec.not_not (b := v), h]; rfl)
  obtain ⟨hlt, hbit, -⟩ := getRightmostSetBit_spec hne
  refine ⟨hlt, ?_⟩
  simpa [lowestOff, hlt] using hbit

theorem highestOff_spec (h : highestOff v = some off) : off < 64 ∧ v.getLsbD off = false := by
  unfold highestOff at h
  split at h
  · rename_i hv
    cases h
    rw [hv]
    exact ⟨by decide, BitVec.getLsbD_zero⟩
  rename_i hv
  obtain ⟨hlt, -, hlow⟩ := getRightmostSetBit_spec hv
  cases hr : getRightmostSetBit v with
  | zero =>
    rw [hr] at h
    cases h
  | succ n =>
    rw [hr] at h hlt hlow
    obtain rfl := Option.some.inj h
    exact ⟨by omega, hlow n (Nat.lt_succ_self n)⟩

/-- What `alloc` takes is a free bit of a word. -/
theorem alloc_eq_ok (h : ix.alloc lowest = .ok (i, ix')) :
    ∃ id off, id < ix.numWords ∧ off < 64 ∧ (ix.bits id).getLsbD off = false ∧
      i = id * 64 + off ∧ ix' = ix.mark id off := by
  unfold alloc at h
  split at h
  · cases h
  rename_i hwords
  cases lowest with
  | true =>
    cases hw : ix.lowestWord with
    | none =>
      simp only [hw, if_true, Option.map_none] at h
      cases h
    | some id =>
      simp only [hw, if_true, Option.map_some] at h
      cases h
      have hid := List.mem_range.mp (List.mem_of_find?_eq_some hw)
      have hne : ix.bits id ≠ BitVec.allOnes 64 := by simpa using List.find?_some hw
      obtain ⟨hlt, hbit⟩ := lowestOff_spec hne
      exact ⟨id, _, hid, hlt, hbit, rfl, rfl⟩
  | false =>
    cases ho : highestOff (ix.bits (ix.highestWord (ix.numWords - 1))) with
    | none =>
      simp only [ho, Option.map_none] at h
      cases h
    | some off =>
      simp only [ho, Option.map_some] at h
      cases h
      obtain ⟨hlt, hbit⟩ := highestOff_spec ho
      have hid := ix.highestWord_le (ix.numWords - 1)
      exact ⟨_, off, by omega, hlt, hbit, rfl, rfl⟩

/-- An index that is free is below the size. -/
theorem Ok.lt_size (hok : ix.Ok) (hi : i < ix.numWords * 64) (hfree : ix.isUsed i = false) :
    i < ix.size := by
  by_contra hge
  have hu := hok.past i (Nat.le_of_not_lt hge) hi
  rw [hfree] at hu
  cases hu

/-- **`alloc` marks one index that was free**, in either direction. -/
theorem alloc_ok (hok : ix.Ok) (h : ix.alloc lowest = .ok (i, ix')) :
    i < ix.size ∧ ix.isUsed i = false ∧ (∀ k, ix'.isUsed k = (decide (k = i) || ix.isUsed k)) ∧
      ix'.Ok ∧ ix'.size = ix.size := by
  obtain ⟨id, off, hid, hoff, hfree, rfl, rfl⟩ := alloc_eq_ok h
  have hunused : ix.isUsed (id * 64 + off) = false := (Bitmap.test_word _ _ hoff).trans hfree
  exact ⟨hok.lt_size (by omega) hunused, hunused, isUsed_mark hoff, hok.mark hoff, rfl⟩

/-- **`free` unmarks an allocated index.** -/
theorem free_ok (hok : ix.Ok) (hi : i < ix.size) (hu : ix.isUsed i = true) :
    ∃ ix', ix.free i = .ok ix' ∧ (∀ k, ix'.isUsed k = (!decide (k = i) && ix.isUsed k)) ∧
      ix'.Ok ∧ ix'.size = ix.size := by
  have hw := hok.words
  have hbit : (ix.bits (i / 64)).getLsbD (i % 64) = true := hu
  have hfree : ix.free i = .ok { ix with
      bits := update ix.bits (i / 64) (ix.bits (i / 64) &&& ~~~(1#64 <<< (i % 64)))
      usage := ix.usage - 1 } := by
    unfold free
    rw [if_neg (by omega), if_neg (by omega), if_neg (by simp [hbit])]
  refine ⟨_, hfree, Bitmap.test_clear ix.bits i, ⟨hok.words, fun k hk hlt => ?_⟩, rfl⟩
  have hne : k ≠ i := by
    have : ix.size ≤ k := hk
    omega
  refine (Bitmap.test_clear ix.bits i k).trans ?_
  have hpast : Bitmap.test ix.bits k = true := hok.past k hk hlt
  simp [hne, hpast]

theorem allocWithid_eq_ok (h : ix.allocWithid i = .ok ix') : ix' = ix.mark (i / 64) (i % 64) := by
  unfold allocWithid at h
  split at h
  · cases h
  · split at h
    · cases h
    · split at h
      · cases h
      · exact (Except.ok.inj h).symm

/-- A free index can be asked for. -/
theorem allocWithid_of_free (hok : ix.Ok) (hi : i < ix.size) (hu : ix.isUsed i = false) :
    ix.allocWithid i = .ok (ix.mark (i / 64) (i % 64)) := by
  have hw := hok.words
  have hbit : (ix.bits (i / 64)).getLsbD (i % 64) = false := hu
  unfold allocWithid
  rw [if_neg (by omega), if_neg (by omega), if_neg (by simp [hbit])]

/-- What `free` succeeds for, and what it leaves alone. -/
theorem free_eq_ok (h : ix.free i = .ok ix') :
    i < ix.size ∧ ix.isUsed i = true ∧ ix'.numWords = ix.numWords := by
  unfold free at h
  split at h
  · cases h
  split at h
  · cases h
  rename_i hlt
  split at h
  · cases h
  · rename_i hu
    have hbit : (ix.bits (i / 64)).getLsbD (i % 64) = true := by simpa using hu
    cases h
    exact ⟨Nat.lt_of_not_le hlt, hbit, rfl⟩

/-! ### The number of allocated indexes -/

/-- The indexes that are allocated. -/
def allocated (ix : Indexer) : Finset Nat :=
  (Finset.range ix.size).filter fun k => ix.isUsed k = true

theorem mem_allocated {k : Nat} : k ∈ ix.allocated ↔ k < ix.size ∧ ix.isUsed k = true := by
  rw [allocated, Finset.mem_filter, Finset.mem_range]

/-- Marking an index allocates at most one more. -/
theorem card_allocated_mark_le (hoff : off < 64) :
    (ix.mark id off).allocated.card ≤ ix.allocated.card + 1 := by
  have hsub : (ix.mark id off).allocated ⊆ insert (id * 64 + off) ix.allocated := by
    intro k hk
    rw [mem_allocated, isUsed_mark hoff, Bool.or_eq_true, decide_eq_true_eq] at hk
    rw [Finset.mem_insert, mem_allocated]
    exact hk.2.imp_right fun hu => ⟨hk.1, hu⟩
  exact (Finset.card_le_card hsub).trans (Finset.card_insert_le _ _)

section Fewer

variable (hsize : ix'.size = ix.size)
  (hkept : ∀ k < ix.size, ix'.isUsed k = true → ix.isUsed k = true)

include hsize hkept

theorem allocated_subset : ix'.allocated ⊆ ix.allocated := by
  intro k hk
  rw [mem_allocated, hsize] at hk
  exact mem_allocated.mpr ⟨hk.1, hkept k hk.1 hk.2⟩

theorem card_allocated_le : ix'.allocated.card ≤ ix.allocated.card :=
  Finset.card_le_card (allocated_subset hsize hkept)

/-- An index is given up. -/
theorem card_allocated_lt (hi : i < ix.size) (hu : ix.isUsed i = true)
    (hfree : ix'.isUsed i = false) : ix'.allocated.card < ix.allocated.card := by
  refine Finset.card_lt_card ⟨allocated_subset hsize hkept, fun hsub => ?_⟩
  have hmem := mem_allocated.mp (hsub (mem_allocated.mpr ⟨hi, hu⟩))
  rw [hfree] at hmem
  exact absurd hmem.2 Bool.false_ne_true

end Fewer

theorem unused_of_card_eq_zero (h : ix.allocated.card = 0) (hi : i < ix.size) :
    ix.isUsed i = false := by
  rw [Finset.card_eq_zero] at h
  by_contra hu
  have hmem : i ∈ ix.allocated := mem_allocated.mpr ⟨hi, by simpa using hu⟩
  rw [h] at hmem
  exact absurd hmem (Finset.notMem_empty i)

/-- A new indexer has no index allocated. -/
theorem init_ok (size : Nat) :
    (init size false).Ok ∧ (init size false).size = size ∧
      ∀ k < size, (init size false).isUsed k = false := by
  unfold init
  by_cases hm : size % 64 = 0
  · simp only [hm, ne_eq, not_true_eq_false, if_false, Bool.false_eq_true]
    refine ⟨⟨by show size ≤ size / 64 * 64; omega, fun k hk hlt => ?_⟩, trivial, fun k _ => ?_⟩
    · have : k < size / 64 * 64 := hlt
      have : size ≤ k := hk
      omega
    · exact BitVec.getLsbD_zero
  · simp only [hm, ne_eq, not_false_eq_true, if_true, Bool.false_eq_true, if_false]
    have hword : ∀ k, Bitmap.test (update (fun _ => 0#64) (size / 64 + 1 - 1)
        (BitVec.allOnes 64 <<< (size % 64))) k
          = (decide (k / 64 = size / 64) && decide (size % 64 ≤ k % 64)) := by
      intro k
      have hk := Nat.mod_lt k (show 0 < 64 by decide)
      unfold Bitmap.test
      rw [Nat.add_sub_cancel]
      by_cases hw : k / 64 = size / 64
      · rw [hw, update_self, BitVec.getLsbD_shiftLeft, BitVec.getLsbD_allOnes]
        by_cases hle : size % 64 ≤ k % 64
        · simp [hk, hle, show k % 64 - size % 64 < 64 by omega]
        · simp [hle, Nat.lt_of_not_le hle]
      · rw [update_of_ne hw]
        simp [hw]
    refine ⟨⟨by show size ≤ (size / 64 + 1) * 64; omega, fun k hk hlt => ?_⟩, trivial,
      fun k hk => ?_⟩
    · have hlt' : k < (size / 64 + 1) * 64 := hlt
      have hk' : size ≤ k := hk
      refine (hword k).trans ?_
      have h1 : k / 64 = size / 64 := by omega
      have h2 : size % 64 ≤ k % 64 := by omega
      simp [h1, h2]
    · refine (hword k).trans ?_
      by_cases hw : k / 64 = size / 64
      · have h2 : ¬ size % 64 ≤ k % 64 := by omega
        simp [h2]
      · simp [hw]

theorem card_allocated_init (size : Nat) : (init size false).allocated.card = 0 := by
  obtain ⟨-, hsize, hfree⟩ := init_ok size
  rw [Finset.card_eq_zero, allocated, Finset.filter_eq_empty_iff]
  intro k hk hu
  rw [Finset.mem_range, hsize] at hk
  rw [hfree k hk] at hu
  cases hu

end Indexer

end NicSw
