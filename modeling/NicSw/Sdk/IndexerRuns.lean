/-
The SDK indexer over whole histories, and its allocation of blocks.

`alloc_block` walks over the bitmap with a start and a number of free indexes
seen from there.  It begins again behind every index that is taken and skips
words that are full.  Its positions are 32-bit numbers: in a bitmap of `2 ^ 32`
bits the index after the last one is index `0` again, and a search that fails
in the last word never ends.

In the other direction `alloc` looks only below the lowest index that is taken
in a word.
-/
import NicSw.Lib.Run
import NicSw.Sdk.Indexer

namespace NicSw

open BitVec (allOnes)

namespace Indexer

/-! ### Blocks -/

/-- The inner loop of `alloc_block`: the first word from `word` on that is not
full, among the next `n` words. -/
def skipFull (ix : Indexer) : Nat → Nat → Nat
  | 0, word => word
  | n + 1, word => if ix.bits word = allOnes 64 then ix.skipFull n (word + 1) else word

/-- One round of the outer loop of `alloc_block`: the next `start` and `bit`;
`none` past the last word. -/
def blockStep (ix : Indexer) (start bit : Nat) : Option (Nat × Nat) :=
  let word := (start + bit) % 2 ^ 32 / 64
  let next := ix.skipFull (ix.numWords - word) word
  -- a word that was skipped resets the search
  let (start, bit) := if next = word then (start, bit) else (next * 64 % 2 ^ 32, 0)
  if ix.numWords ≤ next then none
  else if (ix.bits next).getLsbD ((start + bit) % 2 ^ 32 % 64) then
    some ((start + bit + 1) % 2 ^ 32, 0)
  else some (start, bit + 1)

/-- The outer loop of `alloc_block`, for at most `fuel` rounds: the start of the
block, or that there is none; `none` when the loop has not ended by then. -/
def blockLoop (ix : Indexer) (size : Nat) : Nat → Nat → Nat → Option (Except IndexerError Nat)
  | 0, _, _ => none
  | fuel + 1, start, bit =>
    if bit < size then
      match ix.blockStep start bit with
      | none => some (.error .indexerFull)
      | some (start, bit) => ix.blockLoop size fuel start bit
    else some (.ok start)

/-- The last loop of `alloc_block` marks the block. -/
def markBlock (ix : Indexer) (start : Nat) : Nat → Indexer
  | 0 => ix
  | n + 1 => (ix.markBlock start n).mark ((start + n) / 64) ((start + n) % 64)

/-- `alloc_block`, with a bound on the rounds of its search. -/
def allocBlock (ix : Indexer) (size fuel : Nat) : Option (Except IndexerError (Nat × Indexer)) :=
  if ix.numWords = 0 then some (.error .invalidIndexer)
  else
    (ix.blockLoop size fuel 0 0).map fun r => r.map fun start => (start, ix.markBlock start size)

/-- The indexes from `start` on are free, `n` of them. -/
def FreeRun (ix : Indexer) (start n : Nat) : Prop :=
  start + n ≤ ix.size ∧ ∀ k, start ≤ k → k < start + n → ix.isUsed k = false

variable {ix ix' : Indexer} {i n start bit : Nat} {lowest : Bool}

/-! ### What the search skips -/

theorem skipFull_spec (ix : Indexer) (n word : Nat) :
    word ≤ ix.skipFull n word ∧ ix.skipFull n word ≤ word + n ∧
      (∀ w, word ≤ w → w < ix.skipFull n word → ix.bits w = allOnes 64) ∧
      (ix.skipFull n word < word + n → ix.bits (ix.skipFull n word) ≠ allOnes 64) := by
  induction n generalizing word with
  | zero => exact ⟨Nat.le_refl _, Nat.le_refl _, fun w h1 h2 => absurd h2 (Nat.not_lt.mpr h1),
      fun h => absurd h (Nat.lt_irrefl _)⟩
  | succ n ih =>
    rw [skipFull]
    split
    · rename_i hfull
      obtain ⟨hle, hge, hskip, hnext⟩ := ih (word + 1)
      refine ⟨by omega, by omega, fun w h1 h2 => ?_, fun h => hnext (by omega)⟩
      rcases Nat.eq_or_lt_of_le h1 with rfl | hlt
      · exact hfull
      · exact hskip w hlt h2
    · rename_i hfree
      exact ⟨Nat.le_refl _, by omega, fun w h1 h2 => absurd h2 (Nat.not_lt.mpr h1), fun _ => hfree⟩

variable {w q : Nat}

/-- Every index of a full word is taken. -/
theorem isUsed_of_full {k : Nat} (hw : ix.bits w = allOnes 64) (hk : k / 64 = w) :
    ix.isUsed k = true := by
  have hlt := Nat.mod_lt k (show 0 < 64 by decide)
  show (ix.bits (k / 64)).getLsbD (k % 64) = true
  rw [hk, hw, BitVec.getLsbD_allOnes]
  exact decide_eq_true hlt

/-- A word that is not full has an index that is free. -/
theorem exists_free_of_not_full (hw : ix.bits w ≠ allOnes 64) :
    ∃ k, k / 64 = w ∧ ix.isUsed k = false := by
  obtain ⟨hlt, hbit⟩ := lowestOff_spec hw
  refine ⟨w * 64 + lowestOff (ix.bits w), by omega, ?_⟩
  exact (Bitmap.test_word _ _ hlt).trans hbit

theorem isUsed_markBlock (k : Nat) :
    (ix.markBlock start n).isUsed k = (decide (start ≤ k ∧ k < start + n) || ix.isUsed k) := by
  induction n with
  | zero =>
    have : ¬ (start ≤ k ∧ k < start + 0) := by omega
    simp only [markBlock, this, decide_false, Bool.false_or]
  | succ n ih =>
    rw [markBlock, isUsed_mark (Nat.mod_lt _ (by decide)), ih, ← Bool.or_assoc]
    congr 1
    rw [Nat.div_add_mod', ← Bool.decide_or]
    exact decide_eq_decide.mpr (by omega)

theorem Ok.markBlock (hok : ix.Ok) (start n : Nat) :
    (ix.markBlock start n).Ok ∧ (ix.markBlock start n).size = ix.size ∧
      (ix.markBlock start n).numWords = ix.numWords := by
  induction n with
  | zero => exact ⟨hok, rfl, rfl⟩
  | succ n ih => exact ⟨ih.1.mark (Nat.mod_lt _ (by decide)), ih.2⟩

/-! ### The search for a block -/

/-- **All that a round of the search can do** from the index `start + bit`. -/
inductive StepPost (ix : Indexer) (start bit : Nat) : Option (Nat × Nat) → Prop
  | full (used : ∀ k, (start + bit) / 64 ≤ k / 64 → k < ix.numWords * 64 → ix.isUsed k = true) :
      StepPost ix start bit none
  | free (lt : start + bit < ix.numWords * 64) (unused : ix.isUsed (start + bit) = false) :
      StepPost ix start bit (some (start, bit + 1))
  | skip {q : Nat} (le : start + bit < q) (lt : q < ix.numWords * 64)
      (used : ∀ k, start + bit ≤ k → k < q → ix.isUsed k = true) (unused : ix.isUsed q = false) :
      StepPost ix start bit (some (q, 1))
  | taken {q : Nat} (le : start + bit ≤ q) (lt : q < ix.numWords * 64)
      (used : ∀ k, start + bit ≤ k → k ≤ q → ix.isUsed k = true)
      (room : ix.bits (q / 64) ≠ allOnes 64) :
      StepPost ix start bit (some ((q + 1) % 2 ^ 32, 0))

theorem blockStep_post (hwords : ix.numWords * 64 ≤ 2 ^ 32) (hle : start + bit ≤ ix.numWords * 64)
    (hlt : start + bit < 2 ^ 32) : StepPost ix start bit (ix.blockStep start bit) := by
  unfold blockStep
  simp only [Nat.mod_eq_of_lt hlt]
  obtain ⟨hge, hmax, hskip, hroom⟩ :=
    skipFull_spec ix (ix.numWords - (start + bit) / 64) ((start + bit) / 64)
  generalize ix.skipFull (ix.numWords - (start + bit) / 64) ((start + bit) / 64) = next
    at hge hmax hskip hroom ⊢
  -- the words before `next` are full
  have hfull : ∀ k, (start + bit) / 64 ≤ k / 64 → k < next * 64 → ix.isUsed k = true :=
    fun k h1 h2 => isUsed_of_full (hskip (k / 64) h1 (by omega)) rfl
  have hused : ∀ k, start + bit ≤ k → k < next * 64 → ix.isUsed k = true := fun k h1 =>
    hfull k (Nat.div_le_div_right h1)
  by_cases hend : ix.numWords ≤ next
  · simp only [hend, if_true]
    exact .full fun k h1 h2 => hfull k h1 (by omega)
  have hroom := hroom (by omega)
  by_cases hn : next = (start + bit) / 64
  · subst hn
    have hlt' : start + bit < ix.numWords * 64 := by omega
    simp only [if_true, hend, if_false, Nat.mod_eq_of_lt hlt]
    have hbit : (ix.bits ((start + bit) / 64)).getLsbD ((start + bit) % 64)
        = ix.isUsed (start + bit) := rfl
    rw [hbit]
    cases hu : ix.isUsed (start + bit) with
    | false => exact .free hlt' hu
    | true =>
      refine .taken (Nat.le_refl _) hlt' (fun k h1 h2 => ?_) hroom
      rwa [Nat.le_antisymm h2 h1]
  · have hlt' : next * 64 < ix.numWords * 64 := by omega
    have hmod : next * 64 % 2 ^ 32 = next * 64 := Nat.mod_eq_of_lt (by omega)
    simp only [hn, if_false, hend, Nat.add_zero, hmod]
    have hbit : (ix.bits next).getLsbD (next * 64 % 64) = ix.isUsed (next * 64) := by
      show _ = (ix.bits (next * 64 / 64)).getLsbD (next * 64 % 64)
      rw [Nat.mul_div_cancel _ (by decide)]
    rw [hbit]
    cases hu : ix.isUsed (next * 64) with
    | false => exact .skip (by omega) hlt' hused hu
    | true =>
      refine .taken (by omega) hlt' (fun k h1 h2 => ?_) ?_
      · rcases Nat.lt_or_eq_of_le h2 with h2 | rfl
        · exact hused k h1 h2
        · exact hu
      · rwa [Nat.mul_div_cancel _ (by decide)]

/-- **Where the search is**: the indexes from `start` on are free, `bit` of
them. -/
structure Searching (ix : Indexer) (n start bit : Nat) : Prop where
  inside : start + bit ≤ ix.numWords * 64
  lt : start + bit < 2 ^ 32
  bit_le : bit ≤ n
  seen : ∀ k, start ≤ k → k < start + bit → ix.isUsed k = false

/-- No block starts before `start`. -/
def Passed (ix : Indexer) (n start : Nat) : Prop := ∀ s < start, ¬ ix.FreeRun s n

/-- Indexes that are taken rule out all starts up to their end. -/
theorem Passed.of_used (hpass : ix.Passed n start) (hbit : bit < n)
    (hused : ∀ k, start + bit ≤ k → k < q → ix.isUsed k = true) (hq : start + bit < q) :
    ix.Passed n q := by
  intro s hs hrun
  by_cases hlt : s < start
  · exact hpass s hlt hrun
  -- the block would hold index `start + bit`, or start at an index that is taken
  have hne : ∀ k, s ≤ k → k < s + n → start + bit ≤ k → k < q → False := by
    intro k h1 h2 h3 h4
    have hu := hused k h3 h4
    rw [hrun.2 k h1 h2] at hu
    cases hu
  rcases Nat.le_total s (start + bit) with hle | hle
  · exact hne (start + bit) hle (by omega) (Nat.le_refl _) hq
  · exact hne s (Nat.le_refl _) (by omega) hle hs

theorem Searching.freeRun (hok : ix.Ok) (h : ix.Searching n start n) (hn : 1 ≤ n) :
    ix.FreeRun start n := by
  refine ⟨?_, h.seen⟩
  have hin := h.inside
  have hlast := hok.lt_size (show start + n - 1 < _ by omega) (h.seen _ (by omega) (by omega))
  omega

/-- **What `alloc_block` has to return**: the lowest block there is, all of it
marked and nothing else, or that there is none. -/
inductive BlockPost (ix : Indexer) (n : Nat) : Except IndexerError (Nat × Indexer) → Prop
  | ok {s : Nat} {ix' : Indexer} (run : ix.FreeRun s n) (lowest : ix.Passed n s)
      (marked : ∀ k, ix'.isUsed k = (decide (s ≤ k ∧ k < s + n) || ix.isUsed k)) :
      BlockPost ix n (.ok (s, ix'))
  | full (absent : ∀ s, ¬ ix.FreeRun s n) : BlockPost ix n (.error .indexerFull)

/-- The search of `alloc_block` ends, and with the right result. -/
def BlockCorrect (ix : Indexer) (n : Nat) : Prop :=
  ∃ rounds, ∀ fuel ≥ rounds, ∃ r, ix.allocBlock n fuel = some r ∧ ix.BlockPost n r

/-- There is no block, and the search for one passes the last index of `2 ^ 32`. -/
structure Wraps (ix : Indexer) (n : Nat) : Prop where
  absent : ∀ s, ¬ ix.FreeRun s n
  last : ∃ k, 2 ^ 32 - 64 ≤ k ∧ k < ix.size ∧ ix.isUsed k = false

section Search

variable (hok : ix.Ok) (hwords : ix.numWords * 64 ≤ 2 ^ 32) (hn : 1 ≤ n)

include hok hwords hn

/-- The index after the one that is taken is past it, unless the search wraps. -/
theorem succ_mod_of_taken (hno : ¬ ix.Wraps n) (hlt : q < ix.numWords * 64)
    (hpass : ix.Passed n (q + 1)) (hroom : ix.bits (q / 64) ≠ allOnes 64) :
    (q + 1) % 2 ^ 32 = q + 1 ∧ q + 1 < 2 ^ 32 := by
  have hne : q + 1 ≠ 2 ^ 32 := by
    intro hq
    obtain ⟨k, hk, hfree⟩ := exists_free_of_not_full hroom
    have hkw : k < ix.numWords * 64 := by omega
    refine hno ⟨fun s hrun => ?_, k, by omega, hok.lt_size hkw hfree, hfree⟩
    by_cases hs : s < q + 1
    · exact hpass s hs hrun
    · have hend := hrun.1
      have hw := hok.words
      omega
  have hq : q + 1 < 2 ^ 32 := by omega
  exact ⟨Nat.mod_eq_of_lt hq, hq⟩

/-- **The search ends** at the first block, or past the last word. -/
theorem blockLoop_post (hsize : ix.size < 2 ^ 32) (hno : ¬ ix.Wraps n) {fuel : Nat}
    (hs : ix.Searching n start bit) (hpass : ix.Passed n start)
    (hfuel : ix.numWords * 64 < start + bit + fuel) :
    (∃ s, ix.blockLoop n fuel start bit = some (.ok s) ∧ ix.FreeRun s n ∧ ix.Passed n s) ∨
      (ix.blockLoop n fuel start bit = some (.error .indexerFull) ∧ ∀ s, ¬ ix.FreeRun s n) := by
  -- every round moves the index it looks at up
  induction fuel generalizing start bit with
  | zero => exact absurd hs.inside (Nat.not_le.mpr hfuel)
  | succ fuel ih =>
    rw [blockLoop]
    by_cases hbit : bit < n
    · rw [if_pos hbit]
      have hpost := blockStep_post hwords hs.inside hs.lt
      generalize ix.blockStep start bit = r at hpost
      cases hpost with
      | full used =>
        refine .inr ⟨rfl, fun s hrun => ?_⟩
        have hend := hrun.1
        have hw := hok.words
        by_cases hlt : s < start
        · exact hpass s hlt hrun
        · have hk : s + n - 1 < ix.numWords * 64 := by omega
          have hu := used (s + n - 1) (Nat.div_le_div_right (by omega)) hk
          rw [hrun.2 _ (by omega) (by omega)] at hu
          cases hu
      | free lt unused =>
        have hlt := hok.lt_size lt unused
        refine ih ⟨by omega, by omega, hbit, fun k h1 h2 => ?_⟩ hpass (by omega)
        · rcases Nat.lt_or_eq_of_le (Nat.lt_succ_iff.mp h2) with h2 | rfl
          · exact hs.seen k h1 h2
          · exact unused
      | @skip q le lt used unused =>
        have hlt := hok.lt_size lt unused
        refine ih ⟨by omega, by omega, hn, fun k h1 h2 => ?_⟩ (hpass.of_used hbit used le)
          (by omega)
        obtain rfl : k = q := by omega
        exact unused
      | @taken q le lt used room =>
        have hpass' : ix.Passed n (q + 1) :=
          hpass.of_used hbit (fun k h1 h2 => used k h1 (Nat.lt_succ_iff.mp h2)) (by omega)
        obtain ⟨hmod, hq⟩ := succ_mod_of_taken hok hwords hn hno lt hpass' room
        rw [hmod]
        refine ih ⟨by omega, by omega, Nat.zero_le n, fun k h1 h2 => ?_⟩ hpass' (by omega)
        omega
    · obtain rfl : bit = n := Nat.le_antisymm hs.bit_le (Nat.le_of_not_lt hbit)
      rw [if_neg hbit]
      exact .inl ⟨start, rfl, hs.freeRun hok hn, hpass⟩

/-- **A search that wraps around does not end.** -/
theorem blockLoop_of_wraps (hsize : ix.size < 2 ^ 32) (hwrap : ix.Wraps n) (fuel : Nat)
    (hs : ix.Searching n start bit) : ix.blockLoop n fuel start bit = none := by
  obtain ⟨l, hl, hlsize, hlfree⟩ := hwrap.last
  have hall : ix.numWords * 64 = 2 ^ 32 := by
    have := hok.words
    omega
  induction fuel generalizing start bit with
  | zero => rfl
  | succ fuel ih =>
    have hbit : bit < n := by
      refine Nat.lt_of_le_of_ne hs.bit_le ?_
      rintro rfl
      exact hwrap.absent start (hs.freeRun hok hn)
    have hlt := hs.lt
    have hpost := blockStep_post hwords hs.inside hs.lt
    rw [blockLoop, if_pos hbit]
    generalize ix.blockStep start bit = r at hpost
    cases hpost with
    | full used =>
      -- the last word has an index that is free
      have hu := used l (by omega) (by omega)
      rw [hlfree] at hu
      cases hu
    | free lt unused =>
      have := hok.lt_size lt unused
      refine ih ⟨by omega, by omega, hbit, fun k h1 h2 => ?_⟩
      rcases Nat.lt_or_eq_of_le (Nat.lt_succ_iff.mp h2) with h2 | rfl
      · exact hs.seen k h1 h2
      · exact unused
    | @skip q le lt used unused =>
      have := hok.lt_size lt unused
      refine ih ⟨by omega, by omega, hn, fun k h1 h2 => ?_⟩
      obtain rfl : k = q := by omega
      exact unused
    | @taken q le lt used room =>
      refine ih ⟨by omega, by omega, Nat.zero_le n, fun k h1 h2 => ?_⟩
      omega

/-- **`alloc_block` is right unless it wraps around.** -/
theorem blockCorrect_iff (hsize : ix.size < 2 ^ 32) (hne : ix.numWords ≠ 0) :
    ix.BlockCorrect n ↔ ¬ ix.Wraps n := by
  have hstart : ix.Searching n 0 0 :=
    ⟨Nat.zero_le _, by decide, Nat.zero_le _, fun k _ h => absurd h (Nat.not_lt_zero k)⟩
  have hpass : ix.Passed n 0 := fun s hs => absurd hs (Nat.not_lt_zero s)
  constructor
  · rintro ⟨rounds, h⟩ hwrap
    obtain ⟨r, hr, -⟩ := h rounds (Nat.le_refl _)
    rw [allocBlock, if_neg hne, blockLoop_of_wraps hok hwords hn hsize hwrap rounds hstart] at hr
    cases hr
  · intro hno
    refine ⟨ix.numWords * 64 + 1, fun fuel hfuel => ?_⟩
    rw [allocBlock, if_neg hne]
    have hrounds : ix.numWords * 64 < 0 + 0 + fuel := by omega
    rcases blockLoop_post hok hwords hn hsize hno hstart hpass hrounds with
      ⟨s, hs, hrun, hlow⟩ | ⟨hs, habs⟩
    · rw [hs]
      exact ⟨_, rfl, .ok hrun hlow isUsed_markBlock⟩
    · rw [hs]
      exact ⟨_, rfl, .full habs⟩

end Search

/-! ### Histories -/

/-- A call that succeeds.  Calls that fail leave the indexer as it is. -/
inductive Step (ix : Indexer) : Indexer → Prop
  | alloc {lowest : Bool} {i : Nat} {ix' : Indexer} (h : ix.alloc lowest = .ok (i, ix')) :
      Step ix ix'
  | allocWithid {i : Nat} {ix' : Indexer} (h : ix.allocWithid i = .ok ix') : Step ix ix'
  | allocBlock {n fuel i : Nat} {ix' : Indexer} (h : ix.allocBlock n fuel = some (.ok (i, ix'))) :
      Step ix ix'
  | free {i : Nat} {ix' : Indexer} (h : ix.free i = .ok ix') : Step ix ix'

/-- The indexers that histories of calls lead to. -/
def Reached (size : Nat) (skipZero : Bool) : Indexer → Prop :=
  Reachable (· = init size skipZero) Step

/-- **The invariant of a history.** -/
structure Inv (size : Nat) (ix : Indexer) : Prop where
  ok : ix.Ok
  size_eq : ix.size = size
  words_eq : ix.numWords = (size + 63) / 64

variable {size : Nat} {skipZero : Bool}

theorem Inv.mark (hi : Inv size ix) {id off : Nat} (hoff : off < 64) : Inv size (ix.mark id off) :=
  ⟨hi.ok.mark hoff, hi.size_eq, hi.words_eq⟩

theorem Inv.of_init (size : Nat) (skipZero : Bool) : Inv size (init size skipZero) := by
  have hwords : (init size false).numWords = (size + 63) / 64 := by
    show (if size % 64 ≠ 0 then size / 64 + 1 else size / 64) = _
    split <;> omega
  obtain ⟨hok, hsize, -⟩ := init_ok size
  have hfalse : Inv size (init size false) := ⟨hok, hsize, hwords⟩
  cases skipZero with
  | false => exact hfalse
  | true =>
    -- index 0 is taken, if there is one
    let base : Indexer := { init size false with skipZero := true }
    have hbase : Inv size base := ⟨{ hok with }, hsize, hwords⟩
    show Inv size { (base.allocWithid 0).toOption.getD base with usage := 0 }
    cases ha : base.allocWithid 0 with
    | error e => exact ⟨{ hok with }, hsize, hwords⟩
    | ok ix =>
      obtain rfl := allocWithid_eq_ok ha
      have hmark := @Inv.mark _ _ hbase (0 / 64) (0 % 64) (by decide)
      exact ⟨⟨hmark.ok.words, hmark.ok.past⟩, hmark.size_eq, hmark.words_eq⟩

theorem Inv.step (hi : Inv size ix) (h : Step ix ix') : Inv size ix' := by
  cases h with
  | alloc h =>
    obtain ⟨id, off, -, hoff, -, -, rfl⟩ := alloc_eq_ok h
    exact hi.mark hoff
  | allocWithid h =>
    rw [allocWithid_eq_ok h]
    exact hi.mark (Nat.mod_lt _ (by decide))
  | @allocBlock n fuel i _ h =>
    unfold allocBlock at h
    split at h
    · cases h
    obtain ⟨r, -, hr⟩ := Option.map_eq_some_iff.mp h
    cases r with
    | error e => cases hr
    | ok s =>
      obtain ⟨rfl, rfl⟩ := Prod.mk.inj (Except.ok.inj hr)
      obtain ⟨hok, hsize, hw⟩ := hi.ok.markBlock s n
      exact ⟨hok, hsize.trans hi.size_eq, hw.trans hi.words_eq⟩
  | free h =>
    obtain ⟨hlt, hu, hw⟩ := free_eq_ok h
    obtain ⟨ix'', h', -, hok, hsize⟩ := free_ok hi.ok hlt hu
    cases h.symm.trans h'
    exact ⟨hok, hsize.trans hi.size_eq, hw.trans hi.words_eq⟩

theorem Reached.inv (hr : Reached size skipZero ix) : Inv size ix :=
  Reachable.invariant hr (fun _ h => h ▸ .of_init size skipZero) fun _ _ => Inv.step

/-- **`alloc_block` finds the lowest block** in every history: exactly if the
indexer has a size, and the search does not run around a bitmap of `2 ^ 32`
bits. -/
theorem Reached.allocBlock_iff (hsize : size < 2 ^ 32) (hr : Reached size skipZero ix)
    (hn : 1 ≤ n) :
    ix.BlockCorrect n ↔ 0 < size ∧ ((∃ s, ix.FreeRun s n) ∨
      ∀ k, 2 ^ 32 - 64 ≤ k → k < size → ix.isUsed k = true) := by
  obtain ⟨hok, rfl, hw⟩ := hr.inv
  by_cases h0 : ix.size = 0
  · -- an indexer without words is not valid
    have hwords : ix.numWords = 0 := by omega
    refine iff_of_false ?_ (by omega)
    rintro ⟨rounds, h⟩
    obtain ⟨r, hr, hpost⟩ := h rounds (Nat.le_refl _)
    rw [allocBlock, if_pos hwords] at hr
    cases hr
    cases hpost
  · rw [blockCorrect_iff hok (by omega) hn hsize (by omega)]
    constructor
    · intro hno
      refine ⟨Nat.pos_of_ne_zero h0, or_iff_not_imp_left.mpr fun habs k hk hlt => ?_⟩
      by_contra hfree
      exact hno ⟨fun s hs => habs ⟨s, hs⟩, k, hk, hlt, by simpa using hfree⟩
    · rintro ⟨-, ⟨s, hs⟩ | hused⟩ ⟨habs, k, hk, hlt, hfree⟩
      · exact habs s hs
      · rw [hused k hk hlt] at hfree
        cases hfree

theorem Reached.allocBlock_seventy : (init 70 false).BlockCorrect 66 := by
  refine (Reached.allocBlock_iff (by decide) (.start rfl) (by decide)).mpr ⟨by decide, .inl ⟨0, ?_⟩⟩
  obtain ⟨-, hsize, hfree⟩ := init_ok 70
  exact ⟨by rw [hsize]; decide, fun k _ hk => hfree k (by omega)⟩

/-- With index `0` set aside there is no block of the whole size, and the search
for one in the largest indexer does not end. -/
theorem not_blockCorrect_largest :
    Reached (2 ^ 32 - 1) true (init (2 ^ 32 - 1) true) ∧
      ¬ (init (2 ^ 32 - 1) true).BlockCorrect (2 ^ 32 - 1) ∧
      ∀ fuel, (init (2 ^ 32 - 1) true).allocBlock (2 ^ 32 - 1) fuel = none := by
  have hr : Reached (2 ^ 32 - 1) true (init (2 ^ 32 - 1) true) := .start rfl
  obtain ⟨hok, hsize, hw⟩ := hr.inv
  have hwords : (init (2 ^ 32 - 1) true).numWords * 64 ≤ 2 ^ 32 := by rw [hw]; decide
  have hne : (init (2 ^ 32 - 1) true).numWords ≠ 0 := by rw [hw]; decide
  have hlt : (init (2 ^ 32 - 1) true).size < 2 ^ 32 := by rw [hsize]; decide
  have hlast : (init (2 ^ 32 - 1) true).isUsed (2 ^ 32 - 2) = false := by decide +kernel
  have hwrap : (init (2 ^ 32 - 1) true).Wraps (2 ^ 32 - 1) := by
    refine ⟨fun s hrun => ?_, 2 ^ 32 - 2, by decide, by rw [hsize]; decide, hlast⟩
    have hend := hrun.1
    have hfree := hrun.2 0 (by omega) (by omega)
    cases hfree
  refine ⟨hr, fun h => (blockCorrect_iff hok hwords (by decide) hlt hne).mp h hwrap, fun fuel => ?_⟩
  rw [allocBlock, if_neg hne, blockLoop_of_wraps hok hwords (by decide) hlt hwrap fuel
    ⟨Nat.zero_le _, by decide, Nat.zero_le _, fun k _ h => absurd h (Nat.not_lt_zero k)⟩]
  rfl

/-! ### Single indexes -/

/-- **What `alloc` has to do**: take one index that is free, or report that none
is. -/
structure AllocCorrect (ix : Indexer) (lowest : Bool) : Prop where
  ok : ∀ i ix', ix.alloc lowest = .ok (i, ix') → i < ix.size ∧ ix.isUsed i = false ∧
    ∀ k, ix'.isUsed k = (decide (k = i) || ix.isUsed k)
  full : ix.alloc lowest = .error .indexerFull → ∀ k < ix.size, ix.isUsed k = true

/-- The first index of the topmost word with a free index is free. -/
def TopWordOpen (ix : Indexer) : Prop :=
  ∀ w, (∃ k < ix.size, k / 64 = w ∧ ix.isUsed k = false) →
    (∀ k < ix.size, w < k / 64 → ix.isUsed k = true) → ix.isUsed (w * 64) = false

/-- A word is full if all its indexes are taken. -/
theorem full_of_isUsed (h : ∀ k, k / 64 = w → ix.isUsed k = true) : ix.bits w = allOnes 64 := by
  by_contra hne
  obtain ⟨k, hk, hfree⟩ := exists_free_of_not_full hne
  rw [h k hk] at hfree
  cases hfree

theorem highestWord_spec (ix : Indexer) (n : Nat) :
    (∀ w ≤ n, ix.highestWord n < w → ix.bits w = allOnes 64) ∧
      (ix.highestWord n ≠ 0 → ix.bits (ix.highestWord n) ≠ allOnes 64) := by
  induction n with
  | zero => exact ⟨fun w h1 h2 => absurd h2 (by omega), fun h => absurd rfl h⟩
  | succ n ih =>
    rw [highestWord]
    split
    · rename_i hfull
      refine ⟨fun w h1 h2 => ?_, ih.2⟩
      rcases Nat.lt_or_eq_of_le h1 with h1 | rfl
      · exact ih.1 w (Nat.lt_succ_iff.mp h1) h2
      · exact hfull
    · rename_i hfree
      exact ⟨fun w h1 h2 => absurd h2 (Nat.not_lt.mpr h1), fun _ => hfree⟩

/-- Downwards nothing is found in a word whose first index is taken. -/
theorem highestOff_eq_none_iff {v : BitVec 64} : highestOff v = none ↔ v.getLsbD 0 = true := by
  unfold highestOff
  by_cases hv : v = 0#64
  · simp [hv]
  rw [if_neg hv]
  obtain ⟨-, hbit, hlow⟩ := getRightmostSetBit_spec hv
  cases hr : getRightmostSetBit v with
  | zero =>
    rw [hr] at hbit
    exact iff_of_true rfl hbit
  | succ off =>
    rw [hr] at hlow
    refine iff_of_false (by simp) ?_
    rw [hlow 0 (Nat.succ_pos off)]
    simp

theorem alloc_highest_full_iff (hne : ix.numWords ≠ 0) :
    ix.alloc false = .error .indexerFull
      ↔ ix.isUsed (ix.highestWord (ix.numWords - 1) * 64) = true := by
  have hbit : ix.isUsed (ix.highestWord (ix.numWords - 1) * 64)
      = (ix.bits (ix.highestWord (ix.numWords - 1))).getLsbD 0 := by
    rw [isUsed, Bitmap.test, Nat.mul_div_cancel _ (by decide), Nat.mul_mod_left]
  rw [hbit, ← highestOff_eq_none_iff, alloc, if_neg hne]
  simp only [Bool.false_eq_true, if_false]
  generalize highestOff (ix.bits (ix.highestWord (ix.numWords - 1))) = found
  cases found with
  | none => exact iff_of_true rfl rfl
  | some off => exact iff_of_false (by simp) (by simp)

/-- Upwards every word is looked at. -/
theorem Ok.full_of_alloc_lowest (hok : ix.Ok) (h : ix.alloc true = .error .indexerFull) :
    ∀ k < ix.size, ix.isUsed k = true := by
  intro k hk
  have hw := hok.words
  unfold alloc at h
  split at h
  · cases h
  cases hword : ix.lowestWord with
  | some id =>
    simp only [hword, if_true, Option.map_some] at h
    cases h
  | none =>
    have hall := List.find?_eq_none.mp hword (k / 64) (List.mem_range.mpr (by omega))
    exact isUsed_of_full (by simpa using hall) rfl

/-- Downwards only the topmost word that is not full is looked at. -/
theorem Ok.full_of_alloc_highest_iff (hok : ix.Ok) (hne : ix.numWords ≠ 0) :
    (ix.alloc false = .error .indexerFull → ∀ k < ix.size, ix.isUsed k = true)
      ↔ ix.TopWordOpen := by
  have hwords := hok.words
  rw [alloc_highest_full_iff hne]
  obtain ⟨habove, htop⟩ := highestWord_spec ix (ix.numWords - 1)
  have hle := ix.highestWord_le (ix.numWords - 1)
  generalize ix.highestWord (ix.numWords - 1) = top at habove htop hle ⊢
  have hused : ∀ k < ix.size, top < k / 64 → ix.isUsed k = true := fun k hk hlt =>
    isUsed_of_full (habove (k / 64) (by omega) hlt) rfl
  constructor
  · rintro h w ⟨k, hk, hkw, hfree⟩ hup
    -- the word is the one that `alloc` looks at
    have hfull : ∀ v, w < v → v < ix.numWords → ix.bits v = allOnes 64 := by
      intro v hv hlt
      refine full_of_isUsed fun j hj => ?_
      by_cases hjs : j < ix.size
      · exact hup j hjs (by omega)
      · exact hok.past j (Nat.le_of_not_lt hjs) (by omega)
    obtain rfl : top = w := by
      rcases Nat.lt_trichotomy top w with hlt | heq | hgt
      · rw [hused k hk (by omega)] at hfree
        cases hfree
      · exact heq
      · exact absurd (hfull top hgt (by omega)) (htop (by omega))
    by_contra hzero
    rw [h (by simpa using hzero) k hk] at hfree
    cases hfree
  · intro hopen hzero k hk
    by_contra hfree
    have hk64 : k / 64 ≤ top := Nat.le_of_not_lt fun hlt => hfree (hused k hk hlt)
    have hex : ∃ j < ix.size, j / 64 = top ∧ ix.isUsed j = false := by
      rcases Nat.lt_or_eq_of_le hk64 with hlt | heq
      · obtain ⟨j, hj, hjfree⟩ := exists_free_of_not_full (htop (by omega))
        exact ⟨j, hok.lt_size (by omega) hjfree, hj, hjfree⟩
      · exact ⟨k, hk, heq, by simpa using hfree⟩
    rw [hopen top hex hused] at hzero
    cases hzero

/-- When `alloc` fails. -/
theorem alloc_error_iff (hok : ix.Ok) (hne : ix.numWords ≠ 0) (lowest : Bool) :
    (∃ e, ix.alloc lowest = .error e) ↔ (∀ k < ix.size, ix.isUsed k = true) ∨
      (lowest = false ∧ ¬ ix.TopWordOpen) := by
  -- only an indexer without words fails in another way
  have hfull : ∀ e, ix.alloc lowest = .error e → e = .indexerFull := by
    intro e he
    rw [alloc, if_neg hne] at he
    dsimp only at he
    split at he
    · exact (Except.error.inj he).symm
    · cases he
  constructor
  · rintro ⟨e, he⟩
    obtain rfl := hfull e he
    cases lowest with
    | true => exact .inl (hok.full_of_alloc_lowest he)
    | false =>
      refine or_iff_not_imp_right.mpr fun hopen => ?_
      rw [not_and_not_right] at hopen
      exact (hok.full_of_alloc_highest_iff hne).mpr (hopen rfl) he
  · rintro (hall | ⟨rfl, hclosed⟩)
    · cases ha : ix.alloc lowest with
      | error e => exact ⟨e, rfl⟩
      | ok r =>
        obtain ⟨hlt, hfree, -⟩ := alloc_ok hok ha
        rw [hall _ hlt] at hfree
        cases hfree
    · rw [← hok.full_of_alloc_highest_iff hne, Classical.not_imp] at hclosed
      exact ⟨_, hclosed.1⟩

/-- **`alloc` is right upwards, and downwards exactly if the topmost word with a
free index has its first index free.** -/
theorem Reached.alloc_iff (hr : Reached size skipZero ix) (lowest : Bool) :
    ix.AllocCorrect lowest ↔ lowest = true ∨ ix.TopWordOpen := by
  obtain ⟨hok, rfl, hw⟩ := hr.inv
  have hgood : ∀ i ix', ix.alloc lowest = .ok (i, ix') → i < ix.size ∧ ix.isUsed i = false ∧
      ∀ k, ix'.isUsed k = (decide (k = i) || ix.isUsed k) := by
    intro i ix' h
    obtain ⟨hlt, hfree, hmark, -⟩ := alloc_ok hok h
    exact ⟨hlt, hfree, hmark⟩
  cases lowest with
  | true => exact iff_of_true ⟨hgood, hok.full_of_alloc_lowest⟩ (.inl rfl)
  | false =>
    simp only [Bool.false_eq_true, false_or]
    by_cases hne : ix.numWords = 0
    · -- without words there are no indexes either
      refine iff_of_true ⟨hgood, fun _ k hk => absurd hk (by omega)⟩ ?_
      rintro w ⟨k, hk, -⟩
      omega
    · rw [← hok.full_of_alloc_highest_iff hne]
      exact ⟨fun h => h.full, fun h => ⟨hgood, h⟩⟩

/-- Two indexes are taken from the top. -/
theorem Reached.alloc_iff_top : ∃ ix, Reached 100 false ix ∧ ix.isUsed 98 = true ∧
    ix.AllocCorrect false := by
  have h1 : Reached 100 false _ := .step (.start rfl) (@Step.alloc _ false 99 _ rfl)
  have h2 := h1.step (@Step.alloc _ false 98 _ rfl)
  refine ⟨_, h2, rfl, (Reached.alloc_iff h2 false).mpr (.inr ?_)⟩
  rintro w ⟨k, hk, rfl, -⟩ -
  obtain hw | hw : k / 64 = 0 ∨ k / 64 = 1 := by
    have hk' : k < 100 := hk
    omega
  · rw [hw]
    rfl
  · rw [hw]
    rfl

/-- An index is taken from below, and then `alloc` downwards reports a full
indexer. -/
theorem not_allocCorrect_afterLowest :
    ∃ ix, Reached 64 false ix ∧ ix.alloc false = .error .indexerFull ∧
      63 < ix.size ∧ ix.isUsed 63 = false ∧ ¬ ix.AllocCorrect false := by
  have ha : (init 64 false).alloc true = .ok (0, (init 64 false).mark 0 0) := rfl
  have hr : Reached 64 false ((init 64 false).mark 0 0) := .step (.start rfl) (.alloc ha)
  have hfull : ((init 64 false).mark 0 0).alloc false = .error .indexerFull := rfl
  have hfree : ((init 64 false).mark 0 0).isUsed 63 = false := rfl
  have hlt : 63 < ((init 64 false).mark 0 0).size := by decide
  refine ⟨_, hr, hfull, hlt, hfree, fun h => ?_⟩
  have hu := h.full hfull 63 hlt
  cases hu

end Indexer

end NicSw
