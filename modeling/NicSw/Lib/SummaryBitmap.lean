/-
Bitmaps of two levels: a bitmap of 64-bit words, and a second one with a bit
for every line of eight words, which is set if a bit of the line is.

`Summarizes` says that the second one is right.  `Summarizes.clear` and
`Summarizes.set` keep it right when bits of one word are cleared or set.

`Scan` is a scan that goes around over such a bitmap, by what is documented of it.
-/
import NicSw.Lib.Bitmap

namespace NicSw

open Function

/-! ### Words -/

/-- The lowest set bit of a word. -/
def lowestSet (v : BitVec 64) : Option Nat := (List.range 64).find? fun i => v.getLsbD i

theorem lowestSet_eq_some {v : BitVec 64} {i : Nat} (h : lowestSet v = some i) :
    i < 64 ∧ v.getLsbD i = true ∧ ∀ j < i, v.getLsbD j = false := by
  obtain ⟨hbit, hi, hlow⟩ := List.find?_range_eq_some.mp h
  exact ⟨List.mem_range.mp hi, hbit, fun j hj => by simpa using hlow j hj⟩

theorem lowestSet_eq_none {v : BitVec 64} : lowestSet v = none ↔ v = 0#64 := by
  unfold lowestSet
  rw [List.find?_eq_none]
  constructor
  · intro h
    refine BitVec.eq_of_getLsbD_eq fun i hi => ?_
    have hbit := h i (List.mem_range.mpr hi)
    simpa using hbit
  · rintro rfl i -
    simp

/-- A word that is not zero has a lowest set bit. -/
theorem exists_lowestSet {v : BitVec 64} (hv : v ≠ 0#64) : ∃ i, lowestSet v = some i := by
  cases h : lowestSet v with
  | none => exact absurd (lowestSet_eq_none.mp h) hv
  | some i => exact ⟨i, rfl⟩

/-- The first number below `n` for which something is found. -/
theorem exists_of_findSome_range {α : Type*} {f : Nat → Option α} {n : Nat} {x : α}
    (h : (List.range n).findSome? f = some x) :
    ∃ i < n, f i = some x ∧ ∀ j < i, f j = none := by
  induction n with
  | zero => cases h
  | succ n ih =>
    rw [List.range_succ, List.findSome?_append, Option.or_eq_some_iff] at h
    rcases h with hlow | ⟨hnone, hlast⟩
    · obtain ⟨i, hi, hrest⟩ := ih hlow
      exact ⟨i, by omega, hrest⟩
    · refine ⟨n, Nat.lt_succ_self n, by simpa using hlast, fun j hj => ?_⟩
      exact List.findSome?_eq_none_iff.mp hnone j (List.mem_range.mpr hj)

namespace Bitmap

variable {words words' sum : Nat → BitVec 64} {w k : Nat} {x : BitVec 64}

theorem test_update (words : Nat → BitVec 64) (w : Nat) (x : BitVec 64) (k : Nat) :
    test (update words w x) k = if k / 64 = w then x.getLsbD (k % 64) else test words k := by
  unfold test
  split
  · rename_i hk
    rw [hk, update_self]
  · rename_i hk
    rw [update_of_ne hk]

/-- A word is zero if no index in it is marked. -/
theorem word_eq_zero : words w = 0#64 ↔ ∀ k, k / 64 = w → test words k = false := by
  constructor
  · rintro h k rfl
    simp [test, h]
  · intro h
    refine BitVec.eq_of_getLsbD_eq fun i hi => ?_
    rw [← test_word words w hi, h _ (by omega)]
    simp

theorem exists_of_word_ne_zero (h : words w ≠ 0#64) : ∃ k, k / 64 = w ∧ test words k = true := by
  by_contra hno
  push Not at hno
  exact h (word_eq_zero.mpr fun k hk => by simpa using hno k hk)

/-! ### Two levels -/

/-- A bit of the line is set. -/
def lineNotEmpty (words : Nat → BitVec 64) (line : Nat) : Bool :=
  (List.range 8).any fun i => decide (words (line * 8 + i) ≠ 0#64)

theorem lineNotEmpty_iff {line : Nat} :
    lineNotEmpty words line = true ↔ ∃ k, k / 512 = line ∧ test words k = true := by
  unfold lineNotEmpty
  rw [List.any_eq_true]
  constructor
  · rintro ⟨i, hi, hne⟩
    have hi' := List.mem_range.mp hi
    obtain ⟨k, hk, hbit⟩ := exists_of_word_ne_zero (of_decide_eq_true hne)
    exact ⟨k, by omega, hbit⟩
  · rintro ⟨k, hk, hbit⟩
    refine ⟨k / 64 % 8, List.mem_range.mpr (Nat.mod_lt _ (by decide)), decide_eq_true ?_⟩
    rw [show line * 8 + k / 64 % 8 = k / 64 by omega]
    intro h0
    rw [word_eq_zero.mp h0 k rfl] at hbit
    cases hbit

/-- **The second level is right**: the bit of a line is set if a bit of the line is. -/
def Summarizes (sum words : Nat → BitVec 64) : Prop :=
  ∀ line, test sum line = true ↔ ∃ k, k / 512 = line ∧ test words k = true

section

variable (h : Summarizes sum words) (hother : ∀ k, k / 64 ≠ w → test words' k = test words k)
include h hother

/-- Bits of word `w` are cleared, and the bit of its line if the line is empty then. -/
theorem Summarizes.clear (hless : ∀ k, test words' k = true → test words k = true) :
    Summarizes (if lineNotEmpty words' (w / 8) then sum
      else update sum (w / 8 / 64) (sum (w / 8 / 64) &&& ~~~(1#64 <<< (w / 8 % 64)))) words' := by
  intro line
  have hlines : line ≠ w / 8 →
      ((∃ k, k / 512 = line ∧ test words' k = true) ↔
        ∃ k, k / 512 = line ∧ test words k = true) := by
    intro hline
    refine exists_congr fun k => and_congr_right fun hk => ?_
    rw [hother k (by omega)]
  split
  · rename_i hne
    obtain ⟨k, hk, hbit⟩ := lineNotEmpty_iff.mp hne
    by_cases hline : line = w / 8
    · subst hline
      exact iff_of_true ((h _).mpr ⟨k, hk, hless k hbit⟩) ⟨k, hk, hbit⟩
    · rw [h, hlines hline]
  · rename_i hempty
    rw [test_clear]
    by_cases hline : line = w / 8
    · subst hline
      refine iff_of_false (by simp) fun hex => hempty (lineNotEmpty_iff.mpr hex)
    · simp only [hline, decide_false, Bool.not_false, Bool.true_and]
      rw [h, hlines hline]

/-- Bits of word `w` are set, and the bit of its line. -/
theorem Summarizes.set (hex : ∃ k, k / 64 = w ∧ test words' k = true) :
    Summarizes (update sum (w / 8 / 64) (sum (w / 8 / 64) ||| 1#64 <<< (w / 8 % 64))) words' := by
  intro line
  rw [test_set (Nat.mod_lt _ (by decide)), Nat.div_add_mod', Bool.or_eq_true, decide_eq_true_eq, h]
  by_cases hline : line = w / 8
  · subst hline
    obtain ⟨k, hk, hbit⟩ := hex
    exact iff_of_true (.inl rfl) ⟨k, by omega, hbit⟩
  · rw [or_iff_right hline]
    refine exists_congr fun k => and_congr_right fun hk => ?_
    rw [hother k (by omega)]

end

/-! ### Scans -/

variable {size i j : Nat}

/-- The first word that is not zero from word `i` on. -/
def scanFrom (words : Nat → BitVec 64) (size i : Nat) : Option Nat :=
  (List.range' i (size - i)).find? fun j => words j ≠ 0#64

/-- The next word that is not zero from word `i` on, or else the first one. -/
def nextWord (words : Nat → BitVec 64) (size i : Nat) : Option Nat :=
  (scanFrom words size i).or (scanFrom words size 0)

theorem ne_zero_of_nextWord (h : nextWord words size i = some j) : words j ≠ 0#64 := by
  rcases Option.or_eq_some_iff.mp h with h | ⟨-, h⟩
  · simpa using List.find?_some h
  · simpa using List.find?_some h

theorem eq_zero_of_nextWord (h : nextWord words size i = none) (hw : w < size) :
    words w = 0#64 := by
  have hnone := List.find?_eq_none.mp (Option.or_eq_none_iff.mp h).2 w
    (List.mem_range'_1.mpr ⟨Nat.zero_le w, by omega⟩)
  simpa using hnone

/-- **A scan that goes around**: it has a cursor, and reads the second level to be fast. -/
structure Scan where
  /-- The word that is found, and the cursor behind it. -/
  scan : (sum words : Nat → BitVec 64) → (size cursor : Nat) → Option Nat × Nat
  /-- If the second level is right, the next word that is not zero is found. -/
  found : ∀ {sum words : Nat → BitVec 64} (size cursor : Nat), Summarizes sum words →
    (scan sum words size cursor).1 = nextWord words size cursor

/-- The scan that does not read the second level. -/
def Scan.plain : Scan where
  scan _ words size cursor :=
    (nextWord words size cursor, ((nextWord words size cursor).map (· + 1)).getD cursor)
  found _ _ _ := rfl

end Bitmap

end NicSw
