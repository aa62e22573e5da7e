/-
Bitmaps in 64-bit words: which index a bit stands for, and what setting or
clearing one bit changes.
-/
import Mathlib.Data.BitVec

namespace NicSw

open Function

theorem getLsbD_one_shiftLeft {i j : Nat} (hj : j < 64) :
    (1#64 <<< i).getLsbD j = decide (j = i) := by
  by_cases h : j = i
  · simp [h]
    omega
  · simp [h]
    omega

namespace Bitmap

/-- Index `k` is marked. -/
def test (words : Nat → BitVec 64) (k : Nat) : Bool := (words (k / 64)).getLsbD (k % 64)

variable {words : Nat → BitVec 64} {w i : Nat}

/-- Setting bit `i` of word `w` marks that index and no other. -/
theorem test_set (hi : i < 64) (k : Nat) :
    test (update words w (words w ||| 1#64 <<< i)) k
      = (decide (k = w * 64 + i) || test words k) := by
  have hk := Nat.mod_lt k (show 0 < 64 by decide)
  unfold test
  by_cases hw : k / 64 = w
  · subst hw
    simp only [update_self, BitVec.getLsbD_or, getLsbD_one_shiftLeft hk]
    rw [Bool.or_comm]
    congr 2
    exact propext ⟨fun h => by omega, fun h => by omega⟩
  · have : k ≠ w * 64 + i := by omega
    simp [update_of_ne hw, this]

/-- Clearing the bit of index `i` unmarks that index and no other. -/
theorem test_clear (words : Nat → BitVec 64) (i k : Nat) :
    test (update words (i / 64) (words (i / 64) &&& ~~~(1#64 <<< (i % 64)))) k
      = (!decide (k = i) && test words k) := by
  have hk := Nat.mod_lt k (show 0 < 64 by decide)
  unfold test
  by_cases hw : k / 64 = i / 64
  · rw [hw]
    simp only [update_self, BitVec.getLsbD_and, BitVec.getLsbD_not,
      getLsbD_one_shiftLeft hk, hk, decide_true, Bool.true_and]
    rw [Bool.and_comm]
    congr 3
    exact propext ⟨fun h => by omega, fun h => by omega⟩
  · have : k ≠ i := by rintro rfl; exact hw rfl
    simp [update_of_ne hw, this]

theorem test_word (words : Nat → BitVec 64) (w : Nat) (hi : i < 64) :
    test words (w * 64 + i) = (words w).getLsbD i := by
  rw [test, show (w * 64 + i) / 64 = w by omega, show (w * 64 + i) % 64 = i by omega]

end Bitmap

end NicSw
