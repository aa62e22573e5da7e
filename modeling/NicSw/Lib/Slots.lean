/-
Arrays that are kept sorted by moving their elements: a slot is opened for a
new element and closed when an element leaves (`memmove`).
-/
import Mathlib.Order.Lattice

namespace NicSw

open Function

variable {α κ : Type*}

/-- `memmove` of `n` elements of array `a`. -/
def memmove (a : Nat → α) (dst src n : Nat) : Nat → α :=
  fun i => if dst ≤ i ∧ i < dst + n then a (src + (i - dst)) else a i

theorem memmove_zero (a : Nat → α) (dst src : Nat) : memmove a dst src 0 = a := by
  funext i
  exact if_neg (by omega)

/-- Of `n` elements, those from slot `s` on are moved up and `x` is put there. -/
def insertSlot (a : Nat → α) (s n : Nat) (x : α) : Nat → α :=
  update (memmove a (s + 1) s (n - s)) s x

/-- Of `n` elements, that in slot `s` is cleared to `z` and those above it are
moved down. -/
def removeSlot (a : Nat → α) (s n : Nat) (z : α) : Nat → α :=
  memmove (update a s z) s (s + 1) (n - s - 1)

section Slots

variable {a : Nat → α} {s n i : Nat} {x y z : α}

theorem insertSlot_of_lt (hi : i < s) : insertSlot a s n x i = a i := by
  rw [insertSlot, update_of_ne (by omega), memmove, if_neg (by omega)]

theorem insertSlot_self : insertSlot a s n x s = x := update_self ..

theorem insertSlot_succ (hs : s ≤ i) (hi : i < n) : insertSlot a s n x (i + 1) = a i := by
  rw [insertSlot, update_of_ne (by omega), memmove, if_pos (by omega)]
  congr 1
  omega

theorem removeSlot_of_lt (hi : i < s) : removeSlot a s n z i = a i := by
  rw [removeSlot, memmove, if_neg (by omega), update_of_ne (by omega)]

theorem removeSlot_of_le (hs : s ≤ i) (hi : i + 1 < n) : removeSlot a s n z i = a (i + 1) := by
  rw [removeSlot, memmove, if_pos (by omega), update_of_ne (by omega)]
  congr 1
  omega

/-- The last of `n` elements leaves its slot cleared. -/
theorem removeSlot_last : removeSlot a s (s + 1) z s = z := by
  rw [removeSlot, memmove, if_neg (by omega), update_self]

/-- What is in the slots after an insertion. -/
theorem exists_insertSlot (hs : s ≤ n) :
    (∃ i < n + 1, insertSlot a s n x i = y) ↔ x = y ∨ ∃ i < n, a i = y := by
  constructor
  · rintro ⟨i, hi, rfl⟩
    rcases Nat.lt_trichotomy i s with hlt | rfl | hgt
    · exact .inr ⟨i, by omega, (insertSlot_of_lt hlt).symm⟩
    · exact .inl insertSlot_self.symm
    · obtain ⟨j, rfl⟩ := Nat.exists_eq_add_one_of_ne_zero (show i ≠ 0 by omega)
      exact .inr ⟨j, by omega, (insertSlot_succ (by omega) (by omega)).symm⟩
  · rintro (rfl | ⟨i, hi, rfl⟩)
    · exact ⟨s, by omega, insertSlot_self⟩
    · rcases Nat.lt_or_ge i s with hlt | hge
      · exact ⟨i, by omega, insertSlot_of_lt hlt⟩
      · exact ⟨i + 1, by omega, insertSlot_succ hge hi⟩

/-- What is in the slots after a removal. -/
theorem exists_removeSlot (hs : s < n) :
    (∃ i < n - 1, removeSlot a s n z i = y) ↔ ∃ i < n, i ≠ s ∧ a i = y := by
  constructor
  · rintro ⟨i, hi, rfl⟩
    rcases Nat.lt_or_ge i s with hlt | hge
    · exact ⟨i, by omega, by omega, (removeSlot_of_lt hlt).symm⟩
    · exact ⟨i + 1, by omega, by omega, (removeSlot_of_le hge (by omega)).symm⟩
  · rintro ⟨i, hi, hne, rfl⟩
    rcases Nat.lt_or_ge i s with hlt | hge
    · exact ⟨i, by omega, removeSlot_of_lt hlt⟩
    · obtain ⟨j, rfl⟩ := Nat.exists_eq_add_one_of_ne_zero (show i ≠ 0 by omega)
      exact ⟨j, by omega, removeSlot_of_le (by omega) (by omega)⟩

end Slots

/-! ### Sorted slots -/

/-- The first `n` elements are strictly sorted by key. -/
def SortedSlots [LT κ] (key : α → κ) (a : Nat → α) (n : Nat) : Prop :=
  ∀ i j, i < j → j < n → key (a i) < key (a j)

/-- Slot `s` is where an element of key `k` belongs. -/
structure SlotOf [LT κ] (key : α → κ) (a : Nat → α) (n : Nat) (k : κ) (s : Nat) : Prop where
  le : s ≤ n
  below : ∀ i < s, key (a i) < k
  above : ∀ i < n, s ≤ i → k < key (a i)

section Sorted

variable [LinearOrder κ] {key : α → κ} {a : Nat → α} {n s : Nat} {x z : α}

theorem SortedSlots.congr {key' : α → κ} (h : SortedSlots key a n)
    (hkey : ∀ i < n, key' (a i) = key (a i)) : SortedSlots key' a n := by
  intro i j hij hj
  rw [hkey i (by omega), hkey j hj]
  exact h i j hij hj

/-- Keys determine slots. -/
theorem SortedSlots.inj (h : SortedSlots key a n) {i j : Nat} (hi : i < n) (hj : j < n)
    (hk : key (a i) = key (a j)) : i = j := by
  rcases Nat.lt_trichotomy i j with hlt | heq | hgt
  · exact absurd hk (h i j hlt hj).ne
  · exact heq
  · exact absurd hk.symm (h j i hgt hi).ne

theorem SlotOf.ne {k : κ} (h : SlotOf key a n k s) {i : Nat} (hi : i < n) : key (a i) ≠ k := by
  rcases Nat.lt_or_ge i s with hlt | hge
  · exact (h.below i hlt).ne
  · exact (h.above i hi hge).ne'

/-- **An element put where it belongs** keeps the slots sorted. -/
theorem SortedSlots.insert (h : SortedSlots key a n) (hs : SlotOf key a n (key x) s) :
    SortedSlots key (insertSlot a s n x) (n + 1) := by
  intro i j hij hj
  have hle := hs.le
  rcases Nat.lt_trichotomy j s with hjs | rfl | hjs
  · rw [insertSlot_of_lt hjs, insertSlot_of_lt (Nat.lt_trans hij hjs)]
    exact h i j hij (by omega)
  · rw [insertSlot_self, insertSlot_of_lt hij]
    exact hs.below i hij
  obtain ⟨j, rfl⟩ := Nat.exists_eq_add_one_of_ne_zero (show j ≠ 0 by omega)
  rw [insertSlot_succ (by omega) (by omega)]
  rcases Nat.lt_trichotomy i s with his | rfl | his
  · rw [insertSlot_of_lt his]
    exact h i j (by omega) (by omega)
  · rw [insertSlot_self]
    exact hs.above j (by omega) (by omega)
  · obtain ⟨i, rfl⟩ := Nat.exists_eq_add_one_of_ne_zero (show i ≠ 0 by omega)
    rw [insertSlot_succ (by omega) (by omega)]
    exact h i j (by omega) (by omega)

/-- **Closing a slot** keeps the slots sorted. -/
theorem SortedSlots.remove (h : SortedSlots key a n) (hs : s < n) :
    SortedSlots key (removeSlot a s n z) (n - 1) := by
  -- an element comes from its own slot or from the next one
  have hfrom : ∀ i < n - 1, removeSlot a s n z i = a (if i < s then i else i + 1) := by
    intro i hi
    split
    · exact removeSlot_of_lt ‹_›
    · exact removeSlot_of_le (by omega) (by omega)
  intro i j hij hj
  rw [hfrom i (by omega), hfrom j hj]
  refine h _ _ ?_ ?_
  · split <;> split <;> omega
  · split <;> omega

end Sorted

end NicSw
