/-
Binary heaps in a list.

`up` and `down` swap an element with its parent or with its lesser child, as long as
the order `lt` asks for it.  The operations on a heap are built from them: whatever
the order does, they move elements about, so that a push adds one element and a
removal takes out one element.
-/
import Mathlib.Data.List.Perm.Basic

namespace NicSw.BinaryHeap

variable {α : Type*} (lt : α → α → Bool)

/-! ### Swaps -/

/-- The elements at two positions change places. -/
def swap (l : List α) (i j : Nat) : List α :=
  match l[i]?, l[j]? with
  | some a, some b => (l.set i b).set j a
  | _, _ => l

/-- The element at `i` is before the one at `j`. -/
def less (l : List α) (i j : Nat) : Bool :=
  match l[i]?, l[j]? with
  | some a, some b => lt a b
  | _, _ => false

theorem swap_perm (l : List α) (i j : Nat) : (swap l i j).Perm l := by
  unfold swap
  split
  · rename_i a b ha hb
    obtain ⟨hi, rfl⟩ := List.getElem?_eq_some_iff.mp ha
    obtain ⟨hj, rfl⟩ := List.getElem?_eq_some_iff.mp hb
    exact List.set_set_perm hi hj
  · exact List.Perm.refl l

/-! ### Up and down -/

/-- The element at `j` is moved up; `n` bounds the number of swaps. -/
def up : Nat → List α → Nat → List α
  | 0, l, _ => l
  | n + 1, l, j =>
    let i := (j - 1) / 2
    if i = j ∨ less lt l j i = false then l else up n (swap l i j) i

/-- The element at `i` is moved down among the first `len`; the position where it ends is
returned with the list. -/
def down (len : Nat) : Nat → List α → Nat → List α × Nat
  | 0, l, i => (l, i)
  | n + 1, l, i =>
    let j1 := 2 * i + 1
    if len ≤ j1 then (l, i)
    else
      let j := if j1 + 1 < len ∧ less lt l (j1 + 1) j1 then j1 + 1 else j1
      if less lt l j i then down len n (swap l i j) j else (l, i)

theorem up_perm (n : Nat) (l : List α) (j : Nat) : (up lt n l j).Perm l := by
  induction n generalizing l j with
  | zero => exact List.Perm.refl l
  | succ n ih =>
    unfold up
    dsimp only
    split_ifs
    · exact List.Perm.refl l
    · exact (ih _ _).trans (swap_perm l _ _)

theorem down_perm (len n : Nat) (l : List α) (i : Nat) : (down lt len n l i).1.Perm l := by
  induction n generalizing l i with
  | zero => exact List.Perm.refl l
  | succ n ih =>
    unfold down
    dsimp only
    split_ifs
    · exact List.Perm.refl l
    all_goals first | exact (ih _ _).trans (swap_perm l _ _) | exact List.Perm.refl l

/-! ### Operations -/

/-- The element at `i` has changed: it is moved down, or else up. -/
def fix (l : List α) (i : Nat) : List α :=
  match down lt l.length l.length l i with
  | (l', i') => if i < i' then l' else up lt l.length l' i

/-- The element at `i` is taken out.  The last one takes its place and is moved among the
others. -/
def remove (l : List α) (i : Nat) : List α :=
  if i + 1 = l.length then l.dropLast else fix lt (swap l i (l.length - 1)).dropLast i

/-- The first element is taken out. -/
def pop (l : List α) : List α := remove lt l 0

theorem fix_perm (l : List α) (i : Nat) : (fix lt l i).Perm l := by
  have hdown := down_perm lt l.length l.length l i
  unfold fix
  split
  rename_i l' i' heq
  rw [heq] at hdown
  split_ifs
  · exact hdown
  · exact (up_perm lt _ l' i).trans hdown

/-- The element that is swapped to the end. -/
theorem swap_last {l : List α} {i : Nat} {a : α} (ha : l[i]? = some a) :
    swap l i (l.length - 1) = (swap l i (l.length - 1)).dropLast ++ [a] := by
  obtain ⟨hi, rfl⟩ := List.getElem?_eq_some_iff.mp ha
  have hlast : l.length - 1 < l.length := by omega
  have hswap : swap l i (l.length - 1) = (l.set i l[l.length - 1]).set (l.length - 1) l[i] := by
    simp [swap, List.getElem?_eq_getElem hi, List.getElem?_eq_getElem hlast]
  have hne : swap l i (l.length - 1) ≠ [] := by
    rw [hswap]
    exact List.ne_nil_of_length_pos (by simpa using Nat.zero_lt_of_lt hi)
  have hget : (swap l i (l.length - 1)).getLast hne = l[i] := by
    simp [hswap, List.getLast_eq_getElem, List.getElem_set_self]
  rw [← hget, List.dropLast_append_getLast]

theorem remove_perm {l : List α} {i : Nat} {a : α} (ha : l[i]? = some a) :
    l.Perm (a :: remove lt l i) := by
  unfold remove
  split_ifs with hi
  · obtain ⟨hlt, rfl⟩ := List.getElem?_eq_some_iff.mp ha
    have hne : l ≠ [] := List.ne_nil_of_length_pos (by omega)
    have hget : l.getLast hne = l[i] := by
      rw [List.getLast_eq_getElem]
      congr 1
      omega
    have hlist := List.dropLast_append_getLast hne
    rw [hget] at hlist
    calc l = l.dropLast ++ [l[i]] := hlist.symm
      _ |>.Perm (l[i] :: l.dropLast) := List.perm_append_singleton _ _
  · have hlast := swap_last ha
    have hperm := (swap_perm l i (l.length - 1)).symm
    rw [hlast] at hperm
    exact hperm.trans ((List.perm_append_singleton a _).trans ((fix_perm lt _ i).symm.cons a))

end NicSw.BinaryHeap
