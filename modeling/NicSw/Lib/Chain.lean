/-
Singly linked lists: a start index and a `next` link per node, `0` as the null
index.
-/
import Mathlib.Logic.Function.Iterate

namespace NicSw

open Function

variable {α : Type*} [Zero α]

/-- From `a` the links lead through the nodes `l` and end. -/
def Chain (next : α → α) : α → List α → Prop
  | a, [] => a = 0
  | a, b :: l => a = b ∧ b ≠ 0 ∧ Chain next (next b) l

namespace Chain

variable {next next' : α → α} {a b x : α} {l l1 l2 : List α}

/-- Only the links of the nodes matter. -/
theorem congr (h : Chain next a l) (hn : ∀ x ∈ l, next' x = next x) : Chain next' a l := by
  induction l generalizing a with
  | nil => exact h
  | cons b l ih =>
    refine ⟨h.1, h.2.1, ?_⟩
    rw [hn b List.mem_cons_self]
    exact ih h.2.2 fun x hx => hn x (List.mem_cons_of_mem b hx)

theorem eq_nil_iff (h : Chain next a l) : a = 0 ↔ l = [] := by
  rcases l with - | ⟨b, l⟩
  · exact ⟨fun _ => rfl, fun _ => h⟩
  · simpa [h.1] using h.2.1

/-- The part of a chain from a node on. -/
theorem suffix (h : Chain next a (l1 ++ b :: l2)) : Chain next b (b :: l2) := by
  induction l1 generalizing a with
  | nil => exact ⟨rfl, h.2.1, h.2.2⟩
  | cons c l1 ih => exact ih h.2.2

/-- The nodes are what the links lead to. -/
theorem mem_iff (h : Chain next a l) (h0 : next 0 = 0) : x ∈ l ↔ x ≠ 0 ∧ ∃ n, next^[n] a = x := by
  induction l generalizing a with
  | nil =>
    obtain rfl : a = 0 := h
    refine ⟨fun hx => absurd hx List.not_mem_nil, fun ⟨hx, n, hn⟩ => absurd ?_ hx⟩
    rw [← hn, iterate_fixed h0]
  | cons b l ih =>
    obtain ⟨rfl, hb, hrest⟩ := h
    rw [List.mem_cons, ih hrest]
    constructor
    · rintro (rfl | ⟨hx, n, hn⟩)
      · exact ⟨hb, 0, rfl⟩
      · exact ⟨hx, n + 1, hn⟩
    · rintro ⟨hx, - | n, hn⟩
      · exact .inl hn.symm
      · exact .inr ⟨hx, n, hn⟩

variable [DecidableEq α]

/-- A new node before the first. -/
theorem push (h : Chain next a l) (hb : b ∉ l) (h0 : b ≠ 0) :
    Chain (update next b a) b (b :: l) := by
  refine ⟨rfl, h0, ?_⟩
  rw [update_self]
  refine h.congr fun x hx => ?_
  have hxb : x ≠ b := fun e => hb (e ▸ hx)
  exact update_of_ne hxb _ _

/-- What follows a node may be replaced by another chain. -/
theorem splice (h : Chain next a (l1 ++ x :: l2)) (hnd : (l1 ++ [x]).Nodup) {l : List α}
    (hl : Chain next b l) (hx : x ∉ l) :
    Chain (update next x b) a (l1 ++ x :: l) := by
  induction l1 generalizing a with
  | nil =>
    refine ⟨h.1, h.2.1, ?_⟩
    rw [update_self]
    refine hl.congr fun y hy => ?_
    have hyx : y ≠ x := fun e => hx (e ▸ hy)
    exact update_of_ne hyx _ _
  | cons c l1 ih =>
    obtain ⟨hc, hnd⟩ := List.nodup_cons.mp hnd
    have hcx : c ≠ x := fun e => hc (e ▸ by simp)
    refine ⟨h.1, h.2.1, ?_⟩
    rw [update_of_ne hcx]
    exact ih h.2.2 hnd

end Chain

end NicSw
