/-
Bounds for a worklist: items of a rank lead to finitely many items of higher rank,
so the queue is worked off.
-/
import Mathlib.Algebra.Order.BigOperators.Group.List
import Mathlib.Data.Set.Card

namespace NicSw.Worklist

variable {K : Type*}

/-- A bound for the number of scans: an item of rank `r` leads to at most `n` items of
higher rank, and no rank exceeds `top`. -/
def potential (rank : K → Nat) (n top : Nat) (q : List K) : Nat :=
  (q.map fun z => (n + 1) ^ (top - rank z)).sum

theorem potential_append (rank : K → Nat) (n top : Nat) (q q' : List K) :
    potential rank n top (q ++ q') = potential rank n top q + potential rank n top q' := by
  simp [potential]

/-- Every scan lowers the bound. -/
theorem potential_lt {rank : K → Nat} {n top : Nat} {z : K} {q new : List K}
    (hlen : new.length ≤ n) (hnew : ∀ k ∈ new, rank z < rank k ∧ rank k ≤ top) :
    potential rank n top (q ++ new) < potential rank n top (z :: q) := by
  have hsum : potential rank n top new < (n + 1) ^ (top - rank z) := by
    cases hn : new with
    | nil => simp [potential]
    | cons k l =>
      have hz : rank z < top := (hnew k (by simp [hn])).1.trans_le (hnew k (by simp [hn])).2
      have hle : ∀ y ∈ new.map fun k => (n + 1) ^ (top - rank k),
          y ≤ (n + 1) ^ (top - rank z - 1) := by
        intro y hy
        obtain ⟨k, hk, rfl⟩ := List.mem_map.mp hy
        refine Nat.pow_le_pow_right (Nat.succ_pos n) ?_
        have := (hnew k hk).1
        omega
      have hbound := List.sum_le_card_nsmul _ _ hle
      rw [← hn]
      calc potential rank n top new
          ≤ new.length * (n + 1) ^ (top - rank z - 1) := by simpa [potential] using hbound
        _ ≤ n * (n + 1) ^ (top - rank z - 1) := Nat.mul_le_mul_right _ hlen
        _ < (n + 1) * (n + 1) ^ (top - rank z - 1) :=
          Nat.mul_lt_mul_of_pos_right (Nat.lt_succ_self n) (Nat.pow_pos (Nat.succ_pos n))
        _ = (n + 1) ^ (top - rank z) := by
          rw [← Nat.pow_succ']
          congr 1
          omega
  have hcons : potential rank n top (z :: q)
      = (n + 1) ^ (top - rank z) + potential rank n top q := by simp [potential]
  rw [potential_append, hcons]
  omega

/-- A relation without cycles in which every item leads to finitely many others has a
rank. -/
theorem exists_rank {R : K → K → Prop} (hfin : ∀ k, {j | Relation.TransGen R k j}.Finite)
    (hac : ∀ k, ¬ Relation.TransGen R k k) : ∃ rank : K → Nat, ∀ b x, R b x → rank x < rank b := by
  refine ⟨fun k => {j | Relation.TransGen R k j}.ncard, fun b x hx => ?_⟩
  refine Set.ncard_lt_ncard ⟨fun j hj => .head hx hj, fun hsub => ?_⟩ (hfin b)
  exact hac x (hsub (show Relation.TransGen R b x from .single hx))

end NicSw.Worklist
