/-
Predecessor search over a table of keyed entries.

A table is a list of entries; `key` gives the position of an entry on a
linear order and `val` what it stores.  `predLookup` answers the value of
the last entry whose key does not exceed the probe, and a default when
there is none.  It is a left fold, so tables may be built and split with
no side condition (`predLookup_append`); only the reading of the answer as
"the greatest key below the probe" needs the table to be sorted
(`predLookup_cases`).

Nothing here knows what the entries are.
-/
import Mathlib.Order.Lattice
import Mathlib.Data.List.Forall2

namespace NicSw

variable {κ ε δ : Type*} [LinearOrder κ]

/-- The value of the last entry of the table whose key is at most `k`, and
`dflt` when every key is above `k`. -/
def predLookup (key : ε → κ) (val : ε → δ) (dflt : δ) : List ε → κ → δ
  | [], _ => dflt
  | x :: xs, k => predLookup key val (if key x ≤ k then val x else dflt) xs k

/-- The keys of a table, strictly increasing. -/
def StrictlySorted (key : ε → κ) (xs : List ε) : Prop :=
  xs.Pairwise fun x y => key x < key y

variable {key : ε → κ} {val : ε → δ} {dflt : δ}

@[simp] theorem predLookup_nil (k : κ) : predLookup key val dflt [] k = dflt := rfl

theorem predLookup_cons (x : ε) (xs : List ε) (k : κ) :
    predLookup key val dflt (x :: xs) k
      = predLookup key val (if key x ≤ k then val x else dflt) xs k := rfl

theorem predLookup_append (xs ys : List ε) (k : κ) :
    predLookup key val dflt (xs ++ ys) k
      = predLookup key val (predLookup key val dflt xs k) ys k := by
  induction xs generalizing dflt with
  | nil => rfl
  | cons x xs ih =>
    exact ih

@[simp] theorem predLookup_concat (xs : List ε) (x : ε) (k : κ) :
    predLookup key val dflt (xs ++ [x]) k
      = if key x ≤ k then val x else predLookup key val dflt xs k := by
  rw [predLookup_append, predLookup_cons, predLookup_nil]

variable {xs : List ε}

/-- In a strictly sorted table a key occurs once. -/
theorem StrictlySorted.eq_of_key_eq (hs : StrictlySorted key xs) {x y : ε} (hx : x ∈ xs)
    (hy : y ∈ xs) (h : key x = key y) : x = y := by
  induction xs with
  | nil => cases hx
  | cons z zs ih =>
    obtain ⟨hz, hzs⟩ := List.pairwise_cons.mp hs
    rcases List.mem_cons.mp hx with hxz | hx' <;> rcases List.mem_cons.mp hy with hyz | hy'
    · rw [hxz, hyz]
    · exact absurd (hxz ▸ h) (hz y hy').ne
    · exact absurd (hyz ▸ h).symm (hz x hx').ne
    · exact ih hzs hx' hy'

/-- **Reading of the answer**: in a strictly sorted table the answer is the
value of the greatest key that is at most `k`, or the default when every
key is above `k`. -/
theorem predLookup_cases (val : ε → δ) (dflt : δ) (hs : StrictlySorted key xs) (k : κ) :
    (∃ x ∈ xs, key x ≤ k ∧ (∀ y ∈ xs, key y ≤ k → key y ≤ key x) ∧
        predLookup key val dflt xs k = val x) ∨
      ((∀ x ∈ xs, k < key x) ∧ predLookup key val dflt xs k = dflt) := by
  induction xs generalizing dflt with
  | nil => exact .inr ⟨by simp, rfl⟩
  | cons x xs ih =>
    obtain ⟨hx, hxs⟩ := List.pairwise_cons.mp hs
    rw [predLookup_cons]
    rcases ih (if key x ≤ k then val x else dflt) hxs with
      ⟨y, hy, hyk, hmax, he⟩ | ⟨hlt, he⟩
    · refine .inl ⟨y, by simp [hy], hyk, ?_, he⟩
      intro z hz hzk
      rcases List.mem_cons.mp hz with rfl | hz
      · exact (hx y hy).le
      · exact hmax z hz hzk
    · by_cases hxk : key x ≤ k
      · refine .inl ⟨x, by simp, hxk, ?_, by rw [he, if_pos hxk]⟩
        intro z hz hzk
        rcases List.mem_cons.mp hz with rfl | hz
        · exact le_refl _
        · exact absurd hzk (not_le.mpr (hlt z hz))
      · refine .inr ⟨?_, by rw [he, if_neg hxk]⟩
        intro z hz
        rcases List.mem_cons.mp hz with rfl | hz
        · exact not_le.mp hxk
        · exact hlt z hz

/-- Tables with the same keys, and values that `f` relates. -/
theorem predLookup_forall₂ {ε' δ' : Type*} {key' : ε' → κ} {val' : ε' → δ'} {f : δ → δ'}
    {ys : List ε'} (h : List.Forall₂ (fun x y => key x = key' y ∧ f (val x) = val' y) xs ys)
    (dflt : δ) (k : κ) : f (predLookup key val dflt xs k) = predLookup key' val' (f dflt) ys k := by
  induction h generalizing dflt with
  | nil => rfl
  | cons hxy _ ih =>
    obtain ⟨hkey, hval⟩ := hxy
    rw [predLookup_cons, predLookup_cons, ih, hkey, apply_ite f, hval]

/-- A probe above all keys finds the last entry. -/
theorem predLookup_of_le {k : κ} (h : ∀ x ∈ xs, key x ≤ k) :
    predLookup key val dflt xs k = (xs.getLast?.map val).getD dflt := by
  induction xs generalizing dflt with
  | nil => rfl
  | cons x xs ih =>
    rw [predLookup_cons, if_pos (h x (by simp)), ih fun y hy => h y (by simp [hy]),
      List.getLast?_cons]
    cases xs.getLast? <;> rfl

theorem predLookup_some (xs : List ε) (k : κ) :
    predLookup key (fun x => some (val x)) (some dflt) xs k
      = some (predLookup key val dflt xs k) := by
  refine (predLookup_forall₂ ?_ dflt k).symm
  exact List.forall₂_same.mpr fun _ _ => ⟨rfl, rfl⟩

end NicSw
