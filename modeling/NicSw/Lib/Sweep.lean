/-
A sweep over events on a line.

Events are sorted by key, with a stable sort, and folded into a state; after the last event
of each key the state is emitted.  Looking up the emitted state with the greatest key at or
below a point gives the fold of the events at or below the point (`predLookup_sweep`).

Events may belong to owners, and mark or unmark their owner.  Whether an owner is marked at a
point depends on its own events alone (`Marking.foldl`), and those keep their order under the
sort where the keys allow it (`filter_sortByKey`, `filter_sortByKey_swap`).  An owner with one
event that marks and one that unmarks is marked between them; if they come the wrong way
round, from the first one on (`Marking.pair`).

Nothing here knows what the events are.
-/
import Mathlib.Data.List.Sort
import NicSw.Lib.Predecessor

namespace NicSw

open List

variable {κ ε σ ι : Type*} [LinearOrder κ] (key : ε → κ)

/-! ### Sorting -/

/-- A stable sort by key. -/
def sortByKey (xs : List ε) : List ε := xs.insertionSort fun x y => key x ≤ key y

variable {key}

theorem sortByKey_perm (xs : List ε) : (sortByKey key xs).Perm xs := perm_insertionSort ..

theorem sortByKey_pairwise (xs : List ε) : (sortByKey key xs).Pairwise fun x y => key x ≤ key y :=
  pairwise_insertionSort ..

@[simp] theorem mem_sortByKey {x : ε} {xs : List ε} : x ∈ sortByKey key xs ↔ x ∈ xs :=
  (sortByKey_perm xs).mem_iff

/-- Events that are in order stay in their order. -/
theorem filter_sortByKey {xs : List ε} {p : ε → Bool}
    (h : (xs.filter p).Pairwise fun x y => key x ≤ key y) :
    (sortByKey key xs).filter p = xs.filter p := by
  have hsub : (xs.filter p).Sublist (sortByKey key xs) := sublist_insertionSort h filter_sublist
  have hsub' : (xs.filter p).Sublist ((sortByKey key xs).filter p) := by
    simpa using hsub.filter p
  exact (hsub'.eq_of_length ((sortByKey_perm xs).filter p).length_eq.symm).symm

/-- Two events that are not in order change places. -/
theorem filter_sortByKey_swap {xs : List ε} {p : ε → Bool} {a b : ε} (h : xs.filter p = [a, b])
    (hlt : key b < key a) : (sortByKey key xs).filter p = [b, a] := by
  have hperm : ((sortByKey key xs).filter p).Perm [a, b] := h ▸ (sortByKey_perm xs).filter p
  have hsorted : ((sortByKey key xs).filter p).Pairwise fun x y => key x ≤ key y :=
    (sortByKey_pairwise xs).filter p
  obtain ⟨x, y, hxy⟩ := length_eq_two.mp hperm.length_eq
  rw [hxy] at hperm hsorted ⊢
  have hle : key x ≤ key y := by simpa using hsorted
  have hx : x = a ∨ x = b := by simpa using hperm.mem_iff.mp (mem_cons_self ..)
  rcases hx with rfl | rfl
  · have hy : [y].Perm [b] := (perm_cons x).mp hperm
    rw [singleton_perm_singleton] at hy
    subst hy
    exact absurd hle (not_le.mpr hlt)
  · have hy : [y].Perm [a] := (perm_cons x).mp (hperm.trans (List.Perm.swap ..))
    rw [singleton_perm_singleton] at hy
    subst hy
    rfl

/-! ### The sweep -/

section Sweep

variable (key) (step : σ → ε → σ)

/-- The last event of each key, with the state after it. -/
def sweep : List ε → σ → List (ε × σ)
  | [], _ => []
  | x :: xs, s =>
    if xs.head?.map key = some (key x) then sweep xs (step s x)
    else (x, step s x) :: sweep xs (step s x)

variable {key step}

theorem filter_le_eq_nil {x : ε} {xs : List ε} {q : κ} (hx : ∀ y ∈ xs, key x ≤ key y)
    (hq : q < key x) : xs.filter (fun y => key y ≤ q) = [] := by
  refine filter_eq_nil_iff.mpr fun y hy => ?_
  simpa using lt_of_lt_of_le hq (hx y hy)

/-- **Lookup.**  The state that is found at `q` is that after the events up to `q`. -/
theorem predLookup_sweep {xs : List ε} (hxs : xs.Pairwise fun x y => key x ≤ key y) (s d : σ)
    (q : κ) :
    predLookup (fun n => key n.1) Prod.snd d (sweep key step xs s) q
      = if xs.filter (fun x => key x ≤ q) = [] then d
        else (xs.filter fun x => key x ≤ q).foldl step s := by
  induction xs generalizing s d with
  | nil => rfl
  | cons x xs ih =>
    obtain ⟨hx, hxs⟩ := pairwise_cons.mp hxs
    rw [sweep]
    by_cases hq : key x ≤ q
    · rw [filter_cons_of_pos (by simpa using hq), if_neg (cons_ne_nil _ _),
        foldl_cons]
      split
      · -- the next event has the same key
        rename_i hhead
        obtain ⟨y, hy, hkey⟩ := Option.map_eq_some_iff.mp hhead
        rw [ih hxs, if_neg]
        refine ne_nil_of_mem (mem_filter.mpr ⟨mem_of_mem_head? hy, ?_⟩)
        simpa [hkey] using hq
      · rw [predLookup_cons, if_pos hq, ih hxs]
        split
        · rename_i hnil
          rw [hnil]
          rfl
        · rfl
    · have hnil := filter_le_eq_nil hx (not_le.mp hq)
      rw [filter_cons_of_neg (by simpa using hq), if_pos hnil]
      split
      · rw [ih hxs, if_pos hnil]
      · rw [predLookup_cons, if_neg hq, ih hxs, if_pos hnil]

variable {n : ε × σ} {s : σ}

theorem mem_of_mem_sweep {xs : List ε} (h : n ∈ sweep key step xs s) : n.1 ∈ xs := by
  induction xs generalizing s with
  | nil => cases h
  | cons x xs ih =>
    rw [sweep] at h
    split at h
    · exact mem_cons_of_mem x (ih h)
    · rcases mem_cons.mp h with rfl | h
      · exact mem_cons_self ..
      · exact mem_cons_of_mem x (ih h)

/-- One state is emitted for each key. -/
theorem sweep_strictlySorted {xs : List ε} (hxs : xs.Pairwise fun x y => key x ≤ key y) (s : σ) :
    StrictlySorted (fun n => key n.1) (sweep key step xs s) := by
  induction xs generalizing s with
  | nil => exact List.Pairwise.nil
  | cons x xs ih =>
    obtain ⟨hx, hxs⟩ := pairwise_cons.mp hxs
    rw [sweep]
    split
    · exact ih hxs _
    rename_i hhead
    refine pairwise_cons.mpr ⟨fun n hn => ?_, ih hxs _⟩
    have hmem := mem_of_mem_sweep hn
    refine lt_of_le_of_ne (hx _ hmem) fun heq => hhead ?_
    cases xs with
    | nil => cases hmem
    | cons y ys =>
      have hy : key y ≤ key n.1 := by
        rcases mem_cons.mp hmem with h | h
        · rw [h]
        · exact (pairwise_cons.mp hxs).1 _ h
      have hxy := hx y (mem_cons_self ..)
      have hkey : key x = key n.1 := heq
      rw [head?_cons, Option.map_some, le_antisymm (hkey ▸ hy) hxy]

/-- Every key is emitted. -/
theorem exists_mem_sweep {xs : List ε} {x : ε} (hx : x ∈ xs) (s : σ) :
    ∃ n ∈ sweep key step xs s, key n.1 = key x := by
  induction xs generalizing s x with
  | nil => cases hx
  | cons y ys ih =>
    rw [sweep]
    split
    · rename_i hhead
      obtain ⟨z, hz, hkey⟩ := Option.map_eq_some_iff.mp hhead
      rcases mem_cons.mp hx with rfl | hx
      · obtain ⟨n, hn, hnkey⟩ := ih (mem_of_mem_head? hz) (step s x)
        exact ⟨n, hn, hnkey.trans hkey⟩
      · exact ih hx _
    · rcases mem_cons.mp hx with rfl | hx
      · exact ⟨_, mem_cons_self .., rfl⟩
      · obtain ⟨n, hn, hnkey⟩ := ih hx (step s y)
        exact ⟨n, mem_cons_of_mem _ hn, hnkey⟩

variable (key step) in
/-- The state after the events up to `q`. -/
def stateAt (s : σ) (xs : List ε) (q : κ) : σ :=
  ((sortByKey key xs).filter fun x => key x ≤ q).foldl step s

/-- **Lookup**, for events that have been sorted. -/
theorem predLookup_sweep_sortByKey (xs : List ε) (s d : σ) (q : κ) :
    predLookup (fun n => key n.1) Prod.snd d (sweep key step (sortByKey key xs) s) q
      = if ∃ x ∈ xs, key x ≤ q then stateAt key step s xs q else d := by
  rw [predLookup_sweep (sortByKey_pairwise xs), stateAt]
  by_cases h : ∃ x ∈ xs, key x ≤ q
  · obtain ⟨x, hx, hq⟩ := h
    have hmem : x ∈ (sortByKey key xs).filter fun x => key x ≤ q :=
      mem_filter.mpr ⟨mem_sortByKey.mpr hx, by simpa using hq⟩
    rw [if_neg (ne_nil_of_mem hmem), if_pos ⟨x, hx, hq⟩]
  · have hnil : ((sortByKey key xs).filter fun x => key x ≤ q) = [] := by
      refine filter_eq_nil_iff.mpr fun x hx hq => h ⟨x, mem_sortByKey.mp hx, ?_⟩
      simpa using hq
    rw [if_pos hnil, if_neg h]

/-- What is emitted with a key is the state at the key. -/
theorem snd_of_mem_sweep {xs : List ε} (h : n ∈ sweep key step (sortByKey key xs) s) :
    n.2 = stateAt key step s xs (key n.1) := by
  have hsorted : StrictlySorted (fun n => key n.1) (sweep key step (sortByKey key xs) s) :=
    sweep_strictlySorted (sortByKey_pairwise xs) s
  have hlookup := @predLookup_sweep_sortByKey κ ε σ _ key step xs s s (key n.1)
  rw [if_pos ⟨n.1, mem_sortByKey.mp (mem_of_mem_sweep h), le_rfl⟩] at hlookup
  rw [← hlookup]
  rcases predLookup_cases Prod.snd s hsorted (key n.1) with ⟨m, hm, hle, hmax, heq⟩ | ⟨hlt, -⟩
  · have hkey : key m.1 = key n.1 := le_antisymm hle (hmax n h le_rfl)
    rw [heq, hsorted.eq_of_key_eq hm h hkey]
  · exact absurd (hlt n h) (lt_irrefl _)

end Sweep

/-! ### Marks -/

section Marks

variable {step : σ → ε → σ} {owner : ε → ι} [DecidableEq ι] {marks : ε → Bool}
  {marked : σ → ι → Bool} {I : σ → Prop} {P : ε → Prop}

variable (step owner marks marked I P) in
/-- Events mark or unmark their owner, and nothing else; `I` holds of states and `P` of
events. -/
structure Marking : Prop where
  keep : ∀ s x, I s → P x → I (step s x)
  mark : ∀ s x i, I s → P x → marked (step s x) i = if owner x = i then marks x else marked s i

variable {xs : List ε} {s : σ} {i : ι} {q : κ}

section

variable (h : Marking step owner marks marked I P)
include h

section

variable (hs : I s) (hxs : ∀ x ∈ xs, P x)
include hs hxs

/-- The mark of an owner is that of its last event. -/
theorem Marking.foldl (i : ι) :
    marked (xs.foldl step s) i
      = (xs.filter fun x => owner x = i).foldl (fun _ x => marks x) (marked s i) := by
  induction xs generalizing s with
  | nil => rfl
  | cons x xs ih =>
    obtain ⟨hx, hxs⟩ := forall_mem_cons.mp hxs
    rw [foldl_cons, ih (h.keep s x hs hx) hxs, h.mark s x i hs hx]
    by_cases hi : owner x = i
    · rw [if_pos hi, filter_cons_of_pos (by simpa using hi), foldl_cons]
    · rw [if_neg hi, filter_cons_of_neg (by simpa using hi)]

theorem Marking.stateAt (q : κ) (i : ι) :
    marked (NicSw.stateAt key step s xs q) i
      = (((sortByKey key xs).filter fun x => owner x = i).filter fun x => key x ≤ q).foldl
          (fun _ x => marks x) (marked s i) := by
  rw [NicSw.stateAt, h.foldl hs, filter_comm]
  intro x hx
  exact hxs x (mem_sortByKey.mp (mem_of_mem_filter hx))

/-- An owner without events is not marked. -/
theorem Marking.nil (hown : xs.filter (fun x => owner x = i) = []) (hmark : marked s i = false) :
    marked (NicSw.stateAt key step s xs q) i = false := by
  rw [h.stateAt hs hxs, filter_sortByKey (by simp [hown]), hown, hmark]
  rfl

/-- An owner that is never unmarked is marked from its event on. -/
theorem Marking.single {a : ε} (hown : xs.filter (fun x => owner x = i) = [a]) (ha : marks a = true)
    (hmark : marked s i = false) :
    marked (NicSw.stateAt key step s xs q) i = decide (key a ≤ q) := by
  rw [h.stateAt hs hxs, filter_sortByKey (by simp [hown]), hown, hmark]
  by_cases hq : key a ≤ q <;> simp [hq, ha]

/-- **An owner with an event that marks and one that unmarks.** -/
theorem Marking.pair {a b : ε} (hown : xs.filter (fun x => owner x = i) = [a, b])
    (ha : marks a = true) (hb : marks b = false) (hmark : marked s i = false) :
    marked (NicSw.stateAt key step s xs q) i
      = decide (key a ≤ q ∧ ¬ (key a ≤ key b ∧ key b ≤ q)) := by
  rw [h.stateAt hs hxs, hmark]
  by_cases hab : key a ≤ key b
  · rw [filter_sortByKey (by simpa [hown] using hab), hown]
    by_cases hqb : key b ≤ q
    · simp [hqb, hab, le_trans hab hqb, hb]
    · by_cases hqa : key a ≤ q <;> simp [hqa, hqb, ha]
  · rw [filter_sortByKey_swap hown (not_le.mp hab)]
    by_cases hqa : key a ≤ q
    · have hqb : key b ≤ q := le_trans (le_of_not_ge hab) hqa
      simp [hqa, hqb, hab, ha]
    · by_cases hqb : key b ≤ q <;> simp [hqa, hqb, hb]

end

end

end Marks

end NicSw
