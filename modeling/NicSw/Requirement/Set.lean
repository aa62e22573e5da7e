/-
The requirements of an API call (`api/requirement`).

The set is one list, for reference requirements, which have a key, and for consistent-update
requirements, which have none.  The position of a key's requirement is in an index, and the
keys are in a list of their own.  A removal takes the same position out of both lists: they
are in step only as long as no requirement without a key is before one with a key.  `Clear`
leaves the keys where they are.

`requirements_kept` follows runs in which a key is removed only while the lists are in step.
-/
import NicSw.Lib.Run
import Mathlib.Data.List.InsertIdx
import Mathlib.Data.List.Nodup

namespace NicSw.Requirement

open Function List

variable {κ ρ : Type}

/-! ### The set -/

/-- `apiRequirements`. -/
structure Reqs (κ ρ : Type) where
  reqs : List ρ := []
  reqIdx : κ → Option Nat := fun _ => none
  reqKey : List κ := []

section Calls

variable [DecidableEq κ]

namespace Reqs

/-- `addRequirement`; `none` is a panic. -/
def addRequirement (s : Reqs κ ρ) (key : κ) (req : ρ) : Option (Reqs κ ρ) :=
  match s.reqIdx key with
  | some id => if id < s.reqs.length then some { s with reqs := s.reqs.set id req } else none
  | none => some
    { reqs := s.reqs ++ [req]
      reqIdx := update s.reqIdx key (some s.reqs.length)
      reqKey := s.reqKey ++ [key] }

/-- The loop that enters keys with the positions from `i` on. -/
def reindex : List κ → Nat → (κ → Option Nat) → κ → Option Nat
  | [], _, idx => idx
  | key :: keys, i, idx => reindex keys (i + 1) (update idx key (some i))

/-- `delRequirement`.  Slices from behind the end of a list are a panic. -/
def delRequirement (s : Reqs κ ρ) (key : κ) : Option (Reqs κ ρ) :=
  match s.reqIdx key with
  | none => some s
  | some id =>
    if id < s.reqs.length ∧ id < s.reqKey.length then some
      { reqs := s.reqs.eraseIdx id
        reqKey := s.reqKey.eraseIdx id
        reqIdx := reindex ((s.reqKey.eraseIdx id).drop id) id (update s.reqIdx key none) }
    else none

/-- `CheckOne`: the requirement that is checked, if one is found. -/
def checkOne (s : Reqs κ ρ) (key : κ) : Option (Option ρ) :=
  match s.reqIdx key with
  | none => some none
  | some id => s.reqs[id]?.map some

end Reqs

/-- The calls.  `addReq` of nothing removes. -/
inductive Call (κ ρ : Type)
  | newRef (key : κ) (req : ρ)
  | newConsUpdate (req : ρ)
  | addReq (key : κ) (req : Option ρ)
  | clear

/-- `NewRefRequirement`, `NewConsUpdateRequirement`, `AddRequirement` and `Clear`. -/
def Reqs.call (s : Reqs κ ρ) : Call κ ρ → Option (Reqs κ ρ)
  | .newRef key req => s.addRequirement key req
  | .newConsUpdate req => some { s with reqs := s.reqs ++ [req] }
  | .addReq key none => s.delRequirement key
  | .addReq key (some req) => s.addRequirement key req
  | .clear => some { s with reqs := [], reqIdx := fun _ => none }

/-! ### What it is for -/

/-- What should be in the set: the current reference requirement of each key, with the key,
and the consistent-update requirements, in the order of their entry. -/
abbrev Current (κ ρ : Type) := List (Option κ × ρ)

/-- A reference requirement takes the place of the one its key has. -/
def Current.add (w : Current κ ρ) (key : κ) (req : ρ) : Current κ ρ :=
  if ∃ x ∈ w, x.1 = some key then w.map fun x => if x.1 = some key then (x.1, req) else x
  else w ++ [(some key, req)]

def Current.call (w : Current κ ρ) : Call κ ρ → Current κ ρ
  | .newRef key req => w.add key req
  | .newConsUpdate req => w ++ [(none, req)]
  | .addReq key none => w.filter (·.1 ≠ some key)
  | .addReq key (some req) => w.add key req
  | .clear => []

end Calls

/-- **The set holds what it should**, and `CheckOne` checks the requirement of a key. -/
structure Keeps (s : Reqs κ ρ) (w : Current κ ρ) : Prop where
  holds : s.reqs = w.map Prod.snd
  checks : ∀ key, ∃ found, s.checkOne key = some found ∧ ∀ req, found = some req ↔ (some key, req) ∈ w

/-- A key that has a requirement is removed only while the list of keys has the keys of the
index, each at its position. -/
def Reqs.Meets (s : Reqs κ ρ) : Call κ ρ → Prop
  | .addReq key none => s.reqIdx key = none ∨ ∀ i k, s.reqKey[i]? = some k ↔ s.reqIdx k = some i
  | _ => True

/-- The runs of the calls that `ok` allows, with what should be in the set. -/
def Run [DecidableEq κ] (ok : Reqs κ ρ → Call κ ρ → Prop) : Reqs κ ρ × Current κ ρ → Prop :=
  Reachable (· = ({}, [])) fun x x' =>
    ∃ call, ok x.1 call ∧ x.1.call call = some x'.1 ∧ x'.2 = x.2.call call

/-! ### The invariant -/

/-- **The invariant**: the index has the positions of the keys. -/
structure Inv (s : Reqs κ ρ) (w : Current κ ρ) : Prop where
  reqs : s.reqs = w.map Prod.snd
  idx : ∀ k (i : Nat), s.reqIdx k = some i ↔ ∃ r, w[i]? = some (some k, r)

variable {s : Reqs κ ρ} {w : Current κ ρ} {key : κ} {req : ρ} {id : Nat}

theorem Inv.keeps (h : Inv s w) : Keeps s w := by
  refine ⟨h.reqs, fun key => ?_⟩
  unfold Reqs.checkOne
  cases hk : s.reqIdx key with
  | none =>
    refine ⟨none, rfl, fun req => iff_of_false nofun fun hmem => ?_⟩
    obtain ⟨i, hi⟩ := mem_iff_getElem?.mp hmem
    cases hk.symm.trans ((h.idx key i).mpr ⟨req, hi⟩)
  | some id =>
    obtain ⟨r, hr⟩ := (h.idx key id).mp hk
    refine ⟨some r, by simp [h.reqs, hr], fun req => ⟨?_, fun hmem => ?_⟩⟩
    · rintro ⟨⟩
      exact mem_of_getElem? hr
    · obtain ⟨i, hi⟩ := mem_iff_getElem?.mp hmem
      cases hk.symm.trans ((h.idx key i).mpr ⟨req, hi⟩)
      cases hr.symm.trans hi
      rfl

theorem Inv.consUpdate (h : Inv s w) : Inv { s with reqs := s.reqs ++ [req] } (w ++ [(none, req)]) where
  reqs := by simp [h.reqs]
  idx := fun k i => by
    rw [h.idx, getElem?_append]
    split_ifs with hlt
    · rfl
    · rw [getElem?_eq_none (Nat.le_of_not_lt hlt)]
      simp [getElem?_singleton]

variable [DecidableEq κ]

/-- **A reference requirement is added.** -/
theorem Inv.add (h : Inv s w) (key : κ) (req : ρ) :
    ∃ s', s.addRequirement key req = some s' ∧ Inv s' (w.add key req) := by
  unfold Reqs.addRequirement Current.add
  cases hk : s.reqIdx key with
  | none =>
    have hnot : ∀ i r, w[i]? ≠ some (some key, r) := fun i r hi => by
      cases hk.symm.trans ((h.idx key i).mpr ⟨r, hi⟩)
    refine ⟨_, rfl, ?_⟩
    rw [if_neg]
    · refine ⟨by simp [h.reqs], fun k i => ?_⟩
      have hlen : s.reqs.length = w.length := by rw [h.reqs, length_map]
      simp only [hlen, getElem?_append]
      by_cases hkey : k = key
      · subst hkey
        rw [update_self]
        split_ifs with hlt
        · simp only [hnot, exists_false, iff_false, Option.some.injEq]
          omega
        · simp only [getElem?_singleton]
          split_ifs <;> simp <;> omega
      · rw [update_of_ne hkey, h.idx]
        split_ifs with hlt
        · rfl
        · rw [getElem?_eq_none (Nat.le_of_not_lt hlt)]
          simp [getElem?_singleton, Ne.symm hkey]
    · rintro ⟨⟨_, r⟩, hmem, rfl⟩
      obtain ⟨i, hi⟩ := mem_iff_getElem?.mp hmem
      exact hnot i r hi
  | some id =>
    obtain ⟨r, hr⟩ := (h.idx key id).mp hk
    obtain ⟨hlt, -⟩ := List.getElem?_eq_some_iff.mp hr
    refine ⟨_, if_pos (by simpa [h.reqs] using hlt), ?_⟩
    rw [if_pos ⟨_, mem_of_getElem? hr, rfl⟩]
    refine ⟨?_, fun k i => ?_⟩
    · refine ext_getElem? fun i => ?_
      rw [h.reqs]
      by_cases hid : id = i
      · subst hid
        rw [getElem?_set_self (by simpa using hlt)]
        simp [hr]
      rw [getElem?_set_ne hid, getElem?_map, getElem?_map, getElem?_map]
      rcases hx : w[i]? with _ | ⟨tag, r'⟩
      · rfl
      · have ht : tag ≠ some key := by
          rintro rfl
          exact hid (Option.some.inj (hk.symm.trans ((h.idx key i).mpr ⟨r', hx⟩)))
        simp [ht]
    · rw [h.idx, getElem?_map]
      rcases w[i]? with _ | ⟨tag, r'⟩
      · simp
      · by_cases ht : tag = some key <;> simp [ht]

theorem eraseIdx_eq_filter {α : Type} {p : α → Bool} {l : List α} {id : Nat} (hid : id < l.length)
    (h : ∀ i x, l[i]? = some x → (p x = true ↔ id ≠ i)) : l.eraseIdx id = l.filter p := by
  induction l generalizing id with
  | nil => cases hid
  | cons a l ih =>
    have ha := h 0 a rfl
    have hl : ∀ i x, l[i]? = some x → (p x = true ↔ id ≠ i + 1) := fun i x hx => h (i + 1) x hx
    cases id with
    | zero =>
      rw [eraseIdx_cons_zero, filter_cons_of_neg (by simpa using ha), filter_eq_self.mpr]
      intro x hx
      obtain ⟨i, hi⟩ := mem_iff_getElem?.mp hx
      exact (hl i x hi).mpr (Nat.succ_ne_zero i).symm
    | succ id =>
      rw [eraseIdx_cons_succ, filter_cons_of_pos (ha.mpr (Nat.succ_ne_zero id)), ih (by simpa using hid)]
      exact fun i x hx => (hl i x hx).trans (by simp)

theorem reindex_eq {keys : List κ} (h : keys.Nodup) (n : Nat) (idx : κ → Option Nat) (k : κ) :
    Reqs.reindex keys n idx k = if k ∈ keys then some (n + keys.idxOf k) else idx k := by
  induction keys generalizing n idx with
  | nil => rfl
  | cons a keys ih =>
    obtain ⟨ha, hkeys⟩ := nodup_cons.mp h
    rw [Reqs.reindex, ih hkeys]
    by_cases hk : k = a
    · subst hk
      simp [ha]
    · simp only [mem_cons, hk, false_or, update_of_ne hk, idxOf_cons_ne _ (Ne.symm hk)]
      split_ifs <;> simp [Nat.add_comm, Nat.add_left_comm]

/-- The index after a removal: the keys that are left are at their new positions. -/
theorem reindex_eraseIdx {keys : List κ} {idx : κ → Option Nat} (hk : idx key = some id)
    (hkeys : ∀ i k, keys[i]? = some k ↔ idx k = some i) (k : κ) (i : Nat) :
    Reqs.reindex ((keys.eraseIdx id).drop id) id (update idx key none) k = some i ↔
      idx k = some (if i < id then i else i + 1) := by
  have hnodup : keys.Nodup := by
    refine nodup_iff_getElem?_ne_getElem?.mpr fun i j hij hj heq => ?_
    rw [getElem?_eq_getElem hj] at heq
    cases ((hkeys i _).mp heq).symm.trans ((hkeys j _).mp (getElem?_eq_getElem hj))
    omega
  have hleft : ∀ i, (keys.eraseIdx id)[i]? = some k ↔ idx k = some (if i < id then i else i + 1) := by
    intro i
    rw [getElem?_eraseIdx]
    split_ifs <;> exact hkeys _ k
  rw [reindex_eq ((hnodup.sublist (eraseIdx_sublist ..)).sublist (drop_sublist ..))]
  by_cases hin : k ∈ (keys.eraseIdx id).drop id
  · have hget := getElem?_idxOf hin
    rw [getElem?_drop, hleft] at hget
    rw [if_pos hin, hget, Option.some.injEq, Option.some.injEq]
    split_ifs <;> omega
  -- the key was not behind the one that is removed
  have hout : ∀ j, id ≤ j → idx k ≠ some (j + 1) := by
    intro j hj hkj
    refine hin (mem_of_getElem? (i := j - id) ?_)
    rw [getElem?_drop, Nat.add_sub_cancel' hj, hleft, hkj, if_neg (Nat.not_lt.mpr hj)]
  rw [if_neg hin]
  by_cases hkey : k = key
  · rw [hkey, update_self, hk, Option.some.injEq]
    refine iff_of_false nofun ?_
    split_ifs <;> omega
  rw [update_of_ne hkey]
  split_ifs with hi
  · rfl
  · refine iff_of_false (fun hki => ?_) (hout i (by omega))
    obtain rfl | hlt : i = id ∨ id < i := by omega
    · cases ((hkeys i k).mpr hki).symm.trans ((hkeys i key).mpr hk)
      exact hkey rfl
    · exact hout (i - 1) (by omega) (by rw [hki, Nat.sub_add_cancel (by omega)])

/-- **A key is removed** while the lists are in step. -/
theorem Inv.remove (h : Inv s w) (hm : s.Meets (.addReq key none)) :
    ∃ s', s.delRequirement key = some s' ∧ Inv s' (w.filter (·.1 ≠ some key)) := by
  unfold Reqs.delRequirement
  cases hk : s.reqIdx key with
  | none =>
    refine ⟨s, rfl, ?_⟩
    rw [filter_eq_self.mpr]
    · exact h
    · rintro ⟨_, r⟩ hmem
      obtain ⟨i, hi⟩ := mem_iff_getElem?.mp hmem
      simp only [ne_eq, decide_not, Bool.not_eq_true', decide_eq_false_iff_not]
      rintro rfl
      cases hk.symm.trans ((h.idx key i).mpr ⟨r, hi⟩)
  | some id =>
    have hkeys := hm.resolve_left (by simp [hk])
    obtain ⟨r, hr⟩ := (h.idx key id).mp hk
    obtain ⟨hlt, -⟩ := List.getElem?_eq_some_iff.mp hr
    obtain ⟨hlt', -⟩ := List.getElem?_eq_some_iff.mp ((hkeys id key).mpr hk)
    have hfilter : w.eraseIdx id = w.filter (·.1 ≠ some key) := by
      refine eraseIdx_eq_filter hlt fun i x hx => ?_
      obtain ⟨tag, r'⟩ := x
      have hi := h.idx key i
      rw [hk, hx] at hi
      simpa using not_congr hi.symm
    refine ⟨_, if_pos ⟨by simpa [h.reqs] using hlt, hlt'⟩, ?_, fun k i => ?_⟩
    · rw [h.reqs, ← hfilter, eraseIdx_map]
    · rw [reindex_eraseIdx hk hkeys, ← hfilter, getElem?_eraseIdx]
      split_ifs <;> exact h.idx k _

/-! ### Runs -/

/-- **A call that meets the condition** does not panic and keeps the invariant. -/
theorem Inv.call (h : Inv s w) {call : Call κ ρ} (hm : s.Meets call) :
    ∃ s', s.call call = some s' ∧ Inv s' (w.call call) := by
  match call with
  | .newRef key req => exact h.add key req
  | .newConsUpdate req => exact ⟨_, rfl, h.consUpdate⟩
  | .addReq key none => exact h.remove hm
  | .addReq key (some req) => exact h.add key req
  | .clear => exact ⟨_, rfl, rfl, by simp [Current.call]⟩

/-- **The set keeps the current requirement of every key**, in every run in which a key is
removed only while the lists are in step; and whatever is called next does not panic. -/
theorem requirements_kept (s : Reqs κ ρ) (w : Current κ ρ) (h : Run Reqs.Meets (s, w)) :
    Keeps s w ∧ ∀ call, s.Meets call → (s.call call).isSome = true := by
  have hinv : Inv s w := by
    refine h.invariant (I := fun x => Inv x.1 x.2) ?_ ?_
    · rintro _ rfl
      exact ⟨rfl, by simp⟩
    · rintro x x' hx ⟨call, hm, hcall, hx'⟩
      obtain ⟨s', hs', hinv⟩ := hx.call hm
      cases hcall.symm.trans hs'
      rwa [hx']
  refine ⟨hinv.keeps, fun call hm => ?_⟩
  obtain ⟨s', hs', -⟩ := hinv.call hm
  rw [hs']
  rfl

/-- Two keys; the first is removed. -/
theorem requirements_kept_after_removal : ∃ s : Reqs Bool Nat, Keeps s [(some false, 2)] := by
  let s1 : Reqs Bool Nat := ⟨[1], update (fun _ => none) true (some 0), [true]⟩
  let s2 : Reqs Bool Nat := ⟨[1, 2], update s1.reqIdx false (some 1), [true, false]⟩
  let s3 : Reqs Bool Nat := ⟨[2], Reqs.reindex [false] 0 (update s2.reqIdx true none), [false]⟩
  have h1 : Run Reqs.Meets (s1, [(some true, 1)]) :=
    .step (.start rfl) ⟨.newRef true 1, trivial, rfl, rfl⟩
  have h2 : Run Reqs.Meets (s2, [(some true, 1), (some false, 2)]) :=
    .step h1 ⟨.newRef false 2, trivial, rfl, rfl⟩
  have hm : s2.Meets (.addReq true none) := by
    refine .inr ?_
    rintro (_ | _ | i) (_ | _) <;> simp [s2, s1]
  have h3 : Run Reqs.Meets (s3, [(some false, 2)]) := .step h2 ⟨.addReq true none, hm, rfl, rfl⟩
  exact ⟨s3, (requirements_kept s3 _ h3).1⟩

/-- A consistent-update requirement is before that of a key: the removal of the key panics. -/
theorem removal_panics : ∃ (s : Reqs Nat Nat) (w : Current Nat Nat),
    Run (fun _ _ => True) (s, w) ∧ s.call (.addReq 0 none) = none := by
  have h1 : Run (fun _ _ => True) (({ reqs := [1] } : Reqs Nat Nat), [(none, 1)]) :=
    .step (.start rfl) ⟨.newConsUpdate 1, trivial, rfl, rfl⟩
  exact ⟨⟨[1, 2], update (fun _ => none) 0 (some 1), [0]⟩, _,
    .step h1 ⟨.newRef 0 2, trivial, rfl, rfl⟩, rfl⟩

end NicSw.Requirement
