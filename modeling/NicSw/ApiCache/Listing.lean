/-
`ListFromSnapshot` against `GetFromSnapshot`.

The listing visits the objects below a prefix.  An object that has not changed
since the snapshot is listed as it is, without asking the filters; the version
of another object is filtered and cloned.  `GetFromSnapshot` returns nil for a
version that was purged, and the listing panics when it clones it.

`agrees_iff` says when the two agree, in any store whose trie and memory fit
together (`Shape`); every call keeps that shape.
-/
import NicSw.ApiCache.Purge

namespace NicSw.ApiCache

open List Store

variable {α : Type}

/-! ### The listing -/

/-- A filter: what it says of an object, and what it does with a nil object,
where `none` is a panic. -/
structure Filter (α : Type) where
  accepts : α → Bool
  nil : Option Bool

/-- The loop over the filters for a nil object; `none` is a panic. -/
def filterNil : List (Filter α) → Option Bool
  | [] => some true
  | fn :: fns =>
    match fn.nil with
    | none => none
    | some false => some false
    | some true => filterNil fns

/-- The filters and the clone for the object of a version; `none` is a panic. -/
def visitVersion (filters : List (Filter α)) : Option α → Option (List α)
  | some obj => some (if filters.all (·.accepts obj) then [obj] else [])
  | none =>
    match filterNil filters with
    | some false => some []
    -- a filter or `obj.Clone` panics
    | _ => none

/-- `visitfunc` of `ListFromSnapshot`: what is appended for an object. -/
def CacheObj.visit (rev : Nat) (filters : List (Filter α)) (v : CacheObj α) : Option (List α) :=
  if v.revision ≤ rev then some (if v.deleted then [] else [v.obj])
  else
    match v.getVersion rev with
    | .error _ => some []
    | .ok (obj, deleted) => if deleted then some [] else visitVersion filters obj

/-- The objects that `VisitSubtree` visits.  The source's order is that of the
trie. -/
def Store.subtree (s : Store α) (pfx : Key) : List (CacheObj α) :=
  (List.range s.next).filterMap fun p => (s.mem p).bind fun c =>
    if s.objs c.key = some p ∧ pfx.isPrefixOf c.key then some c else none

/-- The visits of a subtree. -/
def visitAll (rev : Nat) (filters : List (Filter α)) : List (CacheObj α) → Option (List α)
  | [] => some []
  | v :: vs => do
      let l ← v.visit rev filters
      let ls ← visitAll rev filters vs
      some (l ++ ls)

/-- `ListFromSnapshot`. -/
def Store.listFromSnapshot (s : Store α) (rev : Nat) (pfx : Key) (filters : List (Filter α)) :
    Option (List α) :=
  visitAll rev filters (s.subtree pfx)

/-! ### What it should return -/

/-- **The listing agrees with `GetFromSnapshot`**: it returns one object for each
key with the prefix whose object in the snapshot the filters accept. -/
def Agrees (s : Store α) (rev : Nat) (pfx : Key) (filters : List (Filter α)) : Prop :=
  ∃ objs, s.listFromSnapshot rev pfx filters = some objs ∧
    ∃ keys : List Key, keys.Nodup ∧
      (∀ k, k ∈ keys ↔ pfx.isPrefixOf k = true ∧
        ∃ o, s.getFromSnapshot rev k = .ok (some o) ∧ filters.all (·.accepts o) = true) ∧
      keys.map (s.getFromSnapshot rev) = objs.map (.ok ∘ some)

/-- The filters accept every object that has not changed since the snapshot, and
reject the nil object of a version that was purged. -/
structure Passing (rev : Nat) (filters : List (Filter α)) (c : CacheObj α) : Prop where
  current : c.revision ≤ rev → c.deleted = false → filters.all (·.accepts c.obj) = true
  purged : rev < c.revision → c.getVersion rev = .ok (none, false) → filterNil filters = some false

/-! ### One object -/

/-- The object that should be listed. -/
def CacheObj.listed (c : CacheObj α) (rev : Nat) (filters : List (Filter α)) : Option α :=
  match c.fromSnapshot rev with
  | .ok (some o) => if filters.all (·.accepts o) then some o else none
  | _ => none

section Visit

variable {rev : Nat} {filters : List (Filter α)} {c : CacheObj α} {o : α} {l : List α}

theorem listed_eq_some : c.listed rev filters = some o ↔
    c.fromSnapshot rev = .ok (some o) ∧ filters.all (·.accepts o) = true := by
  unfold CacheObj.listed
  split
  · rename_i o' heq
    rw [heq]
    constructor
    · intro h
      split at h
      · rename_i hacc
        cases h
        exact ⟨rfl, hacc⟩
      · cases h
    · rintro ⟨h, hacc⟩
      cases h
      exact if_pos hacc
  · rename_i hne
    exact iff_of_false (fun h => by cases h) fun h => hne o h.1

/-- **The visit of an object that passes** appends what should be listed. -/
theorem Passing.visit (h : Passing rev filters c) :
    c.visit rev filters = some (c.listed rev filters).toList := by
  unfold CacheObj.visit CacheObj.listed CacheObj.fromSnapshot
  by_cases hrev : c.revision ≤ rev
  · rw [if_pos hrev, if_pos hrev]
    cases hdel : c.deleted with
    | true => rfl
    | false =>
      have hacc := h.current hrev hdel
      simp [hacc]
  · rw [if_neg hrev, if_neg hrev]
    cases hv : c.getVersion rev with
    | error err => rfl
    | ok r =>
      obtain ⟨obj, deleted⟩ := r
      cases deleted with
      | true => rfl
      | false =>
        cases obj with
        | none =>
          have hnil := h.purged (Nat.not_le.mp hrev) hv
          simp [visitVersion, hnil]
        | some o =>
          simp only [Bool.false_eq_true, if_false, visitVersion]
          split <;> rfl

/-- **The visit of an object that does not pass** panics, or appends an object
that the filters reject. -/
theorem visit_of_not_passing (h : ¬ Passing rev filters c) : c.visit rev filters = none ∨
    ∃ o, c.visit rev filters = some [o] ∧ filters.all (·.accepts o) = false := by
  unfold CacheObj.visit
  by_cases hrev : c.revision ≤ rev
  · rw [if_pos hrev]
    right
    have hcur : ¬ (c.deleted = false → filters.all (·.accepts c.obj) = true) := by
      intro hcur
      exact h ⟨fun _ => hcur, fun hlt => absurd hrev (Nat.not_le.mpr hlt)⟩
    obtain ⟨hdel, hacc⟩ := Classical.not_imp.mp hcur
    refine ⟨c.obj, ?_, Bool.eq_false_of_not_eq_true hacc⟩
    rw [hdel]
    rfl
  · rw [if_neg hrev]
    left
    have hpurged : ¬ (c.getVersion rev = .ok (none, false) → filterNil filters = some false) := by
      intro hpurged
      exact h ⟨fun hle => absurd hle hrev, fun _ => hpurged⟩
    obtain ⟨hv, hnil⟩ := Classical.not_imp.mp hpurged
    rw [hv]
    simp [visitVersion]

end Visit

/-! ### The store -/

section Listing

variable {s : Store α} {rev : Nat} {pfx k : Key} {filters : List (Filter α)} {p : Nat}
  {c : CacheObj α}

/-- The objects below a prefix are those of the trie. -/
theorem Shape.mem_subtree (hs : Shape s) : c ∈ s.subtree pfx ↔
    ∃ p, s.find c.key = some (p, c) ∧ pfx.isPrefixOf c.key = true := by
  unfold subtree
  rw [mem_filterMap]
  constructor
  · rintro ⟨p, -, h⟩
    obtain ⟨d, hd, h⟩ := Option.bind_eq_some_iff.mp h
    split at h
    · rename_i hobj
      cases h
      exact ⟨p, find_eq_some.mpr ⟨hobj.1, hd⟩, hobj.2⟩
    · cases h
  · rintro ⟨p, hf, hpfx⟩
    obtain ⟨ho, hm⟩ := find_eq_some.mp hf
    refine ⟨p, ?_, Option.bind_eq_some_iff.mpr ⟨c, hm, if_pos ⟨ho, hpfx⟩⟩⟩
    rw [mem_range]
    by_contra hge
    cases (hs.fresh p (Nat.not_lt.mp hge)).symm.trans hm

/-- Each key is visited once. -/
theorem nodup_subtree (s : Store α) (pfx : Key) : ((s.subtree pfx).map CacheObj.key).Nodup := by
  unfold subtree
  rw [map_filterMap]
  refine nodup_range.filterMap ?_
  intro p q k hp hq
  have hobj : ∀ {p}, k ∈ Option.map CacheObj.key ((s.mem p).bind fun c =>
      if s.objs c.key = some p ∧ pfx.isPrefixOf c.key then some c else none) →
      s.objs k = some p := by
    intro p hp
    obtain ⟨c, hc, rfl⟩ := Option.map_eq_some_iff.mp hp
    obtain ⟨d, -, h⟩ := Option.bind_eq_some_iff.mp hc
    split at h
    · rename_i hobj
      cases h
      exact hobj.1
    · cases h
  exact Option.some.inj ((hobj hp).symm.trans (hobj hq))

variable {vs : List (CacheObj α)}

theorem visitAll_of_passing (h : ∀ c ∈ vs, Passing rev filters c) :
    visitAll rev filters vs = some (vs.filterMap (·.listed rev filters)) := by
  induction vs with
  | nil => rfl
  | cons c vs ih =>
    rw [visitAll, (h c (mem_cons_self ..)).visit,
      ih fun d hd => h d (mem_cons_of_mem _ hd), filterMap_cons]
    cases c.listed rev filters <;> rfl

/-- An object that does not pass shows in the listing. -/
theorem visitAll_of_not_passing {objs : List α} (hc : c ∈ vs) (h : ¬ Passing rev filters c)
    (hobjs : visitAll rev filters vs = some objs) : ∃ o ∈ objs, filters.all (·.accepts o) = false := by
  induction vs generalizing objs with
  | nil => cases hc
  | cons d vs ih =>
    obtain ⟨l, hl, h₁⟩ := Option.bind_eq_some_iff.mp hobjs
    obtain ⟨ls, hls, h₂⟩ := Option.bind_eq_some_iff.mp h₁
    cases h₂
    obtain rfl | hc := mem_cons.mp hc
    · obtain hnone | ⟨o, ho, hrej⟩ := visit_of_not_passing h
      · cases hnone.symm.trans hl
      · cases ho.symm.trans hl
        exact ⟨o, by simp, hrej⟩
    · obtain ⟨o, ho, hrej⟩ := ih hc hls
      exact ⟨o, mem_append_right _ ho, hrej⟩

theorem map_fromSnapshot (h : ∀ c ∈ vs, s.getFromSnapshot rev c.key = c.fromSnapshot rev) :
    (vs.filter fun c => (c.listed rev filters).isSome).map (s.getFromSnapshot rev ∘ CacheObj.key)
      = (vs.filterMap (·.listed rev filters)).map (.ok ∘ some) := by
  induction vs with
  | nil => rfl
  | cons c vs ih =>
    have ih' := ih fun d hd => h d (mem_cons_of_mem _ hd)
    cases hl : c.listed rev filters with
    | none => simpa [filter_cons, filterMap_cons, hl] using ih'
    | some o =>
      have hok := (listed_eq_some.mp hl).1
      have hget := h c (mem_cons_self ..)
      simpa [filter_cons, filterMap_cons, hl, hget, hok] using ih'

/-- **When the listing agrees with `GetFromSnapshot`**: exactly if the objects
below the prefix pass. -/
theorem Shape.agrees_iff (hs : Shape s)
    (hlive : (s.snapshots.lookup rev).map Snapshot.deleted = some false) :
    Agrees s rev pfx filters ↔
      ∀ k p c, pfx.isPrefixOf k = true → s.find k = some (p, c) → Passing rev filters c := by
  have hget : ∀ {c}, c ∈ s.subtree pfx → s.getFromSnapshot rev c.key = c.fromSnapshot rev := by
    intro c hc
    obtain ⟨p, hf, -⟩ := hs.mem_subtree.mp hc
    rw [getFromSnapshot_of_live hlive, hf]
  constructor
  · rintro ⟨objs, hlist, keys, -, hkeys, hall⟩ k p c hpfx hf
    by_contra hnot
    have hkey := hs.key_eq hf
    have hmem : c ∈ s.subtree pfx := hs.mem_subtree.mpr ⟨p, hkey.symm ▸ hf, hkey.symm ▸ hpfx⟩
    obtain ⟨o, ho, hrej⟩ := visitAll_of_not_passing hmem hnot hlist
    -- some key has the object that the filters reject
    have hin := hall ▸ mem_map_of_mem ho
    obtain ⟨k', hk', hget'⟩ := mem_map.mp hin
    obtain ⟨-, o', ho', hacc⟩ := (hkeys k').mp hk'
    cases ho'.symm.trans hget'
    cases hrej.symm.trans hacc
  · intro hpass
    have hpass' : ∀ c ∈ s.subtree pfx, Passing rev filters c := by
      intro c hc
      obtain ⟨p, hf, hpfx⟩ := hs.mem_subtree.mp hc
      exact hpass c.key p c hpfx hf
    refine ⟨_, visitAll_of_passing hpass', ((s.subtree pfx).filter fun c =>
      (c.listed rev filters).isSome).map CacheObj.key, ?_, fun k => ?_, ?_⟩
    · exact (nodup_subtree s pfx).sublist (filter_sublist.map _)
    · rw [mem_map]
      constructor
      · rintro ⟨c, hc, rfl⟩
        obtain ⟨hin, hlisted⟩ := mem_filter.mp hc
        obtain ⟨p, -, hpfx⟩ := hs.mem_subtree.mp hin
        obtain ⟨o, ho⟩ := Option.isSome_iff_exists.mp hlisted
        exact ⟨hpfx, o, by rw [hget hin]; exact listed_eq_some.mp ho⟩
      · rintro ⟨hpfx, o, hok, hacc⟩
        rw [getFromSnapshot_of_live hlive] at hok
        split at hok
        · cases hok
        rename_i p c hf
        have hkey := hs.key_eq hf
        have hin : c ∈ s.subtree pfx := hs.mem_subtree.mpr ⟨p, hkey.symm ▸ hf, hkey.symm ▸ hpfx⟩
        refine ⟨c, mem_filter.mpr ⟨hin, ?_⟩, hkey⟩
        rw [listed_eq_some.mpr ⟨hok, hacc⟩]
        rfl
    · rw [map_map]
      exact map_fromSnapshot fun c hc => hget hc

end Listing

/-! ### Every call keeps the shape -/

section Calls

variable {s s' : Store α} {key : Key} {p rev now : Nat} {c : CacheObj α} {obj : α}

/-- Filing a version panics when snapshots go backwards. -/
theorem noBackpedal_of_addVersion {r : Store α × CacheObj α}
    (h : s.addVersion key p c = some r) : NoBackpedal s c := by
  unfold addVersion at h
  split at h
  · exact .inl ‹_›
  · rename_i h0
    refine .inr (Nat.not_lt.mp fun hlt => ?_)
    rw [CacheObj.addVersion, if_neg h0, if_pos hlt] at h
    cases h

section

variable (hs : Shape s)
include hs

theorem Shape.set {r : Except Err Unit} (h : s.set key rev obj now = some (s', r)) : Shape s' := by
  cases hf : s.find key with
  | none =>
    obtain ⟨s1, hset, hw⟩ := set_new hs hf rev obj now
    cases hset.symm.trans h
    exact hw.shape
  | some pc =>
    obtain ⟨p, c⟩ := pc
    by_cases hrev : c.revision ≤ rev
    · have hle : NoBackpedal s c := by
        simp only [Store.set, hf, if_pos hrev] at h
        obtain ⟨r', hadd, -⟩ := Option.bind_eq_some_iff.mp h
        exact noBackpedal_of_addVersion hadd
      obtain ⟨s1, hset, hw⟩ := set_found hs hf hrev hle obj now
      cases hset.symm.trans h
      exact hw.shape
    · rw [set_rejected hf (Nat.not_le.mp hrev)] at h
      cases h
      exact hs

theorem Shape.delete {r : Except Err α} (h : s.delete key rev now = some (s', r)) : Shape s' := by
  cases hf : s.find key with
  | none =>
    rw [delete_absent hf] at h
    cases h
    exact hs
  | some pc =>
    obtain ⟨p, c⟩ := pc
    by_cases hrev : rev ≠ 0 ∧ rev ≤ c.revision
    · rw [delete_rejected hf hrev] at h
      cases h
      exact hs
    have hle : NoBackpedal s c := by
      simp only [Store.delete, hf, if_neg hrev] at h
      obtain ⟨r', hadd, -⟩ := Option.bind_eq_some_iff.mp h
      have hle : NoBackpedal { s with lastVer := newRev rev s.lastVer } c :=
        noBackpedal_of_addVersion hadd
      exact hle
    cases hdel : c.deleted with
    | true =>
      obtain ⟨s1, hdelete, hw⟩ := delete_tombstone hs hf hrev hle hdel now
      cases hdelete.symm.trans h
      exact hw.shape
    | false =>
      obtain ⟨s1, hdelete, hw⟩ := delete_found hs hf hrev hle hdel now
      cases hdelete.symm.trans h
      exact hw.shape

theorem Shape.startSnapshot : Shape s.startSnapshot.1 := by
  unfold Store.startSnapshot
  split
  · exact hs.withSnapshots _ _
  · exact hs

theorem Shape.deleteSnapshot (rev : Nat) : Shape (s.deleteSnapshot rev).1 := by
  unfold Store.deleteSnapshot
  split
  · exact hs
  · split
    · exact hs
    · exact hs.withSnapshots _ _

theorem Shape.purgeKeys (snap : Nat) (keys : List Key) (n : Nat) :
    Shape (purgeKeys snap keys s n).1.1 := by
  induction keys generalizing s n with
  | nil => exact hs
  | cons key keys ih =>
    rw [purgeKeys]
    cases ho : s.objs key with
    | none => exact ih hs n
    | some p =>
      obtain ⟨c, hc, -⟩ := hs.trie key p ho
      have hw := (delVersion_spec hs (find_eq_some.mpr ⟨ho, hc⟩) snap n).1
      dsimp only
      split
      · exact hw.shape
      · exact ih hw.shape _

theorem Shape.dropSnapshot (snap : Nat) : Shape (s.dropSnapshot snap) := by
  have hreset : ∀ {s : Store α}, Shape s →
      Shape (if s.snapshots.keys = [] then { s with lastSnapshot := 0 } else s) := by
    intro s hs
    split
    · exact hs.withSnapshots _ 0
    · exact hs
  refine hreset ?_
  split
  · split
    · exact hs.withSnapshots _ _
    · exact hs
  · exact hs

theorem Shape.purgeSnapshots (order : List Key → List Key) (snaps : List Nat)
    (n : Nat) : Shape (purgeSnapshots order snaps s n) := by
  induction snaps generalizing s n with
  | nil => exact hs
  | cons snap snaps ih =>
    rw [purgeSnapshots]
    split
    · exact ih hs n
    rename_i ss _
    split
    · have hkeys := hs.purgeKeys snap (order ss.keys) n
      split
      · rename_i heq
        rw [heq] at hkeys
        exact hkeys
      · rename_i heq
        rw [heq] at hkeys
        exact ih (hkeys.dropSnapshot snap) _
    · exact ih hs n

theorem Shape.purgeDeleted (past : Nat) (clock : Nat → Nat)
    (order : List Key → List Key) : Shape (s.purgeDeleted past clock order) :=
  purgePending_keeps past clock _ 0 (fun hs hl hc _ => (donePending_spec hs hl hc).shape)
    (hs.purgeSnapshots order _ 0)

end

/-- **What one call preserves.** -/
theorem Shape.step {h h' : Hist α} (hs : Shape h.store) {op : Op α} (hstep : h.step op = some h') :
    Shape h'.store := by
  cases op with
  | set key rev obj now =>
    obtain ⟨⟨s', r⟩, hset, rfl⟩ := Option.map_eq_some_iff.mp hstep
    exact hs.set hset
  | delete key rev now =>
    obtain ⟨⟨s', r⟩, hdelete, rfl⟩ := Option.map_eq_some_iff.mp hstep
    exact hs.delete hdelete
  | startSnapshot =>
    cases hstep
    exact hs.startSnapshot
  | deleteSnapshot rev =>
    cases hstep
    exact hs.deleteSnapshot rev
  | purgeDeleted past clock order =>
    cases hstep
    exact hs.purgeDeleted past clock order

end Calls

theorem Reached.shape {h : Hist α} (hr : Reached (fun _ _ => True) h) : Shape h.store := by
  refine @Reachable.invariant _ _ _ (fun h => Shape h.store) _ hr ?_ ?_
  · rintro h rfl
    exact Shape.init
  · rintro h h' hs ⟨op, -, hstep⟩
    exact hs.step hstep

/-- **The listing of a snapshot**, in every state that calls lead to: it agrees
with `GetFromSnapshot` exactly if the filters accept the objects that have not
changed since the snapshot and reject the versions that were purged. -/
theorem Reached.listFromSnapshot_agrees_iff {h : Hist α} (hr : Reached (fun _ _ => True) h)
    {rev : Nat} (hlive : (h.store.snapshots.lookup rev).map Snapshot.deleted = some false)
    (pfx : Key) (filters : List (Filter α)) :
    Agrees h.store rev pfx filters ↔
      ∀ k p c, pfx.isPrefixOf k = true → h.store.find k = some (p, c) → Passing rev filters c :=
  hr.shape.agrees_iff hlive

/-- A filter that accepts the objects greater than `n` and panics on nil. -/
def above (n : Nat) : Filter Nat := ⟨fun o => decide (n < o), none⟩

/-- Two keys that are there when the snapshot is started, of which one is then
written. -/
theorem Reached.listFromSnapshot_agrees_overwrite :
    ∃ h : Hist Nat, Reached (fun _ _ => True) h ∧ h.store.get keyA = .ok 3 ∧
      h.store.listFromSnapshot 2 ['/'] [above 5] = some [10, 20] ∧
      Agrees h.store 2 ['/'] [above 5] := by
  have h0 : Reached (fun _ _ => True) (Hist.init Nat) := .start rfl
  have h1 := h0.step ⟨.set keyA 1 10 0, trivial, rfl⟩
  have h2 := h1.step ⟨.set keyB 2 20 0, trivial, rfl⟩
  have h3 := h2.step ⟨.startSnapshot, trivial, rfl⟩
  have h4 := h3.step ⟨.set keyA 3 3 0, trivial, rfl⟩
  refine ⟨_, h4, rfl, rfl, (Reached.listFromSnapshot_agrees_iff h4 rfl _ _).mpr ?_⟩
  intro k p c hpfx hf
  have hkey := (Reached.shape h4).key_eq hf
  have hmem := (Reached.shape h4).mem_subtree.mpr ⟨p, hkey.symm ▸ hf, hkey.symm ▸ hpfx⟩
  obtain rfl | hmem := mem_cons.mp hmem
  · refine ⟨by decide, fun _ hv => ?_⟩
    have hversion : Except.ok (some 10, false) = Except.ok (ε := Err) (none, false) := hv
    cases hversion
  · obtain rfl := mem_singleton.mp hmem
    exact ⟨fun _ _ => rfl, fun hlt => absurd hlt (by decide)⟩

/-- An object that has not changed since the snapshot is listed although the filter
rejects it.  After a newer snapshot was deleted and purged the listing panics. -/
theorem not_agrees_examples :
    (∃ h : Hist Nat, Reached (fun _ _ => True) h ∧
      (h.store.snapshots.lookup 1).map Snapshot.deleted = some false ∧
      h.store.listFromSnapshot 1 ['/'] [above 15] = some [10] ∧
      ¬ Agrees h.store 1 ['/'] [above 15]) ∧
    ∃ h : Hist Nat, Reached (fun _ _ => True) h ∧
      (h.store.snapshots.lookup 1).map Snapshot.deleted = some false ∧
      h.store.listFromSnapshot 1 ['/'] [] = none ∧ ¬ Agrees h.store 1 ['/'] [] := by
  have h0 : Reached (fun _ _ => True) (Hist.init Nat) := .start rfl
  have h1 := h0.step ⟨.set keyA 1 10 0, trivial, rfl⟩
  have h2 := h1.step ⟨.startSnapshot, trivial, rfl⟩
  constructor
  · refine ⟨_, h2, rfl, rfl, ?_⟩
    rintro ⟨objs, hlist, keys, -, hkeys, hmap⟩
    cases hlist
    have hin := hmap ▸ mem_map_of_mem (f := Except.ok (ε := Err) ∘ some) (mem_singleton_self 10)
    obtain ⟨k, hk, hget⟩ := mem_map.mp hin
    obtain ⟨-, o, ho, hacc⟩ := (hkeys k).mp hk
    cases ho.symm.trans hget
    cases hacc
  · have h3 := h2.step ⟨.set keyB 2 20 0, trivial, rfl⟩
    have h4 := h3.step ⟨.startSnapshot, trivial, rfl⟩
    have h5 := h4.step ⟨.set keyA 3 30 0, trivial, rfl⟩
    have h6 := h5.step ⟨.deleteSnapshot 2, trivial, rfl⟩
    have h7 := h6.step ⟨.purgeDeleted 0 (fun _ => 0) id, trivial, rfl⟩
    refine ⟨_, h7, rfl, rfl, ?_⟩
    rintro ⟨objs, hlist, -⟩
    cases hlist

end NicSw.ApiCache
