/-
The reference graph of memdb.

References are kept in a graph store, as quads of a subject, a predicate and an
object.  A node lists its references, or its referrers, for each predicate.  The
lists and the predicates come in any order, and the order may change from call to
call: a `Store` is any such way to list the quads.
-/
import Mathlib.Data.List.Dedup
import Mathlib.Data.List.Perm.Subperm

namespace NicSw.MemDb

open List

/-! ### Kinds, keys and quads -/

/-- Object kinds, by name.  Two names are special. -/
inductive Kind
  | vrf
  | virtualRouter
  | other (name : Nat)
  deriving DecidableEq, Repr

/-- `memDbKind`. -/
def memDbKind : Kind → Kind
  | .virtualRouter => .vrf
  | kind => kind

/-- The key of an object. -/
abbrev Key := Nat

/-- The key of a relation, `getKeyForGraphDB`: source kind, destination kind and field. -/
structure Pred where
  sKind : Kind
  dKind : Kind
  field : Nat
  deriving DecidableEq, Repr

/-- A reference of the graph. -/
structure Quad where
  sub : Key
  pred : Pred
  obj : Key
  deriving DecidableEq, Repr

/-! ### The store -/

/-- `node.Refs`: a list of keys for each predicate. -/
abbrev Refs := List (Pred × List Key)

/-- Each key is listed once, below its predicate, which is listed once. -/
structure Lists (refs : Refs) (mem : Pred → Key → Prop) : Prop where
  preds : (refs.map Prod.fst).Nodup
  keys : ∀ r ∈ refs, r.2.Nodup
  mem_iff : ∀ p k, (∃ l, (p, l) ∈ refs ∧ k ∈ l) ↔ mem p k

theorem Lists.mem {refs : Refs} {mem : Pred → Key → Prop} (h : Lists refs mem) {r : Pred × List Key}
    (hr : r ∈ refs) {k : Key} (hk : k ∈ r.2) : mem r.1 k :=
  (h.mem_iff r.1 k).mp ⟨r.2, hr, hk⟩

/-- A node lists no more keys than there are quads. -/
theorem Lists.length_le {refs : Refs} {mem : Pred → Key → Prop} (h : Lists refs mem)
    (quad : Pred → Key → Quad) (hquad : ∀ p k p' k', quad p k = quad p' k' → p = p' ∧ k = k')
    {g : List Quad} (hg : ∀ p k, mem p k → quad p k ∈ g) :
    (refs.flatMap Prod.snd).length ≤ g.length := by
  have hnodup : (refs.flatMap fun r => r.2.map (quad r.1)).Nodup := by
    refine nodup_flatMap.mpr ⟨fun r hr => ?_, ?_⟩
    · exact (h.keys r hr).map fun k k' hk => (hquad _ _ _ _ hk).2
    · refine (pairwise_map.mp h.preds).imp fun {r r'} hne q hq hq' => ?_
      obtain ⟨k, -, rfl⟩ := mem_map.mp hq
      obtain ⟨k', -, heq⟩ := mem_map.mp hq'
      exact hne (hquad _ _ _ _ heq).1.symm
  have hsub : (refs.flatMap fun r => r.2.map (quad r.1)) ⊆ g := by
    intro q hq
    obtain ⟨r, hr, hq⟩ := mem_flatMap.mp hq
    obtain ⟨k, hk, rfl⟩ := mem_map.mp hq
    exact hg r.1 k (h.mem hr hk)
  have hlen := (List.Nodup.subperm hnodup hsub).length_le
  simpa [length_flatMap, Function.comp_def] using hlen

/-- The store returns exactly the references and the referrers of a key, in any order
at any time. -/
structure Store where
  references : Nat → List Quad → Key → Refs
  referrers : Nat → List Quad → Key → Refs
  references_lists : ∀ t g k, Lists (references t g k) fun p o => ⟨k, p, o⟩ ∈ g
  referrers_lists : ∀ t g k, Lists (referrers t g k) fun p s => ⟨s, p, k⟩ ∈ g

/-- `UpdateNode`: the quads of the subject are replaced. -/
def updateNode (g : List Quad) (key : Key) (new : List Quad) : List Quad :=
  g.filter (fun q => q.sub ≠ key) ++ new

/-- The keys of a node are grouped by predicate; `ord` orders each group. -/
def group (ord : List Key → List Key) (edges : List (Pred × Key)) : Refs :=
  (edges.map Prod.fst).dedup.map fun p =>
    (p, ord ((edges.filter fun e => e.1 = p).map Prod.snd).dedup)

theorem group_lists {ord : List Key → List Key} (hord : ∀ l, (ord l).Perm l)
    (edges : List (Pred × Key)) : Lists (group ord edges) fun p k => (p, k) ∈ edges where
  preds := by
    have hmap : (group ord edges).map Prod.fst = (edges.map Prod.fst).dedup := by
      simp [group, Function.comp_def]
    rw [hmap]
    exact nodup_dedup _
  keys := by
    intro r hr
    obtain ⟨p, -, rfl⟩ := mem_map.mp hr
    exact (hord _).nodup_iff.mpr (nodup_dedup _)
  mem_iff := by
    intro p k
    constructor
    · rintro ⟨l, hl, hk⟩
      obtain ⟨p', -, heq⟩ := mem_map.mp hl
      cases heq
      have hk := mem_dedup.mp ((hord _).mem_iff.mp hk)
      obtain ⟨⟨p, k⟩, he, rfl⟩ := mem_map.mp hk
      obtain ⟨he, hp⟩ := mem_filter.mp he
      rwa [← of_decide_eq_true hp]
    · intro he
      refine ⟨_, mem_map.mpr ⟨p, mem_dedup.mpr (mem_map_of_mem he), rfl⟩, ?_⟩
      refine (hord _).mem_iff.mpr (mem_dedup.mpr (mem_map.mpr ⟨(p, k), ?_, rfl⟩))
      exact mem_filter.mpr ⟨he, by simp⟩

/-- The store that orders every group by `ord`. -/
def Store.ordered (ord : List Key → List Key) (hord : ∀ l, (ord l).Perm l) : Store where
  references := fun _ g k => group ord ((g.filter fun q => q.sub = k).map fun q => (q.pred, q.obj))
  referrers := fun _ g k => group ord ((g.filter fun q => q.obj = k).map fun q => (q.pred, q.sub))
  references_lists := by
    intro _ g k
    have h := group_lists hord ((g.filter fun q => q.sub = k).map fun q => (q.pred, q.obj))
    refine ⟨h.preds, h.keys, fun p o => (h.mem_iff p o).trans ?_⟩
    constructor
    · intro he
      obtain ⟨⟨s, p, o⟩, hq, heq⟩ := mem_map.mp he
      cases heq
      obtain ⟨hq, hs⟩ := mem_filter.mp hq
      rwa [← of_decide_eq_true hs]
    · intro hq
      exact mem_map.mpr ⟨⟨k, p, o⟩, mem_filter.mpr ⟨hq, by simp⟩, rfl⟩
  referrers_lists := by
    intro _ g k
    have h := group_lists hord ((g.filter fun q => q.obj = k).map fun q => (q.pred, q.sub))
    refine ⟨h.preds, h.keys, fun p s => (h.mem_iff p s).trans ?_⟩
    constructor
    · intro he
      obtain ⟨⟨s, p, o⟩, hq, heq⟩ := mem_map.mp he
      cases heq
      obtain ⟨hq, ho⟩ := mem_filter.mp hq
      rwa [← of_decide_eq_true ho]
    · intro hq
      exact mem_map.mpr ⟨⟨s, p, k⟩, mem_filter.mpr ⟨hq, by simp⟩, rfl⟩

/-- The keys of `first` come before the others. -/
def putFirst (first : Key → Bool) (l : List Key) : List Key :=
  l.filter first ++ l.filter fun k => !first k

/-- The store that lists the keys of `first` first. -/
def Store.putFirst (first : Key → Bool) : Store :=
  .ordered (MemDb.putFirst first) fun l => filter_append_perm first l

/-- Every list begins with keys of `first` and ends with others. -/
theorem group_putFirst {first : Key → Bool} {edges : List (Pred × Key)} {r : Pred × List Key}
    (hr : r ∈ group (putFirst first) edges) :
    ∃ l1 l2, r.2 = l1 ++ l2 ∧ (∀ k ∈ l1, first k = true) ∧ ∀ k ∈ l2, first k = false := by
  obtain ⟨p, -, rfl⟩ := mem_map.mp hr
  refine ⟨_, _, rfl, fun k hk => (mem_filter.mp hk).2, fun k hk => ?_⟩
  simpa using (mem_filter.mp hk).2

end NicSw.MemDb
