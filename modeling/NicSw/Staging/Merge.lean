/-
`ListFiltered` of a staging buffer against `Get`.

The cache and the overlay are filtered apart and merged by key.  An entry whose value the
filters reject is not there for the merge, so it does not hide the object of the cache,
whether it updates or deletes it.  The entry of a delete may have no value, and `MakeKey`
of nil panics.  `Get` returns a staged value with the version of the cached object, the
listing with its own.
-/
import NicSw.Staging.Counter
import NicSw.ApiCache.Listing

namespace NicSw.Staging

open List

open NicSw.ApiCache (Key filterNil)

variable {α : Type}

/-! ### The listing -/

/-- The keys below a prefix that the cache has an object for, in the order of its trie. -/
structure Subtree (cache : Key → Option α) (pfx : Key) where
  keys : List Key
  nodup : keys.Nodup
  mem_keys : ∀ k, k ∈ keys ↔ pfx.isPrefixOf k = true ∧ (cache k).isSome = true

/-- The loop over the filters. -/
def passes (filters : List (ApiCache.Filter α)) (obj : α) : Bool := filters.all (·.accepts obj)

namespace Overlay

variable (ov : Overlay α) {pfx : Key} (sub : Subtree ov.cache pfx) (filters : List (ApiCache.Filter α))

/-- `cacheSet`: the keys of what the cache lists.  An object is held under the key that
`MakeKey` gives it. -/
def cacheSet : List Key := sub.keys.filter fun k => (ov.cache k).any (passes filters)

/-- The keys of what `list` returns.  For an entry without a value a filter may panic, and
`MakeKey` does. -/
def list (pfx : Key) : Option (List Key) :=
  let below := ov.overlay.keys.filter pfx.isPrefixOf
  let isNil (k : Key) : Bool := (ov.entry k).any (·.val.isNone)
  if below.any isNil && filterNil filters != some false then none
  else some (below.filter fun k => (ov.entry k).any (·.val.any (passes filters)))

/-- `addCacheFn` for an entry. -/
def staged (k : Key) : Option α := do
  let o ← ov.entry k
  if o.oper = .delete then none else o.val

/-- `Each` of a set, with `addCacheFn`. -/
def each (add : Key → Option α) (keys : List Key) : List (Key × α) :=
  keys.filterMap fun k => (add k).map (k, ·)

/-- `ListFiltered`, with the keys of the objects. -/
def listFiltered : Option (List (Key × α)) := do
  let cacheSet := ov.cacheSet sub filters
  let ovSet ← ov.list filters pfx
  let cacheOnly := cacheSet.filter (· ∉ ovSet)
  let ovOnly := ovSet.filter (· ∉ cacheSet)
  let common := cacheSet.filter (· ∈ ovSet)
  some (each ov.cache cacheOnly ++ each ov.staged ovOnly ++ each ov.staged common)

/-! ### What it should return -/

/-- **The listing is the merged view**: it returns what `Get` returns for the keys with the
prefix, as far as the filters accept it, each once. -/
def ListsMerged [RuntimeObject α] (into : α) : Prop :=
  ∃ l, ov.listFiltered sub filters = some l ∧ l.Nodup ∧
    ∀ k o, (k, o) ∈ l ↔ pfx.isPrefixOf k = true ∧ ov.get k into = .ok o ∧ passes filters o = true

end Overlay

/-- What is asked of an entry over the object `base` of the cache.  Without a value, the
filters reject nil.  A value that they accept hides `base`; it has the version that `Get`
gives it.  Otherwise `base` is seen, so what they leave of it is what they leave of the
object that `Get` returns. -/
def OverlayObj.Fits [RuntimeObject α] (e : OverlayObj α) (filters : List (ApiCache.Filter α))
    (base : Option α) (into : α) : Prop :=
  match e.val with
  | none => filterNil filters = some false ∧
      (e.oper = .delete → base.filter (passes filters) = none)
  | some v =>
    let read := RuntimeObject.setVersion v (RuntimeObject.version (base.getD into))
    if passes filters v then e.oper = .delete ∨ read = v
    else base.filter (passes filters) =
      if e.oper = .delete then none else (some read).filter (passes filters)

/-! ### One key -/

/-- What the listing shows of a key if it does not panic. -/
def shown (filters : List (ApiCache.Filter α)) (base : Option α) : Option (OverlayObj α) → Option α
  | none => base.filter (passes filters)
  | some e =>
    if e.val.any (passes filters) then if e.oper = .delete then none else e.val
    else base.filter (passes filters)

variable {ov : Overlay α} {pfx k : Key} {sub : Subtree ov.cache pfx} {filters : List (ApiCache.Filter α)}
  {l : List (Key × α)} {keys : List Key} {e : OverlayObj α} {o into : α}

theorem mem_each {add : Key → Option α} :
    (k, o) ∈ Overlay.each add keys ↔ k ∈ keys ∧ add k = some o := by
  simp [Overlay.each]

theorem each_nodup {add : Key → Option α} (h : keys.Nodup) : (Overlay.each add keys).Nodup := by
  refine h.filterMap fun k k' x hx hx' => ?_
  obtain ⟨_, _, rfl⟩ := Option.map_eq_some_iff.mp hx
  obtain ⟨_, _, hk⟩ := Option.map_eq_some_iff.mp hx'
  exact (Prod.mk.inj hk).1.symm

theorem mem_cacheSet : k ∈ ov.cacheSet sub filters ↔
    pfx.isPrefixOf k = true ∧ (ov.cache k).any (passes filters) = true := by
  rw [Overlay.cacheSet, mem_filter, sub.mem_keys]
  cases ov.cache k <;> simp

theorem mem_overlay_keys : k ∈ ov.overlay.keys ↔ (ov.entry k).isSome = true :=
  AList.lookup_isSome.symm

/-- **The listing panics** unless the filters reject the entries without a value. -/
theorem list_isSome : (ov.list filters pfx).isSome = true ↔ ∀ k e, pfx.isPrefixOf k = true →
    ov.entry k = some e → e.val = none → filterNil filters = some false := by
  simp only [Overlay.list]
  split_ifs with h
  · simp only [Bool.and_eq_true, any_eq_true, mem_filter, Option.any_eq_true, bne_iff_ne] at h
    obtain ⟨⟨k, ⟨-, hp⟩, e, he, hv⟩, hnil⟩ := h
    exact iff_of_false nofun fun hall => hnil (hall k e hp he (Option.isNone_iff_eq_none.mp hv))
  · refine iff_of_true rfl fun k e hp he hv => ?_
    by_contra hnil
    refine h ((Bool.and_eq_true _ _).mpr ⟨any_eq_true.mpr ⟨k, ?_, by simp [he, hv]⟩, bne_iff_ne.mpr hnil⟩)
    exact mem_filter.mpr ⟨mem_overlay_keys.mpr (he ▸ rfl), hp⟩

theorem list_eq (h : ov.list filters pfx = some keys) : keys.Nodup ∧ ∀ k, k ∈ keys ↔
    pfx.isPrefixOf k = true ∧ (ov.entry k).any (·.val.any (passes filters)) = true := by
  simp only [Overlay.list] at h
  split_ifs at h
  cases h
  refine ⟨(ov.overlay.keys_nodup.filter _).filter _, fun k => ?_⟩
  rw [mem_filter, mem_filter, mem_overlay_keys]
  cases ov.entry k <;> simp

/-- Each key is listed once. -/
theorem listFiltered_nodup (h : ov.listFiltered sub filters = some l) : l.Nodup := by
  obtain ⟨keys, hkeys, hl⟩ := Option.bind_eq_some_iff.mp h
  cases hl
  have hov := (list_eq hkeys).1
  have hcache : (ov.cacheSet sub filters).Nodup := sub.nodup.filter _
  refine .append (.append (each_nodup (hcache.filter _)) (each_nodup (hov.filter _)) ?_)
    (each_nodup (hcache.filter _)) ?_ <;> rintro ⟨k, o⟩ hx hy
  · simp [mem_each] at hx hy
    exact hx.1.2 hy.1.1
  · simp [mem_each] at hx hy
    rcases hx with hx | hx
    · exact hx.1.2 hy.1.2
    · exact hx.1.2 hy.1.1

/-- **What is listed**, key by key. -/
theorem mem_listFiltered (h : ov.listFiltered sub filters = some l) : (k, o) ∈ l ↔
    pfx.isPrefixOf k = true ∧ shown filters (ov.cache k) (ov.entry k) = some o := by
  obtain ⟨keys, hkeys, hl⟩ := Option.bind_eq_some_iff.mp h
  cases hl
  have hov := (list_eq hkeys).2
  simp only [mem_append, mem_each, mem_filter, mem_cacheSet, hov, decide_eq_true_iff]
  have hbase : (ov.cache k).any (passes filters) = true ∧ ov.cache k = some o ↔
      ov.cache k = some o ∧ passes filters o = true := by
    rw [and_comm]
    exact and_congr_right fun hc => by rw [hc, Option.any_some]
  cases he : ov.entry k with
  | none => simp [shown, Overlay.staged, he, and_assoc, hbase]
  | some e =>
    by_cases hp : pfx.isPrefixOf k = true
    · by_cases hv : e.val.any (passes filters) = true
      · by_cases hc : (ov.cache k).any (passes filters) = true <;>
          simp [shown, hp, hv, hc, Overlay.staged, he]
      · simp [shown, hp, hv, hbase]
    · simp [hp]

variable [RuntimeObject α]

/-- An entry fits if and only if the listing shows what `Get` returns. -/
theorem fits_iff (he : ov.entry k = some e) : e.Fits filters (ov.cache k) into ↔
    (e.val = none → filterNil filters = some false) ∧ ∀ o,
      shown filters (ov.cache k) (some e) = some o ↔
        ov.get k into = .ok o ∧ passes filters o = true := by
  simp only [OverlayObj.Fits, Overlay.get, shown, he]
  cases hv : e.val with
  | none =>
    by_cases hd : e.oper = .delete
    · simp [hd, Option.eq_none_iff_forall_ne_some]
    · cases ov.cache k <;> simp [hd]
  | some v =>
    by_cases hd : e.oper = .delete
    · by_cases hp : passes filters v = true <;> simp [hd, hp, Option.eq_none_iff_forall_ne_some]
    by_cases hp : passes filters v = true
    · simp only [hd, hp, if_true, if_false, false_or, Option.any_some]
      refine ⟨fun hread => ⟨nofun, fun o => ?_⟩, fun h => Except.ok.inj ((h.2 v).mp rfl).1⟩
      rw [hread]
      exact ⟨fun ho => by cases ho; exact ⟨rfl, hp⟩, fun ho => by cases ho.1; rfl⟩
    · simp only [hd, hp, if_false, Option.any_some]
      rw [Option.ext_iff]
      simp

/-! ### The main theorem -/

/-- **The listing is the merged view if and only if every entry below the prefix fits.** -/
theorem lists_merged_iff (ov : Overlay α) (pfx : Key) (sub : Subtree ov.cache pfx)
    (filters : List (ApiCache.Filter α)) (into : α) :
    ov.ListsMerged sub filters into ↔
      ∀ k e, pfx.isPrefixOf k = true → ov.entry k = some e → e.Fits filters (ov.cache k) into := by
  have hnone : ∀ k, ov.entry k = none → ∀ o, shown filters (ov.cache k) (ov.entry k) = some o ↔
      ov.get k into = .ok o ∧ passes filters o = true := by
    intro k he o
    cases hb : ov.cache k <;> simp [shown, Overlay.get, he, hb]
  constructor
  · rintro ⟨l, hl, -, hmem⟩ k e hp he
    obtain ⟨keys, hkeys, -⟩ := Option.bind_eq_some_iff.mp hl
    refine (fits_iff he).mpr ⟨list_isSome.mp (hkeys ▸ rfl) k e hp he, fun o => ?_⟩
    have hko := (mem_listFiltered hl).symm.trans (hmem k o)
    simpa [hp, he] using hko
  · intro hall
    have hsome := list_isSome.mpr fun k e hp he => ((fits_iff he).mp (hall k e hp he)).1
    obtain ⟨keys, hkeys⟩ := Option.isSome_iff_exists.mp hsome
    obtain ⟨l, hl⟩ : ∃ l, ov.listFiltered sub filters = some l := by
      unfold Overlay.listFiltered
      rw [hkeys]
      exact ⟨_, rfl⟩
    refine ⟨l, hl, listFiltered_nodup hl, fun k o => (mem_listFiltered hl).trans ?_⟩
    refine and_congr_right fun hp => ?_
    cases he : ov.entry k with
    | none => exact he ▸ hnone k he o
    | some e => exact ((fits_iff he).mp (hall k e hp he)).2 o

/-- The keys of the small cache. -/
def docSubtree : Subtree docOverlay.cache keyDoc where
  keys := [keyDoc]
  nodup := nodup_singleton _
  mem_keys := fun k => by
    by_cases hk : k = keyDoc <;> simp [docOverlay, hk]

/-- The filter for the object of the small cache. -/
def bodyOne : ApiCache.Filter Doc := { accepts := fun d => d.body = 1, nil := none }

/-- An update that the filter rejects does not hide the object of the cache; nor does a
delete after it.  Without filters, a delete that was not asked for the object panics. -/
theorem not_lists_merged :
    (∃ out, docOverlay.updatePrimary {} (docRequest ['U'] { body := 2 }) [] (some { body := 2 }) false =
        some out ∧ out.result = .ok () ∧ ∃ sub : Subtree out.ov.cache keyDoc,
      out.ov.listFiltered sub [bodyOne] = some [(keyDoc, { body := 1 })] ∧
      out.ov.get keyDoc { body := 0 } = .ok { body := 2 } ∧
      ∃ out', out.ov.deletePrimary {} (docRequest ['D'] { body := 2 }) true = some out' ∧
        out'.result = .ok () ∧ ∃ sub : Subtree out'.ov.cache keyDoc,
        out'.ov.listFiltered sub [bodyOne] = some [(keyDoc, { body := 1 })] ∧
        out'.ov.get keyDoc { body := 0 } = .error .notFound) ∧
    ∃ out, docOverlay.deletePrimary {} (docRequest ['D'] { body := 1 }) false = some out ∧
      out.result = .ok () ∧ ∃ sub : Subtree out.ov.cache keyDoc, out.ov.listFiltered sub [] = none :=
  ⟨⟨_, rfl, rfl, docSubtree, rfl, rfl, _, rfl, rfl, docSubtree, rfl, rfl⟩,
    _, rfl, rfl, docSubtree, rfl⟩

end NicSw.Staging
