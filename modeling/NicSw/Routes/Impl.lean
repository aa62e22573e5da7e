/-
The resources of a route table (`route_impl.cc` of apulu, `activate_config_`).

A route table holds a block of LPM memory and a block of the DNAT table.  An update works
on a clone of the implementation object: the clone takes blocks of its own, and those of
the old object are released when its delayed delete runs.  The clone is a copy, and
`reserve_resources` counts the DNAT routes on top of the number that it was copied with.
So after an update the DNAT block has room for the routes of both versions.

The indexers are taken by what they promise: what they give is free.  Those of the SDK keep
that promise (`Indexers.ofSdk`).
-/
import Mathlib.Data.Finset.Basic
import NicSw.Routes.Spec
import NicSw.Sdk.Indexer
import NicSw.Sdk.RteIndexer

namespace NicSw.Routes

variable {K I A : Type}

/-! ### Reserving and releasing -/

/-- `IP_AF_IPV4`, `IP_AF_IPV6`. -/
inductive Af
  | v4
  | v6
  deriving DecidableEq

/-- A block of the LPM memory of a family, or an entry of the DNAT table. -/
inductive Res
  | lpm (af : Af) (block : Nat)
  | dnat (index : Nat)
  deriving DecidableEq

/-- `v4_idxr`, `v6_idxr` and `dnat_idxr`, on what is in use. -/
structure Indexers where
  alloc : Af → Finset Res → Option Nat
  allocBlock : Nat → Finset Res → Option Nat
  alloc_free : ∀ {af used b}, alloc af used = some b → .lpm af b ∉ used
  allocBlock_free : ∀ {n used b}, allocBlock n used = some b → ∀ i ∈ List.range' b n, .dnat i ∉ used

theorem eq_ok_of_toOption {ε α : Type} {x : Except ε α} {a : α} (h : x.toOption = some a) :
    x = .ok a := by
  cases x with
  | error e => cases h
  | ok b =>
    cases h
    rfl

/-- The indexers of the SDK, each in a state in which what is in use is given out. -/
def Indexers.ofSdk (lpm : Af → Finset Res → Indexer) (dnat : Finset Res → RteIndexer)
    (behind : Nat → BitVec 64) (hinv : ∀ used, (dnat used).Inv)
    (hbehind : ∀ used, (dnat used).ClearBehind behind)
    (hlpm : ∀ af used b, (lpm af used).isUsed b = false → .lpm af b ∉ used)
    (hdnat : ∀ used i, (dnat used).Free i → .dnat i ∉ used) : Indexers where
  alloc af used := ((lpm af used).alloc false).toOption.map Prod.fst
  allocBlock n used := ((dnat used).allocBlock behind n).1.toOption
  alloc_free {af used b} h := by
    obtain ⟨⟨_, _⟩, hok, rfl⟩ := Option.map_eq_some_iff.mp h
    obtain ⟨id, off, -, hoff, hfree, rfl, -⟩ := Indexer.alloc_eq_ok (eq_ok_of_toOption hok)
    exact hlpm af used _ ((Bitmap.test_word _ _ hoff).trans hfree)
  allocBlock_free {n used b} h i hi := by
    obtain ⟨h1, h2⟩ := List.mem_range'_1.mp hi
    have hfree := ((hinv used).allocBlock (hbehind used) n).2 b (eq_ok_of_toOption h)
    exact hdnat used i (hfree i h1 h2)

/-- The attributes of a route that a reservation looks at, and the others. -/
structure Attrs (A : Type) where
  classPriority : Nat
  priority : Nat
  dstNat : Bool
  rest : A
  deriving DecidableEq

/-- `route_info_t`. -/
structure RouteInfo (I A : Type) where
  af : Af
  priorityEn : Bool
  routes : List (Route I (Attrs A))
  deriving DecidableEq

/-- `route_table_impl`; the root address is given by its block. -/
structure Impl where
  lpmRoot : Option Nat := none
  dnatBaseIdx : Option Nat := none
  numDnatEntries : Nat := 0
  deriving DecidableEq

/-- What `reserve_resources` leaves behind. -/
structure Reservation where
  ret : SdkRet
  rsvdRsc : Bool
  impl : Impl
  used : Finset Res

/-- The loop over the routes: whether it comes to the end, and the number of DNAT entries. -/
def countDnat (priorityEn : Bool) : List (Route I (Attrs A)) → Nat → Bool × Nat
  | [], n => (true, n)
  | r :: rs, n =>
    if priorityEn ∧ (63 < r.attrs.classPriority ∨ 1023 < r.attrs.priority) then (false, n)
    else countDnat priorityEn rs (if r.attrs.dstNat then n + 1 else n)

/-- The DNAT block of `reserve_resources`. -/
def reserveDnat (ix : Indexers) (used : Finset Res) (impl : Impl) : Option (Impl × Finset Res) :=
  if impl.numDnatEntries = 0 then some (impl, used)
  else (ix.allocBlock impl.numDnatEntries used).map fun b =>
    ({ impl with dnatBaseIdx := some b },
      used ∪ ((List.range' b impl.numDnatEntries).map Res.dnat).toFinset)

/-- `reserve_resources`, on the updated spec. -/
def reserveResources (ix : Indexers) (used : Finset Res) (impl : Impl) :
    Except SdkRet (RouteInfo I A) → Reservation
  | .error e => ⟨e, false, impl, used⟩
  | .ok info =>
    match countDnat info.priorityEn info.routes impl.numDnatEntries with
    | (false, n) => ⟨.invalidArg, true, { impl with numDnatEntries := n }, used⟩
    | (true, n) =>
      match reserveDnat ix used { impl with numDnatEntries := n } with
      | none => ⟨.noResource, true, { impl with numDnatEntries := n }, used⟩
      | some (impl, used) =>
        match ix.alloc info.af used with
        | none => ⟨.noResource, true, impl, used⟩
        | some b =>
          ⟨.ok, true, { impl with lpmRoot := some b }, insert (.lpm info.af b) used⟩

/-- What an object releases. -/
def Impl.held (af : Af) (impl : Impl) : List Res :=
  (impl.lpmRoot.map (Res.lpm af)).toList ++
    (impl.dnatBaseIdx.toList.flatMap fun b => (List.range' b impl.numDnatEntries).map Res.dnat)

/-- `release_resources`. -/
def releaseResources (used : Finset Res) (af : Af) (impl : Impl) : Finset Res :=
  used \ (impl.held af).toFinset

/-- The DNAT routes of a table. -/
def RouteInfo.dnatRoutes (info : RouteInfo I A) : Nat := info.routes.countP (·.attrs.dstNat)

/-- A loop that comes to the end has added the DNAT routes. -/
theorem countDnat_eq {priorityEn : Bool} {routes : List (Route I (Attrs A))} {n m : Nat}
    (h : countDnat priorityEn routes n = (true, m)) :
    m = n + routes.countP (·.attrs.dstNat) := by
  induction routes generalizing n with
  | nil =>
    cases h
    rfl
  | cons r rs ih =>
    unfold countDnat at h
    split at h
    · cases h
    · rw [ih h, List.countP_cons]
      split <;> omega

/-- **A reservation that succeeds** takes what the object holds then, all of it free
before; the DNAT entries are those of the copy and those of the routes. -/
theorem reserveResources_ok {ix : Indexers} {used : Finset Res} {impl : Impl}
    {info : RouteInfo I A} (h : (reserveResources ix used impl (.ok info)).ret = .ok) :
    let r := reserveResources ix used impl (.ok info)
    (r.impl.held info.af).Nodup ∧ (∀ x ∈ r.impl.held info.af, x ∉ used) ∧
      r.used = used ∪ (r.impl.held info.af).toFinset ∧ r.impl.lpmRoot.isSome ∧
      r.impl.numDnatEntries = impl.numDnatEntries + info.dnatRoutes ∧
      (r.impl.numDnatEntries ≠ 0 → r.impl.dnatBaseIdx.isSome) := by
  dsimp only [reserveResources] at h ⊢
  split at h
  · cases h
  rename_i n hcount
  split at h
  · cases h
  rename_i impl' used' hdnat
  split at h
  · cases h
  rename_i b hb
  have hfree := ix.alloc_free hb
  unfold reserveDnat at hdnat
  split at hdnat
  · -- no DNAT routes: an index that the copy may have stands for no entries
    rename_i hzero
    cases hdnat
    subst hzero
    have hcount' := countDnat_eq hcount
    have hheld : Impl.held info.af ⟨some b, impl.dnatBaseIdx, 0⟩ = [.lpm info.af b] := by
      simp [Impl.held]
    rw [hheld]
    refine ⟨List.nodup_singleton _, by simpa using hfree, ?_, rfl, hcount', fun h => (h rfl).elim⟩
    ext x
    simp [or_comm]
  · rename_i hpos
    obtain ⟨base, hbase, heq⟩ := Option.map_eq_some_iff.mp hdnat
    cases heq
    have hblock := ix.allocBlock_free hbase
    have hinj : Function.Injective Res.dnat := fun _ _ h => Res.dnat.inj h
    have hnodup : ((List.range' base n).map Res.dnat).Nodup := (List.nodup_range' ..).map hinj
    have hcount' := countDnat_eq hcount
    have hlpm : Res.lpm info.af b ∉ used := fun hin =>
      hfree (Finset.mem_union_left _ hin)
    refine ⟨?_, ?_, ?_, rfl, hcount', fun _ => rfl⟩
    · simpa [Impl.held] using hnodup
    · intro x hx
      simp only [Impl.held, Option.map_some, Option.toList_some, List.flatMap_singleton,
        List.mem_append, List.mem_singleton, List.mem_map] at hx
      rcases hx with rfl | ⟨i, hi, rfl⟩
      · exact hlpm
      · exact hblock i hi
    · ext x
      simp [Impl.held, or_left_comm]

end NicSw.Routes
