/-
How many routes a table may have (`route_impl.cc` of apulu, `lpm.cc`).

A block of LPM memory has room for `max_routes` routes, and `lpm_tree_create` asserts
that there are no more.  The only check before it is the one of
`route_table_impl::factory`.  It compares the number of routes with the size of a block
in bytes, and it is made for a new table only: an update works on a clone, and the
routes that a batch adds one by one are counted nowhere.  When the check does fail,
`route_table::factory` destroys a table that has no `impl_` yet.
-/
import NicSw.Routes.Impl

namespace NicSw.Routes

variable {I A : Type} [DecidableEq I]

/-! ### From a request to the builder -/

/-- `route_table_impl_state`, for one address family: the size of a block in bytes, and
the routes that fit in it. -/
structure LpmRegion where
  tableSize : Nat
  maxRoutes : Nat

/-- What a batch holds for one table.  The routes `spec` are those of the last create or
update of the table in the batch, and `clist` are the operations on single routes. -/
inductive TableOp (I A : Type)
  | create (first spec : List (Route I A)) (clist : List (I × ObjOp A))
  | update (spec : List (Route I A)) (clist : List (I × ObjOp A))
  | contained (clist : List (I × ObjOp A))

/-- How a batch ends for a table.  A crash is a call through a null `impl_`. -/
inductive Outcome (I A : Type)
  | error (ret : SdkRet)
  | crash
  | assertFails
  | programmed (routes : List (Route I A))
  deriving DecidableEq

/-- What the rest of the system answers: the reservation of the DNAT and LPM blocks, and
the lookups of next hops. -/
structure Answers where
  reserves : Except SdkRet Unit
  resolves : Except SdkRet Unit

/-- `lpm_tree_create`, as far as its assertion. -/
def lpmTreeCreate (region : LpmRegion) (routes : List (Route I A)) : Outcome I A :=
  if routes.length ≤ region.maxRoutes then .programmed routes else .assertFails

/-- `reserve_resources` and `program_route_table_` on the updated spec. -/
def programSpec (region : LpmRegion) (ans : Answers) (spec : List (Route I A))
    (clist : List (I × ObjOp A)) : Outcome I A :=
  match updateRouteTableSpec spec clist, ans.reserves, ans.resolves with
  | .error e, _, _ => .error e
  | .ok _, .error e, _ => .error e
  | .ok _, .ok _, .error e => .error e
  | .ok routes, .ok _, .ok _ => lpmTreeCreate region routes

/-- A batch on a table with the given persisted routes. -/
def programTable (region : LpmRegion) (ans : Answers) (persisted : List (Route I A)) :
    TableOp I A → Outcome I A
  | .create first spec clist =>
    if region.tableSize < first.length then .crash else programSpec region ans spec clist
  | .update spec clist => programSpec region ans spec clist
  | .contained clist => programSpec region ans persisted clist

/-! ### Counting -/

def ObjOp.isCreate : ObjOp A → Bool
  | .create _ => true
  | _ => false

def ObjOp.isDelete : ObjOp A → Bool
  | .delete => true
  | _ => false

/-- The routes that an operation starts from. -/
def TableOp.base (persisted : List (Route I A)) : TableOp I A → List (Route I A)
  | .create _ spec _ | .update spec _ => spec
  | .contained _ => persisted

def TableOp.clist : TableOp I A → List (I × ObjOp A)
  | .create _ _ clist | .update _ clist | .contained clist => clist

/-- The number of routes that a batch asks for. -/
def TableOp.count (op : TableOp I A) (persisted : List (Route I A)) : Nat :=
  (op.base persisted).length + op.clist.countP (·.2.isCreate) - op.clist.countP (·.2.isDelete)

variable {routes routes' : List (Route I A)}

theorem updateRoute_length {p : I × ObjOp A} (h : updateRoute routes p = .ok routes') :
    routes'.length + p.2.isDelete.toNat = routes.length + p.2.isCreate.toNat := by
  obtain ⟨id, op⟩ := p
  cases op with
  | none =>
    cases h
    rfl
  | create a =>
    cases h
    simp [ObjOp.isCreate, ObjOp.isDelete]
  | delete =>
    dsimp only [updateRoute] at h
    split at h
    · rename_i i last hfind hlast
      cases h
      have hi := (List.findIdx?_eq_some_iff_getElem.mp hfind).1
      simp only [List.length_dropLast, List.length_set, ObjOp.isCreate, ObjOp.isDelete,
        Bool.toNat_true, Bool.toNat_false]
      omega
    · cases h
  | update a =>
    dsimp only [updateRoute] at h
    split at h
    · cases h
      simp [ObjOp.isCreate, ObjOp.isDelete]
    · cases h

/-- The length of the updated spec. -/
theorem updateRouteTableSpec_length {clist : List (I × ObjOp A)}
    (h : updateRouteTableSpec routes clist = .ok routes') :
    routes'.length + clist.countP (·.2.isDelete) = routes.length + clist.countP (·.2.isCreate) := by
  induction clist generalizing routes with
  | nil =>
    cases h
    rfl
  | cons p clist ih =>
    unfold updateRouteTableSpec at h
    obtain ⟨mid, hmid, hrest⟩ := bind_eq_ok h
    have hlen := updateRoute_length hmid
    have hrec := ih hrest
    cases hd : p.2.isDelete <;> cases hc : p.2.isCreate <;> simp_all <;> omega

/-! ### The limit -/

/-- **The limit is kept**: the assertion holds if it is reached, and a table with too many
routes is rejected with an error. -/
def Limited (region : LpmRegion) (count : Nat) (out : Outcome I A) : Prop :=
  out ≠ .assertFails ∧ (region.maxRoutes < count → ∃ e, out = .error e)

/-- The batch is rejected for another reason: an operation on a route that the table does
not have, a reservation that fails, or a next hop that is not found. -/
def Rejected (ans : Answers) (base : List (Route I A)) (clist : List (I × ObjOp A)) : Prop :=
  (∃ e, updateRouteTableSpec base clist = .error e) ∨ (∃ e, ans.reserves = .error e) ∨
    ∃ e, ans.resolves = .error e

theorem programSpec_limited_iff (region : LpmRegion) (ans : Answers)
    (spec : List (Route I A)) (clist : List (I × ObjOp A)) :
    Limited region (spec.length + clist.countP (·.2.isCreate) - clist.countP (·.2.isDelete))
        (programSpec region ans spec clist) ↔
      spec.length + clist.countP (·.2.isCreate) - clist.countP (·.2.isDelete)
          ≤ region.maxRoutes ∨ Rejected ans spec clist := by
  unfold programSpec Rejected
  obtain ⟨reserves, resolves⟩ := ans
  cases hupd : updateRouteTableSpec spec clist with
  | error e => simp [Limited]
  | ok routes =>
    have hlen := updateRouteTableSpec_length hupd
    cases reserves with
    | error e => simp [Limited]
    | ok _ =>
      cases resolves with
      | error e => simp [Limited]
      | ok _ =>
        have hcount : spec.length + clist.countP (·.2.isCreate)
            - clist.countP (·.2.isDelete) = routes.length := by omega
        rw [hcount]
        by_cases hle : routes.length ≤ region.maxRoutes
        · simp [Limited, lpmTreeCreate, hle]
        · simp [Limited, lpmTreeCreate, hle]

/-- **The limit is kept exactly if the batch asks for no more routes than fit**, or is
rejected for another reason; the error of the factory is none of these. -/
theorem programTable_limited_iff (region : LpmRegion) (ans : Answers)
    (persisted : List (Route I A)) (op : TableOp I A) :
    Limited region (op.count persisted) (programTable region ans persisted op) ↔
      op.count persisted ≤ region.maxRoutes ∨
        (Rejected ans (op.base persisted) op.clist ∧
          ∀ first spec clist, op = .create first spec clist → first.length ≤ region.tableSize) := by
  cases op with
  | create first spec clist =>
    dsimp only [programTable]
    split
    · rename_i hlt
      simp [Limited, Nat.not_le.mpr hlt]
    · rename_i hge
      have hle : first.length ≤ region.tableSize := Nat.not_lt.mp hge
      have hiff := programSpec_limited_iff region ans spec clist
      simpa [TableOp.count, TableOp.base, TableOp.clist, hle] using hiff
  | update spec clist =>
    have hiff := programSpec_limited_iff region ans spec clist
    simpa [TableOp.count, TableOp.base, TableOp.clist, programTable] using hiff
  | contained clist =>
    have hiff := programSpec_limited_iff region ans persisted clist
    simpa [TableOp.count, TableOp.base, TableOp.clist, programTable] using hiff

/-- The answer of `reserve_resources`, on the updated spec. -/
def reserves (ix : Indexers) (used : Finset Res) (impl : Impl) (info : RouteInfo I A)
    (clist : List (I × ObjOp (Attrs A))) : Except SdkRet Unit :=
  let spec := updateRouteTableSpec info.routes clist
  match (reserveResources ix used impl (spec.map fun routes => { info with routes })).ret with
  | .ok => .ok ()
  | e => .error e

/-- A reservation that fails ends the batch with its error. -/
theorem programSpec_reserves (region : LpmRegion) (resolves : Except SdkRet Unit) {ix : Indexers}
    {used : Finset Res} {impl : Impl} {info : RouteInfo I A}
    {clist : List (I × ObjOp (Attrs A))} {e : SdkRet}
    (h : reserves ix used impl info clist = .error e) :
    programSpec region ⟨reserves ix used impl info clist, resolves⟩ info.routes clist = .error e := by
  rw [h, programSpec]
  cases hspec : updateRouteTableSpec info.routes clist with
  | ok routes => rfl
  | error e' =>
    rw [reserves, hspec] at h
    cases e' <;> cases h <;> rfl

/-- A full table and one more route: the assertion fails. -/
theorem not_limited_full :
    programTable ⟨64, 1⟩ ⟨.ok (), .ok ()⟩ [⟨1, 10⟩] (.contained [(2, .create 20)])
        = .assertFails ∧
      ¬ Limited (I := Nat) (A := Nat) ⟨64, 1⟩ 2
        (programTable ⟨64, 1⟩ ⟨.ok (), .ok ()⟩ [⟨1, 10⟩] (.contained [(2, .create 20)])) := by
  have hout : programTable ⟨64, 1⟩ ⟨.ok (), .ok ()⟩ [⟨1, 10⟩] (.contained [(2, .create 20)])
      = (.assertFails : Outcome Nat Nat) := by decide
  exact ⟨hout, fun h => h.1 hout⟩

end NicSw.Routes
