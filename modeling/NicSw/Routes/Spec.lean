/-
Route operations on a route table (`api_engine.cc`, `route_impl.cc` of apulu).

A route is a stateless object: it is not in the object database, so a batch is
checked only against itself.  The operations of one batch on one route are merged
into one, and `update_route_table_spec_` then applies them to the persisted list of
routes: a new route goes to the end, and the last route fills the place of a deleted
one.

Nothing asks whether a route that is created is in the table already.  The list is
the table that the operations describe exactly if no route of it is created first.
-/
import Mathlib.Data.List.Induction
import Mathlib.Data.List.Perm.Basic
import Mathlib.Data.List.Nodup
import NicSw.Sdk.Table

namespace NicSw.Routes

open Function List

variable {I A : Type} [DecidableEq I]

/-! ### A batch -/

/-- An operation on a route. -/
inductive Call (I A : Type)
  | create (id : I) (attrs : A)
  | delete (id : I)
  | update (id : I) (attrs : A)
  deriving DecidableEq

/-- The route of a call. -/
def Call.id : Call I A → I
  | .create id _ | .delete id | .update id _ => id

/-- `api_op` of an object context, with the attributes of its parameters. -/
inductive ObjOp (A : Type)
  | none
  | create (attrs : A)
  | delete
  | update (attrs : A)
  deriving DecidableEq

/-- `API_OP_NONE`. -/
def ObjOp.isNone : ObjOp A → Bool
  | .none => true
  | _ => false

/-- `api_obj_ctxt_t`: the merged operation, and whether there is a `cloned_obj`. -/
structure ObjCtxt (A : Type) where
  op : ObjOp A
  cloned : Bool

/-- `batch_ctxt_`: the dirty objects, and the context of each. -/
structure Batch (I A : Type) where
  dol : List I
  dom : I → Option (ObjCtxt A)

/-- `pre_process_create_`, `pre_process_delete_` and `pre_process_update_` on the context
that the route has in the batch, with the merges of `dedup_api_op_`. -/
def preProcess : Option (ObjCtxt A) → Call I A → Except SdkRet (ObjCtxt A)
  | none, .create _ a => .ok ⟨.create a, false⟩
  | some ⟨.none, false⟩, .create _ a => .ok ⟨.create a, false⟩
  | some ⟨.delete, false⟩, .create _ a => .ok ⟨.update a, true⟩
  | some _, .create _ _ => .error .invalidOp
  | none, .delete _ => .ok ⟨.delete, false⟩
  | some ⟨.create _, cloned⟩, .delete _ => .ok ⟨.none, cloned⟩
  | some ⟨.delete, cloned⟩, .delete _ => .ok ⟨.delete, cloned⟩
  | some ⟨.update _, cloned⟩, .delete _ => .ok ⟨.delete, cloned⟩
  | some ⟨.none, _⟩, .delete _ => .error .invalidOp
  | none, .update _ a => .ok ⟨.update a, true⟩
  | some ⟨.create _, cloned⟩, .update _ a => .ok ⟨.create a, cloned⟩
  | some ⟨.update _, cloned⟩, .update _ a => .ok ⟨.update a, cloned⟩
  | some _, .update _ _ => .error .invalidOp

/-- `pre_process_api_`. -/
def preProcessApi (b : Batch I A) (c : Call I A) : Except SdkRet (Batch I A) :=
  preProcess (b.dom c.id) c >>= fun octxt => .ok
    { dol := if (b.dom c.id).isSome then b.dol else b.dol ++ [c.id]
      dom := update b.dom c.id (some octxt) }

/-- `pre_process_stage_`. -/
def preProcessStage (calls : List (Call I A)) : Except SdkRet (Batch I A) :=
  calls.foldlM preProcessApi ⟨[], fun _ => none⟩

/-- The merged operation on a route. -/
def Batch.op (b : Batch I A) (id : I) : ObjOp A := ((b.dom id).map ObjCtxt.op).getD .none

/-- The `clist` of the route table: the routes with an operation, in the order of the
dirty list. -/
def Batch.clist (b : Batch I A) : List (I × ObjOp A) :=
  (b.dol.filter fun id => !(b.op id).isNone).map fun id => (id, b.op id)

/-! ### The table -/

/-- `pds_route_t`. -/
structure Route (I A : Type) where
  key : I
  attrs : A
  deriving DecidableEq

/-- One round of `update_route_table_spec_`. -/
def updateRoute (routes : List (Route I A)) : I × ObjOp A → Except SdkRet (List (Route I A))
  | (id, .create a) => .ok (routes ++ [⟨id, a⟩])
  | (id, .delete) =>
    match routes.findIdx? (fun r => r.key = id), routes.getLast? with
    | some i, some last => .ok (routes.set i last).dropLast
    | _, _ => .error .invalidArg
  | (id, .update a) =>
    match routes.findIdx? (fun r => r.key = id) with
    | some i => .ok (routes.modify i fun r => { r with attrs := a })
    | none => .error .invalidArg
  | (_, .none) => .ok routes

/-- `update_route_table_spec_`. -/
def updateRouteTableSpec (routes : List (Route I A)) (clist : List (I × ObjOp A)) :
    Except SdkRet (List (Route I A)) :=
  clist.foldlM updateRoute routes

/-- A batch of route operations on a table: the new list of routes. -/
def routeBatch (routes : List (Route I A)) (calls : List (Call I A)) :
    Except SdkRet (List (Route I A)) :=
  preProcessStage calls >>= fun b => updateRouteTableSpec routes b.clist

/-! ### What is asked for -/

/-- The table as a map. -/
def lookup (routes : List (Route I A)) (id : I) : Option A :=
  (routes.find? fun r => r.key = id).map Route.attrs

/-- An operation on the map. -/
def apply (m : I → Option A) : Call I A → I → Option A
  | .create id a => update m id (some a)
  | .delete id => update m id none
  | .update id a => update m id (some a)

/-- **The new list is right**: its ids are distinct, and as a map it is the old one with
the operations applied. -/
structure Right (routes : List (Route I A)) (calls : List (Call I A))
    (routes' : List (Route I A)) : Prop where
  nodup : (routes'.map Route.key).Nodup
  lookup : ∀ id, lookup routes' id = calls.foldl apply (lookup routes) id

/-- The first operation of the batch on the route creates it. -/
def CreatedFirst (calls : List (Call I A)) (id : I) : Prop :=
  ∃ a, calls.find? (fun c => c.id = id) = some (.create id a)

theorem bind_eq_ok {α β : Type} {x : Except SdkRet α} {f : α → Except SdkRet β} {r : β}
    (h : x >>= f = .ok r) : ∃ y, x = .ok y ∧ f y = .ok r := by
  cases x with
  | error e => cases h
  | ok y => exact ⟨y, rfl, h⟩

/-! ### The routes with an id -/

/-- The attributes that the list has for an id. -/
def entries (routes : List (Route I A)) (id : I) : List A :=
  (routes.filter fun r => r.key = id).map Route.attrs

theorem entries_cons (r : Route I A) (routes : List (Route I A)) (id : I) :
    entries (r :: routes) id = (if r.key = id then [r.attrs] else []) ++ entries routes id := by
  unfold entries
  split <;> simp_all

theorem entries_append (l l' : List (Route I A)) (id : I) :
    entries (l ++ l') id = entries l id ++ entries l' id := by
  simp [entries]

theorem entries_perm {l l' : List (Route I A)} (h : l.Perm l') (id : I) :
    (entries l id).Perm (entries l' id) :=
  (h.filter _).map _

theorem lookup_eq_head (routes : List (Route I A)) (id : I) :
    lookup routes id = (entries routes id).head? := by
  simp [lookup, entries, head?_filter]

theorem length_entries (routes : List (Route I A)) (id : I) :
    (entries routes id).length = (routes.map Route.key).count id := by
  rw [entries, length_map, ← countP_eq_length_filter, List.count, countP_map]
  exact countP_congr fun r _ => by simp

variable {routes routes' : List (Route I A)}

/-- The ids are distinct and the map is `m`. -/
theorem nodup_lookup_iff {m : I → Option A} :
    ((routes.map Route.key).Nodup ∧ ∀ id, lookup routes id = m id) ↔
      ∀ id, entries routes id = (m id).toList := by
  rw [nodup_iff_count_le_one, ← forall_and]
  refine forall_congr' fun id => ?_
  rw [← length_entries, lookup_eq_head]
  match entries routes id, m id with
  | [], none => simp
  | [], some _ => simp
  | [_], none => simp
  | [_], some _ => simp
  | _ :: _ :: _, none => simp
  | _ :: _ :: _, some _ => simp

/-! ### One operation -/

/-- What an operation makes of the entries of its route. -/
def ObjOp.effect : ObjOp A → List A → List A
  | .none, l => l
  | .create a, l => l ++ [a]
  | .delete, _ => []
  | .update a, _ => [a]

omit [DecidableEq I] in
/-- The last route fills the place of the deleted one. -/
theorem set_dropLast_perm {i : Nat} {last : Route I A} (hi : i < routes.length)
    (hlast : routes.getLast? = some last) : ((routes.set i last).dropLast).Perm (routes.eraseIdx i) := by
  obtain ⟨l, rfl⟩ := getLast?_eq_some_iff.mp hlast
  rcases Nat.lt_or_ge i l.length with hlt | hge
  · rw [set_append_left _ _ hlt, dropLast_concat, eraseIdx_append_of_lt_length hlt]
    exact (set_perm_cons_eraseIdx hlt last).trans (perm_append_singleton _ _).symm
  · have heq : i = l.length := by simp at hi; omega
    subst heq
    simp [eraseIdx_append_of_length_le]

/-- An operation leaves the entries of other routes, and has its effect on its own. -/
theorem updateRoute_entries {id : I} {op : ObjOp A} (h : updateRoute routes (id, op) = .ok routes') :
    (∀ j, j ≠ id → (entries routes' j).Perm (entries routes j)) ∧
      ((entries routes id).length ≤ 1 →
        (entries routes' id).Perm (op.effect (entries routes id))) := by
  cases op with
  | none =>
    cases h
    exact ⟨fun _ _ => .refl _, fun _ => .refl _⟩
  | create a =>
    cases h
    refine ⟨fun j hj => ?_, fun _ => ?_⟩
    · rw [entries_append, entries_cons, if_neg hj.symm]
      simp [entries]
    · rw [entries_append, entries_cons, if_pos rfl]
      simp [entries, ObjOp.effect]
  | delete =>
    dsimp only [updateRoute] at h
    split at h
    · rename_i i last hfind hlast
      cases h
      obtain ⟨hi, hkey, -⟩ := findIdx?_eq_some_iff_getElem.mp hfind
      have hperm := set_dropLast_perm hi hlast
      have hsplit := entries_perm (getElem_cons_eraseIdx_perm hi)
      refine ⟨fun j hj => ?_, fun hle => ?_⟩
      · have hj' := hsplit j
        have hne : routes[i].key ≠ j := fun heq => hj (heq ▸ of_decide_eq_true hkey)
        rw [entries_cons, if_neg hne] at hj'
        exact (entries_perm hperm j).trans hj'
      · have hid := hsplit id
        rw [entries_cons, if_pos (of_decide_eq_true hkey)] at hid
        have hlen := hid.length_eq
        have hnil : entries (routes.eraseIdx i) id = [] := by
          rw [length_append, length_singleton] at hlen
          exact eq_nil_of_length_eq_zero (by omega)
        have hnew := entries_perm hperm id
        rwa [hnil] at hnew
    · cases h
  | update a =>
    dsimp only [updateRoute] at h
    split at h
    · rename_i i hfind
      cases h
      obtain ⟨hi, hkey, -⟩ := findIdx?_eq_some_iff_getElem.mp hfind
      have hkey' : routes[i].key = id := of_decide_eq_true hkey
      have hold : routes = routes.take i ++ routes[i] :: routes.drop (i + 1) := by simp
      rw [modify_eq_take_cons_drop hi]
      refine ⟨fun j hj => ?_, fun hle => ?_⟩
      · have hne : routes[i].key ≠ j := fun heq => hj (heq ▸ hkey')
        conv => rhs; rw [hold]
        rw [entries_append, entries_append, entries_cons, entries_cons, if_neg hne, if_neg hne]
      · rw [hold, entries_append, entries_cons, if_pos hkey'] at hle
        rw [entries_append, entries_cons, if_pos hkey']
        simp only [length_append, length_singleton] at hle
        have h1 : entries (routes.take i) id = [] := eq_nil_of_length_eq_zero (by omega)
        have h2 : entries (routes.drop (i + 1)) id = [] := eq_nil_of_length_eq_zero (by omega)
        rw [h1, h2]
        exact .refl _
    · cases h

/-- The operation that a list holds for a route. -/
def opIn (clist : List (I × ObjOp A)) (id : I) : ObjOp A :=
  ((clist.find? fun p => p.1 = id).map Prod.snd).getD .none

omit [DecidableEq I] in
theorem ObjOp.effect_perm (op : ObjOp A) {l l' : List A} (h : l.Perm l') :
    (op.effect l).Perm (op.effect l') := by
  cases op with
  | none => exact h
  | create a => exact h.append_right _
  | delete => exact .refl _
  | update a => exact .refl _

variable {clist : List (I × ObjOp A)}

/-- Operations on other routes. -/
theorem updateRouteTableSpec_other {id : I} (hid : id ∉ clist.map Prod.fst)
    (h : updateRouteTableSpec routes clist = .ok routes') :
    (entries routes' id).Perm (entries routes id) := by
  induction clist generalizing routes with
  | nil =>
    cases h
    exact .refl _
  | cons p clist ih =>
    rw [map_cons, mem_cons, not_or] at hid
    unfold updateRouteTableSpec at h
    obtain ⟨mid, hmid, hrest⟩ := bind_eq_ok h
    exact (ih hid.2 hrest).trans ((updateRoute_entries hmid).1 id hid.1)

/-- **`update_route_table_spec_`** has the effect of its one operation on each route. -/
theorem updateRouteTableSpec_entries (hnodup : (clist.map Prod.fst).Nodup)
    (h : updateRouteTableSpec routes clist = .ok routes') (id : I)
    (hle : (entries routes id).length ≤ 1) :
    (entries routes' id).Perm ((opIn clist id).effect (entries routes id)) := by
  induction clist generalizing routes with
  | nil =>
    cases h
    exact .refl _
  | cons p clist ih =>
    obtain ⟨j, op⟩ := p
    unfold updateRouteTableSpec at h
    obtain ⟨mid, hmid, hrest⟩ := bind_eq_ok h
    obtain ⟨hother, hown⟩ := updateRoute_entries hmid
    obtain ⟨hnotin, hnodup'⟩ := nodup_cons.mp hnodup
    by_cases hj : j = id
    · subst hj
      have hfind : opIn ((j, op) :: clist) j = op := by simp [opIn]
      rw [hfind]
      exact (updateRouteTableSpec_other hnotin hrest).trans (hown hle)
    · have hmid' := hother id (Ne.symm hj)
      have hfind : opIn ((j, op) :: clist) id = opIn clist id := by simp [opIn, hj]
      rw [hfind]
      exact (ih hnodup' hrest (hmid'.length_eq ▸ hle)).trans (ObjOp.effect_perm _ hmid')

/-! ### The operations of a batch on one route -/

/-- The route has the operation that the calls on it merge to, and the dirty list names
each route once. -/
structure Merged (calls : List (Call I A)) (b : Batch I A) : Prop where
  nodup : b.dol.Nodup
  mem : ∀ id, id ∈ b.dol ↔ (b.dom id).isSome
  dom : ∀ id, (calls.filter fun c => c.id = id).foldlM
    (fun o c => preProcess o c >>= fun octxt => .ok (some octxt)) none = .ok (b.dom id)

variable {calls : List (Call I A)} {b : Batch I A} {c : Call I A}

theorem Merged.step {b' : Batch I A} (h : Merged calls b) (hc : preProcessApi b c = .ok b') :
    Merged (calls ++ [c]) b' := by
  obtain ⟨octxt, hpre, hres⟩ := bind_eq_ok hc
  cases hres
  refine ⟨?_, fun id => ?_, fun id => ?_⟩
  · dsimp only
    split
    · exact h.nodup
    · rename_i hnone
      have hnotin : c.id ∉ b.dol := fun hin => hnone ((h.mem _).mp hin)
      simpa [nodup_append] using ⟨h.nodup, fun a ha heq => hnotin (heq ▸ ha)⟩
  · by_cases hid : id = c.id
    · subst hid
      dsimp only
      split <;> simp_all [h.mem]
    · dsimp only
      split <;> simp [hid, h.mem]
  · dsimp only
    rw [filter_append, foldlM_append, h.dom]
    by_cases hid : c.id = id
    · subst hid
      simp [hpre, bind, Except.bind, pure, Except.pure]
    · rw [update_of_ne (Ne.symm hid)]
      simp [hid, bind, Except.bind, pure, Except.pure]

theorem merged_preProcessStage (h : preProcessStage calls = .ok b) : Merged calls b := by
  induction calls using List.reverseRecOn generalizing b with
  | nil =>
    cases h
    exact ⟨nodup_nil, fun id => by simp, fun id => rfl⟩
  | append_singleton calls c ih =>
    unfold preProcessStage at h ih
    rw [foldlM_append] at h
    obtain ⟨mid, hmid, hlast⟩ := bind_eq_ok h
    obtain ⟨b', hc, hend⟩ := bind_eq_ok hlast
    cases hend
    exact (ih hmid).step hc

/-- The operation and the value that the calls on a route lead to, for a route that is in
the table (`v`) or not: an operation with the right effect. -/
def Good (v : Option A) (op : ObjOp A) (cur : Option A) : Prop :=
  match op with
  | .none => v = none ∧ cur = none
  | .create a => v = none ∧ cur = some a
  | .delete => cur = none
  | .update a => cur = some a

/-- The same for a route that is created first. -/
def Fresh (octxt : ObjCtxt A) (cur : Option A) : Prop :=
  match octxt with
  | ⟨.none, false⟩ => cur = none
  | ⟨.create a, false⟩ => cur = some a
  | _ => False

/-- A call on the value of its route. -/
def Call.value : Call I A → Option A
  | .create _ a => some a
  | .delete _ => none
  | .update _ a => some a

variable {octxt octxt' : ObjCtxt A} {cur : Option A}

omit [DecidableEq I] in
theorem Good.step {v : Option A} (h : Good v octxt.op cur)
    (hc : preProcess (some octxt) c = .ok octxt') : Good v octxt'.op c.value := by
  obtain ⟨op, cloned⟩ := octxt
  cases c <;> cases op <;> cases cloned <;> cases hc <;> simp_all [Good, Call.value]

omit [DecidableEq I] in
theorem Fresh.step (h : Fresh octxt cur) (hc : preProcess (some octxt) c = .ok octxt') :
    Fresh octxt' c.value := by
  obtain ⟨op, cloned⟩ := octxt
  cases c <;> cases op <;> cases cloned <;> cases hc <;> simp_all [Fresh, Call.value]

omit [DecidableEq I] in
/-- What each call keeps, the calls keep. -/
theorem calls_keep {P : ObjCtxt A → Option A → Prop}
    (hstep : ∀ octxt octxt' cur (c : Call I A), P octxt cur →
      preProcess (some octxt) c = .ok octxt' → P octxt' c.value) {o : Option (ObjCtxt A)}
    (h : P octxt cur) (hrun : calls.foldlM
      (fun o c => preProcess o c >>= fun octxt => .ok (some octxt)) (some octxt) = .ok o) :
    ∃ octxt', o = some octxt' ∧ P octxt' (calls.foldl (fun _ c => c.value) cur) := by
  induction calls generalizing octxt cur with
  | nil =>
    cases hrun
    exact ⟨octxt, rfl, h⟩
  | cons c calls ih =>
    obtain ⟨o', ho', hrest⟩ := bind_eq_ok hrun
    obtain ⟨octxt', hpre, heq⟩ := bind_eq_ok ho'
    cases heq
    exact ih (hstep _ _ _ c h hpre) hrest

/-- The map at a route, after all calls. -/
theorem foldl_apply (calls : List (Call I A)) (m : I → Option A) (id : I) :
    calls.foldl apply m id
      = (calls.filter fun c => c.id = id).foldl (fun _ c => c.value) (m id) := by
  induction calls generalizing m with
  | nil => rfl
  | cons c calls ih =>
    rw [foldl_cons, ih, filter_cons]
    by_cases hid : c.id = id
    · subst hid
      cases c <;> simp [apply, Call.id, Call.value]
    · have hne : id ≠ c.id := Ne.symm hid
      cases c <;> simp_all [apply, Call.id, update_of_ne]

/-- **One route**: the merged operation has the right effect exactly if the route is not
created first while it is in the table. -/
theorem effect_iff (h : Merged calls b) (id : I) (v : Option A) :
    (b.op id).effect v.toList
        = ((calls.filter fun c => c.id = id).foldl (fun _ c => c.value) v).toList ↔
      ¬ (v.isSome ∧ CreatedFirst calls id) := by
  have hdom := h.dom id
  have hmem : ∀ c ∈ calls.filter (fun c => c.id = id), c.id = id := fun c hc => by
    simpa using (mem_filter.mp hc).2
  unfold Batch.op CreatedFirst
  rw [← head?_filter]
  generalize calls.filter (fun c => c.id = id) = cs at hdom hmem ⊢
  generalize b.dom id = o at hdom ⊢
  cases cs with
  | nil =>
    cases hdom
    simp [ObjOp.effect]
  | cons c cs =>
    obtain ⟨o', ho', hrest⟩ := bind_eq_ok hdom
    obtain ⟨octxt, hpre, heq⟩ := bind_eq_ok ho'
    cases heq
    by_cases hbad : v.isSome ∧ ∃ a, some c = some (.create id a)
    · refine iff_of_false ?_ (not_not.mpr hbad)
      obtain ⟨hv, a, hc⟩ := hbad
      cases hc
      cases hpre
      have hfresh : Fresh (A := A) ⟨.create a, false⟩ (some a) := rfl
      obtain ⟨⟨op, cloned⟩, rfl, hlast⟩ := calls_keep (fun _ _ _ _ h hc => h.step hc) hfresh hrest
      obtain ⟨w, rfl⟩ := Option.isSome_iff_exists.mp hv
      cases op <;> cases cloned <;> simp_all [Fresh, ObjOp.effect, Call.value]
    · refine iff_of_true ?_ hbad
      have hgood : Good v octxt.op c.value := by
        cases c <;> cases hpre <;> cases v <;> simp_all [Good, Call.value, Call.id]
      obtain ⟨octxt', rfl, hlast⟩ :=
        calls_keep (P := fun octxt cur => Good v octxt.op cur) (fun _ _ _ _ h hc => h.step hc)
          hgood hrest
      obtain ⟨op, cloned⟩ := octxt'
      cases op <;> simp_all [Good, ObjOp.effect]

/-! ### A batch on a table -/

omit [DecidableEq I] in
theorem clist_nodup (hnodup : b.dol.Nodup) : (b.clist.map Prod.fst).Nodup := by
  unfold Batch.clist
  simpa [comp_def] using hnodup.filter _

theorem opIn_clist (hmem : ∀ id, id ∈ b.dol ↔ (b.dom id).isSome) (id : I) :
    opIn b.clist id = b.op id := by
  unfold opIn Batch.clist
  rw [find?_map, find?_filter]
  cases hfind : b.dol.find? _ with
  | some j =>
    have hj := find?_some hfind
    simp only [comp_apply, decide_eq_true_eq] at hj
    simp [hj.2]
  | none =>
    -- a route without a context has no operation
    have hnone := find?_eq_none.mp hfind id
    by_cases hin : id ∈ b.dol
    · have hop := hnone hin
      cases hb : b.op id <;> simp_all [ObjOp.isNone]
    · rw [hmem, Option.not_isSome_iff_eq_none] at hin
      simp [Batch.op, hin]

/-- **The new list of routes is right exactly if no route of the table is created
first.** -/
theorem routeBatch_right_iff {routes routes' : List (Route I A)} {calls : List (Call I A)}
    (hnodup : (routes.map Route.key).Nodup) (h : routeBatch routes calls = .ok routes') :
    Right routes calls routes' ↔ ∀ id ∈ routes.map Route.key, ¬ CreatedFirst calls id := by
  obtain ⟨b, hb, hspec⟩ := bind_eq_ok h
  have hm := merged_preProcessStage hb
  have hright : Right routes calls routes' ↔
      ∀ id, entries routes' id = (calls.foldl apply (lookup routes) id).toList := by
    rw [← nodup_lookup_iff]
    exact ⟨fun h => ⟨h.nodup, h.lookup⟩, fun h => ⟨h.1, h.2⟩⟩
  rw [hright]
  refine forall_congr' fun id => ?_
  -- the table has one entry for the route or none
  have hold := nodup_lookup_iff.mp ⟨hnodup, fun _ => rfl⟩ id
  have hle : (entries routes id).length ≤ 1 := by
    rw [hold]
    cases lookup routes id <;> simp
  have hnew := updateRouteTableSpec_entries (clist_nodup hm.nodup) hspec id hle
  rw [opIn_clist hm.mem, hold] at hnew
  have hin : id ∈ routes.map Route.key ↔ (lookup routes id).isSome := by
    simp [lookup, find?_isSome]
  rw [foldl_apply, hin, ← not_and, ← effect_iff hm id]
  generalize entries routes' id = new, (b.op id).effect (lookup routes id).toList = eff at hnew ⊢
  cases (calls.filter fun c => c.id = id).foldl (fun _ c => c.value) (lookup routes id) with
  | none =>
    constructor
    · rintro rfl
      exact nil_perm.mp hnew
    · rintro rfl
      exact perm_nil.mp hnew
  | some a =>
    constructor
    · rintro rfl
      exact (singleton_perm.mp hnew).symm
    · rintro rfl
      exact perm_singleton.mp hnew

/-- Route 3 is updated after it has taken the place of route 1. -/
theorem routeBatch_right_swap :
    routeBatch [⟨1, 10⟩, ⟨2, 20⟩, ⟨3, 30⟩] [.delete 1, .update 3 31, .create 4 40]
        = .ok [⟨3, 31⟩, ⟨2, 20⟩, ⟨4, 40⟩] ∧
      Right [⟨1, 10⟩, ⟨2, 20⟩, ⟨3, 30⟩] [.delete 1, .update 3 31, .create 4 40]
        [⟨3, 31⟩, ⟨2, 20⟩, ⟨4, 40⟩] := by
  refine ⟨rfl, (routeBatch_right_iff (by decide) rfl).mpr ?_⟩
  rintro id hid ⟨a, ha⟩
  simp only [map_cons, map_nil, mem_cons, not_mem_nil, or_false] at hid
  rcases hid with rfl | rfl | rfl <;> cases ha

/-- A route that is in the table is created: the batch is accepted and the route is in the
list twice. -/
theorem not_right_createdFirst :
    ∃ routes', routeBatch [⟨1, 10⟩] [.create 1 11] = .ok routes' ∧
      ¬ Right [⟨1, 10⟩] [.create 1 11] routes' := by
  refine ⟨_, rfl, fun h => ?_⟩
  exact absurd h.nodup (by decide)

end NicSw.Routes
