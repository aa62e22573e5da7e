/-
memdb: objects, their references, and the two resolvers.

An object is announced to watchers once all objects that it references are
resolved, and it is removed once no object that references it is present.  Both
are checked when the object is added, updated or deleted, and again by a resolver:
`trigger` of the add resolver goes through the referrers of an object that was
resolved, `trigger` of the delete resolver through the references of one that was
removed.  Calls on objects that wait are queued at the object and are made when it
is resolved or removed.

The functions follow the source.  A trigger is a loop over a growing list and the
queued calls lead to more triggers, so there is a fuel, and `.error` holds the state
where it ran out.  Locks are left out: calls are made one at a time.
-/
import NicSw.Memdb.Store

namespace NicSw.MemDb

open Function

/-! ### Objects -/

/-- `EventType`. -/
inductive EventType
  | create
  | update
  | delete
  deriving DecidableEq, Repr

/-- `resolveState`. -/
inductive ResolveState
  | unresolvedAdd
  | unresolvedUpdate
  | resolved
  | unresolvedDelete
  deriving DecidableEq, Repr

/-- The references of a field: `apiintf.ReferenceObj`. -/
structure Ref where
  field : Nat
  refKind : Kind
  refs : List Key
  deriving DecidableEq, Repr

/-- An object with the references that it is submitted with. -/
structure Object where
  kind : Kind
  refs : List Ref
  value : Nat
  deriving DecidableEq, Repr

/-- A queued call. -/
structure Event where
  eventType : EventType
  key : Key
  obj : Object
  deriving DecidableEq, Repr

/-- `objState`, and of `pObjState` the bits of its receivers; `id` tells objects of one
key apart. -/
structure ObjState where
  obj : Object
  resolveState : ResolveState := .unresolvedAdd
  pendingObjs : List Event := []
  bitMap : List Nat := []
  id : Nat := 0
  deriving DecidableEq, Repr

/-- `addToPending`. -/
def ObjState.addToPending (o : ObjState) (e : Event) : ObjState :=
  { o with pendingObjs := o.pendingObjs ++ [e] }

/-- The object databases: `Objdb` and `pushObjDB` of a kind. -/
inductive Db
  | regular (kind : Kind)
  | push (kind : Kind)
  deriving DecidableEq, Repr

/-! ### Receivers and watchers -/

/-- `receiver`; `serial` tells receivers of one ID apart. -/
structure Receiver where
  bitID : Nat
  id : Nat
  serial : Nat
  deriving DecidableEq, Repr

/-- A watcher of a receiver; its name is the ID of the receiver. -/
structure Watcher where
  name : Nat
  serial : Nat
  deriving DecidableEq, Repr

/-- `objPushFilter`. -/
structure PushFilter where
  bitMap : List Nat
  idMap : Nat → Option Receiver
  watchMap : Nat → Option (Kind → Option Watcher)

/-- The watcher of a kind below a bit. -/
def PushFilter.watcher (f : PushFilter) (i : Nat) (kind : Kind) : Option Watcher :=
  (f.watchMap i).bind fun kindWatchMap => kindWatchMap kind

/-- What watchers are sent: an event to all watchers of a kind, or to the watcher below
a bit. -/
inductive Sent
  | watch (et : EventType) (key : Key) (obj : Object)
  | push (et : EventType) (bit : Nat) (watcher : Watcher) (key : Key) (obj : Object)
  deriving DecidableEq, Repr

/-- `Memdb`, what was sent so far, and the number of times the store listed nodes. -/
structure Memdb where
  objects : Db → Key → Option ObjState
  graph : List Quad
  registeredKinds : Kind → Bool
  pushKinds : Kind → Bool
  filter : PushFilter
  /-- The push objects that are in no database, by `id`. -/
  detached : Nat → Option ObjState
  events : List Sent
  clock : Nat

namespace Memdb

/-- `getObjectDB`. -/
def getObjectDB (m : Memdb) (kind : Kind) : Db :=
  if m.pushKinds kind then .push kind else .regular kind

/-- `getObject` of the database of a kind. -/
def getObject (m : Memdb) (kind : Kind) (key : Key) : Option ObjState :=
  m.objects (m.getObjectDB kind) key

/-- `setObject`. -/
def setObject (m : Memdb) (db : Db) (key : Key) (o : ObjState) : Memdb :=
  { m with objects := update m.objects db (update (m.objects db) key (some o)) }

/-- `deleteObject` of a database. -/
def removeObject (m : Memdb) (db : Db) (key : Key) : Memdb :=
  { m with
    objects := update m.objects db (update (m.objects db) key none)
    detached :=
      match db, m.objects db key with
      | .push _, some o => update m.detached o.id (some o)
      | _, _ => m.detached }

/-- The events that `watchEvent` sends. -/
def notices (m : Memdb) (db : Db) (key : Key) (o : ObjState) (et : EventType) : List Sent :=
  match db with
  | .regular _ => [.watch et key o.obj]
  | .push _ => o.bitMap.filterMap fun i =>
    (m.filter.watcher i o.obj.kind).map fun w => .push et i w key o.obj

/-- `watchEvent`. -/
def watchEvent (m : Memdb) (db : Db) (key : Key) (o : ObjState) (et : EventType) : Memdb :=
  { m with events := m.events ++ m.notices db key o et }

/-- `newNode` of `updateReferences`, after `filterOutRefs`. -/
def newNode (m : Memdb) (key : Key) (obj : Object) : List Quad :=
  (obj.refs.filter fun r => m.registeredKinds r.refKind).flatMap fun r =>
    r.refs.map fun ref => ⟨key, ⟨obj.kind, r.refKind, r.field⟩, ref⟩

/-- `clearReferences`. -/
def clearReferences (m : Memdb) (key : Key) : Memdb := { m with graph := updateNode m.graph key [] }

variable (m : Memdb) (db db' : Db) (key key' : Key) (o : ObjState) (et : EventType)

theorem setObject_objects : (m.setObject db key o).objects db' key'
    = if db' = db ∧ key' = key then some o else m.objects db' key' := by
  by_cases hdb : db' = db
  · subst hdb
    by_cases hkey : key' = key
    · simp [setObject, hkey]
    · simp [setObject, hkey]
  · simp [setObject, hdb]

theorem removeObject_objects : (m.removeObject db key).objects db' key'
    = if db' = db ∧ key' = key then none else m.objects db' key' := by
  by_cases hdb : db' = db
  · subst hdb
    by_cases hkey : key' = key
    · simp [removeObject, hkey]
    · simp [removeObject, hkey]
  · simp [removeObject, hdb]

@[simp] theorem watchEvent_objects : (m.watchEvent db key o et).objects = m.objects := rfl

@[simp] theorem setObject_graph : (m.setObject db key o).graph = m.graph := rfl

@[simp] theorem setObject_events : (m.setObject db key o).events = m.events := rfl

theorem watchEvent_events :
    (m.watchEvent db key o et).events = m.events ++ m.notices db key o et := rfl

end Memdb

/-! ### Resolvers -/

/-- A call of the interface.  An object that is added brings its bits and its `id`. -/
inductive Call
  | add (db : Db) (key : Key) (obj : Object) (bitMap : List Nat) (id : Nat)
  | update (db : Db) (key : Key) (obj : Object)
  | delete (db : Db) (key : Key) (obj : Object)
  deriving DecidableEq, Repr

/-- `AddObjectWithReferences`. -/
def addObjectWithReferences (key : Key) (obj : Object) : Call := .add (.regular obj.kind) key obj [] 0

/-- `UpdateObjectWithReferences`. -/
def updateObjectWithReferences (key : Key) (obj : Object) : Call :=
  .update (.regular obj.kind) key obj

/-- `DeleteObjectWithReferences`. -/
def deleteObjectWithReferences (key : Key) (obj : Object) : Call :=
  .delete (.regular obj.kind) key obj

/-- A call returns a state, or the fuel runs out in a state. -/
abbrev Run := Except Memdb Memdb

/-- The variables of a trigger. -/
structure Trigger where
  md : Memdb
  inFlightObjects : List Key
  pendingObjects : List Event

section Resolver

variable (store : Store) (next : Memdb → Call → Run) (n : Nat)

/-- `addResolver.resolvedCheck`. -/
def addResolvedCheck (m : Memdb) (key : Key) : Bool :=
  (store.references m.clock m.graph key).all fun r => r.2.all fun ref =>
    match m.getObject (memDbKind r.1.dKind) ref with
    | some o => decide (o.resolveState = .resolved)
    | none => false

/-- `deleteResolver.resolvedCheck`. -/
def delResolvedCheck (m : Memdb) (key : Key) : Bool :=
  !(store.referrers m.clock m.graph key).any fun r => r.2.any fun ref =>
    (m.getObject (memDbKind r.1.sKind) ref).isSome

/-- The loop over the referrers of one predicate in `addResolver.trigger`. -/
def addScan (db : Db) : List Key → Trigger → Trigger
  | [], t => t
  | referrer :: referrers, t =>
    match t.md.objects db referrer with
    | none => addScan db referrers t
    | some o =>
      if o.resolveState = .resolved then addScan db referrers t
      else
        let inFlightObjects := t.inFlightObjects ++ [referrer]
        if addResolvedCheck store t.md referrer then
          let et := if o.resolveState = .unresolvedUpdate then .update else .create
          let md := t.md.watchEvent db referrer o et
          addScan db referrers
            { md := md.setObject db referrer { o with resolveState := .resolved, pendingObjs := [] }
              inFlightObjects := inFlightObjects
              pendingObjects := t.pendingObjects ++ o.pendingObjs }
        -- `break L`
        else { t with inFlightObjects := inFlightObjects }

/-- `processReferencesInternal` of `addResolver.trigger`. -/
def addProcess (key : Key) (t : Trigger) : Trigger :=
  (store.referrers t.md.clock t.md.graph key).foldl
    (fun t r => addScan store (t.md.getObjectDB (memDbKind r.1.sKind)) r.2 t)
    { t with md := { t.md with clock := t.md.clock + 1 } }

/-- The loop over `inFlightObjects` of `addResolver.trigger`: what is appended is
processed after all that was there before. -/
def addLoop : Nat → Trigger → Except Memdb Trigger
  | 0, t => .error t.md
  | n + 1, t =>
    match t.inFlightObjects with
    | [] => .ok t
    | key :: keys => addLoop n (addProcess store key { t with inFlightObjects := keys })

/-- `addResolver.trigger`. -/
def addTrigger (m : Memdb) (key : Key) : Run := do
  let t ← addLoop store n ⟨m, [key], []⟩
  t.pendingObjects.foldlM
    (fun m e =>
      if e.eventType = .delete then next m (deleteObjectWithReferences e.key e.obj) else .ok m)
    t.md

/-- The removal of an object by the delete resolver. -/
def Trigger.remove (t : Trigger) (db : Db) (key : Key) (o : ObjState) : Trigger where
  md := (t.md.removeObject db key).watchEvent db key o .delete
  inFlightObjects := t.inFlightObjects ++ [key]
  pendingObjects := t.pendingObjects ++ o.pendingObjs

/-- The loop over the references of one predicate in `deleteResolver.trigger`. -/
def delScan (db : Db) : List Key → Trigger → Trigger
  | [], t => t
  | reference :: references, t =>
    match t.md.objects db reference with
    | none => delScan db references t
    | some o =>
      if o.resolveState = .unresolvedDelete then
        if delResolvedCheck store t.md reference then
          delScan db references (t.remove db reference o)
        -- `break L`
        else t
      else delScan db references t

/-- `processReferencesInternal` of `deleteResolver.trigger`. -/
def delProcess (key : Key) (t : Trigger) : Trigger :=
  (store.references t.md.clock t.md.graph key).foldl
    (fun t r => delScan store (t.md.getObjectDB (memDbKind r.1.dKind)) r.2 t)
    { t with md := { t.md with clock := t.md.clock + 1 } }

/-- The loop over `inFlightObjects` of `deleteResolver.trigger`. -/
def delLoop : Nat → Trigger → Except Memdb Trigger
  | 0, t => .error t.md
  | n + 1, t =>
    match t.inFlightObjects with
    | [] => .ok t
    | key :: keys =>
      let t := delProcess store key { t with inFlightObjects := keys }
      delLoop n { t with md := t.md.clearReferences key }

/-- The queued calls of objects that were removed. -/
def runPending (pending : List Event) (m : Memdb) : Run :=
  pending.foldlM
    (fun m e =>
      match e.eventType with
      | .create => next m (addObjectWithReferences e.key e.obj)
      | .update => next m (updateObjectWithReferences e.key e.obj)
      | .delete => .ok m)
    m

/-- `deleteResolver.trigger`. -/
def delTrigger (m : Memdb) (key : Key) : Run := do
  let t ← delLoop store n ⟨m, [key], []⟩
  runPending next t.pendingObjects t.md

/-- The loop over the keys in `deleteResolver.revaluate`. -/
def revaluateScan (db : Db) : List Key → Trigger → Trigger
  | [], t => t
  | reference :: references, t =>
    match t.md.objects db reference with
    | none => revaluateScan db references t
    | some o =>
      if o.resolveState = .unresolvedDelete ∧ delResolvedCheck store t.md reference then
        revaluateScan db references (t.remove db reference o)
      else revaluateScan db references t

/-- `deleteResolver.revaluate`. -/
def revaluate (kind : Kind) (keys : List Key) (m : Memdb) : Run := do
  let t := revaluateScan store (m.getObjectDB kind) keys ⟨m, [], []⟩
  let m ← t.inFlightObjects.foldlM (fun m key => delTrigger store next n m key) t.md
  runPending next t.pendingObjects m

/-! ### Add, update and delete -/

/-- `updateReferences`: references that are dropped are evaluated again. -/
def updateReferences (m : Memdb) (key : Key) (obj : Object) : Run :=
  let new := m.newNode key obj
  (store.references m.clock m.graph key).foldlM
    (fun m r =>
      revaluate store next n (memDbKind r.1.dKind)
        (r.2.filter fun ref => (⟨key, r.1, ref⟩ : Quad) ∉ new) m)
    { m with graph := updateNode m.graph key new, clock := m.clock + 1 }

/-- `updateObject`.  The object is locked while its references are updated. -/
def updateObject (m : Memdb) (db : Db) (key : Key) (obj : Object) : Run :=
  match m.objects db key with
  | none => .ok m
  | some o =>
    if o.resolveState = .unresolvedDelete then
      .ok (m.setObject db key (o.addToPending ⟨.update, key, obj⟩))
    else do
      let m ← updateReferences store next n m key obj
      match m.objects db key with
      | none => .error m
      | some o =>
        let o := { o with obj := obj }
        let m := m.setObject db key o
        if addResolvedCheck store m key then
          let et := if o.resolveState = .unresolvedAdd then .create else .update
          let m := m.setObject db key { o with resolveState := .resolved }
          addTrigger store next n (m.watchEvent db key o et) key
        else .ok (m.setObject db key { o with resolveState := .unresolvedUpdate })

/-- `addObject`. -/
def addObject (m : Memdb) (db : Db) (key : Key) (obj : Object) (bitMap : List Nat) (id : Nat) :
    Run :=
  match m.objects db key with
  | some o =>
    if o.resolveState = .unresolvedDelete then
      .ok (m.setObject db key (o.addToPending ⟨.create, key, obj⟩))
    else updateObject store next n m db key obj
  | none => do
      let m ← updateReferences store next n m key obj
      let o : ObjState := { obj := obj, bitMap := bitMap, id := id }
      let m := m.setObject db key o
      if addResolvedCheck store m key then
        let m := m.setObject db key { o with resolveState := .resolved }
        addTrigger store next n (m.watchEvent db key o .create) key
      else .ok m

/-- `deleteObject`. -/
def deleteObject (m : Memdb) (db : Db) (key : Key) (obj : Object) : Run :=
  match m.objects db key with
  | none => .ok m
  | some o =>
    if o.resolveState ≠ .resolved then
      .ok (m.setObject db key (o.addToPending ⟨.delete, key, obj⟩))
    else if delResolvedCheck store m key then
      delTrigger store next n ((m.removeObject db key).watchEvent db key o .delete) key
    else .ok (m.setObject db key { o with resolveState := .unresolvedDelete })

/-- A call; the calls that it leads to are made with `next`. -/
def callWith (m : Memdb) : Call → Run
  | .add db key obj bitMap id => addObject store next n m db key obj bitMap id
  | .update db key obj => updateObject store next n m db key obj
  | .delete db key obj => deleteObject store next n m db key obj

end Resolver

/-- A call and all that it leads to. -/
def Memdb.call (store : Store) : Nat → Memdb → Call → Run
  | 0, m, _ => .error m
  | n + 1, m, c => callWith store (Memdb.call store n) n m c

/-- Calls, one after the other. -/
def Memdb.calls (store : Store) (n : Nat) (m : Memdb) (cs : List Call) : Run :=
  cs.foldlM (fun m c => Memdb.call store n m c) m

/-! ### What the checks say -/

section Checks

variable {store : Store} {m : Memdb} {key : Key}

/-- All references of the object are resolved. -/
theorem addResolvedCheck_iff : addResolvedCheck store m key = true ↔ ∀ q ∈ m.graph, q.sub = key →
    ∃ o, m.getObject (memDbKind q.pred.dKind) q.obj = some o ∧ o.resolveState = .resolved := by
  have hlists := store.references_lists m.clock m.graph key
  rw [addResolvedCheck, List.all_eq_true]
  constructor
  · rintro hall ⟨s, p, x⟩ hq rfl
    obtain ⟨l, hl, hx⟩ := (hlists.mem_iff p x).mpr hq
    have hcheck := List.all_eq_true.mp (hall (p, l) hl) x hx
    cases ho : m.getObject (memDbKind p.dKind) x with
    | none => simp [ho] at hcheck
    | some o => exact ⟨o, rfl, by simpa [ho] using hcheck⟩
  · intro hall r hr
    rw [List.all_eq_true]
    intro x hx
    obtain ⟨o, ho, hres⟩ := hall ⟨key, r.1, x⟩ (hlists.mem hr hx) rfl
    simp [ho, hres]

/-- No object that is there references the object. -/
theorem delResolvedCheck_iff : delResolvedCheck store m key = true ↔ ∀ q ∈ m.graph, q.obj = key →
    m.getObject (memDbKind q.pred.sKind) q.sub = none := by
  have hlists := store.referrers_lists m.clock m.graph key
  rw [delResolvedCheck, Bool.not_eq_true', List.any_eq_false]
  constructor
  · rintro hnone ⟨x, p, k⟩ hq rfl
    obtain ⟨l, hl, hx⟩ := (hlists.mem_iff p x).mpr hq
    have hany := List.any_eq_false.mp (Bool.eq_false_iff.mpr (hnone (p, l) hl)) x hx
    exact Option.not_isSome_iff_eq_none.mp hany
  · intro hnone r hr
    rw [Bool.not_eq_true, List.any_eq_false]
    intro x hx
    rw [hnone ⟨x, r.1, key⟩ (hlists.mem hr hx) rfl]
    simp

end Checks

/-! ### Nothing is queued, no reference is dropped -/

section Kept

variable {store : Store} {next : Memdb → Call → Run} {n : Nat}

/-- None of the objects that are evaluated again can be removed. -/
theorem revaluate_of_blocked {kind : Kind} {keys : List Key} {m : Memdb}
    (hblocked : ∀ x ∈ keys, ∀ o, m.getObject kind x = some o → o.resolveState = .unresolvedDelete →
      delResolvedCheck store m x = false) : revaluate store next n kind keys m = .ok m := by
  have hscan : ∀ keys, (∀ x ∈ keys, ∀ o, m.getObject kind x = some o →
      o.resolveState = .unresolvedDelete → delResolvedCheck store m x = false) →
      revaluateScan store (m.getObjectDB kind) keys ⟨m, [], []⟩ = ⟨m, [], []⟩ := by
    intro keys hkeys
    induction keys with
    | nil => rfl
    | cons x keys ih =>
      have htail := ih fun y hy => hkeys y (List.mem_cons_of_mem _ hy)
      cases ho : m.objects (m.getObjectDB kind) x with
      | none => simpa only [revaluateScan, ho] using htail
      | some o =>
        have hnot : ¬ (o.resolveState = .unresolvedDelete ∧ delResolvedCheck store m x) :=
          fun hdel => by simp [hkeys x (List.mem_cons_self ..) o ho hdel.1] at hdel
        simpa only [revaluateScan, ho, if_neg hnot] using htail
  rw [revaluate, hscan keys hblocked]
  rfl

/-- The references are updated and no dropped reference can be removed. -/
theorem updateReferences_of_blocked (store : Store) (next : Memdb → Call → Run) (n : Nat)
    {m : Memdb} {key : Key} {obj : Object}
    (hblocked : ∀ q ∈ m.graph, q.sub = key → q ∉ m.newNode key obj →
      ∀ o, m.getObject (memDbKind q.pred.dKind) q.obj = some o → o.resolveState = .unresolvedDelete →
      delResolvedCheck store
        { m with graph := updateNode m.graph key (m.newNode key obj), clock := m.clock + 1 } q.obj
        = false) :
    updateReferences store next n m key obj
      = .ok { m with graph := updateNode m.graph key (m.newNode key obj), clock := m.clock + 1 } := by
  have hfold : ∀ refs : Refs, (∀ r ∈ refs, ∀ x ∈ r.2, (⟨key, r.1, x⟩ : Quad) ∈ m.graph) →
      refs.foldlM (fun m' r => revaluate store next n (memDbKind r.1.dKind)
          (r.2.filter fun ref => (⟨key, r.1, ref⟩ : Quad) ∉ m.newNode key obj) m')
        { m with graph := updateNode m.graph key (m.newNode key obj), clock := m.clock + 1 }
      = .ok { m with graph := updateNode m.graph key (m.newNode key obj), clock := m.clock + 1 } := by
    intro refs hrefs
    induction refs with
    | nil => rfl
    | cons r refs ih =>
      rw [List.foldlM_cons, revaluate_of_blocked fun x hx => ?_]
      · exact ih fun r hr => hrefs r (List.mem_cons_of_mem _ hr)
      · obtain ⟨hx, hnew⟩ := List.mem_filter.mp hx
        exact hblocked ⟨key, r.1, x⟩ (hrefs r (List.mem_cons_self ..) x hx) rfl (by simpa using hnew)
  exact hfold _ fun r hr x hx => (store.references_lists m.clock m.graph key).mem hr hx

/-- No reference is dropped, so none is evaluated again. -/
theorem updateReferences_of_kept (store : Store) (next : Memdb → Call → Run) (n : Nat) {m : Memdb}
    (key : Key) (obj : Object)
    (hkept : ∀ p x, (⟨key, p, x⟩ : Quad) ∈ m.graph → (⟨key, p, x⟩ : Quad) ∈ m.newNode key obj) :
    updateReferences store next n m key obj
      = .ok { m with graph := updateNode m.graph key (m.newNode key obj), clock := m.clock + 1 } := by
  refine updateReferences_of_blocked store next n ?_
  rintro ⟨s, p, x⟩ hq rfl hnew
  exact absurd (hkept p x hq) hnew

end Kept

/-- `NewMemdb`, after the kinds were registered and enabled. -/
def newMemdb (registeredKinds pushKinds : Kind → Bool) : Memdb where
  objects := fun _ _ => none
  graph := []
  registeredKinds := registeredKinds
  pushKinds := pushKinds
  filter := ⟨[], fun _ => none, fun _ => none⟩
  detached := fun _ => none
  events := []
  clock := 0

end NicSw.MemDb
