/-
What the resolvers do, step by step.

A trigger works off a queue of keys.  What it does to memdb is a sequence of moves: the
add resolver announces unresolved objects that pass the check, the delete resolver
removes objects that wait for their delete and clears the references of removed
ones.  Both collect the calls that were queued at these objects.  A property that
every move keeps is kept by the triggers.  A call makes one step of its own and then
triggers a resolver, or none.

The add resolver takes every object that is not resolved for one that waits to be
announced, so it would also announce an object that waits for its delete.  `Calm` is
the condition that it meets none.
-/
import NicSw.Memdb.View
import NicSw.Lib.Run

namespace NicSw.MemDb

open Memdb

open Relation (ReflTransGen)

/-! ### Moves -/

/-- A move of the add resolver: the state, and the queued calls that were collected.  It
announces objects in states that `A` allows. -/
inductive AddMove (A : ResolveState → Prop) (store : Store) (kind : Key → Kind) :
    Memdb × List Event → Memdb × List Event → Prop
  | announce {m : Memdb} {pending : List Event} {key : Key} {o : ObjState}
      (ho : m.find kind key = some o) (hres : o.resolveState ≠ .resolved) (hA : A o.resolveState)
      (hcheck : addResolvedCheck store m key = true) :
      AddMove A store kind (m, pending)
        ((m.watchEvent (.regular (kind key)) key o
          (if o.resolveState = .unresolvedUpdate then .update else .create)).setObject
            (.regular (kind key)) key { o with resolveState := .resolved, pendingObjs := [] },
          pending ++ o.pendingObjs)
  | clock {m : Memdb} {pending : List Event} (c : Nat) :
      AddMove A store kind (m, pending) ({ m with clock := c }, pending)

/-- A move of the delete resolver. -/
inductive DelMove (store : Store) (kind : Key → Kind) : Memdb × List Event → Memdb × List Event → Prop
  | remove {m : Memdb} {pending : List Event} {key : Key} {o : ObjState}
      (ho : m.find kind key = some o) (hstate : o.resolveState = .unresolvedDelete)
      (hcheck : delResolvedCheck store m key = true) :
      DelMove store kind (m, pending)
        ((m.removeObject (.regular (kind key)) key).watchEvent (.regular (kind key)) key o .delete,
          pending ++ o.pendingObjs)
  | clear {m : Memdb} {pending : List Event} {key : Key} (hnone : m.find kind key = none) :
      DelMove store kind (m, pending) (m.clearReferences key, pending)
  | clock {m : Memdb} {pending : List Event} (c : Nat) :
      DelMove store kind (m, pending) ({ m with clock := c }, pending)

/-- Memdb, and queued calls that were collected. -/
structure Collects (registeredKinds pushKinds : Kind → Bool) (kind : Key → Kind)
    (s : Memdb × List Event) : Prop where
  held : Held registeredKinds pushKinds kind s.1
  pending : ∀ e ∈ s.2, Typed registeredKinds kind e.key e.obj

variable {A : ResolveState → Prop} {o : ObjState} {m' m : Memdb}

section Moves

variable {reg push : Kind → Bool} {kind : Key → Kind} {store : Store}
  {s s' : Memdb × List Event} {m : Memdb} {key : Key}

/-- An object is announced as it is. -/
theorem Stores.announce (h : Held reg push kind m) (ho : m.find kind key = some o) (et : EventType) :
    Stores kind m ((m.watchEvent (.regular (kind key)) key o et).setObject (.regular (kind key)) key
      { o with resolveState := .resolved, pendingObjs := [] }) key
      { o with resolveState := .resolved, pendingObjs := [] } :=
  (Stores.setObject h ho { o with resolveState := .resolved, pendingObjs := [] } rfl).watchEvent
    (.regular (kind key)) key o et

/-- The calls that are queued at an object are collected. -/
theorem Collects.append {pending : List Event} (h : Collects reg push kind (m, pending))
    (ho : m.find kind key = some o) (hm' : Held reg push kind m') :
    Collects reg push kind (m', pending ++ o.pendingObjs) where
  held := hm'
  pending := fun e he => by
    rcases List.mem_append.mp he with he | he
    · exact h.pending e he
    · obtain ⟨hkey, hte⟩ := (h.held.typed _ key o ho).2.pending e he
      exact hkey ▸ hte

theorem AddMove.collects (hmove : AddMove A store kind s s') (h : Collects reg push kind s) :
    Collects reg push kind s' := by
  cases hmove with
  | @announce m pending key o ho _ _ _ =>
    have ht := (h.held.typed _ key o ho).2
    exact h.append ho (h.held.stores (.announce h.held ho _) ⟨ht.obj, by simp⟩)
  | clock c => exact ⟨h.held.clock c, h.pending⟩

theorem DelMove.collects (hmove : DelMove store kind s s') (h : Collects reg push kind s) :
    Collects reg push kind s' := by
  cases hmove with
  | remove ho hstate hcheck => exact h.append ho (h.held.removes .delete)
  | clear hnone => exact ⟨h.held.clears hnone, h.pending⟩
  | clock c => exact ⟨h.held.clock c, h.pending⟩

end Moves

/-! ### The add resolver -/

/-- The reference is to a resolved object. -/
def Memdb.isResolved (m : Memdb) (q : Quad) : Bool :=
  match m.getObject (memDbKind q.pred.dKind) q.obj with
  | some o => decide (o.resolveState = .resolved)
  | none => false

/-- No object that waits for its delete references the object, or an unresolved one. -/
def Calm (m : Memdb) (key : Key) : Prop :=
  ∀ q ∈ m.graph, ∀ o ∈ m.getObject (memDbKind q.pred.sKind) q.sub,
    o.resolveState = .unresolvedDelete → q.obj ≠ key ∧ m.isResolved q

instance (m : Memdb) (key : Key) : Decidable (Calm m key) := inferInstanceAs (Decidable (∀ q ∈ m.graph,
  ∀ o ∈ m.getObject (memDbKind q.pred.sKind) q.sub, o.resolveState = .unresolvedDelete →
    q.obj ≠ key ∧ m.isResolved q))

/-- The object was resolved, or it was unresolved when the trigger started. -/
def Woken (kind : Key → Kind) (m : Memdb) (key z : Key) : Prop :=
  z = key ∨ ∃ o, m.find kind z = some o ∧ o.resolveState ≠ .resolved

/-- The unresolved objects that reference woken ones are in states that `A` allows. -/
def Wakes (A : ResolveState → Prop) (kind : Key → Kind) (m : Memdb) (key : Key) : Prop :=
  ∀ q ∈ m.graph, Woken kind m key q.obj → ∀ o, m.find kind q.sub = some o →
    o.resolveState ≠ .resolved → A o.resolveState

/-- The object of a key is stored as a resolved one. -/
theorem Calm.stores {reg push : Kind → Bool} {kind : Key → Kind} {key : Key} (hcalm : Calm m key)
    (hk : Kinds push kind) (h : Held reg push kind m) (hs : Stores kind m m' key o)
    (hres : o.resolveState = .resolved) : Wakes (· ≠ .unresolvedDelete) kind m' key := by
  intro q hq hwoken os hos hunres hdel
  have hsub : q.sub ≠ key := by
    intro heq
    rw [heq] at hos
    cases hs.find_self.symm.trans hos
    exact hunres hres
  rw [hs.find_of_ne hsub] at hos
  rw [hs.others q hsub] at hq
  have hnode := (h.graph q.sub os hos q rfl).mp hq
  have ht := (h.typed _ q.sub os hos).2.obj
  rw [← h.registered] at ht
  obtain ⟨hne, hresolved⟩ := hcalm q hq os ((getObject_sKind hk h.pushed ht hnode).trans hos) hdel
  rw [Memdb.isResolved, getObject_dKind hk h.pushed ht hnode] at hresolved
  rcases hwoken with heq | ⟨ox, hox, hunresx⟩
  · exact hne heq
  · rw [hs.find_of_ne hne] at hox
    rw [hox] at hresolved
    exact hunresx (of_decide_eq_true hresolved)

/-- A trigger of the add resolver on its way, `m` being the state where it started. -/
structure Reached (A : ResolveState → Prop) (store : Store) (kind : Key → Kind) (m : Memdb)
    (key : Key) (t : Trigger) : Prop where
  moves : ReflTransGen (AddMove A store kind) (m, []) (t.md, t.pendingObjects)
  queue : ∀ z ∈ t.inFlightObjects, Woken kind m key z

section Add

variable {reg push : Kind → Bool} {kind : Key → Kind} {m : Memdb} {key : Key}
  {t : Trigger} {store : Store} {s s' : Memdb × List Event}

theorem AddMove.graph (hmove : AddMove A store kind s s') : s'.1.graph = s.1.graph := by
  cases hmove <;> rfl

/-- No object becomes unresolved. -/
theorem AddMove.old (hmove : AddMove A store kind s s') {k : Key} (ho : s'.1.find kind k = some o)
    (hres : o.resolveState ≠ .resolved) : s.1.find kind k = some o := by
  cases hmove with
  | announce _ _ _ _ =>
    rw [Memdb.find, Memdb.setObject_objects, ite_eq_iff] at ho
    rcases ho with ⟨-, heq⟩ | ⟨-, ho⟩
    · rw [← Option.some.inj heq] at hres
      exact absurd rfl hres
    · exact ho
  | clock c => exact ho

theorem Reached.graph (hr : Reached A store kind m key t) : t.md.graph = m.graph :=
  steps_keep (I := fun s => s.1.graph = m.graph) (fun _ _ hmove h => hmove.graph.trans h) hr.moves rfl

theorem Reached.old (hr : Reached A store kind m key t) {k : Key} (ho : t.md.find kind k = some o)
    (hres : o.resolveState ≠ .resolved) : m.find kind k = some o := by
  refine steps_keep (I := fun s => ∀ k o, s.1.find kind k = some o → o.resolveState ≠ .resolved →
    m.find kind k = some o) ?_ hr.moves (fun _ _ ho _ => ho) k o ho hres
  intro s s' hmove h k o ho hres
  exact h k o (hmove.old ho hres) hres

theorem AddMove.fresh (hmove : AddMove A store kind s s')
    (h : Collects reg push kind s) (hfresh : Fresh kind [] s.1) :
    Fresh kind [] s'.1 := by
  cases hmove with
  | announce ho _ _ _ => exact hfresh.stores (.announce h.held ho _) (by simp)
  | clock c => exact { hfresh with }

theorem Reached.fresh (hr : Reached A store kind m key t) (h : Held reg push kind m)
    (hfresh : Fresh kind [] m) : Fresh kind [] t.md := by
  refine (steps_keep (I := fun s => Collects reg push kind s ∧ Fresh kind [] s.1) ?_
    hr.moves ⟨⟨h, by simp⟩, hfresh⟩).2
  rintro s s' hmove ⟨hs, hf⟩
  exact ⟨hmove.collects hs, hmove.fresh hs hf⟩

theorem Reached.collects (hr : Reached A store kind m key t) (h : Held reg push kind m) :
    Collects reg push kind (t.md, t.pendingObjects) :=
  steps_keep (fun _ _ hmove => hmove.collects) hr.moves ⟨h, by simp⟩

variable (store)

/-- **The loop over referrers makes moves.** -/
theorem Reached.addScan (h : Held reg push kind m) (hwakes : Wakes A kind m key)
    (db : Db) (l : List Key) (hl : ∀ r ∈ l, ∃ q ∈ m.graph, q.sub = r ∧ Woken kind m key q.obj)
    (hr : Reached A store kind m key t) : Reached A store kind m key (MemDb.addScan store db l t) := by
  induction l generalizing t with
  | nil => exact hr
  | cons r l ih =>
    have htail := fun x hx => hl x (List.mem_cons_of_mem _ hx)
    rw [MemDb.addScan]
    cases ho : t.md.objects db r with
    | none => exact ih htail hr
    | some o =>
      obtain ⟨rfl, -⟩ := (hr.collects h).held.typed db r o ho
      by_cases hres : o.resolveState = .resolved
      · simp only [if_pos hres]
        exact ih htail hr
      simp only [if_neg hres]
      have hqueue : ∀ z ∈ t.inFlightObjects ++ [r], Woken kind m key z := by
        intro z hz
        rcases List.mem_append.mp hz with hz | hz
        · exact hr.queue z hz
        · exact .inr ⟨o, List.mem_singleton.mp hz ▸ hr.old ho hres, hres⟩
      by_cases hcheck : addResolvedCheck store t.md r = true
      · rw [if_pos hcheck]
        obtain ⟨q, hq, rfl, hwoken⟩ := hl r (List.mem_cons_self ..)
        have hA := hwakes q hq hwoken o (hr.old ho hres) hres
        exact ih htail ⟨hr.moves.tail (.announce ho hres hA hcheck), hqueue⟩
      · rw [if_neg hcheck]
        exact ⟨hr.moves, hqueue⟩

theorem Reached.addProcess (h : Held reg push kind m) (hwakes : Wakes A kind m key)
    {z : Key} (hz : Woken kind m key z) (hr : Reached A store kind m key t) :
    Reached A store kind m key (MemDb.addProcess store z t) := by
  have hfold : ∀ (refs : Refs) (t : Trigger),
      (∀ r ∈ refs, ∀ x ∈ r.2, ∃ q ∈ m.graph, q.sub = x ∧ Woken kind m key q.obj) →
      Reached A store kind m key t → Reached A store kind m key (refs.foldl
        (fun t r => MemDb.addScan store (t.md.getObjectDB (memDbKind r.1.sKind)) r.2 t) t) := by
    intro refs
    induction refs with
    | nil => exact fun t _ hr => hr
    | cons r refs ih =>
      intro t hrefs hr
      exact ih _ (fun r hr => hrefs r (List.mem_cons_of_mem _ hr))
        (hr.addScan store h hwakes _ r.2 (hrefs r (List.mem_cons_self ..)))
  refine hfold _ _ (fun r hmem x hx => ?_) ⟨hr.moves.tail (.clock _), hr.queue⟩
  have hlists := store.referrers_lists t.md.clock t.md.graph z
  exact ⟨⟨x, r.1, z⟩, hr.graph ▸ hlists.mem hmem hx, rfl, hz⟩

/-- What a trigger leads to, where it ends and where its fuel runs out. -/
def LoopEnds (post : Trigger → Prop) (stop : Memdb → Prop) : Except Memdb Trigger → Prop
  | .ok t => post t
  | .error m => stop m

theorem Reached.addLoop (h : Held reg push kind m) (hwakes : Wakes A kind m key)
    (n : Nat) (hr : Reached A store kind m key t) :
    LoopEnds (Reached A store kind m key)
      (fun m' => ∃ pending, ReflTransGen (AddMove A store kind) (m, []) (m', pending))
      (MemDb.addLoop store n t) := by
  induction n generalizing t with
  | zero => exact ⟨_, hr.moves⟩
  | succ n ih =>
    rw [MemDb.addLoop]
    cases hq : t.inFlightObjects with
    | nil => exact hr
    | cons z keys =>
      have hz := hr.queue z (hq ▸ List.mem_cons_self ..)
      exact ih (Reached.addProcess store h hwakes hz
        ⟨hr.moves, fun x hx => hr.queue x (hq ▸ List.mem_cons_of_mem _ hx)⟩)

end Add

/-! ### The delete resolver -/

/-- A trigger of the delete resolver on its way: the references of `stale` are to be cleared. -/
structure Removing (store : Store) (kind : Key → Kind) (m : Memdb) (stale : List Key) (t : Trigger) :
    Prop where
  moves : ReflTransGen (DelMove store kind) (m, []) (t.md, t.pendingObjects)
  fresh : Fresh kind stale t.md

section Delete

variable {reg push : Kind → Bool} {kind : Key → Kind} {m : Memdb} {key : Key}
  {t : Trigger} {store : Store} {busy : List Key}

theorem Removing.collects {stale : List Key} (hr : Removing store kind m stale t)
    (h : Held reg push kind m) :
    Collects reg push kind (t.md, t.pendingObjects) :=
  steps_keep (fun _ _ hmove => hmove.collects) hr.moves ⟨h, by simp⟩

variable (store)

/-- **The loop over references makes moves.** -/
theorem Removing.delScan (h : Held reg push kind m) (db : Db) (l : List Key)
    (hr : Removing store kind m (busy ++ t.inFlightObjects) t) :
    Removing store kind m (busy ++ (MemDb.delScan store db l t).inFlightObjects)
      (MemDb.delScan store db l t) := by
  induction l generalizing t with
  | nil => exact hr
  | cons r l ih =>
    rw [MemDb.delScan]
    cases ho : t.md.objects db r with
    | none => exact ih hr
    | some o =>
      obtain ⟨rfl, -⟩ := (hr.collects h).held.typed db r o ho
      dsimp only
      split_ifs with hdel hcheck
      · refine ih ⟨hr.moves.tail (.remove ho hdel hcheck), ?_⟩
        show Fresh kind (busy ++ (t.inFlightObjects ++ [r])) _
        rw [← List.append_assoc]
        exact hr.fresh.removes .delete
      · exact hr
      · exact ih hr

theorem Removing.delProcess (h : Held reg push kind m) (z : Key)
    (hr : Removing store kind m (busy ++ t.inFlightObjects) t) :
    Removing store kind m (busy ++ (MemDb.delProcess store z t).inFlightObjects)
      (MemDb.delProcess store z t) := by
  have hfold : ∀ (refs : Refs) (t : Trigger), Removing store kind m (busy ++ t.inFlightObjects) t →
      Removing store kind m (busy ++ (refs.foldl
        (fun t r => MemDb.delScan store (t.md.getObjectDB (memDbKind r.1.dKind)) r.2 t)
          t).inFlightObjects) (refs.foldl
        (fun t r => MemDb.delScan store (t.md.getObjectDB (memDbKind r.1.dKind)) r.2 t) t) := by
    intro refs
    induction refs with
    | nil => exact fun t hr => hr
    | cons r refs ih => exact fun t hr => ih _ (hr.delScan store h _ r.2)
  exact hfold _ { t with md := { t.md with clock := t.md.clock + 1 } }
    ⟨hr.moves.tail (.clock _), ⟨hr.fresh.absent, hr.fresh.clear⟩⟩

theorem Removing.delLoop (h : Held reg push kind m) (n : Nat)
    (hr : Removing store kind m t.inFlightObjects t) :
    LoopEnds (Removing store kind m [])
      (fun m' => ∃ pending, ReflTransGen (DelMove store kind) (m, []) (m', pending))
      (MemDb.delLoop store n t) := by
  induction n generalizing t with
  | zero => exact ⟨_, hr.moves⟩
  | succ n ih =>
    rw [MemDb.delLoop]
    cases hq : t.inFlightObjects with
    | nil =>
      rw [hq] at hr
      exact hr
    | cons z keys =>
      rw [hq] at hr
      have hr' : Removing store kind m ([z] ++ keys) { t with inFlightObjects := keys } :=
        { hr with }
      have hz := Removing.delProcess store h z (t := { t with inFlightObjects := keys }) hr'
      exact ih ⟨hz.moves.tail (.clear (hz.fresh.absent z (List.mem_cons_self ..))), hz.fresh.clears⟩

end Delete

/-! ### Calls -/

/-- The reference is to an object that waits for its delete. -/
def Memdb.isDelUnResolved (m : Memdb) (q : Quad) : Bool :=
  match m.getObject (memDbKind q.pred.dKind) q.obj with
  | some o => decide (o.resolveState = .unresolvedDelete)
  | none => false

/-- What is dropped and waits for its delete is still referenced by another object. -/
def Guards (m : Memdb) (key : Key) (obj : Object) : Prop :=
  ∀ q ∈ m.graph, q.sub = key → q.obj ∉ obj.references m.registeredKinds → m.isDelUnResolved q →
    ∃ q' ∈ m.graph, q'.sub ≠ key ∧ q'.obj = q.obj ∧
      (m.getObject (memDbKind q'.pred.sKind) q'.sub).isSome

instance (m : Memdb) (key : Key) (obj : Object) : Decidable (Guards m key obj) :=
  inferInstanceAs (Decidable (∀ q ∈ m.graph, _ → _ → _ → ∃ q' ∈ m.graph, _))

/-- The new version of an object that a call stores, the event that announces it, and its state
while it waits.  `C` holds of the old version. -/
inductive Version (C : Option ObjState → Prop) (kind : Key → Kind) (m : Memdb) (key : Key)
    (obj : Object) : ObjState → EventType → ResolveState → Prop
  | add (bitMap : List Nat) (id : Nat) (hnone : m.find kind key = none) (hC : C none) :
      Version C kind m key obj { obj := obj, bitMap := bitMap, id := id } .create .unresolvedAdd
  | update {o : ObjState} (ho : m.find kind key = some o) (hC : C (some o)) :
      Version C kind m key obj { o with obj := obj }
        (if o.resolveState = .unresolvedAdd then .create else .update) .unresolvedUpdate

/-- The resolver that a call triggers. -/
inductive Triggers
  | none
  | add
  | delete

/-- What the resolver does. -/
def Triggers.run (store : Store) (next : Memdb → Call → Run) (n : Nat) (m : Memdb) (key : Key) :
    Triggers → Run
  | .none => .ok m
  | .add => addTrigger store next n m key
  | .delete => delTrigger store next n m key

/-- **What a call does** before the resolvers. -/
inductive CallStep (C : Option ObjState → Prop) (store : Store) (kind : Key → Kind) (m : Memdb)
    (key : Key) (obj : Object) : Memdb → Triggers → Prop
  | same : CallStep C store kind m key obj m .none
  | queue {o : ObjState} {et : EventType} (ho : m.find kind key = some o) :
      CallStep C store kind m key obj
        (m.setObject (.regular (kind key)) key (o.addToPending ⟨et, key, obj⟩)) .none
  | waits {o : ObjState} (ho : m.find kind key = some o) (hres : o.resolveState = .resolved) :
      CallStep C store kind m key obj
        (m.setObject (.regular (kind key)) key { o with resolveState := .unresolvedDelete }) .none
  | remove {o : ObjState} (ho : m.find kind key = some o) (hres : o.resolveState = .resolved)
      (hcheck : delResolvedCheck store m key = true) :
      CallStep C store kind m key obj
        ((m.removeObject (.regular (kind key)) key).watchEvent (.regular (kind key)) key o .delete)
        .delete
  | announce {o : ObjState} {et : EventType} {s : ResolveState} {m' : Memdb}
      (hv : Version C kind m key obj o et s) (hs : Stores kind m m' key o)
      (hevents : m'.events = m.events) (hcheck : addResolvedCheck store m' key = true) :
      CallStep C store kind m key obj
        ((m'.setObject (.regular (kind key)) key { o with resolveState := .resolved }).watchEvent
          (.regular (kind key)) key o et) .add
  | pending {o : ObjState} {et : EventType} {s : ResolveState} {m' m'' : Memdb}
      (hv : Version C kind m key obj o et s) (hs : Stores kind m m' key o)
      (hcheck : addResolvedCheck store m' key ≠ true)
      (hs' : Stores kind m m'' key { o with resolveState := s }) (hevents : m''.events = m.events) :
      CallStep C store kind m key obj m'' .none

section Calls

variable {reg push : Kind → Bool} {kind : Key → Kind} {C : Option ObjState → Prop} {key : Key}
  {obj : Object} (store : Store) {next : Memdb → Call → Run} (n : Nat)

/-- No reference that an update drops is removed. -/
theorem updateReferences_of_guards (hk : Kinds push kind) (h : Held reg push kind m)
    (ho : m.find kind key = some o) (ht : Typed reg kind key obj)
    (hguards : Guards m key obj) :
    updateReferences store next n m key obj
      = .ok { m with graph := updateNode m.graph key (m.newNode key obj), clock := m.clock + 1 } := by
  refine updateReferences_of_blocked store next n fun q hq hsub hnew ox hox hdel => ?_
  rw [Bool.eq_false_iff]
  intro hcheck
  have hnone := delResolvedCheck_iff.mp hcheck
  by_cases href : q.obj ∈ obj.references m.registeredKinds
  · -- the object references it through another field
    obtain ⟨q', hq', hobj⟩ := (mem_references (k := key)).mp href
    have hgone : m.getObject (memDbKind q'.pred.sKind) q'.sub = none :=
      hnone q' (List.mem_append_right _ hq') hobj
    rw [← h.registered] at ht
    rw [getObject_sKind hk h.pushed ht hq'] at hgone
    cases ho.symm.trans hgone
  · have hpending : m.isDelUnResolved q = true := by simp [isDelUnResolved, hox, hdel]
    obtain ⟨q', hq', hne, hobj, hsome⟩ := hguards q hq hsub href hpending
    have hmem : q' ∈ updateNode m.graph key (m.newNode key obj) :=
      List.mem_append_left _ (List.mem_filter.mpr ⟨hq', by simpa using hne⟩)
    have hgone : m.getObject (memDbKind q'.pred.sKind) q'.sub = none := hnone q' hmem hobj
    rw [hgone] at hsome
    cases hsome

/-- A new version whose references are resolved passes the check. -/
theorem check_of_resolved {m' : Memdb} {o' : ObjState} (ho : m.find kind key = some o)
    (hs : Stores kind m m' key o') (hstate : o'.resolveState = o.resolveState)
    (hres : ∀ q ∈ m.newNode key o'.obj, m.isResolved q) : addResolvedCheck store m' key = true := by
  refine addResolvedCheck_iff.mpr fun q hq hsub => ?_
  have hq := hres q ((hs.self q hsub).mp hq)
  unfold isResolved at hq
  cases hx : m.getObject (memDbKind q.pred.dKind) q.obj with
  | none => simp [hx] at hq
  | some ox =>
    have hox : ox.resolveState = .resolved := by simpa [hx] using hq
    have hdb : m'.getObjectDB (memDbKind q.pred.dKind) = m.getObjectDB (memDbKind q.pred.dKind) := by
      rw [getObjectDB, getObjectDB, hs.pushKinds]
    rw [getObject, hdb, hs.objects]
    split_ifs with heq
    · -- the object references itself
      rw [getObject, heq.1, heq.2] at hx
      cases ho.symm.trans hx
      exact ⟨o', rfl, hstate.trans hox⟩
    · exact ⟨ox, hx, hox⟩

theorem Version.typed {s : ResolveState} {et : EventType} (hv : Version C kind m key obj o et s)
    (h : Held reg push kind m) (ht : Typed reg kind key obj) : TypedState reg kind key o := by
  cases hv with
  | add => exact ⟨ht, by simp⟩
  | update ho => exact ⟨ht, (h.typed _ key _ ho).2.pending⟩

section

variable {Q : Run → Prop}
  (hQ : ∀ m' t, CallStep C store kind m key obj m' t → Q (t.run store next n m' key))
include hQ

theorem deleteObject_of_step : Q (deleteObject store next n m (.regular (kind key)) key obj) := by
  rw [deleteObject]
  cases ho : m.objects (.regular (kind key)) key with
  | none => exact hQ m .none .same
  | some o =>
    dsimp only
    split_ifs with hres hcheck
    · exact hQ _ .none (.queue ho)
    · exact hQ _ .delete (.remove ho (not_not.mp hres) hcheck)
    · exact hQ _ .none (.waits ho (not_not.mp hres))

variable (hk : Kinds push kind) (h : Held reg push kind m) (ht : Typed reg kind key obj)
  (hguards : ∀ o, C (some o) → Guards m key obj)
  (hmeets : ∀ o ∈ m.find kind key, o.resolveState ≠ .unresolvedDelete → C (some o))
include hk h ht hguards hmeets

theorem updateObject_of_step : Q (updateObject store next n m (.regular (kind key)) key obj) := by
  rw [updateObject]
  cases ho : m.objects (.regular (kind key)) key with
  | none => exact hQ m .none .same
  | some o =>
    by_cases hdel : o.resolveState = .unresolvedDelete
    · simp only [if_pos hdel]
      exact hQ _ .none (.queue ho)
    have hC := hmeets o ho hdel
    simp only [if_neg hdel, updateReferences_of_guards store n hk h ho ht (hguards o hC), bind,
      Except.bind, ho]
    have hs := Stores.updateNode kind m key { o with obj := obj } (m.clock + 1)
    by_cases hcheck : addResolvedCheck store (({ m with
        graph := updateNode m.graph key (m.newNode key obj), clock := m.clock + 1 } :
        Memdb).setObject (.regular (kind key)) key { o with obj := obj }) key = true
    · rw [if_pos hcheck]
      exact hQ _ .add (.announce (.update ho hC) hs rfl hcheck)
    · rw [if_neg hcheck]
      exact hQ _ .none (.pending (.update ho hC) hs hcheck (hs.again _ rfl) rfl)

theorem addObject_of_step (hfresh : Fresh kind [] m) (hnew : m.find kind key = none → C none)
    (bitMap : List Nat) (id : Nat) :
    Q (addObject store next n m (.regular (kind key)) key obj bitMap id) := by
  rw [addObject]
  cases ho : m.objects (.regular (kind key)) key with
  | some o =>
    by_cases hdel : o.resolveState = .unresolvedDelete
    · simp only [if_pos hdel]
      exact hQ _ .none (.queue ho)
    · simp only [if_neg hdel]
      exact updateObject_of_step store n hQ hk h ht hguards hmeets
  | none =>
    -- the object has no references in the graph yet
    have hrefs := updateReferences_of_kept store next n (m := m) key obj
      fun p x hq => absurd rfl (hfresh.clear key ho (by simp) _ hq)
    simp only [hrefs, bind, Except.bind]
    have hv : Version _ kind m key obj _ _ _ := .add bitMap id ho (hnew ho)
    have hs := Stores.updateNode kind m key { obj := obj, bitMap := bitMap, id := id } (m.clock + 1)
    split_ifs with hcheck
    · exact hQ _ .add (.announce hv hs rfl hcheck)
    · exact hQ _ .none (.pending hv hs hcheck hs rfl)

end

end Calls

/-! ### Runs that stop -/

/-- A call that stops at the first call, also of those that it leads to, that does not meet
a condition. -/
def Memdb.callIf (P : Memdb → Call → Prop) [∀ m c, Decidable (P m c)] (store : Store) :
    Nat → Memdb → Call → Run
  | 0, m, _ => .error m
  | n + 1, m, c => if P m c then callWith store (Memdb.callIf P store n) n m c else .error m

/-- Calls, one after the other, up to the first that does not meet the condition. -/
def Memdb.callsIf (P : Memdb → Call → Prop) [∀ m c, Decidable (P m c)] (store : Store) (n : Nat)
    (m : Memdb) (cs : List Call) : Run :=
  cs.foldlM (fun m c => Memdb.callIf P store n m c) m

/-- The state that a run ends in, also if the fuel runs out. -/
def Run.final : Run → Memdb
  | .ok m => m
  | .error m => m

/-- A call with an object of the right kinds. -/
inductive TypedCall (registeredKinds : Kind → Bool) (kind : Key → Kind) : Call → Prop
  | add {k : Key} {obj : Object} (h : Typed registeredKinds kind k obj) :
      TypedCall registeredKinds kind (addObjectWithReferences k obj)
  | update {k : Key} {obj : Object} (h : Typed registeredKinds kind k obj) :
      TypedCall registeredKinds kind (updateObjectWithReferences k obj)
  | delete {k : Key} {obj : Object} (h : Typed registeredKinds kind k obj) :
      TypedCall registeredKinds kind (deleteObjectWithReferences k obj)

/-- What holds between calls: no reference is stale, and `J`. -/
structure Between (registeredKinds pushKinds : Kind → Bool) (kind : Key → Kind)
    (J : Memdb → Prop) (m : Memdb) : Prop where
  held : Held registeredKinds pushKinds kind m
  fresh : Fresh kind [] m
  keeps : J m

/-- A run keeps `J`, also where it stops. -/
def RunKeeps (registeredKinds pushKinds : Kind → Bool) (kind : Key → Kind) (J : Memdb → Prop) :
    Run → Prop
  | .ok m => Between registeredKinds pushKinds kind J m
  | .error m => J m

section Runs

variable {reg push : Kind → Bool} {kind : Key → Kind} {J : Memdb → Prop} {key : Key}

theorem RunKeeps.final {r : Run} (h : RunKeeps reg push kind J r) : J r.final := by
  cases r with
  | ok m => exact h.keeps
  | error m => exact h

theorem RunKeeps.foldlM {α : Type*} {f : Memdb → α → Run} (l : List α)
    (hf : ∀ a ∈ l, ∀ m, Between reg push kind J m → RunKeeps reg push kind J (f m a))
    (h : Between reg push kind J m) : RunKeeps reg push kind J (l.foldlM f m) := by
  induction l generalizing m with
  | nil => exact h
  | cons a l ih =>
    have ha := hf a (List.mem_cons_self ..) m h
    rw [List.foldlM_cons]
    cases heq : f m a with
    | error m' =>
      rw [heq] at ha
      exact ha
    | ok m' =>
      rw [heq] at ha
      exact ih (fun b hb => hf b (List.mem_cons_of_mem _ hb)) ha

section Triggers

variable (store : Store) (n : Nat) {next : Memdb → Call → Run}
  (hnext : ∀ m c, Between reg push kind J m → TypedCall reg kind c →
    RunKeeps reg push kind J (next m c))
include hnext

/-- The add resolver keeps what its moves keep. -/
theorem addTrigger_keeps (hmove : ∀ s s', AddMove A store kind s s' → J s.1 → J s'.1)
    (h : Between reg push kind J m) (hwakes : Wakes A kind m key) :
    RunKeeps reg push kind J (addTrigger store next n m key) := by
  have hloop := Reached.addLoop store h.held hwakes n (t := ⟨m, [key], []⟩)
    ⟨.refl, fun z hz => .inl (List.mem_singleton.mp hz)⟩
  have hkept : ∀ {s}, ReflTransGen (AddMove A store kind) (m, []) s → J s.1 := fun hmoves =>
    steps_keep (I := fun s => J s.1) hmove hmoves h.keeps
  rw [addTrigger]
  cases heq : addLoop store n ⟨m, [key], []⟩ with
  | error m' =>
    rw [heq] at hloop
    obtain ⟨pending, hmoves⟩ := hloop
    exact hkept hmoves
  | ok t =>
    rw [heq] at hloop
    have hcol := hloop.collects h.held
    refine RunKeeps.foldlM _ (fun e he m hm => ?_)
      ⟨hcol.held, hloop.fresh h.held h.fresh, hkept hloop.moves⟩
    split_ifs
    · exact hnext m _ hm (.delete (hcol.pending e he))
    · exact hm

/-- The delete resolver keeps what its moves keep. -/
theorem delTrigger_keeps (hmove : ∀ s s', DelMove store kind s s' → J s.1 → J s'.1)
    (h : Held reg push kind m) (hfresh : Fresh kind [key] m) (hJ : J m) :
    RunKeeps reg push kind J (delTrigger store next n m key) := by
  have hloop := Removing.delLoop store h n (t := ⟨m, [key], []⟩) ⟨.refl, hfresh⟩
  have hkept : ∀ {s}, ReflTransGen (DelMove store kind) (m, []) s → J s.1 := fun hmoves =>
    steps_keep (I := fun s => J s.1) hmove hmoves hJ
  rw [delTrigger]
  cases heq : delLoop store n ⟨m, [key], []⟩ with
  | error m' =>
    rw [heq] at hloop
    obtain ⟨pending, hmoves⟩ := hloop
    exact hkept hmoves
  | ok t =>
    rw [heq] at hloop
    have hcol := hloop.collects h
    refine RunKeeps.foldlM _ (fun e he m hm => ?_) ⟨hcol.held, hloop.fresh, hkept hloop.moves⟩
    cases e.eventType with
    | create => exact hnext m _ hm (.add (hcol.pending e he))
    | update => exact hnext m _ hm (.update (hcol.pending e he))
    | delete => exact hm

/-- **A call keeps what its step and the moves of the resolvers keep.** -/
theorem CallStep.keeps {C : Option ObjState → Prop} {t : Triggers} {obj : Object}
    (hstep : CallStep C store kind m key obj m' t) (ht : Typed reg kind key obj)
    (hadd : ∀ s s', AddMove A store kind s s' → J s.1 → J s'.1)
    (hdel : ∀ s s', DelMove store kind s s' → J s.1 → J s'.1)
    (h : Between reg push kind J m) (hJ : J m') (hwakes : t = .add → Wakes A kind m' key) :
    RunKeeps reg push kind J (t.run store next n m' key) := by
  have hstored : ∀ {o : ObjState}, Stores kind m m' key o → TypedState reg kind key o →
      Between reg push kind J m' := fun hs hto =>
    ⟨h.held.stores hs hto, h.fresh.stores hs (by simp), hJ⟩
  cases hstep with
  | same => exact h
  | queue ho =>
    have hto := (h.held.typed _ key _ ho).2
    exact hstored (Stores.setObject h.held ho _ rfl) (hto.addToPending ht _)
  | @waits o ho hres =>
    have hto := (h.held.typed _ key o ho).2
    exact hstored (Stores.setObject h.held ho { o with resolveState := .unresolvedDelete } rfl)
      { hto with }
  | remove ho hres hcheck =>
    exact delTrigger_keeps store n hnext hdel (h.held.removes .delete) (h.fresh.removes .delete) hJ
  | @announce o et s m' hv hs hevents hcheck =>
    have hs' := (hs.again { o with resolveState := .resolved } rfl).watchEvent (.regular (kind key))
      key o et
    exact addTrigger_keeps store n hnext hadd (hstored hs' { hv.typed h.held ht with }) (hwakes rfl)
  | pending hv hs hcheck hs' hevents => exact hstored hs' { hv.typed h.held ht with }

end Triggers

/-- **Calls keep what a single one keeps**, if all of them, also those that were queued,
meet the condition. -/
theorem calls_keep {P : Memdb → Call → Prop} [∀ m c, Decidable (P m c)] (store : Store)
    (hcall : ∀ n next m c, (∀ m c, Between reg push kind J m → TypedCall reg kind c →
        RunKeeps reg push kind J (next m c)) → Between reg push kind J m → TypedCall reg kind c →
      P m c → RunKeeps reg push kind J (callWith store next n m c))
    (hnew : J (newMemdb reg push)) (n : Nat) (cs : List Call)
    (hcs : ∀ c ∈ cs, TypedCall reg kind c)
    (hmeet : (newMemdb reg push).callsIf P store n cs = (newMemdb reg push).calls store n cs) :
    J ((newMemdb reg push).calls store n cs).final := by
  have hone : ∀ n m c, Between reg push kind J m → TypedCall reg kind c →
      RunKeeps reg push kind J (m.callIf P store n c) := by
    intro n
    induction n with
    | zero => exact fun m c h _ => h.keeps
    | succ n ih =>
      intro m c h hc
      rw [Memdb.callIf]
      split_ifs with hmeets
      · exact hcall n _ m c ih h hc hmeets
      · exact h.keeps
  have hheld : Held reg push kind (newMemdb reg push) := by
    refine ⟨rfl, rfl, fun db k o ho => ?_, fun k o ho => ?_⟩
    · cases ho
    · cases ho
  rw [← hmeet]
  exact (RunKeeps.foldlM cs (fun c hc m h => hone n m c h (hcs c hc))
    ⟨hheld, ⟨by simp, fun k _ _ q hq => by cases hq⟩, hnew⟩).final

end Runs

end NicSw.MemDb
