/-
Watchers see a closed world, as long as updates do not drop references too early.

`updateObject` puts the new references into the graph before the new version is
shown.  References that are dropped lose their protection at that point: one that
waits for its delete is removed at once, and the others may be removed while the new
version is still unresolved.  `Meets` is the condition that this does not happen; it
is asked of every call when it is made, also of the calls that were queued.
-/
import NicSw.Memdb.Moves

namespace NicSw.MemDb

open Memdb

/-! ### Moves -/

section Moves

variable {reg push : Kind → Bool} {kind : Key → Kind} {store : Store} {s s' : Memdb × List Event}
  (hk : Kinds push kind)
include hk

theorem AddMove.view {A : ResolveState → Prop} (hmove : AddMove A store kind s s')
    (h : View reg push kind s.1) : View reg push kind s'.1 := by
  cases hmove with
  | @announce m pending key o ho hres hA hcheck =>
    have ht := (h.typed _ key o ho).2
    have hrefs := h.shown_of_check hk (.refl h.toHeld ho) ht.obj (fun heq => absurd heq hres) hcheck
    refine h.announces (.announce h.toHeld ho _) ⟨ht.obj, by simp⟩ ?_ rfl hrefs
    split_ifs <;> simp
  | clock c => exact h.clock c

theorem DelMove.view (hmove : DelMove store kind s s') (h : View reg push kind s.1) :
    View reg push kind s'.1 := by
  cases hmove with
  | remove ho hstate hcheck => exact h.removes hk (delResolvedCheck_iff.mp hcheck)
  | clear hnone => exact h.clears hnone
  | clock c => exact h.clock c

end Moves

/-! ### Calls -/

/-- **The condition for an update**: nothing that is dropped can be removed, and either
nothing is dropped that the last shown version references, or the new version is
resolved at once. -/
def Keeps (m : Memdb) (key : Key) (obj : Object) : Prop :=
  Guards m key obj ∧
  ((∀ v ∈ shown m.events key, ∀ x ∈ v.references m.registeredKinds,
      x ∈ obj.references m.registeredKinds) ∨
    ∀ q ∈ m.newNode key obj, m.isResolved q)

instance (m : Memdb) (key : Key) (obj : Object) : Decidable (Keeps m key obj) :=
  inferInstanceAs (Decidable (_ ∧ _))

/-- The condition for a call: it holds of updates that are made, not queued. -/
def Meets (m : Memdb) : Call → Prop
  | .add db key obj _ _ => ∀ o ∈ m.objects db key, o.resolveState ≠ .unresolvedDelete → Keeps m key obj
  | .update db key obj => ∀ o ∈ m.objects db key, o.resolveState ≠ .unresolvedDelete → Keeps m key obj
  | .delete .. => True

instance (m : Memdb) : (c : Call) → Decidable (Meets m c)
  | .add db key obj _ _ => inferInstanceAs (Decidable (∀ o ∈ m.objects db key,
      o.resolveState ≠ .unresolvedDelete → Keeps m key obj))
  | .update db key obj => inferInstanceAs (Decidable (∀ o ∈ m.objects db key,
      o.resolveState ≠ .unresolvedDelete → Keeps m key obj))
  | .delete .. => inferInstanceAs (Decidable True)

section Calls

variable {reg push : Kind → Bool} {kind : Key → Kind} {m m' : Memdb} {key : Key}
  {o : ObjState} {obj : Object}

/-- What the last shown version references is referenced by the object. -/
theorem View.kept (h : View reg push kind m) (ho : m.find kind key = some o)
    (v : Object) (hv : shown m.events key = some v) :
    ∀ x ∈ v.references reg, x ∈ o.obj.references reg := by
  intro x hx
  obtain ⟨q, hq, hsub, hobj⟩ := (h.sees key).guarded v hv x hx
  rw [← h.registered]
  exact mem_references.mpr ⟨q, (h.graph key o ho q hsub).mp hq, hobj⟩

/-- The object waits, or a call is queued at it. -/
theorem View.setObject (h : View reg push kind m)
    (ho : m.find kind key = some o) (o' : ObjState) (hobj : o'.obj = o.obj)
    (hstate : o.resolveState = .resolved ∨ o'.resolveState = o.resolveState)
    (hpending : ∀ e ∈ o'.pendingObjs, e.key = key ∧ Typed reg kind key e.obj) :
    View reg push kind (m.setObject (.regular (kind key)) key o') := by
  have hs := Stores.setObject h.toHeld ho o' hobj
  have ht := (h.typed _ key o ho).2
  refine h.stores hs ⟨hobj ▸ ht.obj, hpending⟩ rfl (fun hcur => ?_) (hobj ▸ h.kept ho)
  rw [hobj]
  rcases hstate with hres | heq
  · exact (h.sees key).current o ho (.inl hres)
  · rw [heq] at hcur
    exact (h.sees key).current o ho hcur

/-- **The step of a call that meets the condition keeps the view.** -/
theorem CallStep.view {store : Store} {t : Triggers} (hk : Kinds push kind)
    (h : View reg push kind m) (ht : Typed reg kind key obj)
    (hstep : CallStep (fun old => old.isSome → Keeps m key obj) store kind m key obj m' t) :
    View reg push kind m' := by
  cases hstep with
  | same => exact h
  | queue ho =>
    exact h.setObject ho _ rfl (.inr rfl) ((h.typed _ key _ ho).2.addToPending ht _).pending
  | waits ho hres => exact h.setObject ho _ rfl (.inl hres) (h.typed _ key _ ho).2.pending
  | remove ho hres hcheck => exact h.removes hk (delResolvedCheck_iff.mp hcheck)
  | @announce o et s m' hv hs hevents hcheck =>
    have hto := hv.typed h.toHeld ht
    have hs' := (hs.again { o with resolveState := .resolved } rfl).watchEvent (.regular (kind key))
      key o et
    have hself : o.resolveState = .resolved → (shown m.events key).isSome := fun hres => by
      cases hv with
      | add => cases hres
      | update ho => simp [(h.sees key).current _ ho (.inl hres)]
    have het : et ≠ .delete := by
      cases hv with
      | add => simp
      | update => split_ifs <;> simp
    have hrefs := h.shown_of_check hk hs hto.obj hself hcheck
    refine h.announces hs' { hto with } het ?_ hrefs
    rw [watchEvent_events, setObject_events, hevents]
    rfl
  | pending hv hs hcheck hs' hevents =>
    refine h.stores hs' { hv.typed h.toHeld ht with } hevents (by cases hv <;> simp) ?_
    cases hv with
    | add _ _ hnone =>
      -- an object that is not there is not shown
      intro v hv
      have hsome := (h.sees key).present v hv
      rw [hnone] at hsome
      cases hsome
    | update ho hC =>
      rcases (hC rfl).2 with hkept | hres
      · rw [h.registered] at hkept
        exact hkept
      · exact absurd (check_of_resolved store ho hs rfl hres) hcheck

/-- **A call that meets the condition keeps the view.** -/
theorem callWith_view (hk : Kinds push kind) (store : Store) (n : Nat) {next : Memdb → Call → Run}
    (hnext : ∀ m c, Between reg push kind (View reg push kind) m → TypedCall reg kind c →
      RunKeeps reg push kind (View reg push kind) (next m c))
    (h : Between reg push kind (View reg push kind) m) {c : Call} (hc : TypedCall reg kind c)
    (hmeets : Meets m c) : RunKeeps reg push kind (View reg push kind) (callWith store next n m c) := by
  have hkeeps : ∀ {key obj}, Typed reg kind key obj → ∀ m' t,
      CallStep (fun old => old.isSome → Keeps m key obj) store kind m key obj m' t →
      RunKeeps reg push kind (View reg push kind) (t.run store next n m' key) :=
    fun ht _ _ hstep => hstep.keeps store n hnext ht (A := fun _ => True)
      (fun _ _ hmove => hmove.view hk) (fun _ _ hmove => hmove.view hk) h
      (hstep.view hk h.keeps ht) fun _ _ _ _ _ _ _ => trivial
  cases hc with
  | add ht =>
    rw [addObjectWithReferences, ht.self] at hmeets ⊢
    exact addObject_of_step store n (hkeeps ht) hk h.held ht (fun _ hC => (hC rfl).1)
      (fun o ho hdel _ => hmeets o ho hdel) h.fresh (fun _ => nofun) _ _
  | update ht =>
    rw [updateObjectWithReferences, ht.self] at hmeets ⊢
    exact updateObject_of_step store n (hkeeps ht) hk h.held ht (fun _ hC => (hC rfl).1)
      fun o ho hdel _ => hmeets o ho hdel
  | delete ht =>
    rw [deleteObjectWithReferences, ht.self]
    exact deleteObject_of_step store n (hkeeps ht)

end Calls

/-! ### Runs -/

/-- All calls of a run meet the condition when they are made, also those that were queued:
nothing stops the run. -/
def AllMeet (store : Store) (n : Nat) (m : Memdb) (cs : List Call) : Prop :=
  m.callsIf Meets store n cs = m.calls store n cs

section Runs

variable {reg push : Kind → Bool} {kind : Key → Kind}

theorem newMemdb_view (reg push : Kind → Bool) (kind : Key → Kind) :
    View reg push kind (newMemdb reg push) where
  registered := rfl
  pushed := rfl
  typed := fun db k o ho => by cases ho
  graph := fun k o ho => by cases ho
  sees := fun k => ⟨nofun, nofun, nofun⟩
  closed := fun pre hpre k v hv => by
    rw [List.prefix_nil.mp hpre] at hv
    cases hv

theorem AllMeet.view (hk : Kinds push kind) {store : Store} {n : Nat} {cs : List Call}
    (hmeet : AllMeet store n (newMemdb reg push) cs) (hcs : ∀ c ∈ cs, TypedCall reg kind c) :
    View reg push kind ((newMemdb reg push).calls store n cs).final :=
  calls_keep store (fun n _ _ _ hnext h hc hmeets => callWith_view hk store n hnext h hc hmeets)
    (newMemdb_view reg push kind) n cs hcs hmeet

/-- **Watchers see a closed world** at every point of the stream, in every run whose calls
meet the condition. -/
theorem closedWorld_of_meets (hk : Kinds push kind) (store : Store) (n : Nat) (cs : List Call)
    (hcs : ∀ c ∈ cs, TypedCall reg kind c)
    (hmeet : AllMeet store n (newMemdb reg push) cs) (pre : List Sent)
    (hpre : pre <+: ((newMemdb reg push).calls store n cs).final.events) :
    ClosedWorld reg pre :=
  (hmeet.view hk hcs).closed pre hpre

/-- **Watchers converge.**  After a run whose calls meet the condition, a watcher that applied all
events has the stored version of every object that is resolved or waits for its deletion, and
nothing that is not stored. -/
theorem watchers_converge (hk : Kinds push kind) (store : Store) (n : Nat) (cs : List Call)
    (hcs : ∀ c ∈ cs, TypedCall reg kind c) (hmeet : AllMeet store n (newMemdb reg push) cs) :
    let m := ((newMemdb reg push).calls store n cs).final
    (∀ k o, m.find kind k = some o →
      o.resolveState = .resolved ∨ o.resolveState = .unresolvedDelete →
        shown m.events k = some o.obj) ∧
    ∀ k, m.find kind k = none → shown m.events k = none := by
  intro m
  have hview : View reg push kind m := hmeet.view hk hcs
  refine ⟨fun k => (hview.sees k).current, fun k hfind =>
    Option.eq_none_iff_forall_not_mem.2 fun v hv => ?_⟩
  simpa [hfind] using (hview.sees k).present v hv

end Runs

/-! ### Small runs -/

/-- An object and the key that it is added with. -/
structure Item where
  key : Key
  obj : Object
  deriving DecidableEq, Repr

/-- An object without references. -/
def plain (key : Key) (kind : Nat) : Item := ⟨key, ⟨.other kind, [], 0⟩⟩

/-- An object with references of one field. -/
def referring (key : Key) (kind refKind : Nat) (refs : List Key) : Item :=
  ⟨key, ⟨.other kind, [⟨0, .other refKind, refs⟩], 0⟩⟩

/-- Objects 1 and 2 are of kind 1, the others of kind 2. -/
def twoKinds (k : Key) : Kind := if k ≤ 2 then .other 1 else .other 2

theorem twoKinds_kinds : Kinds (fun _ => false) twoKinds where
  named := fun k => by
    unfold twoKinds
    split_ifs <;> rfl
  regular := fun _ => rfl

/-- Object 2 references object 3.  The delete of object 3 has to wait; then object 2 drops
the reference. -/
def dropsReference : List Call :=
  [addObjectWithReferences 3 (plain 3 2).obj, addObjectWithReferences 2 (referring 2 1 2 [3]).obj,
    deleteObjectWithReferences 3 (plain 3 2).obj, updateObjectWithReferences 2 (plain 2 1).obj]

theorem typed_plain {k : Key} {n : Nat} (hkind : twoKinds k = .other n) :
    Typed (fun _ => true) twoKinds k (plain k n).obj := ⟨hkind.symm, by simp [plain]⟩

theorem typed_referring (refs : List Key) (hrefs : ∀ x ∈ refs, 2 < x) :
    Typed (fun _ => true) twoKinds 2 (referring 2 1 2 refs).obj := by
  refine ⟨rfl, fun r hr _ x hx => ?_⟩
  rw [List.mem_singleton.mp hr] at hx ⊢
  rw [twoKinds, if_neg (Nat.not_le.mpr (hrefs x hx))]
  rfl

/-- Object 3 is hidden while the stream still shows the version of object 2 that references
it. -/
theorem not_closedWorld_dropsReference :
    (∀ c ∈ dropsReference, TypedCall (fun _ => true) twoKinds c) ∧
    ∃ m, (newMemdb (fun _ => true) fun _ => false).calls (.putFirst fun _ => false) 20 dropsReference
        = .ok m ∧
      m.events = [.watch .create 3 (plain 3 2).obj, .watch .create 2 (referring 2 1 2 [3]).obj,
        .watch .delete 3 (plain 3 2).obj, .watch .update 2 (plain 2 1).obj] ∧
      ¬ ClosedWorld (fun _ => true) (m.events.take 3) := by
  refine ⟨?_, _, rfl, by decide, fun hclosed => ?_⟩
  · have htyped := typed_referring [3] (by decide)
    simp only [dropsReference, List.forall_mem_cons]
    exact ⟨.add (typed_plain rfl), .add htyped, .delete (typed_plain rfl), .update (typed_plain rfl),
      by simp⟩
  · have hthree := hclosed 2 (referring 2 1 2 [3]).obj (by decide) 3 (by decide)
    exact absurd hthree (by decide)

/-- Object 2 drops its reference, then object 3 is deleted. -/
def dropsReferenceFirst : List Call :=
  [addObjectWithReferences 3 (plain 3 2).obj, addObjectWithReferences 2 (referring 2 1 2 [3]).obj,
    updateObjectWithReferences 2 (plain 2 1).obj, deleteObjectWithReferences 3 (plain 3 2).obj]

theorem closedWorld_dropsReferenceFirst :
    ((newMemdb (fun _ => true) fun _ => false).calls (.putFirst fun _ => false) 20
      dropsReferenceFirst).final.events ≠ [] ∧
    ∀ pre, pre <+: ((newMemdb (fun _ => true) fun _ => false).calls (.putFirst fun _ => false) 20
      dropsReferenceFirst).final.events → ClosedWorld (fun _ => true) pre := by
  refine ⟨by decide, ?_⟩
  have htyped := typed_referring [3] (by decide)
  obtain ⟨m, hm, hm'⟩ : ∃ m, (newMemdb (fun _ => true) fun _ => false).calls
      (.putFirst fun _ => false) 20 dropsReferenceFirst = .ok m ∧
      (newMemdb (fun _ => true) fun _ => false).callsIf Meets (.putFirst fun _ => false) 20
        dropsReferenceFirst = .ok m := ⟨_, rfl, rfl⟩
  refine closedWorld_of_meets twoKinds_kinds _ 20 dropsReferenceFirst ?_ (hm'.trans hm.symm)
  simp only [dropsReferenceFirst, List.forall_mem_cons]
  exact ⟨.add (typed_plain rfl), .add htyped, .update (typed_plain rfl), .delete (typed_plain rfl),
    by simp⟩

theorem watchers_converge_dropsReferenceFirst :
    let m := ((newMemdb (fun _ => true) fun _ => false).calls (.putFirst fun _ => false) 20
      dropsReferenceFirst).final
    shown m.events 2 = some (plain 2 1).obj ∧ shown m.events 3 = none := by
  have hcs : ∀ c ∈ dropsReferenceFirst, TypedCall (fun _ => true) twoKinds c := by
    simp only [dropsReferenceFirst, List.forall_mem_cons]
    exact ⟨.add (typed_plain rfl), .add (typed_referring [3] (by decide)),
      .update (typed_plain rfl), .delete (typed_plain rfl), by simp⟩
  have h := watchers_converge twoKinds_kinds (.putFirst fun _ => false) 20 _ hcs rfl
  exact ⟨h.1 2 _ rfl (.inl rfl), h.2 3 rfl⟩

end NicSw.MemDb
