/-
The events of an object come in order.

A watcher should receive rounds of a `Create`, `Update`s and a `Delete` for an object.
Which event comes next follows from whether the object is announced, and memdb reads
that off the state of the object: every state but `unresolvedAdd` stands for an
announced object.  Two calls break this.  An update of an unresolved object that was
not announced yet leaves it in `unresolvedUpdate`, and an object that waits for its
delete may be announced again by the add resolver.
-/
import Mathlib.Data.List.Induction
import NicSw.Memdb.ClosedWorld

namespace NicSw.MemDb

open Memdb

open Relation (ReflTransGen)

/-! ### Streams -/

/-- The events that watchers receive for an object. -/
def stream (k : Key) (events : List Sent) : List EventType :=
  events.filterMap fun
    | .watch et key _ => if key = k then some et else none
    | .push .. => none

theorem stream_append (k : Key) (events : List Sent) (et : EventType) (key : Key) (obj : Object) :
    stream k (events ++ [.watch et key obj]) = stream k events ++ if key = k then [et] else [] := by
  split_ifs with hk <;> simp [stream, hk]

/-- A round of events, with a number of updates. -/
def round (updates : Nat) : List EventType := .create :: List.replicate updates .update ++ [.delete]

/-- **A stream is well formed**: it is the start of rounds. -/
def WellFormed (l : List EventType) : Prop := ∃ rounds : List Nat, l <+: rounds.flatMap round

/-- Whether the object is announced after an event, if the event may come. -/
def EventType.next : Bool → EventType → Option Bool
  | false, .create => some true
  | true, .update => some true
  | true, .delete => some false
  | _, _ => none

/-- What a stream that is taken consists of. -/
theorem rounds_of_next (l : List EventType) (b : Bool) (h : l.foldlM EventType.next false = some b) :
    ∃ rounds : List Nat, match b with
      | false => l = rounds.flatMap round
      | true => ∃ n, l = rounds.flatMap round ++ .create :: List.replicate n .update := by
  -- from the back: the last event decides
  induction l using List.reverseRecOn generalizing b with
  | nil =>
    cases h
    exact ⟨[], rfl⟩
  | append_singleton l et ih =>
    rw [List.foldlM_append] at h
    obtain ⟨c, hc, hnext⟩ := Option.bind_eq_some_iff.mp h
    obtain ⟨rounds, hl⟩ := ih c hc
    cases c <;> cases et <;> cases hnext
    · exact ⟨rounds, 0, by rw [hl]; rfl⟩
    · obtain ⟨n, rfl⟩ := hl
      exact ⟨rounds, n + 1, by simp [List.replicate_succ']⟩
    · obtain ⟨n, rfl⟩ := hl
      exact ⟨rounds ++ [n], by simp [round]⟩

theorem wellFormed_of_next {l : List EventType} {b : Bool}
    (h : l.foldlM EventType.next false = some b) : WellFormed l := by
  obtain ⟨rounds, hl⟩ := rounds_of_next l b h
  cases b with
  | false => exact ⟨rounds, hl ▸ List.prefix_refl _⟩
  | true =>
    obtain ⟨n, rfl⟩ := hl
    exact ⟨rounds ++ [n], ⟨[.delete], by simp [round]⟩⟩

/-- The object was announced, as its state says. -/
def Memdb.announced (m : Memdb) (kind : Key → Kind) (k : Key) : Bool :=
  match m.find kind k with
  | some o => decide (o.resolveState ≠ .unresolvedAdd)
  | none => false

/-- **The streams agree with the states of the objects.** -/
def Sends (kind : Key → Kind) (m : Memdb) : Prop :=
  ∀ k, (stream k m.events).foldlM EventType.next false = some (m.announced kind k)

variable {et : EventType}

section Sends

variable {kind : Key → Kind} {m m' : Memdb} {key : Key} {o : ObjState} {store : Store}

theorem announced_of_find (ho : m.find kind key = some o) :
    m.announced kind key = decide (o.resolveState ≠ .unresolvedAdd) := by
  rw [announced, ho]

theorem announced_of_eq {k : Key} (h : m'.find kind k = m.find kind k) :
    m'.announced kind k = m.announced kind k := by
  rw [announced, announced, h]

/-- An event may come. -/
theorem Sends.step (h : Sends kind m) (key : Key)
    (hothers : ∀ k, k ≠ key → m'.find kind k = m.find kind k) {obj : Object}
    (hevents : m'.events = m.events ++ [.watch et key obj])
    (hnext : et.next (m.announced kind key) = some (m'.announced kind key)) : Sends kind m' := by
  intro k
  rw [hevents, stream_append]
  by_cases hk : key = k
  · subst hk
    rw [if_pos rfl, List.foldlM_append, h key, ← hnext]
    simp
  · rw [if_neg hk, List.append_nil, announced_of_eq (hothers k (Ne.symm hk))]
    exact h k

/-- Nothing is sent. -/
theorem Sends.quiet (h : Sends kind m) (hothers : ∀ k, k ≠ key → m'.find kind k = m.find kind k)
    (hevents : m'.events = m.events) (hsame : m'.announced kind key = m.announced kind key) :
    Sends kind m' := by
  intro k
  rw [hevents, h k]
  by_cases hk : k = key
  · rw [hk, hsame]
  · rw [announced_of_eq (hothers k hk)]

variable {s s' : Memdb × List Event}

theorem AddMove.sends (hmove : AddMove (· ≠ .unresolvedDelete) store kind s s')
    (h : Sends kind s.1) : Sends kind s'.1 := by
  cases hmove with
  | @announce m pending key o ho hres hdel hcheck =>
    refine h.step key (fun k hk => ?_) rfl ?_
    · rw [find, setObject_objects, if_neg fun heq => hk heq.2]
      rfl
    · rw [announced_of_find ho, announced_of_find ((setObject_objects ..).trans (if_pos ⟨rfl, rfl⟩))]
      cases hs : o.resolveState with
      | unresolvedAdd => rfl
      | unresolvedUpdate => rfl
      | resolved => exact absurd hs hres
      | unresolvedDelete => exact absurd hs hdel
  | clock c => exact h

theorem removed_announced (et : EventType) :
    ((m.removeObject (.regular (kind key)) key).watchEvent (.regular (kind key)) key o et).announced
      kind key = false := by
  rw [announced, find, watchEvent_objects, removeObject_objects, if_pos ⟨rfl, rfl⟩]

/-- An announced object is removed. -/
theorem Sends.removes (h : Sends kind m) (ho : m.find kind key = some o)
    (hstate : o.resolveState ≠ .unresolvedAdd) : Sends kind
      ((m.removeObject (.regular (kind key)) key).watchEvent (.regular (kind key)) key o .delete) := by
  refine h.step key (fun k hk => ?_) rfl ?_
  · rw [find, watchEvent_objects, removeObject_objects, if_neg fun heq => hk heq.2]
  · rw [removed_announced, announced_of_find ho, decide_eq_true hstate]
    rfl

theorem DelMove.sends (hmove : DelMove store kind s s') (h : Sends kind s.1) : Sends kind s'.1 := by
  cases hmove with
  | remove ho hstate hcheck =>
    refine h.removes ho ?_
    rw [hstate]
    simp
  | clear hnone => exact h
  | clock c => exact h

end Sends

/-! ### Calls -/

/-- **The condition for an update** of an object: nothing that is dropped can be removed, an
object that was not announced yet is resolved at once, and no object that waits for its
delete is woken. -/
def Renews (m : Memdb) (key : Key) (obj : Object) (o : ObjState) : Prop :=
  Guards m key obj ∧
  (o.resolveState = .unresolvedAdd → ∀ q ∈ m.newNode key obj, m.isResolved q) ∧
  Calm m key

/-- The condition for a call: of an update that is made, not queued, and of the add of a new
object. -/
def StreamMeets (m : Memdb) : Call → Prop
  | .add db key obj _ _ =>
    (m.objects db key = none → Calm m key) ∧
    ∀ o ∈ m.objects db key, o.resolveState ≠ .unresolvedDelete → Renews m key obj o
  | .update db key obj =>
    ∀ o ∈ m.objects db key, o.resolveState ≠ .unresolvedDelete → Renews m key obj o
  | .delete .. => True

instance (m : Memdb) (key : Key) (obj : Object) (o : ObjState) : Decidable (Renews m key obj o) :=
  inferInstanceAs (Decidable (_ ∧ _ ∧ _))

instance (m : Memdb) : (c : Call) → Decidable (StreamMeets m c)
  | .add db key obj _ _ => inferInstanceAs (Decidable ((m.objects db key = none → Calm m key) ∧
      ∀ o ∈ m.objects db key, o.resolveState ≠ .unresolvedDelete → Renews m key obj o))
  | .update db key obj => inferInstanceAs (Decidable (∀ o ∈ m.objects db key,
      o.resolveState ≠ .unresolvedDelete → Renews m key obj o))
  | .delete .. => inferInstanceAs (Decidable True)

section Calls

variable {reg push : Kind → Bool} {kind : Key → Kind} {m m' : Memdb} {key : Key}
  {o : ObjState} {obj : Object}

/-- An object is stored and nothing is sent. -/
theorem Sends.stores (h : Sends kind m) (hs : Stores kind m m' key o)
    (hevents : m'.events = m.events)
    (hsame : decide (o.resolveState ≠ .unresolvedAdd) = m.announced kind key) : Sends kind m' :=
  h.quiet (fun _ hk => hs.find_of_ne hk) hevents ((announced_of_find hs.find_self).trans hsame)

/-- **The step of a call that meets the condition keeps the streams in order**, and wakes no
object that waits for its delete. -/
theorem CallStep.sends {store : Store} {t : Triggers} (hk : Kinds push kind)
    (h : Held reg push kind m) (hsends : Sends kind m)
    (hstep : CallStep (fun old => old.elim (Calm m key) (Renews m key obj)) store kind m key obj m' t) :
    Sends kind m' ∧ (t = .add → Wakes (· ≠ .unresolvedDelete) kind m' key) := by
  cases hstep with
  | same => exact ⟨hsends, nofun⟩
  | queue ho =>
    exact ⟨hsends.stores (.setObject h ho _ rfl) rfl (announced_of_find ho).symm, nofun⟩
  | waits ho hres =>
    refine ⟨hsends.stores (.setObject h ho _ rfl) rfl ?_, nofun⟩
    rw [announced_of_find ho, hres]
    rfl
  | remove ho hres hcheck =>
    refine ⟨hsends.removes ho ?_, nofun⟩
    rw [hres]
    simp
  | @announce o et s m' hv hs hevents hcheck =>
    have hs' := (hs.again { o with resolveState := .resolved } rfl).watchEvent (.regular (kind key))
      key o et
    have hcalm : Calm m key ∧ et.next (m.announced kind key) = some true := by
      cases hv with
      | add _ _ hnone hC =>
        rw [announced, hnone]
        exact ⟨hC, rfl⟩
      | @update o ho hC =>
        refine ⟨hC.2.2, ?_⟩
        rw [announced_of_find ho]
        cases o.resolveState <;> rfl
    have hsent : ((m'.setObject (.regular (kind key)) key { o with resolveState := .resolved }).watchEvent
        (.regular (kind key)) key o et).events = m.events ++ [.watch et key o.obj] := by
      rw [watchEvent_events, setObject_events, hevents]
      rfl
    refine ⟨hsends.step key (fun _ hne => hs'.find_of_ne hne) hsent (hcalm.2.trans ?_), fun _ =>
      hcalm.1.stores hk h hs' rfl⟩
    rw [announced_of_find hs'.find_self]
    rfl
  | pending hv hs hcheck hs' hevents =>
    refine ⟨hsends.stores hs' hevents ?_, nofun⟩
    cases hv with
    | add _ _ hnone =>
      rw [announced, hnone]
      rfl
    | @update o ho hC =>
      -- the object was announced: otherwise it would be resolved now
      have hann : o.resolveState ≠ .unresolvedAdd := fun hadd =>
        hcheck (check_of_resolved store ho hs rfl (hC.2.1 hadd))
      rw [announced_of_find ho, decide_eq_true hann]
      rfl

/-- **A call that meets the condition keeps the streams in order.** -/
theorem callWith_sends (hk : Kinds push kind) (store : Store) (n : Nat) {next : Memdb → Call → Run}
    (hnext : ∀ m c, Between reg push kind (Sends kind) m → TypedCall reg kind c →
      RunKeeps reg push kind (Sends kind) (next m c))
    (h : Between reg push kind (Sends kind) m) {c : Call} (hc : TypedCall reg kind c)
    (hmeets : StreamMeets m c) : RunKeeps reg push kind (Sends kind) (callWith store next n m c) := by
  have hkeeps : ∀ {key obj}, Typed reg kind key obj → ∀ m' t,
      CallStep (fun old => old.elim (Calm m key) (Renews m key obj)) store kind m key obj m' t →
      RunKeeps reg push kind (Sends kind) (t.run store next n m' key) := fun ht _ _ hstep =>
    have hsends := hstep.sends hk h.held h.keeps
    hstep.keeps store n hnext ht (fun _ _ hmove => hmove.sends) (fun _ _ hmove => hmove.sends) h
      hsends.1 hsends.2
  cases hc with
  | add ht =>
    rw [addObjectWithReferences, ht.self] at hmeets ⊢
    exact addObject_of_step store n (hkeeps ht) hk h.held ht (fun _ hC => hC.1) hmeets.2 h.fresh
      hmeets.1 _ _
  | update ht =>
    rw [updateObjectWithReferences, ht.self] at hmeets ⊢
    exact updateObject_of_step store n (hkeeps ht) hk h.held ht (fun _ hC => hC.1) hmeets
  | delete ht =>
    rw [deleteObjectWithReferences, ht.self]
    exact deleteObject_of_step store n (hkeeps ht)

end Calls

/-! ### Runs -/

section Runs

variable {reg push : Kind → Bool} {kind : Key → Kind}

/-- **The stream of every object is well formed** in every run whose calls, also those that
were queued, meet the condition. -/
theorem wellFormed_of_meets (hk : Kinds push kind) (store : Store) (n : Nat) (cs : List Call)
    (hcs : ∀ c ∈ cs, TypedCall reg kind c)
    (hmeet : (newMemdb reg push).callsIf StreamMeets store n cs
      = (newMemdb reg push).calls store n cs) (k : Key) :
    WellFormed (stream k ((newMemdb reg push).calls store n cs).final.events) := by
  have hsends : Sends kind ((newMemdb reg push).calls store n cs).final :=
    calls_keep store (fun n _ _ _ hnext h hc hmeets => callWith_sends hk store n hnext h hc hmeets)
      (fun _ => rfl) n cs hcs hmeet
  exact wellFormed_of_next (hsends k)

end Runs

/-! ### Small runs -/

/-- Object 2 is updated before object 3, which it references, is added. -/
def updatesEarly : List Call :=
  [addObjectWithReferences 2 (referring 2 1 2 [3]).obj,
    updateObjectWithReferences 2 (referring 2 1 2 [3]).obj, addObjectWithReferences 3 (plain 3 2).obj]

/-- The first event of object 2 is an update. -/
theorem not_wellFormed_updatesEarly :
    (∀ c ∈ updatesEarly, TypedCall (fun _ => true) twoKinds c) ∧
    ∃ m, (newMemdb (fun _ => true) fun _ => false).calls (.putFirst fun _ => false) 20 updatesEarly
        = .ok m ∧ stream 2 m.events = [.update] ∧ ¬ WellFormed (stream 2 m.events) := by
  have hstream : ¬ WellFormed [.update] := by
    rintro ⟨rounds, hpre⟩
    cases rounds with
    | nil => simp at hpre
    | cons n rounds => simp [round] at hpre
  refine ⟨?_, _, rfl, by decide, hstream⟩
  have htyped := typed_referring [3] (by decide)
  simp only [updatesEarly, List.forall_mem_cons]
  exact ⟨.add htyped, .update htyped, .add (typed_plain rfl), by simp⟩

/-- Object 2 is updated after object 3 was added, and both are deleted. -/
def updatesLate : List Call :=
  [addObjectWithReferences 2 (referring 2 1 2 [3]).obj, addObjectWithReferences 3 (plain 3 2).obj,
    updateObjectWithReferences 2 (referring 2 1 2 [3]).obj,
    deleteObjectWithReferences 3 (plain 3 2).obj,
    deleteObjectWithReferences 2 (referring 2 1 2 [3]).obj]

theorem wellFormed_updatesLate : ∃ m,
    (newMemdb (fun _ => true) fun _ => false).calls (.putFirst fun _ => false) 20 updatesLate = .ok m ∧
      stream 2 m.events = [.create, .update, .delete] ∧ WellFormed (stream 2 m.events) := by
  obtain ⟨m, hm, hm'⟩ : ∃ m, (newMemdb (fun _ => true) fun _ => false).calls
      (.putFirst fun _ => false) 20 updatesLate = .ok m ∧
      (newMemdb (fun _ => true) fun _ => false).callsIf StreamMeets (.putFirst fun _ => false) 20
        updatesLate = .ok m := ⟨_, rfl, rfl⟩
  have hwell := wellFormed_of_meets twoKinds_kinds (.putFirst fun _ => false) 20 updatesLate ?_
    (hm'.trans hm.symm) 2
  · rw [hm] at hwell
    refine ⟨m, hm, ?_, hwell⟩
    cases hm
    decide
  · have htyped := typed_referring [3] (by decide)
    simp only [updatesLate, List.forall_mem_cons]
    exact ⟨.add htyped, .add (typed_plain rfl), .update htyped, .delete (typed_plain rfl),
      .delete htyped, by simp⟩

end NicSw.MemDb
