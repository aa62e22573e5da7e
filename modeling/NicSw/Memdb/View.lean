/-
What a stream of events shows of memdb.

A `Create` or an `Update` shows a version of an object, a `Delete` hides the object.
The world is closed if everything that a shown version references is shown too.
`View` relates what the stream shows to what memdb holds: the graph protects what a
shown version references, since an object is removed only when no object that is
there references it in the graph.
-/
import NicSw.Memdb.Model

namespace NicSw.MemDb

open Function Memdb

/-! ### What a stream shows -/

/-- What is shown after an event. -/
def Sent.shows (view : Key → Option Object) : Sent → Key → Option Object
  | .watch .delete k _ => update view k none
  | .watch _ k o => update view k (some o)
  | .push .. => view

/-- The versions that a stream of events shows. -/
def shown (events : List Sent) : Key → Option Object := events.foldl Sent.shows fun _ => none

/-- The keys that an object references, of registered kinds. -/
def Object.references (registeredKinds : Kind → Bool) (o : Object) : List Key :=
  (o.refs.filter fun r => registeredKinds r.refKind).flatMap Ref.refs

/-- **A closed world**: all that a shown version references is shown. -/
def ClosedWorld (registeredKinds : Kind → Bool) (events : List Sent) : Prop :=
  ∀ k o, shown events k = some o → ∀ x ∈ o.references registeredKinds, (shown events x).isSome

theorem shown_append (events : List Sent) (e : Sent) :
    shown (events ++ [e]) = e.shows (shown events) := List.foldl_append

theorem shows_watch {et : EventType} (het : et ≠ .delete) (view : Key → Option Object) (k : Key)
    (o : Object) : (Sent.watch et k o).shows view = update view k (some o) := by
  cases et with
  | create => rfl
  | update => rfl
  | delete => exact absurd rfl het

variable {x k : Key} {o : Object}

theorem Object.mem_references {reg : Kind → Bool} :
    x ∈ o.references reg ↔ ∃ r ∈ o.refs, reg r.refKind = true ∧ x ∈ r.refs := by
  simp [Object.references, and_assoc]

variable {q : Quad}

theorem Memdb.mem_newNode {m : Memdb} :
    q ∈ m.newNode k o ↔ q.sub = k ∧ ∃ r ∈ o.refs, m.registeredKinds r.refKind = true ∧
      q.pred = ⟨o.kind, r.refKind, r.field⟩ ∧ q.obj ∈ r.refs := by
  constructor
  · intro hq
    obtain ⟨r, hr, hq⟩ := List.mem_flatMap.mp hq
    obtain ⟨ref, href, rfl⟩ := List.mem_map.mp hq
    obtain ⟨hr, hreg⟩ := List.mem_filter.mp hr
    exact ⟨rfl, r, hr, hreg, rfl, href⟩
  · rintro ⟨hsub, r, hr, hreg, hp, ho⟩
    refine List.mem_flatMap.mpr ⟨r, List.mem_filter.mpr ⟨hr, hreg⟩, ?_⟩
    exact List.mem_map.mpr ⟨q.obj, ho, by rw [← hsub, ← hp]⟩

/-- The references of an object are those of its node. -/
theorem Memdb.mem_references {m : Memdb} :
    x ∈ o.references m.registeredKinds ↔ ∃ q ∈ m.newNode k o, q.obj = x := by
  rw [Object.mem_references]
  constructor
  · rintro ⟨r, hr, hreg, hx⟩
    exact ⟨⟨k, ⟨o.kind, r.refKind, r.field⟩, x⟩, mem_newNode.mpr ⟨rfl, r, hr, hreg, rfl, hx⟩, rfl⟩
  · rintro ⟨q, hq, rfl⟩
    obtain ⟨-, r, hr, hreg, -, hx⟩ := mem_newNode.mp hq
    exact ⟨r, hr, hreg, hx⟩

/-! ### What memdb holds -/

/-- Keys have kinds: those of regular databases, under their own names. -/
structure Kinds (pushKinds : Kind → Bool) (kind : Key → Kind) : Prop where
  named : ∀ k, memDbKind (kind k) = kind k
  regular : ∀ k, pushKinds (kind k) = false

/-- The object has the kind of its key, and its references name the kinds of theirs. -/
structure Typed (registeredKinds : Kind → Bool) (kind : Key → Kind) (k : Key) (o : Object) : Prop where
  self : o.kind = kind k
  refs : ∀ r ∈ o.refs, registeredKinds r.refKind = true → ∀ x ∈ r.refs, memDbKind r.refKind = kind x

/-- An object and the calls that are queued at it. -/
structure TypedState (registeredKinds : Kind → Bool) (kind : Key → Kind) (k : Key) (o : ObjState) :
    Prop where
  obj : Typed registeredKinds kind k o.obj
  pending : ∀ e ∈ o.pendingObjs, e.key = k ∧ Typed registeredKinds kind k e.obj

/-- The object of a key. -/
abbrev Memdb.find (m : Memdb) (kind : Key → Kind) (k : Key) : Option ObjState :=
  m.objects (.regular (kind k)) k

/-- The objects are typed, and the graph holds their references. -/
structure Held (registeredKinds pushKinds : Kind → Bool) (kind : Key → Kind) (m : Memdb) : Prop where
  registered : m.registeredKinds = registeredKinds
  pushed : m.pushKinds = pushKinds
  typed : ∀ db k o, m.objects db k = some o →
    db = .regular (kind k) ∧ TypedState registeredKinds kind k o
  graph : ∀ k o, m.find kind k = some o → ∀ q, q.sub = k → (q ∈ m.graph ↔ q ∈ m.newNode k o.obj)

/-- What watchers see of a key that has this object. -/
structure Sees (registeredKinds : Kind → Bool) (graph : List Quad) (k : Key) (found : Option ObjState)
    (seen : Option Object) : Prop where
  present : ∀ v, seen = some v → found.isSome
  current : ∀ o, found = some o →
    o.resolveState = .resolved ∨ o.resolveState = .unresolvedDelete → seen = some o.obj
  guarded : ∀ v, seen = some v → ∀ x ∈ v.references registeredKinds,
    ∃ q ∈ graph, q.sub = k ∧ q.obj = x

/-- **What watchers see of memdb.** -/
structure View (registeredKinds pushKinds : Kind → Bool) (kind : Key → Kind) (m : Memdb) : Prop
    extends Held registeredKinds pushKinds kind m where
  sees : ∀ k, Sees registeredKinds m.graph k (m.find kind k) (shown m.events k)
  closed : ∀ pre, pre <+: m.events → ClosedWorld registeredKinds pre

/-- An object was stored, with its references. -/
structure Stores (kind : Key → Kind) (m m' : Memdb) (key : Key) (o : ObjState) : Prop where
  registeredKinds : m'.registeredKinds = m.registeredKinds
  pushKinds : m'.pushKinds = m.pushKinds
  objects : ∀ db k, m'.objects db k
    = if db = .regular (kind key) ∧ k = key then some o else m.objects db k
  others : ∀ q, q.sub ≠ key → (q ∈ m'.graph ↔ q ∈ m.graph)
  self : ∀ q, q.sub = key → (q ∈ m'.graph ↔ q ∈ m.newNode key o.obj)

section View

variable {reg push : Kind → Bool} {kind : Key → Kind} {m m' : Memdb} {key : Key} {o : ObjState}
  {obj : Object}

/-- A call is queued at an object. -/
theorem TypedState.addToPending (h : TypedState reg kind key o) (ht : Typed reg kind key obj)
    (et : EventType) : TypedState reg kind key (o.addToPending ⟨et, key, obj⟩) where
  obj := h.obj
  pending := fun e he => by
    rcases List.mem_append.mp he with he | he
    · exact h.pending e he
    · rw [List.mem_singleton.mp he]
      exact ⟨rfl, ht⟩

theorem Stores.find_self (h : Stores kind m m' key o) : m'.find kind key = some o := by
  rw [find, h.objects, if_pos ⟨rfl, rfl⟩]

theorem Stores.find_of_ne (h : Stores kind m m' key o) (hk : k ≠ key) :
    m'.find kind k = m.find kind k := by
  rw [find, h.objects, if_neg fun heq => hk heq.2]

theorem Stores.newNode (h : Stores kind m m' key o) : m'.newNode = m.newNode := by
  funext k obj
  rw [Memdb.newNode, Memdb.newNode, h.registeredKinds]

section

variable (hk : Kinds push kind) (h : m.pushKinds = push)
include hk h

/-- The object of a key is found by its kind. -/
theorem Held.getObject (k : Key) :
    m.getObject (kind k) k = m.find kind k := by
  rw [Memdb.getObject, Memdb.getObjectDB, h, hk.regular]
  rfl

/-- A referenced object is found by the kind that the reference names. -/
theorem getObject_dKind (ht : Typed m.registeredKinds kind k obj) (hq : q ∈ m.newNode k obj) :
    m.getObject (memDbKind q.pred.dKind) q.obj = m.find kind q.obj := by
  obtain ⟨-, r, hr, hreg, hp, hx⟩ := mem_newNode.mp hq
  rw [hp, ht.refs r hr hreg q.obj hx, Held.getObject hk h]

/-- An object that references another one is found by its kind. -/
theorem getObject_sKind (ht : Typed m.registeredKinds kind k obj) (hq : q ∈ m.newNode k obj) :
    m.getObject (memDbKind q.pred.sKind) q.sub = m.find kind k := by
  obtain ⟨hsub, r, -, -, hp, -⟩ := mem_newNode.mp hq
  rw [hsub, hp, ht.self, hk.named, Held.getObject hk h]

end

theorem Held.stores (h : Held reg push kind m) (hs : Stores kind m m' key o)
    (ht : TypedState reg kind key o) : Held reg push kind m' where
  registered := hs.registeredKinds.trans h.registered
  pushed := hs.pushKinds.trans h.pushed
  typed := fun db k ok hok => by
    rw [hs.objects] at hok
    split_ifs at hok with heq
    · obtain ⟨rfl, rfl⟩ := heq
      exact ⟨rfl, Option.some.inj hok ▸ ht⟩
    · exact h.typed db k ok hok
  graph := fun k ok hok q hq => by
    rw [hs.newNode]
    by_cases hk : k = key
    · subst hk
      cases hs.find_self.symm.trans hok
      exact hs.self q hq
    · rw [hs.find_of_ne hk] at hok
      rw [hs.others q fun heq => hk (hq.symm.trans heq)]
      exact h.graph k ok hok q hq

/-- An object is stored; what is shown of the others stays. -/
theorem View.shows (h : View reg push kind m) (hs : Stores kind m m' key o)
    (ht : TypedState reg kind key o)
    (hother : ∀ k, k ≠ key → shown m'.events k = shown m.events k)
    (hcurrent : o.resolveState = .resolved ∨ o.resolveState = .unresolvedDelete →
      shown m'.events key = some o.obj)
    (hkept : ∀ v, shown m'.events key = some v → ∀ x ∈ v.references reg,
      x ∈ o.obj.references reg)
    (hclosed : ∀ pre, pre <+: m'.events → ClosedWorld reg pre) : View reg push kind m' where
  toHeld := h.toHeld.stores hs ht
  sees := fun k => by
    by_cases hk : k = key
    · subst hk
      rw [hs.find_self]
      refine ⟨fun _ _ => rfl, fun ok hok hstate => ?_, fun v hv x hx => ?_⟩
      · cases hok
        exact hcurrent hstate
      have hmem := hkept v hv x hx
      rw [← h.registered] at hmem
      obtain ⟨q, hq, rfl⟩ := mem_references.mp hmem
      have hsub := (mem_newNode.mp hq).1
      exact ⟨q, (hs.self q hsub).mpr hq, hsub, rfl⟩
    · rw [hother k hk, hs.find_of_ne hk]
      refine { h.sees k with guarded := fun v hv x hx => ?_ }
      obtain ⟨q, hq, hsub, hobj⟩ := (h.sees k).guarded v hv x hx
      exact ⟨q, (hs.others q fun heq => hk (hsub.symm.trans heq)).mpr hq, hsub, hobj⟩
  closed := hclosed

/-- **An object is stored and not announced.** -/
theorem View.stores (h : View reg push kind m) (hs : Stores kind m m' key o)
    (ht : TypedState reg kind key o) (hevents : m'.events = m.events)
    (hcurrent : o.resolveState = .resolved ∨ o.resolveState = .unresolvedDelete →
      shown m.events key = some o.obj)
    (hkept : ∀ v, shown m.events key = some v → ∀ x ∈ v.references reg,
      x ∈ o.obj.references reg) : View reg push kind m' := by
  rw [← hevents] at hcurrent hkept
  exact h.shows hs ht (fun k _ => by rw [hevents]) hcurrent hkept (hevents ▸ h.closed)

/-- The prefixes of a longer stream. -/
theorem closed_append {events : List Sent} {e : Sent}
    (h : ∀ pre, pre <+: events → ClosedWorld reg pre)
    (he : ClosedWorld reg (events ++ [e])) (pre : List Sent)
    (hpre : pre <+: events ++ [e]) : ClosedWorld reg pre := by
  rcases List.prefix_concat_iff.mp hpre with rfl | hpre
  · exact he
  · exact h pre hpre

/-- **An object is announced**: all that it references is shown. -/
theorem View.announces (h : View reg push kind m) (hs : Stores kind m m' key o)
    (ht : TypedState reg kind key o) {et : EventType} (het : et ≠ .delete)
    (hevents : m'.events = m.events ++ [.watch et key o.obj])
    (hrefs : ∀ x ∈ o.obj.references reg, (shown m.events x).isSome) :
    View reg push kind m' := by
  have hshown : shown m'.events = update (shown m.events) key (some o.obj) := by
    rw [hevents, shown_append, shows_watch het]
  have hself : shown m'.events key = some o.obj := by rw [hshown, update_self]
  have hother : ∀ k, k ≠ key → shown m'.events k = shown m.events k := fun k hk => by
    rw [hshown, update_of_ne hk]
  refine h.shows hs ht hother (fun _ => hself) (fun v hv x hx => ?_) ?_
  · cases hself.symm.trans hv
    exact hx
  -- nothing is hidden
  have hmono : ∀ x, (shown m.events x).isSome → (shown m'.events x).isSome := by
    intro x hx
    by_cases hxk : x = key
    · rw [hxk, hself]
      rfl
    · rwa [hother x hxk]
  rw [hevents]
  refine closed_append h.closed ?_
  rw [← hevents]
  intro k v hv x hx
  by_cases hk : k = key
  · subst hk
    cases hself.symm.trans hv
    exact hmono x (hrefs x hx)
  · rw [hother k hk] at hv
    exact hmono x (h.closed _ (List.prefix_refl _) k v hv x hx)

/-- An object is removed. -/
theorem Held.removes (h : Held reg push kind m) (et : EventType) :
    Held reg push kind
      ((m.removeObject (.regular (kind key)) key).watchEvent (.regular (kind key)) key o et) := { h with
  typed := fun db k ok hok => by
    rw [watchEvent_objects, removeObject_objects] at hok
    split_ifs at hok
    exact h.typed db k ok hok
  graph := fun k ok hok => by
    rw [find, watchEvent_objects, removeObject_objects] at hok
    split_ifs at hok
    exact h.graph k ok hok }

/-- **An object is removed**: nothing that is there references it. -/
theorem View.removes (hk : Kinds push kind) (h : View reg push kind m)
    (hrefs : ∀ q ∈ m.graph, q.obj = key → m.getObject (memDbKind q.pred.sKind) q.sub = none) :
    View reg push kind
      ((m.removeObject (.regular (kind key)) key).watchEvent (.regular (kind key)) key o .delete) := by
  have hself : shown (m.events ++ [Sent.watch .delete key o.obj]) key = none := by
    rw [shown_append]
    exact update_self ..
  have hother : ∀ k, k ≠ key →
      shown (m.events ++ [Sent.watch .delete key o.obj]) k = shown m.events k := fun k hk => by
    rw [shown_append]
    exact update_of_ne hk ..
  exact
    { toHeld := h.toHeld.removes .delete
      sees := fun k => by
        show Sees reg m.graph k _ (shown (m.events ++ [Sent.watch .delete key o.obj]) k)
        rw [find, watchEvent_objects, removeObject_objects]
        by_cases hk : k = key
        · subst hk
          rw [hself, if_pos ⟨rfl, rfl⟩]
          exact ⟨nofun, nofun, nofun⟩
        · rw [hother k hk, if_neg fun heq => hk heq.2]
          exact h.sees k
      closed := by
        show ∀ pre, pre <+: m.events ++ [Sent.watch .delete key o.obj] → _
        refine closed_append h.closed fun k v hv x hx => ?_
        have hne : k ≠ key := by
          rintro rfl
          cases hself.symm.trans hv
        rw [hother k hne] at hv
        have hxne : x ≠ key := by
          rintro rfl
          -- the graph still holds the reference
          obtain ⟨q, hq, hsub, hobj⟩ := (h.sees k).guarded v hv x hx
          obtain ⟨ok, hok⟩ := Option.isSome_iff_exists.mp ((h.sees k).present v hv)
          have hnode := (h.graph k ok hok q hsub).mp hq
          have ht := (h.typed _ k ok hok).2.obj
          rw [← h.registered] at ht
          have hnone := hrefs q hq hobj
          rw [getObject_sKind hk h.pushed ht hnode, hok] at hnone
          cases hnone
        rw [hother x hxne]
        exact h.closed _ (List.prefix_refl _) k v hv x hx }

theorem Held.clock (h : Held reg push kind m) (c : Nat) :
    Held reg push kind { m with clock := c } :=
  { h with }

theorem View.clock (h : View reg push kind m) (c : Nat) :
    View reg push kind { m with clock := c } :=
  ⟨h.toHeld.clock c, h.sees, h.closed⟩

theorem mem_clearReferences : q ∈ (m.clearReferences key).graph ↔ q ∈ m.graph ∧ q.sub ≠ key := by
  simp [clearReferences, updateNode]

/-- The references of an object that is not there are cleared. -/
theorem Held.clears (h : Held reg push kind m) (hkey : m.find kind key = none) :
    Held reg push kind (m.clearReferences key) := { h with
  graph := fun k ok hok q hq => by
    have hne : k ≠ key := by
      rintro rfl
      cases hkey.symm.trans hok
    rw [mem_clearReferences, and_iff_left fun heq => hne (hq.symm.trans heq)]
    exact h.graph k ok hok q hq }

theorem View.clears (h : View reg push kind m) (hkey : m.find kind key = none) :
    View reg push kind (m.clearReferences key) := { h with
  toHeld := h.toHeld.clears hkey
  sees := fun k => { h.sees k with
    guarded := fun v hv x hx => by
      obtain ⟨q, hq, hsub, hobj⟩ := (h.sees k).guarded v hv x hx
      refine ⟨q, mem_clearReferences.mpr ⟨hq, fun heq => ?_⟩, hsub, hobj⟩
      have hsome := (h.sees k).present v hv
      rw [← hsub, heq, hkey] at hsome
      cases hsome } }

/-! ### Ways to store an object -/

theorem Stores.refl (h : Held reg push kind m) (hfind : m.find kind key = some o) :
    Stores kind m m key o where
  registeredKinds := rfl
  pushKinds := rfl
  objects := fun db k => by
    split_ifs with heq
    · rw [heq.1, heq.2]
      exact hfind
    · rfl
  others := fun q _ => Iff.rfl
  self := h.graph key o hfind

/-- The version stays. -/
theorem Stores.setObject (h : Held reg push kind m) (hfind : m.find kind key = some o)
    (o' : ObjState) (hobj : o'.obj = o.obj) :
    Stores kind m (m.setObject (.regular (kind key)) key o') key o' where
  registeredKinds := rfl
  pushKinds := rfl
  objects := fun db k => setObject_objects ..
  others := fun q _ => Iff.rfl
  self := fun q hq => by
    rw [hobj]
    exact h.graph key o hfind q hq

/-- The references are updated with the object. -/
theorem Stores.updateNode (kind : Key → Kind) (m : Memdb) (key : Key) (o : ObjState) (c : Nat) :
    Stores kind m (({ m with graph := MemDb.updateNode m.graph key (m.newNode key o.obj), clock := c } :
      Memdb).setObject (.regular (kind key)) key o) key o where
  registeredKinds := rfl
  pushKinds := rfl
  objects := fun db k => setObject_objects ..
  others := fun q hq => by
    simp only [setObject_graph, MemDb.updateNode, List.mem_append, List.mem_filter,
      decide_eq_true hq, and_true]
    exact or_iff_left fun hmem => hq (mem_newNode.mp hmem).1
  self := fun q hq => by simp [MemDb.updateNode, hq]

/-- The state of the object changes once more. -/
theorem Stores.again (hs : Stores kind m m' key o) (o' : ObjState) (hobj : o'.obj = o.obj) :
    Stores kind m (m'.setObject (.regular (kind key)) key o') key o' := { hs with
  objects := fun db k => by
    rw [setObject_objects, hs.objects]
    split_ifs <;> rfl
  self := fun q hq => by
    rw [hobj]
    exact hs.self q hq }

/-- Events do not matter. -/
theorem Stores.watchEvent (hs : Stores kind m m' key o) (db : Db) (k : Key) (ok : ObjState)
    (et : EventType) : Stores kind m (m'.watchEvent db k ok et) key o :=
  { hs with }

/-- **An object that passes the check references only what is shown.** -/
theorem View.shown_of_check (hk : Kinds push kind) (h : View reg push kind m)
    (hs : Stores kind m m' key o) (ht : Typed reg kind key o.obj)
    (hself : o.resolveState = .resolved → (shown m.events key).isSome) {store : Store}
    (hcheck : addResolvedCheck store m' key = true) :
    ∀ x ∈ o.obj.references reg, (shown m.events x).isSome := by
  intro x hx
  rw [← h.registered] at hx
  obtain ⟨q, hq, rfl⟩ := mem_references (k := key).mp hx
  have hsub := (mem_newNode.mp hq).1
  obtain ⟨ox, hox, hres⟩ := addResolvedCheck_iff.mp hcheck q ((hs.self q hsub).mpr hq) hsub
  rw [← h.registered, ← hs.registeredKinds] at ht
  rw [← hs.newNode] at hq
  rw [getObject_dKind hk (hs.pushKinds.trans h.pushed) ht hq] at hox
  by_cases hkey : q.obj = key
  · rw [hkey] at hox ⊢
    cases hs.find_self.symm.trans hox
    exact hself hres
  · rw [hs.find_of_ne hkey] at hox
    rw [(h.sees _).current ox hox (.inl hres)]
    rfl

end View

/-! ### Stale references -/

/-- Objects that are not there have no references in the graph, but for those of `stale`. -/
structure Fresh (kind : Key → Kind) (stale : List Key) (m : Memdb) : Prop where
  absent : ∀ k ∈ stale, m.find kind k = none
  clear : ∀ k, m.find kind k = none → k ∉ stale → ∀ q ∈ m.graph, q.sub ≠ k

section Fresh

variable {kind : Key → Kind} {m m' : Memdb} {key : Key} {o : ObjState} {stale : List Key}

theorem Fresh.stores (hf : Fresh kind stale m) (hs : Stores kind m m' key o) (hkey : key ∉ stale) :
    Fresh kind stale m' where
  absent := fun k hk => by
    have hne : k ≠ key := fun heq => hkey (heq ▸ hk)
    rw [hs.find_of_ne hne]
    exact hf.absent k hk
  clear := fun k hnone hk q hq hsub => by
    have hne : k ≠ key := by
      rintro rfl
      cases hs.find_self.symm.trans hnone
    rw [hs.find_of_ne hne] at hnone
    exact hf.clear k hnone hk q ((hs.others q fun heq => hne (hsub.symm.trans heq)).mp hq) hsub

theorem Fresh.removes (hf : Fresh kind stale m) (et : EventType) : Fresh kind (stale ++ [key])
    ((m.removeObject (.regular (kind key)) key).watchEvent (.regular (kind key)) key o et) := by
  have hfind : ∀ k, ((m.removeObject (.regular (kind key)) key).watchEvent (.regular (kind key)) key o
      et).find kind k = if k = key then none else m.find kind k := fun k => by
    rw [find, watchEvent_objects, removeObject_objects]
    by_cases hk : k = key
    · rw [if_pos ⟨by rw [hk], hk⟩, if_pos hk]
    · rw [if_neg fun heq => hk heq.2, if_neg hk]
  refine ⟨fun k hk => ?_, fun k hnone hk q hq => ?_⟩
  · rw [hfind]
    split_ifs with heq
    · rfl
    · exact hf.absent k (by simpa [heq] using hk)
  · have hk : k ∉ stale ∧ k ≠ key := by simpa using hk
    rw [hfind, if_neg hk.2] at hnone
    exact hf.clear k hnone hk.1 q hq

theorem Fresh.clears (hf : Fresh kind (key :: stale) m) : Fresh kind stale (m.clearReferences key) where
  absent := fun k hk => hf.absent k (List.mem_cons_of_mem _ hk)
  clear := fun k hnone hk q hq hsub => by
    obtain ⟨hq, hne⟩ := mem_clearReferences.mp hq
    have hkey : k ≠ key := fun heq => hne (hsub.trans heq)
    exact hf.clear k hnone (by simp [hkey, hk]) q hq hsub

end Fresh

end NicSw.MemDb
