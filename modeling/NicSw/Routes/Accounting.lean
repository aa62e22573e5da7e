/-
What the route tables hold, over any sequence of committed batches.

A batch reserves for its new and updated tables, and then activates them; the object that
an update or a delete replaces keeps its blocks until its delayed delete runs.  Every
block in use has one owner at all times.  Between batches the owners are the live tables,
and the DNAT block of each is as large as its routes need, as long as no table that has
DNAT routes is updated.
-/
import NicSw.Routes.Impl

namespace NicSw.Routes

open Prod (fst snd)

open List

variable {K I A : Type}

/-! ### Committed batches -/

/-- `route_table`: its routes as persisted, and its `impl_`. -/
structure Table (I A : Type) where
  info : RouteInfo I A
  impl : Impl

def Table.held (t : Table I A) : List Res := t.impl.held t.info.af

/-- The tables in the database, the objects that the batch at hand has reserved for, the
objects in delayed delete, and what is in use. -/
structure System (K I A : Type) where
  db : List (K × Table I A)
  reserved : List (K × Table I A)
  delayed : List (Table I A)
  used : Finset Res

/-- `reserve_resources` on a new object, or on the clone of one. -/
def System.reserve (s : System K I A) (ix : Indexers) (k : K) (impl : Impl)
    (info : RouteInfo I A) : System K I A :=
  let r := reserveResources ix s.used impl (.ok info)
  { s with reserved := (k, ⟨info, r.impl⟩) :: s.reserved, used := r.used }

/-- The steps of batches that commit (`activate_config_`), and delayed deletes.  Only the
tables with `P` are updated.  The containers have no order that counts. -/
inductive Step (ix : Indexers) (P : Table I A → Prop) : System K I A → System K I A → Prop
  | create {s : System K I A} {k : K} {info : RouteInfo I A}
      (hnew : k ∉ (s.db ++ s.reserved).map fst)
      (hok : (reserveResources ix s.used {} (.ok info)).ret = .ok) :
      Step ix P s (s.reserve ix k {} info)
  | update {s : System K I A} {k : K} {t : Table I A} {info : RouteInfo I A}
      (hin : (k, t) ∈ s.db) (hone : k ∉ s.reserved.map fst) (haf : info.af = t.info.af)
      (hP : P t) (hok : (reserveResources ix s.used t.impl (.ok info)).ret = .ok) :
      Step ix P s (s.reserve ix k t.impl info)
  | activateCreate {db reserved : List (K × Table I A)} {delayed : List (Table I A)}
      {used : Finset Res} {k : K} {t : Table I A} (hnew : k ∉ db.map fst) :
      Step ix P ⟨db, (k, t) :: reserved, delayed, used⟩ ⟨(k, t) :: db, reserved, delayed, used⟩
  | activateUpdate {db reserved : List (K × Table I A)} {delayed : List (Table I A)}
      {used : Finset Res} {k : K} {old t : Table I A} :
      Step ix P ⟨(k, old) :: db, (k, t) :: reserved, delayed, used⟩
        ⟨(k, t) :: db, reserved, old :: delayed, used⟩
  | activateDelete {db reserved : List (K × Table I A)} {delayed : List (Table I A)}
      {used : Finset Res} {k : K} {old : Table I A} (hone : k ∉ reserved.map fst) :
      Step ix P ⟨(k, old) :: db, reserved, delayed, used⟩ ⟨db, reserved, old :: delayed, used⟩
  | destroy {db reserved : List (K × Table I A)} {delayed : List (Table I A)}
      {used : Finset Res} {old : Table I A} :
      Step ix P ⟨db, reserved, old :: delayed, used⟩
        ⟨db, reserved, delayed, releaseResources used old.info.af old.impl⟩
  | reorder {db db' reserved reserved' : List (K × Table I A)}
      {delayed delayed' : List (Table I A)} {used : Finset Res} (hdb : db.Perm db')
      (hreserved : reserved.Perm reserved') (hdelayed : delayed.Perm delayed') :
      Step ix P ⟨db, reserved, delayed, used⟩ ⟨db', reserved', delayed', used⟩

/-- The states that such steps lead to from the empty system. -/
def Reached (ix : Indexers) (P : Table I A → Prop) : System K I A → Prop :=
  Relation.ReflTransGen (Step ix P) ⟨[], [], [], ∅⟩

/-! ### Owners -/

/-- A table holds an LPM block, and DNAT entries for the routes that it has now. -/
structure Table.Exact (t : Table I A) : Prop where
  lpm : t.impl.lpmRoot.isSome
  dnat : t.impl.numDnatEntries = t.info.dnatRoutes
  base : t.impl.numDnatEntries ≠ 0 → t.impl.dnatBaseIdx.isSome

/-- **The accounts are right**: each of the tables holds what it needs, no two hold the
same, and what they hold is what is in use. -/
structure Accounted (tables : List (Table I A)) (used : Finset Res) : Prop where
  exact : ∀ t ∈ tables, t.Exact
  nodup : (tables.flatMap Table.held).Nodup
  used : ∀ x, x ∈ used ↔ x ∈ tables.flatMap Table.held

variable {used : Finset Res} {l : List (Table I A)}

theorem Accounted.perm {l' : List (Table I A)} (h : Accounted l used) (hperm : l.Perm l') :
    Accounted l' used := by
  have hflat := hperm.flatMap_right Table.held
  exact ⟨fun t ht => h.exact t (hperm.mem_iff.mpr ht), hflat.nodup_iff.mp h.nodup,
    fun x => (h.used x).trans hflat.mem_iff⟩

variable {ix : Indexers}

/-- A reservation from an object that counts no DNAT entries. -/
theorem Accounted.reserve (h : Accounted l used) {impl : Impl} {info : RouteInfo I A}
    (hzero : impl.numDnatEntries = 0) (hok : (reserveResources ix used impl (.ok info)).ret = .ok) :
    Accounted (⟨info, (reserveResources ix used impl (.ok info)).impl⟩ :: l)
      (reserveResources ix used impl (.ok info)).used := by
  obtain ⟨hnodup, hfree, hused, hlpm, hnum, hbase⟩ := reserveResources_ok hok
  refine ⟨fun t ht => ?_, ?_, fun x => ?_⟩
  · rcases mem_cons.mp ht with rfl | ht
    · exact ⟨hlpm, by rw [hnum, hzero, Nat.zero_add], hbase⟩
    · exact h.exact t ht
  · rw [flatMap_cons, nodup_append]
    exact ⟨hnodup, h.nodup, fun x hx y hy hxy => hfree x hx ((h.used x).mpr (hxy ▸ hy))⟩
  · rw [hused, Finset.mem_union, mem_toFinset, h.used, flatMap_cons, mem_append]
    exact or_comm

theorem Accounted.release {t : Table I A} (h : Accounted (t :: l) used) :
    Accounted l (releaseResources used t.info.af t.impl) := by
  have hnodup := h.nodup
  rw [flatMap_cons, nodup_append] at hnodup
  obtain ⟨-, hrest, hdisj⟩ := hnodup
  refine ⟨fun t' ht => h.exact t' (mem_cons_of_mem _ ht), hrest, fun x => ?_⟩
  have hx := h.used x
  rw [flatMap_cons, mem_append] at hx
  rw [releaseResources, Finset.mem_sdiff, mem_toFinset, hx]
  exact ⟨fun ⟨hor, hnot⟩ => hor.resolve_left hnot,
    fun hin => ⟨.inr hin, fun hheld => hdisj x hheld x hin rfl⟩⟩

/-- Everything that owns blocks. -/
def System.objects (s : System K I A) : List (Table I A) :=
  s.db.map snd ++ (s.reserved.map snd ++ s.delayed)

/-- The updated tables have no DNAT routes. -/
def NoDnat (t : Table I A) : Prop := t.info.dnatRoutes = 0

/-- Each step keeps the accounts of all owners. -/
theorem Accounted.step {s s' : System K I A} (h : Accounted s.objects s.used)
    (hstep : Step ix NoDnat s s') : Accounted s'.objects s'.used := by
  cases hstep with
  | create hnew hok => exact (h.reserve rfl hok).perm perm_middle.symm
  | @update _ k t info hin hone haf hP hok =>
    have ht : t ∈ s.objects := mem_append_left _ (mem_map_of_mem hin)
    exact (h.reserve ((h.exact t ht).dnat.trans hP) hok).perm perm_middle.symm
  | activateCreate hnew => exact h.perm perm_middle
  | @activateUpdate db reserved delayed used k old t =>
    -- the old object goes to the end, and the new one to its place
    refine h.perm ?_
    show (old :: (db.map snd ++ t :: (reserved.map snd ++ delayed))).Perm
      (t :: (db.map snd ++ (reserved.map snd ++ old :: delayed)))
    rw [← append_assoc _ _ (old :: delayed)]
    refine (List.Perm.cons old perm_middle).trans ((List.Perm.swap _ _ _).trans ?_)
    rw [← append_assoc]
    exact List.Perm.cons t perm_middle.symm
  | @activateDelete db reserved delayed used k old hone =>
    refine h.perm ?_
    show (old :: (db.map snd ++ (reserved.map snd ++ delayed))).Perm
      (db.map snd ++ (reserved.map snd ++ old :: delayed))
    rw [← append_assoc, ← append_assoc]
    exact perm_middle.symm
  | @destroy db reserved delayed used old =>
    refine (h.perm ?_).release
    show (db.map snd ++ (reserved.map snd ++ old :: delayed)).Perm
      (old :: (db.map snd ++ (reserved.map snd ++ delayed)))
    rw [← append_assoc, ← append_assoc]
    exact perm_middle
  | reorder hdb hreserved hdelayed =>
    exact h.perm ((hdb.map _).append ((hreserved.map _).append hdelayed))

/-- **Between batches the live tables own what is in use**, if every update is of a table
without DNAT routes. -/
theorem Reached.all_accounted {ix : Indexers} {s : System K I A} (h : Reached ix NoDnat s)
    (hreserved : s.reserved = []) (hdelayed : s.delayed = []) :
    Accounted (s.db.map snd) s.used := by
  have hobjects : Accounted s.objects s.used := by
    clear hreserved hdelayed
    induction h with
    | refl => exact ⟨by simp [System.objects], by simp [System.objects], by simp [System.objects]⟩
    | tail _ hstep ih => exact ih.step hstep
  simpa [System.objects, hreserved, hdelayed] using hobjects

/-! ### A table that is updated -/

/-- Indexers that give the first free block below a bound. -/
def firstFit (bound : Nat) : Indexers where
  alloc af used := (List.range bound).find? fun b => .lpm af b ∉ used
  allocBlock n used := (List.range bound).find? fun b => ∀ i ∈ List.range' b n, .dnat i ∉ used
  alloc_free h := by simpa using find?_some h
  allocBlock_free h := by simpa using find?_some h

/-- A table is created and updated, and the delayed delete has run. -/
theorem reached_update {P : Table I A → Prop} (k : K) (i1 i2 : RouteInfo I A)
    (h1 : (reserveResources ix ∅ {} (.ok i1)).ret = .ok) (haf : i2.af = i1.af)
    (hP : P ⟨i1, (reserveResources ix ∅ {} (.ok i1)).impl⟩)
    (h2 : (reserveResources ix (reserveResources ix ∅ {} (.ok i1)).used
      (reserveResources ix ∅ {} (.ok i1)).impl (.ok i2)).ret = .ok) :
    let r1 := reserveResources ix ∅ {} (.ok i1)
    let r2 := reserveResources ix r1.used r1.impl (.ok i2)
    Reached ix P ⟨[(k, ⟨i2, r2.impl⟩)], [], [], releaseResources r2.used i1.af r1.impl⟩ := by
  intro r1 r2
  have hcreate : Reached ix P ⟨[], [(k, ⟨i1, r1.impl⟩)], [], r1.used⟩ :=
    .tail .refl (.create (by simp) h1)
  have hlive := hcreate.tail (.activateCreate (by simp))
  have hupdate := hlive.tail (.update mem_cons_self (by simp) haf hP h2)
  exact (hupdate.tail .activateUpdate).tail .destroy

/-- A route, with or without DNAT. -/
def someRoute (dstNat : Bool) : RouteInfo Nat Unit := ⟨.v4, false, [⟨1, ⟨0, 0, dstNat, ()⟩⟩]⟩

/-- A DNAT route is added to a table that has none. -/
theorem Reached.all_accounted_update :
    let r1 := reserveResources (firstFit 4) ∅ {} (.ok (someRoute false))
    let r2 := reserveResources (firstFit 4) r1.used r1.impl (.ok (someRoute true))
    Accounted [⟨someRoute true, r2.impl⟩] (releaseResources r2.used .v4 r1.impl) :=
  Reached.all_accounted (reached_update 0 (someRoute false) (someRoute true) (by decide) rfl
    (by unfold NoDnat; decide) (by decide)) rfl rfl

/-- A table with a DNAT route is updated, and has two DNAT entries. -/
theorem not_accounted_dnat :
    ∃ s : System Nat Nat Unit, Reached (firstFit 4) (fun _ => True) s ∧ s.reserved = [] ∧
      s.delayed = [] ∧ ¬ Accounted (s.db.map snd) s.used := by
  refine ⟨_, reached_update 0 (someRoute true) (someRoute true) (by decide) rfl trivial
    (by decide), rfl, rfl, fun h => ?_⟩
  have hdnat := (h.exact _ mem_cons_self).dnat
  revert hdnat
  decide

end NicSw.Routes
