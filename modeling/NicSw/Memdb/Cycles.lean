/-
When the loop of `addResolver.trigger` ends.

The loop puts an unresolved referrer on its list before it checks whether the
referrer got resolved, and goes through the referrers of the referrer in any case.
Along a cycle of unresolved objects no one gets resolved, and the loop goes round
for ever.  If no such cycle can be reached from the key, every item of the list
leads to items of lower rank only, and the loop ends.

The order in which referrers are listed matters, as the scan of a predicate stops
at the first referrer that stays unresolved.  So the loop ends in every order
exactly if no cycle can be reached.
-/
import Mathlib.Data.Fintype.Pigeonhole
import NicSw.Memdb.Model
import NicSw.Lib.Worklist

namespace NicSw.MemDb

open List

open Worklist (potential potential_lt)

variable {kind : Key → Kind} {m : Memdb} {store : Store} {key z : Key} {t t' : Trigger}

/-! ### Objects that wait -/

/-- The references name the kinds of the keys at both ends. -/
structure KindedGraph (kind : Key → Kind) (g : List Quad) : Prop where
  sub : ∀ q ∈ g, memDbKind q.pred.sKind = kind q.sub
  obj : ∀ q ∈ g, memDbKind q.pred.dKind = kind q.obj

/-- The object of the key is there and is not resolved. -/
def Memdb.Unresolved (m : Memdb) (kind : Key → Kind) (k : Key) : Prop :=
  ∃ o, m.getObject (kind k) k = some o ∧ o.resolveState ≠ .resolved

/-- Object `x` references `k` and is not resolved. -/
def Memdb.Waits (m : Memdb) (kind : Key → Kind) (k x : Key) : Prop :=
  (∃ p, (⟨x, p, k⟩ : Quad) ∈ m.graph) ∧ m.Unresolved kind x

/-- A cycle of unresolved objects can be reached, from referrer to referrer. -/
def Memdb.Doomed (m : Memdb) (kind : Key → Kind) (k : Key) : Prop :=
  ∃ c, Relation.ReflTransGen (m.Waits kind) k c ∧ Relation.TransGen (m.Waits kind) c c

/-- Objects that are unresolved and each reference one of them. -/
def Stuck (kind : Key → Kind) (C : Key → Prop) (m : Memdb) : Prop :=
  ∀ k, C k → m.Unresolved kind k ∧ ∃ q ∈ m.graph, q.sub = k ∧ C q.obj

variable {C : Key → Prop} {x r k : Key}

theorem Stuck.check (h : Stuck kind C m) (hg : KindedGraph kind m.graph) (hk : C k) :
    addResolvedCheck store m k = false := by
  rw [← Bool.not_eq_true, addResolvedCheck_iff]
  intro hall
  obtain ⟨-, q, hq, hsub, hobj⟩ := h k hk
  obtain ⟨o, ho, hres⟩ := hall q hq hsub
  obtain ⟨⟨o', ho', hne⟩, -⟩ := h q.obj hobj
  rw [hg.obj q hq, ho'] at ho
  cases ho
  exact hne hres

/-! ### What a scan does -/

/-- What the scan of referrers `l` does: it appends unresolved ones, among them all
that it resolves.  Objects that are stuck stay so. -/
structure Swept (kind : Key → Kind) (l : List Key) (t t' : Trigger) : Prop where
  graph : t'.md.graph = t.md.graph
  pushKinds : t'.md.pushKinds = t.md.pushKinds
  unresolved : ∀ k, t'.md.Unresolved kind k → t.md.Unresolved kind k
  stuck : KindedGraph kind t.md.graph → ∀ C, Stuck kind C t.md → Stuck kind C t'.md
  queue : ∃ new, t'.inFlightObjects = t.inFlightObjects ++ new ∧ new.Sublist l ∧
    (∀ x ∈ new, t.md.Unresolved kind x) ∧
    ∀ k, t.md.Unresolved kind k → ¬ t'.md.Unresolved kind k → k ∈ new

theorem Swept.refl (t : Trigger) : Swept kind [] t t :=
  ⟨rfl, rfl, fun _ hk => hk, fun _ _ hC => hC, [], by simp, .refl _, by simp,
    fun _ hk hnot => absurd hk hnot⟩

variable {l l' q : List Key}

theorem Swept.trans {t'' : Trigger} (h : Swept kind l t t') (h' : Swept kind l' t' t'') :
    Swept kind (l ++ l') t t'' := by
  obtain ⟨new, hq, hsub, hun, hres⟩ := h.queue
  obtain ⟨new', hq', hsub', hun', hres'⟩ := h'.queue
  refine ⟨h'.graph.trans h.graph, h'.pushKinds.trans h.pushKinds,
    fun k hk => h.unresolved k (h'.unresolved k hk),
    fun hg C hC => h'.stuck (h.graph ▸ hg) C (h.stuck hg C hC),
    new ++ new', ?_, hsub.append hsub', ?_, ?_⟩
  · rw [hq', hq, append_assoc]
  · intro x hx
    rcases mem_append.mp hx with hx | hx
    · exact hun x hx
    · exact h.unresolved x (hun' x hx)
  · intro k hk hnot
    by_cases hmid : t'.md.Unresolved kind k
    · exact mem_append_right _ (hres' k hmid hnot)
    · exact mem_append_left _ (hres k hk hmid)

theorem Swept.mono (h : Swept kind l t t') (hl : l.Sublist l') : Swept kind l' t t' := by
  obtain ⟨new, hq, hsub, hun, hres⟩ := h.queue
  exact ⟨h.graph, h.pushKinds, h.unresolved, h.stuck, new, hq, hsub.trans hl, hun, hres⟩

/-- What is queued stays queued. -/
theorem Swept.mem_queue (h : Swept kind l t t') (hx : x ∈ t.inFlightObjects) :
    x ∈ t'.inFlightObjects := by
  obtain ⟨new, hq, -⟩ := h.queue
  rw [hq]
  exact mem_append_left _ hx

/-- An object that a scan resolves is queued. -/
theorem Swept.mem_of_resolved (h : Swept kind l t t') (hx : t.md.Unresolved kind x)
    (hnot : ¬ t'.md.Unresolved kind x) : x ∈ t'.inFlightObjects := by
  obtain ⟨new, hq, -, -, hres⟩ := h.queue
  rw [hq]
  exact mem_append_right _ (hres x hx hnot)

/-- An object is resolved, and queued. -/
def Trigger.resolve (t : Trigger) (db : Db) (r : Key) (o : ObjState) (et : EventType) :
    Trigger where
  md := (t.md.watchEvent db r o et).setObject db r { o with resolveState := .resolved, pendingObjs := [] }
  inFlightObjects := t.inFlightObjects ++ [r]
  pendingObjects := t.pendingObjects ++ o.pendingObjs

variable {db : Db} {et : EventType}

theorem getObject_resolve {o : ObjState} :
    (t.resolve db r o et).md.getObject (kind k) k =
      if t.md.getObjectDB (kind k) = db ∧ k = r then
        some { o with resolveState := .resolved, pendingObjs := [] }
      else t.md.getObject (kind k) k := by
  have hdb : (t.resolve db r o et).md.getObjectDB (kind k) = t.md.getObjectDB (kind k) := rfl
  rw [Memdb.getObject, hdb, Trigger.resolve, Memdb.setObject_objects]
  rfl

theorem unresolved_resolve {o : ObjState} :
    (t.resolve (t.md.getObjectDB (kind r)) r o et).md.Unresolved kind k ↔
      k ≠ r ∧ t.md.Unresolved kind k := by
  unfold Memdb.Unresolved
  rw [getObject_resolve]
  by_cases hk : k = r
  · subst hk
    simp
  · simp [hk]

/-- The two things that a scan can do with an unresolved referrer. -/
theorem addScan_cons (store : Store) (l : List Key) (hdb : db = t.md.getObjectDB (kind r)) :
    (¬ t.md.Unresolved kind r ∧ addScan store db (r :: l) t = addScan store db l t) ∨
      ∃ o, t.md.Unresolved kind r ∧ t.md.getObject (kind r) r = some o ∧
        ((addResolvedCheck store t.md r = true ∧
            ∃ et, addScan store db (r :: l) t = addScan store db l (t.resolve db r o et)) ∨
          (addResolvedCheck store t.md r = false ∧
            addScan store db (r :: l) t =
              { t with inFlightObjects := t.inFlightObjects ++ [r] })) := by
  subst hdb
  cases ho : t.md.objects (t.md.getObjectDB (kind r)) r with
  | none =>
    refine .inl ⟨?_, by simp only [addScan, ho]⟩
    rintro ⟨o, hget, -⟩
    rw [Memdb.getObject, ho] at hget
    cases hget
  | some o =>
    by_cases hres : o.resolveState = .resolved
    · refine .inl ⟨?_, by simp only [addScan, ho, if_pos hres]⟩
      rintro ⟨o', hget, hne⟩
      rw [Memdb.getObject, ho] at hget
      cases hget
      exact hne hres
    · refine .inr ⟨o, ⟨o, ho, hres⟩, ho, ?_⟩
      cases hcheck : addResolvedCheck store t.md r with
      | true =>
        refine .inl ⟨rfl, if o.resolveState = .unresolvedUpdate then .update else .create, ?_⟩
        simp only [addScan, ho, if_neg hres, hcheck, if_true]
        rfl
      | false =>
        refine .inr ⟨rfl, ?_⟩
        simp [addScan, ho, if_neg hres, hcheck]

theorem swept_resolve (o : ObjState) (et : EventType) (hr : t.md.Unresolved kind r)
    (hcheck : addResolvedCheck store t.md r = true) :
    Swept kind [r] t (t.resolve (t.md.getObjectDB (kind r)) r o et) := by
  refine ⟨rfl, rfl, fun k hk => (unresolved_resolve.mp hk).2, fun hg C hC k hk => ⟨?_, (hC k hk).2⟩,
    [r], rfl, .refl _, ?_, ?_⟩
  · refine unresolved_resolve.mpr ⟨?_, (hC k hk).1⟩
    rintro rfl
    rw [hC.check hg hk] at hcheck
    cases hcheck
  · simpa using hr
  · intro k hk hnot
    rw [unresolved_resolve, not_and_or, not_not] at hnot
    exact mem_singleton.mpr (hnot.resolve_right fun hc => hc hk)

/-- **The scan of one predicate.** -/
theorem addScan_swept (store : Store) (l : List Key) (hl : ∀ x ∈ l, db = t.md.getObjectDB (kind x)) :
    Swept kind l t (addScan store db l t) := by
  induction l generalizing t with
  | nil => exact .refl t
  | cons r l ih =>
    obtain ⟨hr, hl⟩ := forall_mem_cons.mp hl
    rcases addScan_cons store l hr with
      ⟨-, heq⟩ | ⟨o, hun, -, ⟨hcheck, et, heq⟩ | ⟨-, heq⟩⟩
    · rw [heq]
      exact (ih hl).mono (sublist_cons_self r l)
    · rw [heq]
      have hfirst := swept_resolve o et hun hcheck
      rw [← hr] at hfirst
      exact hfirst.trans (ih fun x hx => hl x hx)
    · rw [heq]
      refine ⟨rfl, rfl, fun k hk => hk, fun _ _ hC => hC, [r], rfl, ?_, by simpa using hun,
        fun k hk hnot => absurd hk hnot⟩
      exact List.Sublist.cons_cons r (nil_sublist l)

/-- The first referrer is queued if it is unresolved. -/
theorem addScan_first (hl : ∀ x ∈ r :: l, db = t.md.getObjectDB (kind x))
    (hr : t.md.Unresolved kind r) : r ∈ (addScan store db (r :: l) t).inFlightObjects := by
  obtain ⟨hdb, hl⟩ := forall_mem_cons.mp hl
  rcases addScan_cons store l hdb with
    ⟨hnot, -⟩ | ⟨o, -, -, ⟨-, et, heq⟩ | ⟨-, heq⟩⟩
  · exact absurd hr hnot
  · rw [heq]
    have hswept : Swept kind l (t.resolve db r o et) (addScan store db l (t.resolve db r o et)) :=
      addScan_swept store l fun x hx => hl x hx
    exact hswept.mem_queue (mem_append_right _ (mem_singleton_self r))
  · rw [heq]
    exact mem_append_right _ (mem_singleton_self r)

/-! ### One item of the list -/

/-- What the store lists for a key are referrers of their kind. -/
theorem referrers_kind (hg : KindedGraph kind m.graph) {c : Nat} {r : Pred × List Key}
    (hr : r ∈ store.referrers c m.graph z) (hx : x ∈ r.2) :
    (⟨x, r.1, z⟩ : Quad) ∈ m.graph ∧ memDbKind r.1.sKind = kind x :=
  have hq := (store.referrers_lists c m.graph z).mem hr hx
  ⟨hq, hg.sub _ hq⟩

/-- The scans of all predicates of a key. -/
theorem addGroups_swept (store : Store) (refs : Refs)
    (hrefs : ∀ r ∈ refs, ∀ x ∈ r.2, memDbKind r.1.sKind = kind x) :
    Swept kind (refs.flatMap Prod.snd) t
      (refs.foldl (fun t r => addScan store (t.md.getObjectDB (memDbKind r.1.sKind)) r.2 t) t) := by
  induction refs generalizing t with
  | nil => exact .refl t
  | cons r refs ih =>
    obtain ⟨hr, hrefs⟩ := forall_mem_cons.mp hrefs
    have hscan : Swept kind r.2 t (addScan store (t.md.getObjectDB (memDbKind r.1.sKind)) r.2 t) :=
      addScan_swept store r.2 fun x hx => by rw [hr x hx]
    exact hscan.trans (ih hrefs)

/-- An unresolved referrer that the store lists first for its predicate is queued. -/
theorem addGroups_first (refs : Refs) (hrefs : ∀ r ∈ refs, ∀ x ∈ r.2, memDbKind r.1.sKind = kind x)
    (hfirst : ∃ p l, (p, x :: l) ∈ refs) (hx : t.md.Unresolved kind x) :
    x ∈ (refs.foldl (fun t r => addScan store (t.md.getObjectDB (memDbKind r.1.sKind)) r.2 t)
      t).inFlightObjects := by
  induction refs generalizing t with
  | nil =>
    obtain ⟨p, l, hmem⟩ := hfirst
    cases hmem
  | cons r refs ih =>
    obtain ⟨hr, hrefs⟩ := forall_mem_cons.mp hrefs
    have hl : ∀ x ∈ r.2, t.md.getObjectDB (memDbKind r.1.sKind) = t.md.getObjectDB (kind x) :=
      fun x hx => by rw [hr x hx]
    have hscan := addScan_swept (t := t) store r.2 hl
    have hrest := addGroups_swept (t := addScan store (t.md.getObjectDB (memDbKind r.1.sKind))
      r.2 t) store refs hrefs
    -- the object may be resolved by the scan of another predicate
    by_cases hres : (addScan store (t.md.getObjectDB (memDbKind r.1.sKind)) r.2 t).md.Unresolved kind x
    · obtain ⟨p, l, hmem⟩ := hfirst
      rcases mem_cons.mp hmem with heq | hmem
      · subst heq
        exact hrest.mem_queue (addScan_first hl hx)
      · exact ih hrefs ⟨p, l, hmem⟩ hres
    · exact hrest.mem_queue (hscan.mem_of_resolved hx hres)

/-- **One item of the list**: unresolved referrers of the key are queued. -/
theorem addProcess_swept (store : Store) (hg : KindedGraph kind t.md.graph) (z : Key) :
    Swept kind ((store.referrers t.md.clock t.md.graph z).flatMap Prod.snd) t
      (addProcess store z t) := by
  have hgroups := addGroups_swept (t := { t with md := { t.md with clock := t.md.clock + 1 } })
    store (store.referrers t.md.clock t.md.graph z) fun _ hr _ hx => (referrers_kind hg hr hx).2
  exact { hgroups with }

/-! ### Without a cycle the loop ends -/

/-- The items that are queued can be reached from the key, and have a rank. -/
structure Below (kind : Key → Kind) (m : Memdb) (key : Key) (rank : Key → Nat) (t : Trigger) :
    Prop where
  graph : t.md.graph = m.graph
  unresolved : ∀ k, t.md.Unresolved kind k → m.Unresolved kind k
  queue : ∀ z ∈ t.inFlightObjects, Relation.ReflTransGen (m.Waits kind) key z ∧ rank z ≤ rank key

/-- Without a cycle there is a rank that goes down from referrer to referrer. -/
theorem exists_waits_rank (h : ¬ m.Doomed kind key) : ∃ rank : Key → Nat, ∀ b x,
    Relation.ReflTransGen (m.Waits kind) key b → m.Waits kind b x → rank x < rank b := by
  let R : Key → Key → Prop := fun b x =>
    Relation.ReflTransGen (m.Waits kind) key b ∧ m.Waits kind b x
  have hfin : ∀ k, {j | Relation.TransGen R k j}.Finite := by
    intro k
    refine (finite_toSet (m.graph.map Quad.sub)).subset fun j hj => ?_
    obtain ⟨c, -, -, ⟨p, hq⟩, -⟩ := Relation.TransGen.tail'_iff.mp hj
    exact mem_map.mpr ⟨_, hq, rfl⟩
  have hac : ∀ k, ¬ Relation.TransGen R k k := by
    intro k hk
    obtain ⟨c, ⟨hreach, -⟩, -⟩ := Relation.TransGen.head'_iff.mp hk
    have hle : R ≤ m.Waits kind := fun _ _ hstep => hstep.2
    exact h ⟨k, hreach, Relation.TransGen.mono hle k k hk⟩
  obtain ⟨rank, hrank⟩ := Worklist.exists_rank hfin hac
  exact ⟨rank, fun b x hb hx => hrank b x ⟨hb, hx⟩⟩

/-- An item leads to fewer items than there are references, all of lower rank. -/
theorem Below.process (store : Store) {rank : Key → Nat} (h : Below kind m key rank t)
    (hg : KindedGraph kind m.graph)
    (hrank : ∀ b x, Relation.ReflTransGen (m.Waits kind) key b → m.Waits kind b x → rank x < rank b)
    (hq : t.inFlightObjects = z :: q) :
    ∃ new, (addProcess store z { t with inFlightObjects := q }).inFlightObjects = q ++ new ∧
      new.length ≤ m.graph.length ∧ (∀ x ∈ new, rank x < rank z) ∧
      Below kind m key rank (addProcess store z { t with inFlightObjects := q }) := by
  have hswept := addProcess_swept (t := { t with inFlightObjects := q }) store
    (show KindedGraph kind t.md.graph from h.graph ▸ hg) z
  obtain ⟨hz, hzle⟩ := h.queue z (hq ▸ mem_cons_self ..)
  obtain ⟨new, heq, hsub, hun, -⟩ := hswept.queue
  have hlists := store.referrers_lists t.md.clock t.md.graph z
  have hwaits : ∀ x ∈ new, m.Waits kind z x := by
    intro x hx
    obtain ⟨r, hr, hxr⟩ := mem_flatMap.mp (hsub.subset hx)
    exact ⟨⟨r.1, h.graph ▸ hlists.mem hr hxr⟩, h.unresolved x (hun x hx)⟩
  refine ⟨new, heq, ?_, fun x hx => hrank z x hz (hwaits x hx), ?_⟩
  · refine hsub.length_le.trans (hlists.length_le (fun p k => ⟨k, p, z⟩) ?_ ?_)
    · intro p k p' k' heq
      exact ⟨congrArg Quad.pred heq, congrArg Quad.sub heq⟩
    · exact fun p k hmem => h.graph ▸ hmem
  · refine ⟨hswept.graph.trans h.graph, fun k hk => h.unresolved k (hswept.unresolved k hk), ?_⟩
    intro x hx
    rw [heq] at hx
    rcases mem_append.mp hx with hx | hx
    · exact h.queue x (hq ▸ mem_cons_of_mem z hx)
    · exact ⟨hz.tail (hwaits x hx), (Nat.le_of_lt (hrank z x hz (hwaits x hx))).trans hzle⟩

/-- **The loop ends** when no cycle can be reached. -/
theorem addLoop_ends (hg : KindedGraph kind m.graph) (h : ¬ m.Doomed kind key) (store : Store) :
    ∃ n t, addLoop store n ⟨m, [key], []⟩ = .ok t := by
  obtain ⟨rank, hrank⟩ := exists_waits_rank h
  -- the bound of the queue, for the rank counted from the top
  have hloop : ∀ n t, Below kind m key rank t → potential (fun k => rank key - rank k)
      m.graph.length (rank key) t.inFlightObjects < n → ∃ t', addLoop store n t = .ok t' := by
    intro n
    induction n with
    | zero => exact fun t _ hlt => absurd hlt (Nat.not_lt_zero _)
    | succ n ih =>
      intro t hbelow hlt
      cases hq : t.inFlightObjects with
      | nil => exact ⟨t, by simp only [addLoop, hq]⟩
      | cons z q =>
        obtain ⟨new, heq, hlen, hlower, hbelow'⟩ := hbelow.process store hg hrank hq
        have hzle := (hbelow.queue z (hq ▸ mem_cons_self ..)).2
        have hdown : potential (fun k => rank key - rank k) m.graph.length (rank key) (q ++ new)
            < potential (fun k => rank key - rank k) m.graph.length (rank key) (z :: q) := by
          refine potential_lt hlen fun k hk => ⟨?_, Nat.sub_le _ _⟩
          have := hlower k hk
          omega
        obtain ⟨t', ht'⟩ := ih _ hbelow' (by rw [heq]; rw [hq] at hlt; omega)
        exact ⟨t', by simp only [addLoop, hq, ht']⟩
  obtain ⟨t, ht⟩ := hloop _ ⟨m, [key], []⟩ ⟨rfl, fun _ hk => hk, fun z hz => by
    rw [mem_singleton.mp hz]
    exact ⟨.refl, Nat.le_refl _⟩⟩ (Nat.lt_succ_self _)
  exact ⟨_, t, ht⟩

/-! ### With a cycle there is an order without end -/

theorem Memdb.Doomed.next (h : m.Doomed kind k) : ∃ x, m.Waits kind k x ∧ m.Doomed kind x := by
  obtain ⟨c, hreach, hcycle⟩ := h
  rcases Relation.ReflTransGen.cases_head hreach with rfl | ⟨x, hx, hxc⟩
  · obtain ⟨x, hx, hxc⟩ := Relation.TransGen.head'_iff.mp hcycle
    exact ⟨x, hx, k, hxc, hcycle⟩
  · exact ⟨x, hx, c, hxc, hcycle⟩

/-- The store that lists `next k` first among the referrers of `k`. -/
def Store.guided (next : Key → Key) : Store where
  references := (Store.putFirst fun _ => false).references
  referrers := fun t g k => (Store.putFirst (· = next k)).referrers t g k
  references_lists := (Store.putFirst fun _ => false).references_lists
  referrers_lists := fun t g k => (Store.putFirst (· = next k)).referrers_lists t g k

variable {next : Key → Key}

theorem Store.guided_first {c : Nat} {g : List Quad} {p : Pred} (hq : (⟨next k, p, k⟩ : Quad) ∈ g) :
    ∃ p l, (p, next k :: l) ∈ (Store.guided next).referrers c g k := by
  obtain ⟨l, hl, hmem⟩ := (((Store.guided next).referrers_lists c g k).mem_iff p (next k)).mpr hq
  obtain ⟨l1, l2, heq, h1, h2⟩ : ∃ l1 l2, l = l1 ++ l2 ∧
      (∀ x ∈ l1, decide (x = next k) = true) ∧ ∀ x ∈ l2, decide (x = next k) = false :=
    group_putFirst hl
  cases l1 with
  | nil =>
    rw [heq] at hmem
    exact absurd (h2 _ hmem) (by simp)
  | cons x l1 =>
    obtain rfl : x = next k := by simpa using h1 x (mem_cons_self ..)
    rw [heq] at hl
    exact ⟨p, l1 ++ l2, hl⟩

/-- The last item of the path that was resolved or queued is queued. -/
structure Endless (kind : Key → Kind) (m : Memdb) (d : Nat → Key) (N : Nat) (t : Trigger) :
    Prop where
  graph : t.md.graph = m.graph
  stuck : Stuck kind (fun k => ∃ i, N ≤ i ∧ d i = k) t.md
  queue : ∃ j, d j ∈ t.inFlightObjects ∧ ∀ i, j < i → t.md.Unresolved kind (d i)

/-- After an item was processed, another item of the path is queued. -/
theorem Endless.process {d : Nat → Key} {N : Nat} (h : Endless kind m d N t)
    (hg : KindedGraph kind m.graph) (hnext : ∀ i, next (d i) = d (i + 1))
    (hwaits : ∀ i, ∃ p, (⟨d (i + 1), p, d i⟩ : Quad) ∈ m.graph) (hq : t.inFlightObjects = z :: q) :
    Endless kind m d N (addProcess (.guided next) z { t with inFlightObjects := q }) := by
  have hg' : KindedGraph kind t.md.graph := h.graph ▸ hg
  have hswept := addProcess_swept (t := { t with inFlightObjects := q }) (.guided next) hg' z
  have hstuck := hswept.stuck hg' _ h.stuck
  obtain ⟨j, hj, hlater⟩ := h.queue
  refine ⟨hswept.graph.trans h.graph, hstuck, ?_⟩
  generalize ht' : addProcess (.guided next) z { t with inFlightObjects := q } = t' at hswept hstuck ⊢
  -- from which index on the path is unresolved
  have hex : ∃ K, ∀ i, K ≤ i → t'.md.Unresolved kind (d i) :=
    ⟨N, fun i hi => (hstuck (d i) ⟨i, hi, rfl⟩).1⟩
  classical
  have hK := Nat.find_spec hex
  have hmin : ∀ K', K' < Nat.find hex → ¬ ∀ i, K' ≤ i → t'.md.Unresolved kind (d i) :=
    fun K' hlt => Nat.find_min hex hlt
  generalize Nat.find hex = K at hK hmin
  by_cases hle : K ≤ j + 1
  · rcases mem_cons.mp (hq ▸ hj) with rfl | hmem
    · -- the item itself was processed: its successor is listed first
      refine ⟨j + 1, ?_, fun i hi => hK i (by omega)⟩
      obtain ⟨p, hp⟩ := hwaits j
      rw [← ht', addProcess]
      refine addGroups_first _ (fun _ hr _ hx => (referrers_kind hg' hr hx).2) ?_
        (hlater (j + 1) (Nat.lt_succ_self j))
      rw [← hnext j]
      refine Store.guided_first (p := p) ?_
      rw [hnext j]
      exact h.graph ▸ hp
    · exact ⟨j, hswept.mem_queue hmem, fun i hi => hK i (by omega)⟩
  · -- an item further on was resolved, and with that queued
    have hnot := hmin (K - 1) (by omega)
    refine ⟨K - 1, hswept.mem_of_resolved (hlater (K - 1) (by omega)) fun hun => hnot ?_,
      fun i hi => hK i (by omega)⟩
    intro i hi
    rcases Nat.eq_or_lt_of_le hi with rfl | hlt
    · exact hun
    · exact hK i (by omega)

/-- A path from referrer to referrer that comes back to where it was. -/
theorem Memdb.Doomed.exists_path (h : m.Doomed kind key) : ∃ (next : Key → Key) (d : Nat → Key)
    (N p : Nat), d 0 = key ∧ (∀ i, next (d i) = d (i + 1)) ∧
      (∀ i, m.Waits kind (d i) (d (i + 1))) ∧ 0 < p ∧ ∀ i, N ≤ i → d (i + p) = d i := by
  classical
  let next : Key → Key := fun k => if hk : m.Doomed kind k then hk.next.choose else k
  let d : Nat → Key := fun i => next^[i] key
  have hsucc : ∀ i, next (d i) = d (i + 1) := fun i => (Function.iterate_succ_apply' next i key).symm
  have hspec : ∀ k (hk : m.Doomed kind k), m.Waits kind k (next k) ∧ m.Doomed kind (next k) := by
    intro k hk
    have heq : next k = hk.next.choose := dif_pos hk
    rw [heq]
    exact hk.next.choose_spec
  have hdoomed : ∀ i, m.Doomed kind (d i) := by
    intro i
    induction i with
    | zero => exact h
    | succ i ih =>
      rw [← hsucc]
      exact (hspec _ ih).2
  have hwaits : ∀ i, m.Waits kind (d i) (d (i + 1)) := by
    intro i
    rw [← hsucc]
    exact (hspec _ (hdoomed i)).1
  -- the referrers are finitely many, so the path meets one of them again
  have hmem : ∀ i, d (i + 1) ∈ (m.graph.map Quad.sub).toFinset := by
    intro i
    obtain ⟨⟨p, hq⟩, -⟩ := hwaits i
    exact mem_toFinset.mpr (mem_map.mpr ⟨_, hq, rfl⟩)
  obtain ⟨i, j, hne, heq⟩ := Finite.exists_ne_map_eq_of_infinite
    fun i => (⟨d (i + 1), hmem i⟩ : (m.graph.map Quad.sub).toFinset)
  have hagain : ∀ i j, i < j → d (i + 1) = d (j + 1) →
      ∃ N p, 0 < p ∧ ∀ i, N ≤ i → d (i + p) = d i := by
    intro i j hlt heq
    refine ⟨i + 1, j - i, by omega, fun k hk => ?_⟩
    obtain ⟨e, rfl⟩ := Nat.exists_eq_add_of_le hk
    have hadd : ∀ a, d (a + e) = next^[e] (d a) := fun a => by
      rw [Nat.add_comm]
      exact Function.iterate_add_apply next e a key
    rw [show i + 1 + e + (j - i) = j + 1 + e by omega, hadd, hadd, heq]
  have heq : d (i + 1) = d (j + 1) := congrArg Subtype.val heq
  obtain ⟨N, p, hp, hper⟩ := (Nat.lt_or_gt_of_ne hne).elim (hagain i j · heq) (hagain j i · heq.symm)
  exact ⟨next, d, N, p, rfl, hsucc, hwaits, hp, hper⟩

/-- The loop goes along the path for ever. -/
theorem addLoop_guided (hg : KindedGraph kind m.graph) {d : Nat → Key} {N p : Nat}
    (hzero : d 0 = key) (hnext : ∀ i, next (d i) = d (i + 1))
    (hwaits : ∀ i, m.Waits kind (d i) (d (i + 1))) (hp : 0 < p)
    (hper : ∀ i, N ≤ i → d (i + p) = d i) (n : Nat) (t : Trigger) :
    addLoop (.guided next) n ⟨m, [key], []⟩ ≠ .ok t := by
  have hloop : ∀ n t, Endless kind m d N t → ∀ t', addLoop (.guided next) n t ≠ .ok t' := by
    intro n
    induction n with
    | zero =>
      intro t _ t' heq
      cases heq
    | succ n ih =>
      intro t hend t'
      cases hq : t.inFlightObjects with
      | nil =>
        obtain ⟨j, hj, -⟩ := hend.queue
        rw [hq] at hj
        cases hj
      | cons z q =>
        simp only [addLoop, hq]
        exact ih _ (hend.process hg hnext (fun i => (hwaits i).1) hq) t'
  refine hloop n _ ⟨rfl, ?_, 0, ?_, ?_⟩ t
  · -- an item of the cycle references the one before it
    rintro k ⟨i, hi, rfl⟩
    have hlast : i + p - 1 + 1 = i + p := by omega
    obtain ⟨⟨pr, hq⟩, hun⟩ := hwaits (i + p - 1)
    rw [hlast, hper i hi] at hq hun
    exact ⟨hun, _, hq, rfl, i + p - 1, by omega, rfl⟩
  · rw [hzero]
    exact mem_singleton_self key
  · intro i hi
    obtain ⟨-, hun⟩ := hwaits (i - 1)
    rwa [show i - 1 + 1 = i by omega] at hun

/-- **The loop does not end** in some order when a cycle can be reached. -/
theorem addLoop_endless (hg : KindedGraph kind m.graph) (h : m.Doomed kind key) :
    ∃ store, ∀ n t, addLoop store n ⟨m, [key], []⟩ ≠ .ok t := by
  obtain ⟨next, d, N, p, hzero, hnext, hwaits, hp, hper⟩ := h.exists_path
  exact ⟨.guided next, addLoop_guided hg hzero hnext hwaits hp hper⟩

/-- **The loop of `addResolver.trigger`** ends in every order exactly if no cycle of
unresolved objects can be reached from the key. -/
theorem addTrigger_ends_iff (hg : KindedGraph kind m.graph) :
    (∀ store, ∃ n t, addLoop store n ⟨m, [key], []⟩ = .ok t) ↔ ¬ m.Doomed kind key := by
  constructor
  · intro hends hdoomed
    obtain ⟨store, hnot⟩ := addLoop_endless hg hdoomed
    obtain ⟨n, t, ht⟩ := hends store
    exact hnot n t ht
  · exact addLoop_ends hg

/-! ### Two objects that reference each other -/

/-- The kind of a key, under its own number. -/
def ownKind (k : Key) : Kind := .other k

/-- An object of kind `ownKind key` that references the keys of `refs`, one in each field. -/
def pointing (key : Key) (refs : List Key) : Object :=
  ⟨ownKind key, refs.map fun r => ⟨r, ownKind r, [r]⟩, 0⟩

/-- Objects 1 and 2 reference each other, and object 1 references object 3. -/
def mutualAdds : List Call :=
  [addObjectWithReferences 1 (pointing 1 [2, 3]), addObjectWithReferences 2 (pointing 2 [1])]

/-- The path from object 3 to object 1, and round and round. -/
def roundNext (k : Key) : Key := if k = 1 then 2 else 1

def roundPath : Nat → Key
  | 0 => 3
  | i + 1 => roundNext (roundPath i)

theorem roundPath_mem (i : Nat) : roundPath (i + 1) ∈ [1, 2] := by
  rw [roundPath, roundNext]
  split_ifs <;> decide

/-- A trigger whose loop does not end does not return. -/
theorem addTrigger_ne_ok {next : Memdb → Call → Run} {n : Nat} {m' : Memdb}
    (h : ∀ t, addLoop store n ⟨m, [key], []⟩ ≠ .ok t) : addTrigger store next n m key ≠ .ok m' := by
  intro heq
  cases hl : addLoop store n ⟨m, [key], []⟩ with
  | ok t => exact h t hl
  | error e =>
    rw [addTrigger, hl] at heq
    cases heq

/-- The state in which the add of object 3 goes through the referrers. -/
theorem exists_roundState : ∃ m m3, (newMemdb (fun _ => true) fun _ => false).calls
      (.guided roundNext) 5 mutualAdds = .ok m ∧
    (∀ n, m.call (.guided roundNext) (n + 1) (addObjectWithReferences 3 (pointing 3 [])) =
      addTrigger (.guided roundNext) (Memdb.call (.guided roundNext) n) n m3 3) ∧
    (∀ q ∈ m3.graph, memDbKind q.pred.sKind = ownKind q.sub ∧
      memDbKind q.pred.dKind = ownKind q.obj) ∧
    (∀ e ∈ [((1 : Key), (3 : Key)), (2, 1), (1, 2)], ∃ q ∈ m3.graph, q.sub = e.1 ∧ q.obj = e.2) ∧
    ∀ k ∈ [1, 2], (m3.getObject (ownKind k) k).map (·.resolveState) = some .unresolvedAdd :=
  ⟨_, _, rfl, fun _ => rfl, by decide, by decide, by decide⟩

/-- The add of object 3 does not return, whatever the fuel. -/
theorem add_endless : ∃ m, (newMemdb (fun _ => true) fun _ => false).calls (.guided roundNext) 5
      mutualAdds = .ok m ∧
    ∀ n m', m.call (.guided roundNext) n (addObjectWithReferences 3 (pointing 3 [])) ≠ .ok m' := by
  obtain ⟨m, m3, hm, hcall, hkinds, hedges, hun⟩ := exists_roundState
  refine ⟨m, hm, fun n m' => ?_⟩
  cases n with
  | zero =>
    intro heq
    cases heq
  | succ n =>
    rw [hcall]
    have hg : KindedGraph ownKind m3.graph :=
      ⟨fun q hq => (hkinds q hq).1, fun q hq => (hkinds q hq).2⟩
    have hwaits : ∀ k ∈ [3, 1, 2], m3.Waits ownKind k (roundNext k) := by
      intro k hk
      have hedge : ∀ k ∈ [3, 1, 2], (roundNext k, k) ∈ [((1 : Key), (3 : Key)), (2, 1), (1, 2)] ∧
          roundNext k ∈ [1, 2] := by decide
      obtain ⟨⟨s, p, o⟩, hq, hs, ho⟩ := hedges _ (hedge k hk).1
      obtain rfl : s = roundNext k := hs
      obtain rfl : o = k := ho
      obtain ⟨o, ho, hstate⟩ := Option.map_eq_some_iff.mp (hun _ (hedge _ hk).2)
      exact ⟨⟨p, hq⟩, o, ho, by rw [hstate]; decide⟩
    have hmem : ∀ i, roundPath i ∈ [3, 1, 2] := by
      intro i
      cases i with
      | zero => decide
      | succ i => exact mem_cons_of_mem _ (roundPath_mem i)
    have hper : ∀ i, 1 ≤ i → roundPath (i + 2) = roundPath i := by
      intro i hi
      have hround : ∀ k ∈ [1, 2], roundNext (roundNext k) = k := by decide
      obtain ⟨i, rfl⟩ := Nat.exists_eq_add_of_le' hi
      exact hround _ (roundPath_mem i)
    have hstart : roundPath 0 = 3 := rfl
    exact addTrigger_ne_ok fun t => addLoop_guided hg hstart (fun _ => rfl)
      (fun i => hwaits _ (hmem i)) (by decide : 0 < 2) hper n t

/-- One object that references another: the trigger of the other ends. -/
theorem addTrigger_ends_iff_pointing : ∃ m, (newMemdb (fun _ => true) fun _ => false).calls
      (.guided roundNext) 5 [addObjectWithReferences 2 (pointing 2 [3])] = .ok m ∧
    KindedGraph ownKind m.graph ∧ ∀ store, ∃ n t, addLoop store n ⟨m, [3], []⟩ = .ok t := by
  obtain ⟨m, hm, hgraph⟩ : ∃ m, (newMemdb (fun _ => true) fun _ => false).calls
      (.guided roundNext) 5 [addObjectWithReferences 2 (pointing 2 [3])] = .ok m ∧
      m.graph = [⟨2, ⟨ownKind 2, ownKind 3, 3⟩, 3⟩] := ⟨_, rfl, rfl⟩
  have hg : KindedGraph ownKind m.graph := by
    rw [hgraph]
    exact ⟨by decide, by decide⟩
  refine ⟨m, hm, hg, (addTrigger_ends_iff hg).mpr ?_⟩
  have hedge : ∀ b x, m.Waits ownKind b x → b = 3 ∧ x = 2 := by
    rintro b x ⟨⟨p, hq⟩, -⟩
    rw [hgraph, mem_singleton] at hq
    exact ⟨congrArg Quad.obj hq, congrArg Quad.sub hq⟩
  rintro ⟨c, -, hcycle⟩
  obtain ⟨x, hx, -⟩ := Relation.TransGen.head'_iff.mp hcycle
  obtain ⟨y, -, hy⟩ := Relation.TransGen.tail'_iff.mp hcycle
  exact absurd ((hedge c x hx).1.symm.trans (hedge y c hy).2) (by decide)

end NicSw.MemDb
