/-
Snapshots of the API cache are isolated from later writes.

A run is followed together with the snapshots that were started in it and not deleted
since, each with what `Get` returned when it was started.  `Inv` holds along every run
whose writes go forward: each object can be read by each of those snapshots.  A key
that is created after the newest snapshot and then written again has a version filed
under that snapshot, although it was not there: this is where isolation fails.
-/
import NicSw.ApiCache.Versions
import NicSw.Lib.Run

namespace NicSw.ApiCache

variable {α : Type}

/-! ### Runs -/

/-- The operations on a store. -/
inductive Op (α : Type)
  | set (key : Key) (rev : Nat) (obj : α) (now : Nat)
  | delete (key : Key) (rev now : Nat)
  | startSnapshot
  | deleteSnapshot (rev : Nat)
  | purgeDeleted (past : Nat) (clock : Nat → Nat) (order : List Key → List Key)

/-- The key and the revision of a write. -/
def Op.written : Op α → Option (Key × Nat)
  | .set key rev _ _ => some (key, rev)
  | .delete key rev _ => some (key, rev)
  | _ => none

/-- A store in a run.  `last` is the revision of the last write, and `taken` are the
snapshots that were started and not deleted since, with what was there. -/
structure Hist (α : Type) where
  store : Store α
  last : Nat
  taken : List (Nat × (Key → Option α))

/-- The start of a run. -/
def Hist.init (α : Type) : Hist α := ⟨newStore α, 0, []⟩

/-- One operation; `none` is a panic. -/
def Hist.step (h : Hist α) : Op α → Option (Hist α)
  | .set key rev obj now =>
    (h.store.set key rev obj now).map fun r => { h with store := r.1, last := rev }
  | .delete key rev now =>
    (h.store.delete key rev now).map fun r => { h with store := r.1, last := rev }
  | .startSnapshot =>
    some { h with
      store := h.store.startSnapshot.1
      taken := h.taken ++ [(h.store.startSnapshot.2, fun k => (h.store.get k).toOption)] }
  | .deleteSnapshot rev =>
    some { h with
      store := (h.store.deleteSnapshot rev).1
      taken := h.taken.filter fun t => t.1 ≠ rev }
  | .purgeDeleted past clock order => some { h with store := h.store.purgeDeleted past clock order }

/-- The runs whose operations are all allowed by `ok`. -/
def Reached (ok : Hist α → Op α → Prop) : Hist α → Prop :=
  Reachable (· = Hist.init α) fun h h' => ∃ op, ok h op ∧ h.step op = some h'

/-! ### The invariant -/

/-- What holds of the objects of a store at version `ver`. -/
structure ObjInv (h : Hist α) (ver : Nat) (c : CacheObj α) : Prop where
  revision : c.revision ≠ 0 ∧ c.revision ≤ ver
  versions : Versions c ver
  newest : h.store.lastSnapshot ≠ 0 → c.lastSnapshot ≤ h.store.lastSnapshot
  zero : h.store.lastSnapshot = 0 → ∀ r, (h.store.snapshots.lookup r).isSome → c.snapshotList = []
  readable : ∀ t ∈ h.taken, Readable c t.1

/-- **What holds of stores whose writes go forward.** -/
structure Inv (h : Hist α) : Prop where
  shape : Shape h.store
  lastVer : h.store.lastVer ≤ h.last
  lastSnapshot : h.store.lastSnapshot ≤ h.store.lastVer
  snapshots : ∀ r, (h.store.snapshots.lookup r).isSome → r ≤ h.store.lastSnapshot
  live : ∀ t ∈ h.taken, (h.store.snapshots.lookup t.1).map Snapshot.deleted = some false
  obj : ∀ {k p c}, h.store.find k = some (p, c) → ObjInv h h.store.lastVer c

section Inv

variable {h : Hist α} {s' : Store α} {key : Key} {p rev now ver : Nat} {c c' : CacheObj α} {obj : α}
  {t : Nat × (Key → Option α)}

theorem ObjInv.mono {h' : Hist α} {ver' : Nat} (ho : ObjInv h ver c) (hver : ver ≤ ver')
    (hlast : h'.store.lastSnapshot = h.store.lastSnapshot)
    (hsome : ∀ r, (h'.store.snapshots.lookup r).isSome → (h.store.snapshots.lookup r).isSome)
    (htaken : ∀ t ∈ h'.taken, t ∈ h.taken) : ObjInv h' ver' c where
  revision := ⟨ho.revision.1, ho.revision.2.trans hver⟩
  versions := { ho.versions with lt := fun e he => Nat.lt_of_lt_of_le (ho.versions.lt e he) hver }
  newest := hlast ▸ ho.newest
  zero := fun h0 r hr => ho.zero (hlast ▸ h0) r (hsome r hr)
  readable := fun t ht => ho.readable t (htaken t ht)

theorem Inv.lookup (hI : Inv h) (ht : t ∈ h.taken) : (h.store.snapshots.lookup t.1).isSome := by
  have hlive := hI.live t ht
  cases hl : h.store.snapshots.lookup t.1 with
  | none => simp [hl] at hlive
  | some ss => rfl

theorem Inv.taken_le (hI : Inv h) (ht : t ∈ h.taken) : t.1 ≤ h.store.lastSnapshot :=
  hI.snapshots t.1 (hI.lookup ht)

theorem Inv.noBackpedal (hI : Inv h) (hf : h.store.find key = some (p, c)) : NoBackpedal h.store c := by
  by_cases h0 : h.store.lastSnapshot = 0
  · exact .inl h0
  · exact .inr ((hI.obj hf).newest h0)

/-- An object without versions. -/
theorem readable_of_nil (hnil : c.snapshotList = []) (r : Nat) : Readable c r := by
  have hnone : c.firstFrom r = none := by simp [CacheObj.firstFrom, hnil]
  exact ⟨fun e he => by simp [hnone] at he, fun _ e he => by simp [hnil] at he,
    fun _ => by simp [CacheObj.select, hnone]⟩

theorem versions_of_nil (hnil : c.snapshotList = []) (h0 : c.lastSnapshot = 0)
    (hmap : c.snapshots = ∅) (bound : Nat) : Versions c bound :=
  ⟨by simp [hnil], by simp [hnil], fun hne => absurd h0 hne, by simp [hnil],
    fun e v hl => by simp [hmap] at hl, by simp [hnil]⟩

/-- **A write keeps the invariant** if the object that it leaves does. -/
theorem Inv.write (hI : Inv h) (hw : Writes h.store s' key p c' ver) {last : Nat}
    (hver : h.store.lastVer ≤ ver) (hlast : ver ≤ last) (hobj : ObjInv h ver c') :
    Inv { h with store := s', last := last } := by
  have hsome : ∀ r, (s'.snapshots.lookup r).isSome → (h.store.snapshots.lookup r).isSome := by
    intro r hr
    have hsame := congrArg Option.isSome (hw.same.deleted r)
    simp only [Option.isSome_map] at hsame
    rwa [← hsame]
  exact
    { shape := hw.shape
      lastVer := hw.lastVer ▸ hlast
      lastSnapshot := by
        rw [hw.lastVer, hw.same.lastSnapshot]
        exact hI.lastSnapshot.trans hver
      snapshots := fun r hr => hw.same.lastSnapshot ▸ hI.snapshots r (hsome r hr)
      live := fun t ht => (hw.same.deleted t.1).trans (hI.live t ht)
      obj := fun hd => by
        rw [hw.lastVer]
        rcases hw.find_cases hd with ⟨-, rfl⟩ | ⟨-, hd⟩
        · exact hobj.mono (Nat.le_refl _) hw.same.lastSnapshot hsome fun _ => id
        · exact (hI.obj hd).mono hver hw.same.lastSnapshot hsome fun _ => id }

/-- The object that a write leaves has the versions of the old one, with the current one
filed. -/
theorem Inv.write_file (hI : Inv h) (hf : h.store.find key = some (p, c))
    (hw : Writes h.store s' key p c' ver) (hsame : SameVersions (c.file h.store.lastSnapshot) c')
    {last : Nat} (hver : h.store.lastVer ≤ ver) (hlast : ver ≤ last)
    (hsnap : h.store.lastSnapshot < ver) (hrev : c'.revision ≠ 0 ∧ c'.revision ≤ ver)
    (hcur : h.store.lastSnapshot < c'.revision ∨ c'.current = c.current) :
    Inv { h with store := s', last := last } := by
  obtain ⟨-, hv, hnewest, hzero, hread⟩ := hI.obj hf
  have hle := hI.noBackpedal hf
  refine hI.write hw hver hlast ⟨hrev, hsame.versions (hv.file hle hsnap hver), fun h0 => ?_,
    fun h0 r hr => ?_, fun t ht => ?_⟩
  · rw [hsame.lastSnapshot]
    unfold CacheObj.file
    split_ifs
    · exact hnewest h0
    · exact Nat.le_refl _
  · rw [hsame.snapshotList, file_of_filed (.inl h0)]
    exact hzero h0 r hr
  · by_cases h0 : h.store.lastSnapshot = 0
    · refine readable_of_nil ?_ t.1
      rw [hsame.snapshotList, file_of_filed (.inl h0)]
      exact hzero h0 t.1 (hI.lookup ht)
    · have htl := hI.taken_le ht
      exact (hread t ht).file hv h0 (hle.resolve_left h0) htl hsame
        (hcur.imp_left (Nat.lt_of_le_of_lt htl))

/-! ### Writes -/

/-- What a write leaves: the store as it was, a new object, or an object with the current
version filed. -/
inductive Stored (s s' : Store α) (key : Key) (rev : Nat) : Prop
  | kept (same : s' = s)
  | created (p : Nat) (c' : CacheObj α) (absent : s.find key = none)
      (writes : Writes s s' key p c' rev) (revision : c'.revision = rev)
      (snapshotList : c'.snapshotList = []) (lastSnapshot : c'.lastSnapshot = 0)
      (snapshots : c'.snapshots = ∅) (deleted : c'.deleted = false)
  | replaced (p : Nat) (c c' : CacheObj α) (found : s.find key = some (p, c))
      (writes : Writes s s' key p c' rev) (versions : SameVersions (c.file s.lastSnapshot) c')
      (revision : c'.revision = rev ∨ c'.current = c.current)

theorem Inv.set_stored (hI : Inv h) (key : Key) (obj : α) (now : Nat) (hlast : h.last ≤ rev) :
    ∃ s', h.store.set key rev obj now = some (s', .ok ()) ∧ Stored h.store s' key rev := by
  cases hf : h.store.find key with
  | none =>
    obtain ⟨s', hs', hw⟩ := set_new hI.shape hf rev obj now
    exact ⟨s', hs', .created _ _ hf hw rfl rfl rfl rfl rfl⟩
  | some pc =>
    obtain ⟨p, c⟩ := pc
    have hrev : c.revision ≤ rev := (hI.obj hf).revision.2.trans (hI.lastVer.trans hlast)
    obtain ⟨s', hs', hw⟩ := set_found hI.shape hf hrev (hI.noBackpedal hf) obj now
    exact ⟨s', hs', .replaced p c _ hf hw ⟨rfl, rfl, rfl⟩ (.inl rfl)⟩

theorem Inv.delete_stored (hI : Inv h) (key : Key) (now : Nat) (hrev : rev ≠ 0) :
    ∃ s' r, h.store.delete key rev now = some (s', r) ∧ Stored h.store s' key rev := by
  cases hf : h.store.find key with
  | none => exact ⟨_, _, delete_absent hf, .kept rfl⟩
  | some pc =>
    obtain ⟨p, c⟩ := pc
    have hnew : ∀ old, Store.newRev rev old = rev := fun old => if_pos hrev
    have hsame := c.file_same h.store.lastSnapshot
    by_cases hle : rev ≠ 0 ∧ rev ≤ c.revision
    · exact ⟨_, _, delete_rejected hf hle, .kept rfl⟩
    cases hdel : c.deleted with
    | true =>
      obtain ⟨s', hs', hw⟩ := delete_tombstone hI.shape hf hle (hI.noBackpedal hf) hdel now
      rw [hnew] at hw
      refine ⟨s', _, hs', .replaced p c _ hf hw ⟨rfl, rfl, rfl⟩ (.inr ?_)⟩
      simp only [CacheObj.current, hsame.revision, hsame.deleted, hsame.obj]
    | false =>
      obtain ⟨s', hs', hw⟩ := delete_found hI.shape hf hle (hI.noBackpedal hf) hdel now
      rw [hnew, hnew] at hw
      exact ⟨s', _, hs', .replaced p c _ hf hw ⟨rfl, rfl, rfl⟩ (.inl rfl)⟩

/-- The step of a write. -/
theorem Inv.step_written (hI : Inv h) {op : Op α} (hop : op.written = some (key, rev)) (hrev : rev ≠ 0)
    (hlast : h.last ≤ rev) :
    ∃ s', h.step op = some { h with store := s', last := rev } ∧ Stored h.store s' key rev := by
  cases op with
  | set key' rev' obj now =>
    obtain ⟨rfl, rfl⟩ := Prod.mk.inj (Option.some.inj hop)
    obtain ⟨s', hs', hst⟩ := hI.set_stored key' obj now hlast
    exact ⟨s', by simp [Hist.step, hs'], hst⟩
  | delete key' rev' now =>
    obtain ⟨rfl, rfl⟩ := Prod.mk.inj (Option.some.inj hop)
    obtain ⟨s', r, hs', hst⟩ := hI.delete_stored key' now hrev
    exact ⟨s', by simp [Hist.step, hs'], hst⟩
  | startSnapshot => cases hop
  | deleteSnapshot rev' => cases hop
  | purgeDeleted past clock order => cases hop

/-- **A write that goes forward keeps the invariant.** -/
theorem Inv.stored (hI : Inv h) (hst : Stored h.store s' key rev) (hrev : rev ≠ 0)
    (hlast : h.last ≤ rev) (hsnap : h.store.lastSnapshot < rev) :
    Inv { h with store := s', last := rev } := by
  have hver : h.store.lastVer ≤ rev := hI.lastVer.trans hlast
  cases hst with
  | kept hsame =>
    subst hsame
    exact ⟨hI.shape, hver, hI.lastSnapshot, hI.snapshots, hI.live, fun hf => { hI.obj hf with }⟩
  | created p c' _ hw hr hlist hlast' hmap _ =>
    refine hI.write hw hver (Nat.le_refl _)
      ⟨⟨fun h0 => hrev (hr.symm.trans h0), Nat.le_of_eq hr⟩, versions_of_nil hlist hlast' hmap rev,
        fun _ => ?_, fun _ _ _ => hlist, fun t _ => readable_of_nil hlist t.1⟩
    rw [hlast']
    exact Nat.zero_le _
  | replaced p c c' hf hw hsame hr =>
    have hold := (hI.obj hf).revision
    refine hI.write_file hf hw hsame hver (Nat.le_refl _) hsnap ?_
      (hr.imp_left fun hr => Nat.lt_of_lt_of_eq hsnap hr.symm)
    rcases hr with hr | hr
    · exact ⟨fun h0 => hrev (hr.symm.trans h0), Nat.le_of_eq hr⟩
    · have hfst : c'.revision = c.revision := congrArg Prod.fst hr
      rw [hfst]
      exact ⟨hold.1, hold.2.trans hver⟩

/-! ### Snapshots -/

/-- At the last revision, every object is read as it is. -/
theorem Inv.select_lastVer (hI : Inv h) (hf : h.store.find key = some (p, c)) :
    c.firstFrom h.store.lastVer = none ∧ c.select h.store.lastVer = c.current := by
  have hnone := CacheObj.firstFrom_eq_none.mpr (hI.obj hf).versions.lt
  exact ⟨hnone, by simp [CacheObj.select, hnone]⟩

theorem Inv.readable_lastVer (hI : Inv h) (hf : h.store.find key = some (p, c)) :
    Readable c h.store.lastVer := by
  obtain ⟨hnone, hselect⟩ := hI.select_lastVer hf
  refine ⟨fun e he => by simp [hnone] at he, fun hlt => ?_, fun _ => hselect⟩
  rw [hselect] at hlt
  exact absurd (hI.obj hf).revision.2 (Nat.not_le.mpr hlt)

/-- What is read at the last revision is what `Get` returns. -/
theorem Inv.get_eq (hI : Inv h) (k : Key) :
    (h.store.get k).toOption = (h.store.find k).bind fun r => r.2.readAt h.store.lastVer := by
  cases hf : h.store.find k with
  | none => simp [Store.get, hf, Except.toOption]
  | some pc =>
    obtain ⟨p, c⟩ := pc
    simp only [Store.get, hf, Option.bind_some, CacheObj.readAt, (hI.select_lastVer hf).2,
      CacheObj.current, if_pos (hI.obj hf).revision.2]
    cases c.deleted <;> rfl

/-- The revision that a snapshot gets. -/
theorem Inv.startSnapshot_rev (hI : Inv h) : h.store.startSnapshot.2 = h.store.lastVer := by
  unfold Store.startSnapshot
  split
  · rfl
  · rename_i ss hss
    exact Nat.le_antisymm hI.lastSnapshot (hI.snapshots _ (by simp [hss]))

/-- **A snapshot is started**, where no deleted one is in its place. -/
theorem Inv.startSnapshot (hI : Inv h)
    (hdel : ∀ ss, h.store.snapshots.lookup h.store.lastVer = some ss → ss.deleted = false)
    (view : Key → Option α) :
    Inv { h with
      store := h.store.startSnapshot.1, taken := h.taken ++ [(h.store.startSnapshot.2, view)] } := by
  have hread : ∀ {k p c}, h.store.find k = some (p, c) →
      ∀ t ∈ h.taken ++ [(h.store.lastVer, view)], Readable c t.1 := by
    intro k p c hf t ht
    rcases List.mem_append.mp ht with ht | ht
    · exact (hI.obj hf).readable t ht
    · rw [List.mem_singleton.mp ht]
      exact hI.readable_lastVer hf
  rw [hI.startSnapshot_rev]
  cases hl : h.store.snapshots.lookup h.store.lastVer with
  | some ss =>
    have hstore : h.store.startSnapshot.1 = h.store := by simp [Store.startSnapshot, hl]
    rw [hstore]
    refine { hI with live := fun t ht => ?_, obj := fun hf => { hI.obj hf with readable := hread hf } }
    rcases List.mem_append.mp ht with ht | ht
    · exact hI.live t ht
    · rw [List.mem_singleton.mp ht, hl, Option.map_some, hdel ss hl]
  | none =>
    have hstore : h.store.startSnapshot.1 = { h.store with
        snapshots := h.store.snapshots.insert h.store.lastVer {}
        lastSnapshot := h.store.lastVer } := by
      simp [Store.startSnapshot, hl]
    rw [hstore]
    refine ⟨hI.shape.withSnapshots _ _, hI.lastVer, Nat.le_refl _, fun r hr => ?_,
      fun t ht => ?_, fun {_ _ c} hf => { hI.obj hf with
        newest := fun _ => ?_, zero := fun h0 r _ => ?_, readable := hread hf }⟩
    · by_cases hrv : r = h.store.lastVer
      · exact Nat.le_of_eq hrv
      · have hr' : (h.store.snapshots.lookup r).isSome := by
          rwa [AList.lookup_insert_ne hrv] at hr
        exact (hI.snapshots r hr').trans hI.lastSnapshot
    · rcases List.mem_append.mp ht with ht | ht
      · have hne : t.1 ≠ h.store.lastVer := fun heq => by
          have hsome := hI.lookup ht
          rw [heq, hl] at hsome
          cases hsome
        rw [AList.lookup_insert_ne hne]
        exact hI.live t ht
      · rw [List.mem_singleton.mp ht, AList.lookup_insert]
        rfl
    · have hv := (hI.obj hf).versions
      rcases Nat.eq_zero_or_pos c.lastSnapshot with h0 | hpos
      · exact h0 ▸ Nat.zero_le _
      · exact Nat.le_of_lt (hv.lt _ (hv.mem_last (Nat.ne_of_gt hpos)))
    · have hlt := (hI.obj hf).versions.lt
      refine List.eq_nil_iff_forall_not_mem.mpr fun e he => ?_
      have h0' : h.store.lastVer = 0 := h0
      exact absurd (hlt e he) (h0' ▸ Nat.not_lt_zero e)

/-- Snapshots are deleted, or marked so. -/
theorem Inv.collect (hI : Inv h) {m : GoMap Nat Snapshot} {l : Nat}
    (hsub : ∀ r, (m.lookup r).isSome → (h.store.snapshots.lookup r).isSome)
    (hl : l = h.store.lastSnapshot ∨ (l = 0 ∧ ∀ r, m.lookup r = none))
    {taken : List (Nat × (Key → Option α))} (htaken : ∀ t ∈ taken, t ∈ h.taken)
    (hlive : ∀ t ∈ taken, (m.lookup t.1).map Snapshot.deleted = some false) :
    Inv ⟨{ h.store with snapshots := m, lastSnapshot := l }, h.last, taken⟩ := { hI with
  shape := hI.shape.withSnapshots m l
  lastSnapshot := by
    rcases hl with rfl | ⟨rfl, -⟩
    · exact hI.lastSnapshot
    · exact Nat.zero_le _
  snapshots := fun r hr => by
    rcases hl with rfl | ⟨rfl, hnone⟩
    · exact hI.snapshots r (hsub r hr)
    · have hr' : (m.lookup r).isSome := hr
      rw [hnone r] at hr'
      cases hr'
  live := hlive
  obj := fun hf => by
    have ho := hI.obj hf
    rcases hl with rfl | ⟨rfl, hnone⟩
    · exact ho.mono (Nat.le_refl _) rfl hsub htaken
    · refine { ho with
        newest := fun h0 => absurd rfl h0
        zero := fun _ r hr => ?_
        readable := fun t ht => ho.readable t (htaken t ht) }
      have hr' : (m.lookup r).isSome := hr
      rw [hnone r] at hr'
      cases hr' }

/-! ### Reading a snapshot -/

/-- What `GetFromSnapshot` returns for an object. -/
def CacheObj.fromSnapshot (c : CacheObj α) (rev : Nat) : Except Err (Option α) :=
  if c.revision ≤ rev then if c.deleted then .error .notFound else .ok (some c.obj)
  else
    match c.getVersion rev with
    | .error err => .error err
    | .ok (obj, deleted) => if deleted then .error .notFound else .ok obj

/-- **What `GetFromSnapshot` returns** for a snapshot that is there. -/
theorem getFromSnapshot_of_live {s : Store α}
    (hlive : (s.snapshots.lookup rev).map Snapshot.deleted = some false) (k : Key) :
    s.getFromSnapshot rev k = match s.find k with
      | none => .error .notFound
      | some (_, c) => c.fromSnapshot rev := by
  unfold Store.getFromSnapshot
  cases hl : s.snapshots.lookup rev with
  | none => simp [hl] at hlive
  | some ss =>
    have hdel : ss.deleted = false := by simpa [hl] using hlive
    simp only [hdel, Bool.false_eq_true, if_false]
    rfl

/-- What it returns for an object that the snapshot can read. -/
def CacheObj.readSnapshot (c : CacheObj α) (r : Nat) : Except Err (Option α) :=
  if c.revision ≤ r then if c.deleted then .error .notFound else .ok (some c.obj)
  else
    match c.versionAt r with
    | .error err => .error err
    | .ok (obj, deleted) => if deleted then .error .notFound else .ok obj

/-- **What `GetFromSnapshot` returns** for a snapshot that was not deleted. -/
theorem Inv.getFromSnapshot_eq (hI : Inv h) (ht : t ∈ h.taken) (k : Key) :
    h.store.getFromSnapshot t.1 k = match h.store.find k with
      | none => .error .notFound
      | some (_, c) => c.readSnapshot t.1 := by
  rw [getFromSnapshot_of_live (hI.live t ht)]
  cases hf : h.store.find k with
  | none => rfl
  | some pc =>
    simp only [CacheObj.fromSnapshot, getVersion_eq (hI.obj hf).versions ((hI.obj hf).readable t ht)]
    rfl

end Inv

end NicSw.ApiCache
