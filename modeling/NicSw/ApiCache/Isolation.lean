/-
Snapshot isolation.

In a run of writes and snapshots, what a snapshot reads of a key is what `Get`
returned when the snapshot was started, as long as no write files a version under a
snapshot that is older than the version.  Such a write is the second one to a key
that was created after the newest snapshot.
-/
import NicSw.ApiCache.Snapshot

namespace NicSw.ApiCache

open CacheObj

variable {α : Type}

/-! ### Runs of writes and snapshots -/

/-- Revisions do not go backwards, and a write does not reuse the revision of a
snapshot. -/
def Hist.Legal (h : Hist α) (op : Op α) : Prop :=
  op = .startSnapshot ∨ ∃ key rev, op.written = some (key, rev) ∧ rev ≠ 0 ∧ h.last ≤ rev ∧
    ∀ t ∈ h.taken, t.1 < rev

/-- A write to an object that the newest snapshot has no version of, and that was not there
when it was started, is not allowed. -/
def Hist.WasThere (h : Hist α) (op : Op α) : Prop :=
  ∀ key rev, op.written = some (key, rev) → ∀ p c, h.store.find key = some (p, c) →
    h.store.lastSnapshot = 0 ∨ c.lastSnapshot = h.store.lastSnapshot ∨
      c.revision ≤ h.store.lastSnapshot

/-- What holds along such runs. -/
structure Forward (h : Hist α) : Prop where
  inv : Inv h
  last : h.store.lastSnapshot = 0 ∨ ∃ t ∈ h.taken, t.1 = h.store.lastSnapshot
  alive : ∀ r ss, h.store.snapshots.lookup r = some ss → ss.deleted = false

/-- What is there for snapshots to read is what was there when they were started. -/
structure Viewed (h : Hist α) : Prop where
  obj : ∀ k p c, h.store.find k = some (p, c) → ∀ e v, c.snapshots.lookup e = some v → v.obj.isSome
  view : ∀ t ∈ h.taken, ∀ k, t.2 k = (h.store.find k).bind fun r => r.2.readAt t.1

/-- The versions are older than their snapshots. -/
def Early (h : Hist α) : Prop :=
  ∀ k p c, h.store.find k = some (p, c) → ∀ e v, c.snapshots.lookup e = some v → v.objRev ≤ e

variable {h h' : Hist α} {op : Op α} {key : Key} {rev p : Nat} {c c' : CacheObj α} {s' : Store α}
  {t : Nat × (Key → Option α)}

theorem Inv.init : Inv (Hist.init α) where
  shape := .init
  lastVer := Nat.le_refl 0
  lastSnapshot := Nat.le_refl 0
  snapshots := fun r hr => by simp [Hist.init, newStore] at hr
  live := fun t ht => by cases ht
  obj := fun hf => by cases hf

theorem Forward.init : Forward (Hist.init α) :=
  ⟨.init, .inl rfl, fun r ss hl => by simp [Hist.init, newStore] at hl⟩

theorem Viewed.init : Viewed (Hist.init α) :=
  ⟨fun k p c hf => (by cases hf), fun t ht => (by cases ht)⟩

/-- The newest snapshot is older than the next write. -/
theorem Forward.lastSnapshot_lt (hF : Forward h) (hrev : rev ≠ 0) (ht : ∀ t ∈ h.taken, t.1 < rev) :
    h.store.lastSnapshot < rev := by
  rcases hF.last with h0 | ⟨t, hmem, heq⟩
  · rw [h0]
    exact Nat.pos_of_ne_zero hrev
  · exact heq ▸ ht t hmem

theorem Stored.same {s : Store α} (hst : Stored s s' key rev) : SameSnapshots s s' := by
  cases hst with
  | kept hsame => exact hsame ▸ .refl s
  | created p c' _ hw => exact hw.same
  | replaced p c c' _ hw => exact hw.same

theorem Forward.stored (hF : Forward h) (hst : Stored h.store s' key rev) (hrev : rev ≠ 0)
    (hlast : h.last ≤ rev) (ht : ∀ t ∈ h.taken, t.1 < rev) :
    Forward { h with store := s', last := rev } := by
  refine ⟨hF.inv.stored hst hrev hlast (hF.lastSnapshot_lt hrev ht), ?_, fun r ss hl => ?_⟩
  · rw [hst.same.lastSnapshot]
    exact hF.last
  · have hdel := hst.same.deleted r
    rw [hl] at hdel
    obtain ⟨ss', hss', heq⟩ := Option.map_eq_some_iff.mp hdel.symm
    exact heq ▸ hF.alive r ss' hss'

theorem Forward.startSnapshot (hF : Forward h) (view : Key → Option α) :
    Forward { h with
      store := h.store.startSnapshot.1, taken := h.taken ++ [(h.store.startSnapshot.2, view)] } := by
  have hnew := List.mem_append_right h.taken
    (List.mem_singleton.mpr (rfl : (h.store.startSnapshot.2, view) = _))
  refine ⟨hF.inv.startSnapshot (hF.alive _) view, .inr ⟨_, hnew, ?_⟩, fun r ss hl => ?_⟩
  · unfold Store.startSnapshot
    split <;> rfl
  · unfold Store.startSnapshot at hl
    split at hl
    · by_cases hr : r = h.store.lastVer
      · subst hr
        have hself : some {} = some ss := (AList.lookup_insert _).symm.trans hl
        exact (Option.some.inj hself) ▸ rfl
      · exact hF.alive r ss ((AList.lookup_insert_ne hr).symm.trans hl)
    · exact hF.alive r ss hl

/-- **A legal operation does not panic.** -/
theorem Forward.step (hF : Forward h) (hl : h.Legal op) : ∃ h', h.step op = some h' ∧ Forward h' := by
  rcases hl with rfl | ⟨key, rev, hop, hrev, hlast, ht⟩
  · exact ⟨_, rfl, hF.startSnapshot _⟩
  · obtain ⟨s', hs', hst⟩ := hF.inv.step_written hop hrev hlast
    exact ⟨_, hs', hF.stored hst hrev hlast ht⟩

/-! ### What snapshots read -/

/-- An object that has no version at or after a snapshot, and is newer. -/
theorem readAt_of_nil {r : Nat} (hnil : c.snapshotList = []) (hr : r < c.revision) :
    c.readAt r = none := by
  have hselect : c.select r = c.current := by simp [select, firstFrom, hnil]
  simp [readAt, hselect, current, Nat.not_le.mpr hr]

/-- A replaced object is read as before. -/
theorem Inv.readAt_replaced (hI : Inv h) (ht : t ∈ h.taken) (hf : h.store.find key = some (p, c))
    (hsame : SameVersions (c.file h.store.lastSnapshot) c') (hrev : c'.revision ≠ 0) :
    c'.readAt t.1 = c.readAt t.1 := by
  have hle := hI.taken_le ht
  by_cases h0 : h.store.lastSnapshot = 0
  · -- the snapshot is the one of the empty store
    have ht0 : t.1 = 0 := Nat.le_zero.mp (h0 ▸ hle)
    have hnil := (hI.obj hf).zero h0 t.1 (hI.lookup ht)
    have hnil' : c'.snapshotList = [] := by
      rw [hsame.snapshotList, file_of_filed (.inl h0)]
      exact hnil
    rw [readAt_of_nil hnil' (ht0 ▸ Nat.pos_of_ne_zero hrev),
      readAt_of_nil hnil (ht0 ▸ Nat.pos_of_ne_zero (hI.obj hf).revision.1)]
  · have hselect := select_file (hI.obj hf).versions h0 ((hI.noBackpedal hf).resolve_left h0) hle hsame
    simp only [readAt, hselect]

/-- **Writes do not change what is there for snapshots to read.** -/
theorem Viewed.stored (hv : Viewed h) (hI : Inv h) (hst : Stored h.store s' key rev) (hrev : rev ≠ 0)
    (ht : ∀ t ∈ h.taken, t.1 < rev) : Viewed { h with store := s', last := rev } := by
  cases hst with
  | kept hsame =>
    subst hsame
    exact { hv with }
  | created p c' hnone hw hr hlist _ hmap _ =>
    refine ⟨fun k q d hd => ?_, fun t hmem k => ?_⟩
    · rcases hw.find_cases hd with ⟨-, rfl⟩ | ⟨-, hd⟩
      · intro e v hl
        simp [hmap] at hl
      · exact hv.obj k q d hd
    · rw [hv.view t hmem k, hw.find]
      split_ifs with hk
      · rw [hk, hnone, Option.bind_some, readAt_of_nil hlist (hr ▸ ht t hmem)]
        rfl
      · rfl
  | replaced p c c' hf hw hsame hr =>
    have hrev' : c'.revision ≠ 0 := by
      rcases hr with hr | hr
      · exact hr ▸ hrev
      · have hfst : c'.revision = c.revision := congrArg Prod.fst hr
        exact hfst ▸ (hI.obj hf).revision.1
    refine ⟨fun k q d hd => ?_, fun t hmem k => ?_⟩
    · rcases hw.find_cases hd with ⟨-, rfl⟩ | ⟨-, hd⟩
      · intro e v hl
        rcases lookup_file hsame hl with hl | ⟨-, -, rfl⟩
        · exact hv.obj key p c hf e v hl
        · rfl
      · exact hv.obj k q d hd
    · rw [hv.view t hmem k, hw.find]
      split_ifs with hk
      · rw [hk, hf, Option.bind_some, Option.bind_some, hI.readAt_replaced hmem hf hsame hrev']
      · rfl

theorem find_startSnapshot (s : Store α) (k : Key) : s.startSnapshot.1.find k = s.find k := by
  unfold Store.startSnapshot
  split <;> rfl

/-- A new snapshot reads what is there. -/
theorem Viewed.startSnapshot (hv : Viewed h) (hI : Inv h) :
    Viewed { h with
      store := h.store.startSnapshot.1
      taken := h.taken ++ [(h.store.startSnapshot.2, fun k => (h.store.get k).toOption)] } := by
  refine ⟨fun k p c hf => hv.obj k p c (find_startSnapshot h.store k ▸ hf), fun t ht k => ?_⟩
  rw [find_startSnapshot]
  rcases List.mem_append.mp ht with ht | ht
  · exact hv.view t ht k
  · rw [List.mem_singleton.mp ht, hI.startSnapshot_rev]
    exact hI.get_eq k

/-- A write that meets the condition files a version that is old enough. -/
theorem Early.stored (he : Early h) (hst : Stored h.store s' key rev)
    (hthere : ∀ p c, h.store.find key = some (p, c) → h.store.lastSnapshot = 0 ∨
      c.lastSnapshot = h.store.lastSnapshot ∨ c.revision ≤ h.store.lastSnapshot) :
    Early { h with store := s', last := rev } := by
  cases hst with
  | kept hsame =>
    subst hsame
    exact he
  | created p c' _ hw _ _ _ hmap _ =>
    intro k q d hd
    rcases hw.find_cases hd with ⟨-, rfl⟩ | ⟨-, hd⟩
    · intro e v hl
      simp [hmap] at hl
    · exact he k q d hd
  | replaced p c c' hf hw hsame _ =>
    intro k q d hd
    rcases hw.find_cases hd with ⟨-, rfl⟩ | ⟨-, hd⟩
    · intro e v hl
      rcases lookup_file hsame hl with hl | ⟨hfiled, rfl, rfl⟩
      · exact he key p c hf e v hl
      · exact (or_assoc.mpr (hthere p c hf)).resolve_left hfiled
    · exact he k q d hd

/-- What is there to read can be read. -/
theorem Readable.readSnapshot_some {r : Nat} {o : α} (hread : Readable c r)
    (ho : c.readAt r = some o) : c.readSnapshot r = .ok (some o) := by
  unfold readAt at ho
  split_ifs at ho with hle
  unfold readSnapshot
  split_ifs with hrev hdel
  · rw [hread.unchanged hrev] at ho
    simp [current, hdel] at ho
  · rw [hread.unchanged hrev] at ho
    simpa [current, hdel] using ho
  cases hfirst : c.firstFrom r with
  | none =>
    rw [select, hfirst] at hle
    exact absurd hle hrev
  | some e =>
    obtain ⟨v, hv⟩ := Option.isSome_iff_exists.mp (hread.present e hfirst)
    have hversion : c.version e = v := by simp [version, hv]
    simp only [select, hfirst, hversion, MvccObj.content] at ho hle
    split_ifs at ho with hdel
    simp [versionAt, hfirst, takeVersion, hversion, hle, hdel, ho]

/-- Where there is nothing to read, and the versions are older than their snapshots, nothing
is read. -/
theorem Readable.readSnapshot_none {r : Nat} (hread : Readable c r)
    (hearly : ∀ e v, c.snapshots.lookup e = some v → v.objRev ≤ e)
    (hobj : ∀ e v, c.snapshots.lookup e = some v → v.obj.isSome) (ho : c.readAt r = none) :
    (c.readSnapshot r).toOption = none := by
  unfold readSnapshot
  split_ifs with hrev hdel
  · rfl
  · simp [readAt, hread.unchanged hrev, current, hrev, hdel] at ho
  cases hfirst : c.firstFrom r with
  | none => simp [versionAt, hfirst, Except.toOption]
  | some e =>
    obtain ⟨v, hv⟩ := Option.isSome_iff_exists.mp (hread.present e hfirst)
    obtain ⟨o, hvo⟩ := Option.isSome_iff_exists.mp (hobj e v hv)
    have hversion : c.version e = v := by simp [version, hv]
    -- a version under the snapshot itself is old enough
    have hcond : (e = r ∨ v.objRev ≤ r) ↔ v.objRev ≤ r :=
      ⟨fun h => h.elim (fun he => he ▸ hearly e v hv) id, .inr⟩
    simp only [readAt, select, hfirst, hversion, MvccObj.content, hvo] at ho
    simp only [versionAt, hfirst, takeVersion, hversion, hcond, hvo]
    split_ifs at ho ⊢ with hle hdel
    · simp [hdel, Except.toOption]
    · rfl

/-- What `GetFromSnapshot` returns is what was there. -/
theorem Viewed.getFromSnapshot_eq (hv : Viewed h) (hI : Inv h) (he : Early h) (ht : t ∈ h.taken)
    (k : Key) : (h.store.getFromSnapshot t.1 k).toOption = (t.2 k).map some := by
  rw [hI.getFromSnapshot_eq ht, hv.view t ht]
  cases hf : h.store.find k with
  | none => rfl
  | some pc =>
    obtain ⟨p, c⟩ := pc
    have hread := (hI.obj hf).readable t ht
    show (c.readSnapshot t.1).toOption = (c.readAt t.1).map some
    cases ho : c.readAt t.1 with
    | none => exact hread.readSnapshot_none (he k p c hf) (hv.obj k p c hf) ho
    | some o =>
      rw [hread.readSnapshot_some ho]
      rfl

/-! ### The main theorem -/

/-- **Snapshot isolation.**  No legal operation panics.  In a legal run in which no
write goes to an object that was created after the newest snapshot and is not filed
there, `GetFromSnapshot` returns for each snapshot and each key the object that `Get`
returned when the snapshot was started, and fails iff `Get` failed. -/
theorem snapshot_isolation (α : Type) :
    (∀ h : Hist α, Reached Hist.Legal h → ∀ op, h.Legal op → (h.step op).isSome) ∧
    ∀ h : Hist α, Reached (fun h op => h.Legal op ∧ h.WasThere op) h → ∀ t ∈ h.taken, ∀ k,
      (h.store.getFromSnapshot t.1 k).toOption = (t.2 k).map some := by
  constructor
  · intro h hr op hl
    have hF : Forward h := by
      refine hr.invariant (fun h hinit => hinit ▸ .init) ?_
      rintro h h' hF ⟨op, hl, hs⟩
      obtain ⟨h'', hs', hF'⟩ := hF.step hl
      exact Option.some.inj (hs'.symm.trans hs) ▸ hF'
    obtain ⟨h', hs, -⟩ := hF.step hl
    simp [hs]
  · intro h hr t ht k
    obtain ⟨hF, hv, he⟩ : Forward h ∧ Viewed h ∧ Early h := by
      refine hr.invariant (I := fun h => Forward h ∧ Viewed h ∧ Early h)
        (fun h hinit => hinit ▸ ⟨.init, .init, fun k p c hf => by cases hf⟩) ?_
      rintro h h' ⟨hF, hv, he⟩ ⟨op, ⟨hl, hthere⟩, hs⟩
      obtain ⟨h'', hs', hF'⟩ := hF.step hl
      cases hs'.symm.trans hs
      refine ⟨hF', ?_⟩
      rcases hl with rfl | ⟨key, rev, hop, hrev, hlast, ht⟩
      · cases hs
        exact ⟨hv.startSnapshot hF.inv,
          fun k p c hf => he k p c (find_startSnapshot h.store k ▸ hf)⟩
      · obtain ⟨s', hs', hst⟩ := hF.inv.step_written hop hrev hlast
        cases hs'.symm.trans hs
        exact ⟨hv.stored hF.inv hst hrev ht, he.stored hst (hthere key rev hop)⟩
    exact hv.getFromSnapshot_eq hF.inv he ht k

/-- The key `a`. -/
def keyA : Key := ['/', 'a']

/-- The key `b`. -/
def keyB : Key := ['/', 'b']

/-- A key that is there when the snapshot is started, and is then written. -/
theorem snapshot_isolation_overwrite :
    ∃ h : Hist Nat, Reached (fun h op => h.Legal op ∧ h.WasThere op) h ∧
      (∃ view, (1, view) ∈ h.taken ∧ view keyA = some 10) ∧
      h.store.get keyA = .ok 20 ∧
      ∀ t ∈ h.taken, ∀ k, (h.store.getFromSnapshot t.1 k).toOption = (t.2 k).map some := by
  have h0 : Reached (fun h op => h.Legal op ∧ h.WasThere op) (Hist.init Nat) := .start rfl
  have h1 := h0.step ⟨.set keyA 1 10 0, ⟨.inr ⟨keyA, 1, rfl, by decide, by decide, fun t ht => by
    cases ht⟩, fun key rev _ p c hf => by cases hf⟩, rfl⟩
  have h2 := h1.step ⟨.startSnapshot, ⟨.inl rfl, fun key rev hop => by cases hop⟩, rfl⟩
  have h3 := h2.step ⟨.set keyA 2 20 0, ⟨.inr ⟨keyA, 2, rfl, by decide, by decide, fun t ht => by
    obtain rfl := List.mem_singleton.mp ht
    decide⟩, fun key rev hop p c hf => by
    cases hop
    cases hf
    decide⟩, rfl⟩
  exact ⟨_, h3, ⟨_, List.mem_singleton.mpr rfl, rfl⟩, rfl, (snapshot_isolation Nat).2 _ h3⟩

/-- A key that is created after the snapshot and written twice: the snapshot reads its
first object. -/
theorem not_snapshot_isolation_created :
    ∃ h : Hist Nat, Reached Hist.Legal h ∧ ∃ t ∈ h.taken, t.2 keyB = none ∧
      h.store.getFromSnapshot t.1 keyB = .ok (some 20) := by
  have h0 : Reached Hist.Legal (Hist.init Nat) := .start rfl
  have h1 := h0.step ⟨.set keyA 1 10 0, .inr ⟨keyA, 1, rfl, by decide, by decide, fun t ht => by
    cases ht⟩, rfl⟩
  have h2 := h1.step ⟨.startSnapshot, .inl rfl, rfl⟩
  have h3 := h2.step ⟨.set keyB 2 20 0, .inr ⟨keyB, 2, rfl, by decide, by decide, fun t ht => by
    obtain rfl := List.mem_singleton.mp ht
    decide⟩, rfl⟩
  have h4 := h3.step ⟨.set keyB 3 30 0, .inr ⟨keyB, 3, rfl, by decide, by decide, fun t ht => by
    obtain rfl := List.mem_singleton.mp ht
    decide⟩, rfl⟩
  exact ⟨_, h4, _, List.mem_singleton.mpr rfl, rfl, rfl⟩

end NicSw.ApiCache
