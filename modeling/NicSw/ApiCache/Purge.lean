/-
Snapshot garbage collection.

`PurgeDeleted` removes the versions that are filed under deleted snapshots, and then
the deleted objects that have no versions.  Live snapshots do not see this as long as
none of them reads one of the removed versions: a version that is filed under a
snapshot is also what older snapshots read, and `snapshotList` keeps the entry of a
version that was removed.
-/
import NicSw.ApiCache.Isolation

namespace NicSw.ApiCache

open Function Store

variable {α : Type} {h : Hist α} {s s' : Store α} {key k : Key} {rev p snap n : Nat}
  {c c' : CacheObj α} {t : Nat × (Key → Option α)}

/-! ### What a purge keeps -/

/-- What holds of stores that are purged. -/
structure Kept (h : Hist α) : Prop where
  inv : Inv h
  viewed : Viewed h
  own : ∀ q ∈ h.store.delPending, ∀ d, h.store.mem q = some d → h.store.objs d.key = some q
  gone : ∀ t ∈ h.taken, t.1 ≠ 0 → ∀ k p c, h.store.find k = some (p, c) → c.deleted = true →
    t.1 < c.revision → c.firstFrom t.1 ≠ none

/-- No snapshot that was not deleted reads a version that is filed under a deleted one. -/
def Spared (s : Store α) (taken : List (Nat × (Key → Option α))) : Prop :=
  ∀ snap ss, s.snapshots.lookup snap = some ss → ss.deleted = true → ∀ k ∈ ss.keys, ∀ p c,
    s.find k = some (p, c) → ∀ t ∈ taken, c.firstFrom t.1 ≠ some snap

/-- Snapshots read the same.  Only the snapshot of the empty store may fail with another
error. -/
def SameReads (taken : List (Nat × (Key → Option α))) (s s' : Store α) : Prop :=
  ∀ t ∈ taken, ∀ k,
    (s'.getFromSnapshot t.1 k).toOption = (s.getFromSnapshot t.1 k).toOption ∧
      (t.1 ≠ 0 → s'.getFromSnapshot t.1 k = s.getFromSnapshot t.1 k)

variable {taken : List (Nat × (Key → Option α))}

theorem SameReads.of_eq (heq : ∀ t ∈ taken, ∀ k, s'.getFromSnapshot t.1 k = s.getFromSnapshot t.1 k) :
    SameReads taken s s' :=
  fun t ht k => ⟨congrArg _ (heq t ht k), fun _ => heq t ht k⟩

theorem SameReads.trans {s'' : Store α} (h₁ : SameReads taken s s') (h₂ : SameReads taken s' s'') :
    SameReads taken s s'' :=
  fun t ht k => ⟨(h₂ t ht k).1.trans (h₁ t ht k).1, fun h0 => ((h₂ t ht k).2 h0).trans ((h₁ t ht k).2 h0)⟩

/-- A write leaves the pending deletes with their keys. -/
theorem own_of_writes (hw : Writes s s' key p c' n) (hkey : s.objs key = none ∨ s.objs key = some p)
    (hown : ∀ q ∈ s.delPending, ∀ d, s.mem q = some d → s.objs d.key = some q) :
    ∀ q ∈ s'.delPending, ∀ d, s'.mem q = some d → s'.objs d.key = some q := by
  intro q hq d hd
  rw [hw.pending] at hq
  rw [hw.mem] at hd
  rw [hw.objs]
  split_ifs at hq hd with hqp
  · cases hd
    rw [hw.key_eq, update_self, hqp]
  have hobj := hown q hq d hd
  have hne : d.key ≠ key := by
    rintro rfl
    rcases hkey with hkey | hkey
    · cases hkey.symm.trans hobj
    · exact hqp (Option.some.inj (hobj.symm.trans hkey))
  rw [update_of_ne hne]
  exact hobj

theorem Kept.stored (hK : Kept h) (hst : Stored h.store s' key rev) (hrev : h.last < rev) :
    Kept { h with store := s', last := rev } := by
  have hsnap : h.store.lastSnapshot < rev :=
    Nat.lt_of_le_of_lt (hK.inv.lastSnapshot.trans hK.inv.lastVer) hrev
  have hrev0 : rev ≠ 0 := Nat.ne_of_gt (Nat.lt_of_le_of_lt (Nat.zero_le _) hrev)
  have ht : ∀ t ∈ h.taken, t.1 < rev := fun t ht => Nat.lt_of_le_of_lt (hK.inv.taken_le ht) hsnap
  refine ⟨hK.inv.stored hst hrev0 (Nat.le_of_lt hrev) hsnap, hK.viewed.stored hK.inv hst hrev0 ht, ?_, ?_⟩
  · cases hst with
    | kept hsame =>
      subst hsame
      exact hK.own
    | created p c' hnone hw =>
      exact own_of_writes hw (.inl (hK.inv.shape.find_eq_none.mp hnone)) hK.own
    | replaced p c c' hf hw =>
      exact own_of_writes hw (.inr (find_eq_some.mp hf).1) hK.own
  · intro t htk h0 k q d hd hdel hlt
    cases hst with
    | kept hsame =>
      subst hsame
      exact hK.gone t htk h0 k q d hd hdel hlt
    | created p c' _ hw _ _ _ _ hlive =>
      rcases hw.find_cases hd with ⟨-, rfl⟩ | ⟨-, hd⟩
      · rw [hlive] at hdel
        cases hdel
      · exact hK.gone t htk h0 k q d hd hdel hlt
    | replaced p c c' hf hw hsame _ =>
      rcases hw.find_cases hd with ⟨-, rfl⟩ | ⟨-, hd⟩
      · -- the version that was replaced is filed
        have htl := hK.inv.taken_le htk
        have hl0 : h.store.lastSnapshot ≠ 0 := fun hl => h0 (Nat.le_zero.mp (hl ▸ htl))
        obtain ⟨e, he, -⟩ := firstFrom_file (hK.inv.obj hf).versions hl0
          ((hK.inv.noBackpedal hf).resolve_left hl0) htl hsame
        simp [he]
      · exact hK.gone t htk h0 k q d hd hdel hlt

theorem Kept.startSnapshot (hK : Kept h)
    (hdel : ∀ ss, h.store.snapshots.lookup h.store.lastVer = some ss → ss.deleted = false) :
    Kept { h with
      store := h.store.startSnapshot.1
      taken := h.taken ++ [(h.store.startSnapshot.2, fun k => (h.store.get k).toOption)] } := by
  refine ⟨hK.inv.startSnapshot hdel _, hK.viewed.startSnapshot hK.inv, ?_, ?_⟩
  · unfold Store.startSnapshot
    split <;> exact hK.own
  · intro t ht h0 k p c hf hcd hlt
    have hf' := (find_startSnapshot h.store k).symm.trans hf
    rcases List.mem_append.mp ht with ht | ht
    · exact hK.gone t ht h0 k p c hf' hcd hlt
    · rw [List.mem_singleton.mp ht, hK.inv.startSnapshot_rev] at hlt
      exact absurd (hK.inv.obj hf').revision.2 (Nat.not_le.mpr hlt)

/-- Snapshots are deleted, or marked so. -/
theorem Kept.collect (hK : Kept h) {m : GoMap Nat Snapshot} {l : Nat}
    (hsub : ∀ r, (m.lookup r).isSome → (h.store.snapshots.lookup r).isSome)
    (hl : l = h.store.lastSnapshot ∨ (l = 0 ∧ ∀ r, m.lookup r = none))
    (htaken : ∀ t ∈ taken, t ∈ h.taken)
    (hlive : ∀ t ∈ taken, (m.lookup t.1).map Snapshot.deleted = some false) :
    Kept ⟨{ h.store with snapshots := m, lastSnapshot := l }, h.last, taken⟩ ∧
      ∀ t ∈ taken, ∀ k,
        ({ h.store with snapshots := m, lastSnapshot := l } : Store α).getFromSnapshot t.1 k
          = h.store.getFromSnapshot t.1 k := by
  have hI := hK.inv.collect hsub hl htaken hlive
  refine ⟨⟨hI, ⟨hK.viewed.obj, fun t ht => hK.viewed.view t (htaken t ht)⟩, hK.own,
    fun t ht => hK.gone t (htaken t ht)⟩, fun t ht k => ?_⟩
  rw [hI.getFromSnapshot_eq ht k, hK.inv.getFromSnapshot_eq (htaken t ht) k]
  rfl

/-- **`DeleteSnapshot`** of one snapshot is not seen by the others. -/
theorem Kept.deleteSnapshot (hK : Kept h) (rev : Nat) :
    Kept { h with
      store := (h.store.deleteSnapshot rev).1, taken := h.taken.filter fun t => t.1 ≠ rev } ∧
      ∀ t ∈ h.taken.filter (fun t => t.1 ≠ rev), ∀ k,
        (h.store.deleteSnapshot rev).1.getFromSnapshot t.1 k = h.store.getFromSnapshot t.1 k := by
  have htaken : ∀ t ∈ h.taken.filter fun t => t.1 ≠ rev, t ∈ h.taken := fun t => List.mem_of_mem_filter
  have hsame := hK.collect (m := h.store.snapshots) (l := h.store.lastSnapshot) (fun _ => id) (.inl rfl)
    htaken fun t ht => hK.inv.live t (htaken t ht)
  unfold Store.deleteSnapshot
  cases hl : h.store.snapshots.lookup rev with
  | none => exact hsame
  | some ss =>
    dsimp only
    split_ifs
    · exact hsame
    refine hK.collect (fun r hr => ?_) (.inl rfl) htaken fun t ht => ?_
    · by_cases hrr : r = rev
      · rw [hrr, hl]
        rfl
      · rwa [AList.lookup_insert_ne hrr] at hr
    · have hne : t.1 ≠ rev := by simpa using (List.mem_filter.mp ht).2
      rw [AList.lookup_insert_ne hne]
      exact hK.inv.live t (htaken t ht)

/-! ### The versions of a deleted snapshot -/

/-- The object without the version that is filed under a snapshot. -/
def CacheObj.thin (c : CacheObj α) (snap : Nat) : CacheObj α :=
  { c with snapshots := c.snapshots.erase snap }

variable {e r : Nat}

theorem version_thin (he : e ≠ snap) : (c.thin snap).version e = c.version e := by
  simp [CacheObj.version, CacheObj.thin, AList.lookup_erase_ne he]

theorem select_thin (hsafe : c.firstFrom r ≠ some snap) : (c.thin snap).select r = c.select r := by
  unfold CacheObj.select
  rw [show (c.thin snap).firstFrom r = c.firstFrom r from rfl]
  cases he : c.firstFrom r with
  | none => rfl
  | some e =>
    have hne : e ≠ snap := fun heq => hsafe (heq ▸ he)
    simp only [version_thin hne]

theorem lookup_thin {v : MvccObj α} (hl : (c.thin snap).snapshots.lookup e = some v) :
    c.snapshots.lookup e = some v := by
  by_cases he : e = snap
  · subst he
    cases (AList.lookup_erase e c.snapshots).symm.trans hl
  · rwa [CacheObj.thin, AList.lookup_erase_ne he] at hl

theorem Readable.thin (hr : Readable c r) (hsafe : c.firstFrom r ≠ some snap) :
    Readable (c.thin snap) r := by
  have hselect := select_thin hsafe
  refine ⟨fun e he => ?_, fun hlt => ?_, fun hrev => ?_⟩
  · have hne : e ≠ snap := fun heq => hsafe (heq ▸ he)
    rw [CacheObj.thin, AList.lookup_erase_ne hne]
    exact hr.present e he
  · rw [hselect] at hlt
    exact hr.created hlt
  · exact hselect.trans (hr.unchanged hrev)

theorem Versions.thin {bound : Nat} (hv : Versions c bound) : Versions (c.thin snap) bound :=
  { hv with filed := fun e v hl => hv.filed e v (lookup_thin hl) }

theorem readSnapshot_thin (hsafe : c.firstFrom r ≠ some snap) :
    (c.thin snap).readSnapshot r = c.readSnapshot r := by
  have hversion : (c.thin snap).versionAt r = c.versionAt r := by
    unfold CacheObj.versionAt
    rw [show (c.thin snap).firstFrom r = c.firstFrom r from rfl]
    cases he : c.firstFrom r with
    | none => rfl
    | some e =>
      have hne : e ≠ snap := fun heq => hsafe (heq ▸ he)
      simp only [CacheObj.takeVersion, version_thin hne]
  simp only [CacheObj.readSnapshot, hversion]
  rfl

/-- **A version that no live snapshot reads is removed.** -/
theorem Kept.thin (hK : Kept h) (hf : h.store.find key = some (p, c))
    (hw : Writes h.store s' key p (c.thin snap) h.store.lastVer)
    (hsafe : ∀ t ∈ h.taken, c.firstFrom t.1 ≠ some snap) :
    Kept { h with store := s' } ∧ SameReads h.taken h.store s' := by
  have ho := hK.inv.obj hf
  have hI : Inv { h with store := s' } := hK.inv.write hw (Nat.le_refl _) hK.inv.lastVer
    { ho with
      versions := ho.versions.thin
      readable := fun t ht => (ho.readable t ht).thin (hsafe t ht) }
  refine ⟨⟨hI, ⟨fun k q d hd => ?_, fun t ht k => ?_⟩, ?_, fun t ht h0 k q d hd => ?_⟩,
    .of_eq fun t ht k => ?_⟩
  · rcases hw.find_cases hd with ⟨-, rfl⟩ | ⟨-, hd⟩
    · exact fun e v hl => hK.viewed.obj key p c hf e v (lookup_thin hl)
    · exact hK.viewed.obj k q d hd
  · rw [hK.viewed.view t ht k, hw.find]
    split_ifs with hk
    · rw [hk, hf, Option.bind_some, Option.bind_some, CacheObj.readAt, CacheObj.readAt,
        select_thin (hsafe t ht)]
    · rfl
  · exact own_of_writes hw (.inr (find_eq_some.mp hf).1) hK.own
  · rcases hw.find_cases hd with ⟨-, rfl⟩ | ⟨-, hd⟩
    · exact hK.gone t ht h0 key p c hf
    · exact hK.gone t ht h0 k q d hd
  · rw [hI.getFromSnapshot_eq ht k, hK.inv.getFromSnapshot_eq ht k, hw.find]
    split_ifs with hk
    · rw [hk, hf]
      exact readSnapshot_thin (hsafe t ht)
    · rfl

/-- The keys of the snapshots get fewer. -/
def FewerKeys (s s' : Store α) : Prop :=
  ∀ r ss', s'.snapshots.lookup r = some ss' →
    ∃ ss, s.snapshots.lookup r = some ss ∧ ss'.deleted = ss.deleted ∧ ss'.keys ⊆ ss.keys

/-- The version of one key under a snapshot is removed, and the key from the snapshot. -/
theorem delVersion_spec (hs : Shape s) (hf : s.find key = some (p, c)) (snap n : Nat) :
    Writes s ((s.delVersion snap key n).1.dropKey snap key) key p (c.thin snap) s.lastVer ∧
      FewerKeys s ((s.delVersion snap key n).1.dropKey snap key) := by
  have hc := (find_eq_some.mp hf).2
  have hmem := hs.mem_pending hc
  -- the store after the version is removed
  obtain ⟨s1, hs1, hr, hrest⟩ : ∃ s1, (s.delVersion snap key n).1 = s1 ∧
      Rewrites s s1 p (c.thin snap) ∧ s1.delPending = s.delPending ∧ s1.lastVer = s.lastVer ∧
      s1.lastSnapshot = s.lastSnapshot ∧ s1.snapshots = s.snapshots := by
    refine ⟨_, rfl, ?_⟩
    simp only [delVersion, hf, CacheObj.delVersion]
    cases hl : c.snapshots.lookup snap with
    | some v => exact ⟨⟨rfl, rfl, fun q => put_mem⟩, rfl, rfl, rfl, rfl⟩
    | none =>
      have hthin : c.thin snap = c := by
        have hnot : snap ∉ c.snapshots.keys := AList.lookup_eq_none.mp hl
        have herase : c.snapshots.erase snap = c.snapshots :=
          AList.ext (List.kerase_of_notMem_keys hnot)
        rw [CacheObj.thin, herase]
      refine ⟨⟨rfl, rfl, fun q => ?_⟩, rfl, rfl, rfl, rfl⟩
      split_ifs with hq
      · rw [hq, hc, hthin]
      · rfl
  obtain ⟨hpending, hver, hlast, hsnaps⟩ := hrest
  rw [hs1]
  have hdrop : ∃ m, s1.dropKey snap key = { s1 with snapshots := m } ∧
      ∀ r, (m.lookup r).map Snapshot.deleted = (s.snapshots.lookup r).map Snapshot.deleted ∧
        ∀ ss', m.lookup r = some ss' → ∃ ss, s.snapshots.lookup r = some ss ∧
          ss'.deleted = ss.deleted ∧ ss'.keys ⊆ ss.keys := by
    unfold dropKey
    rw [hsnaps]
    cases hl : s.snapshots.lookup snap with
    | none =>
      exact ⟨s.snapshots, by rw [← hsnaps], fun r => ⟨rfl, fun ss hss => ⟨ss, hss, rfl, fun _ => id⟩⟩⟩
    | some ss =>
      refine ⟨_, rfl, fun r => ?_⟩
      by_cases hr : r = snap
      · subst hr
        refine ⟨by simp [hl], fun ss' hss' => ⟨ss, hl, ?_⟩⟩
        rw [AList.lookup_insert] at hss'
        cases hss'
        exact ⟨rfl, List.erase_subset⟩
      · rw [AList.lookup_insert_ne hr]
        exact ⟨rfl, fun ss hss => ⟨ss, hss, rfl, fun _ => id⟩⟩
  obtain ⟨m, hm, hdel⟩ := hdrop
  rw [hm]
  refine ⟨hs.writes hf { hr with } rfl ⟨hlast, fun r => (hdel r).1⟩ hver
    (hpending ▸ hs.nodup) (fun q => ?_) fun hin => ?_, fun r => (hdel r).2⟩
  · show q ∈ s1.delPending ↔ _
    rw [hpending]
    split_ifs with hq
    · rw [hq]
      exact hmem
    · rfl
  · obtain ⟨d, hd, hdd, -⟩ := hs.heap p (hmem.mpr hin)
    rw [← Option.some.inj (hc.symm.trans hd)] at hdd
    exact hdd

/-! ### The loops of `PurgeDeleted` -/

/-- A store in the course of a purge that started at `h`. -/
structure Collected (h : Hist α) (s : Store α) : Prop where
  kept : Kept { h with store := s }
  spared : Spared s h.taken
  reads : SameReads h.taken h.store s

/-- What no live snapshot reads, as other versions are removed. -/
theorem firstFrom_of_thin (hf : s.find key = some (p, c))
    (hw : Writes s s' key p (c.thin snap) n) {q : Nat} {d : CacheObj α} (hd : s'.find k = some (q, d)) :
    ∃ d', s.find k = some (q, d') ∧ ∀ r, d.firstFrom r = d'.firstFrom r := by
  rw [hw.find] at hd
  split_ifs at hd with hk
  · cases hd
    exact ⟨c, hk ▸ hf, fun _ => rfl⟩
  · exact ⟨d, hd, fun _ => rfl⟩

theorem Collected.purgeKeys (keys : List Key) (hC : Collected h s)
    (hsafe : ∀ k ∈ keys, ∀ p c, s.find k = some (p, c) → ∀ t ∈ h.taken, c.firstFrom t.1 ≠ some snap)
    (hdel : (s.snapshots.lookup snap).map Snapshot.deleted = some true) (n : Nat) :
    Collected h (purgeKeys snap keys s n).1.1 ∧
      ((purgeKeys snap keys s n).1.1.snapshots.lookup snap).map Snapshot.deleted = some true := by
  induction keys generalizing s n with
  | nil => exact ⟨hC, hdel⟩
  | cons key keys ih =>
    have htail := fun k hk => hsafe k (List.mem_cons_of_mem _ hk)
    cases ho : s.objs key with
    | none =>
      simp only [purgeKeys, ho]
      exact ih hC htail hdel n
    | some p =>
      obtain ⟨c, hc, -⟩ := hC.kept.inv.shape.trie key p ho
      have hf : s.find key = some (p, c) := find_eq_some.mpr ⟨ho, hc⟩
      obtain ⟨hw, hfewer⟩ := delVersion_spec hC.kept.inv.shape hf snap n
      obtain ⟨hkept, hreads⟩ := hC.kept.thin hf hw (hsafe key (List.mem_cons_self ..) p c hf)
      have hC' : Collected h ((s.delVersion snap key n).1.dropKey snap key) := by
        refine ⟨hkept, fun r ss hss hd k hk q d hfd t ht => ?_, hC.reads.trans hreads⟩
        obtain ⟨ss', hss', hdd, hkeys⟩ := hfewer r ss hss
        obtain ⟨d', hd', hfirst⟩ := firstFrom_of_thin hf hw hfd
        rw [hfirst]
        exact hC.spared r ss' hss' (hdd ▸ hd) k (hkeys hk) q d' hd' t ht
      have hdel' := (hw.same.deleted snap).trans hdel
      simp only [purgeKeys, ho]
      split_ifs
      · exact ⟨hC', hdel'⟩
      · refine ih hC' (fun k hk q d hfd => ?_) hdel' _
        obtain ⟨d', hd', hfirst⟩ := firstFrom_of_thin hf hw hfd
        intro t ht
        rw [hfirst]
        exact htail k hk q d' hd' t ht

/-- A deleted snapshot goes away. -/
theorem Collected.dropSnapshot (hC : Collected h s)
    (hdel : (s.snapshots.lookup snap).map Snapshot.deleted = some true) :
    Collected h (s.dropSnapshot snap) := by
  have hne : ∀ t ∈ h.taken, t.1 ≠ snap := fun t ht heq => by
    have hlive := hC.kept.inv.live t ht
    rw [heq] at hlive
    cases hlive.symm.trans hdel
  -- the map with the snapshot, or without it
  obtain ⟨m, hm, hsub, hother⟩ : ∃ m : GoMap Nat Snapshot,
      s.dropSnapshot snap = { s with
        snapshots := m, lastSnapshot := if m.keys = [] then 0 else s.lastSnapshot } ∧
      (∀ r ss, m.lookup r = some ss → s.snapshots.lookup r = some ss) ∧
      ∀ r, r ≠ snap → m.lookup r = s.snapshots.lookup r := by
    unfold Store.dropSnapshot
    cases hl : s.snapshots.lookup snap with
    | none => simp [hl] at hdel
    | some ss =>
      by_cases hkeys : ss.keys = []
      · have hother : ∀ r, r ≠ snap → (s.snapshots.erase snap).lookup r = s.snapshots.lookup r :=
          fun r hr => AList.lookup_erase_ne hr
        refine ⟨s.snapshots.erase snap, ?_, fun r ss' hr => ?_, hother⟩
        · simp only [if_pos hkeys]
          split_ifs <;> rfl
        · by_cases hrs : r = snap
          · subst hrs
            simp at hr
          · rwa [hother r hrs] at hr
      · refine ⟨s.snapshots, ?_, fun _ _ => id, fun _ _ => rfl⟩
        simp only [if_neg hkeys]
        split_ifs <;> rfl
  have hl : (if m.keys = [] then 0 else s.lastSnapshot) = s.lastSnapshot ∨
      ((if m.keys = [] then 0 else s.lastSnapshot) = 0 ∧ ∀ r, m.lookup r = none) := by
    split_ifs with hkeys
    · refine .inr ⟨rfl, fun r => AList.lookup_eq_none.mpr fun hmem => ?_⟩
      have hmem' : r ∈ m.keys := hmem
      rw [hkeys] at hmem'
      cases hmem'
    · exact .inl rfl
  obtain ⟨hkept, hreads⟩ := hC.kept.collect (fun r hr => by
      obtain ⟨ss, hss⟩ := Option.isSome_iff_exists.mp hr
      simp [hsub r ss hss]) hl (fun _ => id) fun t ht => by
      rw [hother t.1 (hne t ht)]
      exact hC.kept.inv.live t ht
  rw [hm]
  exact ⟨hkept, fun r ss hss => hC.spared r ss (hsub r ss hss), hC.reads.trans (.of_eq hreads)⟩

variable {order : List Key → List Key}

theorem Collected.purgeSnapshots (horder : ∀ l, (order l).Perm l) (snaps : List Nat)
    (hC : Collected h s) (n : Nat) : Collected h (purgeSnapshots order snaps s n) := by
  induction snaps generalizing s n with
  | nil => exact hC
  | cons snap snaps ih =>
    cases hl : s.snapshots.lookup snap with
    | none =>
      simp only [purgeSnapshots, hl]
      exact ih hC n
    | some ss =>
      simp only [purgeSnapshots, hl]
      split_ifs with hdel
      · obtain ⟨hC', hdel'⟩ := hC.purgeKeys (order ss.keys) (fun k hk =>
          hC.spared snap ss hl hdel k ((horder ss.keys).mem_iff.mp hk)) (by simp [hl, hdel]) n
        rcases hres : Store.purgeKeys snap (order ss.keys) s n with ⟨⟨s', n'⟩, stop⟩
        rw [hres] at hC' hdel'
        cases stop with
        | true => exact hC'
        | false => exact ih (hC'.dropSnapshot hdel') n'
      · exact ih hC n

/-! ### The pending deletes -/

/-- An object without versions is read as it is. -/
theorem Readable.firstFrom_none (hr : Readable c r) (hkeys : c.snapshots.keys = []) :
    c.firstFrom r = none := by
  cases he : c.firstFrom r with
  | none => rfl
  | some e =>
    have hmem : e ∈ c.snapshots.keys := AList.lookup_isSome.mp (hr.present e he)
    rw [hkeys] at hmem
    cases hmem

/-- The store after a pending delete is done. -/
def Store.donePending (s : Store α) (p : Nat) (c : CacheObj α) : Store α :=
  { s.popPending p c with objs := update s.objs c.key none }

/-- What is left after a pending delete. -/
structure DonePending (s s' : Store α) (p : Nat) (key : Key) : Prop where
  shape : Shape s'
  find : ∀ k, s'.find k = if k = key then none else s.find k
  pending : ∀ q, q ∈ s'.delPending ↔ q ≠ p ∧ q ∈ s.delPending
  mem : ∀ q, q ≠ p → s'.mem q = s.mem q
  objs : s'.objs = update s.objs key none

theorem donePending_spec (hs : Shape s) {l : List Nat} (hl : s.delPending = p :: l)
    (hc : s.mem p = some c) : DonePending s (s.donePending p c) p c.key := by
  have hget : s.delPending[0]? = some p := by simp [hl]
  have hperm := BinaryHeap.remove_perm s.less hget
  obtain ⟨hnot, hnodup⟩ := List.nodup_cons.mp (hperm.nodup_iff.mp hs.nodup)
  have hpending : ∀ q, q ∈ (s.donePending p c).delPending ↔ q ≠ p ∧ q ∈ s.delPending := by
    intro q
    rw [hperm.mem_iff, List.mem_cons]
    constructor
    · intro hq
      exact ⟨fun heq => hnot (heq ▸ hq), .inr hq⟩
    · rintro ⟨hne, rfl | hq⟩
      · exact absurd rfl hne
      · exact hq
  have hmem : ∀ q, (s.donePending p c).mem q
      = if q = p then some { c with inDelQ := false } else s.mem q := fun q => put_mem
  have hobjs : ∀ k q, (s.donePending p c).objs k = some q → k ≠ c.key ∧ s.objs k = some q := by
    intro k q hq
    by_cases hk : k = c.key
    · subst hk
      cases (update_self (β := fun _ => Option Nat) c.key none s.objs).symm.trans hq
    · exact ⟨hk, (update_of_ne (β := fun _ => Option Nat) hk none s.objs).symm.trans hq⟩
  -- the objects of other keys are elsewhere
  have hother : ∀ k q, k ≠ c.key → s.objs k = some q → q ≠ p := by
    rintro k q hk hq rfl
    obtain ⟨d, hd, rfl⟩ := hs.trie k q hq
    rw [Option.some.inj (hd.symm.trans hc)] at hk
    exact hk rfl
  refine ⟨⟨fun k q hq => ?_, fun q hq => ?_, hnodup, fun q hq => ?_, fun q d hd hin => ?_⟩,
    fun k => ?_, hpending, fun q hq => by rw [hmem, if_neg hq], rfl⟩
  · obtain ⟨hk, ho⟩ := hobjs k q hq
    rw [hmem, if_neg (hother k q hk ho)]
    exact hs.trie k q ho
  · have hqp : q ≠ p := by
      rintro rfl
      cases (hs.fresh q hq).symm.trans hc
    rw [hmem, if_neg hqp]
    exact hs.fresh q hq
  · obtain ⟨hne, hq⟩ := (hpending q).mp hq
    rw [hmem, if_neg hne]
    exact hs.heap q hq
  · rw [hmem] at hd
    split_ifs at hd with hqp
    · cases hd
      cases hin
    · exact (hpending q).mpr ⟨hqp, hs.inDelQ q d hd hin⟩
  · split_ifs with hk
    · subst hk
      simp [find, donePending]
    · have hko : (s.donePending p c).objs k = s.objs k := update_of_ne hk _ _
      rw [find, find, hko]
      cases ho : s.objs k with
      | none => rfl
      | some q => simp only [Option.bind_some, hmem, if_neg (hother k q hk ho)]

/-- **A deleted object without versions goes away.** -/
theorem Collected.donePending (hC : Collected h s) {l : List Nat} (hl : s.delPending = p :: l)
    (hc : s.mem p = some c) (hkeys : c.snapshots.keys = []) : Collected h (s.donePending p c) := by
  have hp : p ∈ s.delPending := hl ▸ List.mem_cons_self ..
  have hown := hC.kept.own p hp c hc
  have hf : s.find c.key = some (p, c) := find_eq_some.mpr ⟨hown, hc⟩
  have hdel : c.deleted = true := by
    obtain ⟨d, hd, hdd, -⟩ := hC.kept.inv.shape.heap p hp
    rw [Option.some.inj (hc.symm.trans hd), hdd]
  have hnone : ∀ t ∈ h.taken, c.firstFrom t.1 = none := fun t ht =>
    ((hC.kept.inv.obj hf).readable t ht).firstFrom_none hkeys
  have hD := donePending_spec hC.kept.inv.shape hl hc
  have hfind : ∀ k q d, (s.donePending p c).find k = some (q, d) → s.find k = some (q, d) := by
    intro k q d hd
    rw [hD.find] at hd
    split_ifs at hd with hk
    exact hd
  have hI := hC.kept.inv
  have hI' : Inv { h with store := s.donePending p c } :=
    ⟨hD.shape, hI.lastVer, hI.lastSnapshot, hI.snapshots, hI.live,
      fun hd => { hI.obj (hfind _ _ _ hd) with }⟩
  refine ⟨⟨hI', ⟨fun k q d hd => hC.kept.viewed.obj k q d (hfind k q d hd), fun t ht k => ?_⟩,
    fun q hq d hd => ?_, fun t ht h0 k q d hd => hC.kept.gone t ht h0 k q d (hfind k q d hd)⟩,
    fun r ss hss hd k hk q d hfd => hC.spared r ss hss hd k hk q d (hfind k q d hfd),
    hC.reads.trans fun t ht k => ?_⟩
  · rw [hC.kept.viewed.view t ht k, hD.find]
    split_ifs with hk
    · subst hk
      simp [hf, CacheObj.readAt, CacheObj.select, hnone t ht, CacheObj.current, hdel]
    · rfl
  · obtain ⟨hne, hq⟩ := (hD.pending q).mp hq
    rw [hD.mem q hne] at hd
    have ho := hC.kept.own q hq d hd
    have hkne : d.key ≠ c.key := fun heq => hne (Option.some.inj ((heq ▸ ho).symm.trans hown))
    rw [hD.objs, update_of_ne hkne]
    exact ho
  · rw [hI'.getFromSnapshot_eq ht k, hI.getFromSnapshot_eq ht k, hD.find]
    split_ifs with hk
    · subst hk
      simp only [hf, CacheObj.readSnapshot, hdel, if_true]
      split_ifs with hrev
      · exact ⟨rfl, fun _ => rfl⟩
      · refine ⟨?_, fun h0 => ?_⟩
        · simp [CacheObj.versionAt, hnone t ht, Except.toOption]
        · exact absurd (hnone t ht) (hC.kept.gone t ht h0 c.key p c hf hdel (Nat.not_le.mp hrev))
    · exact ⟨rfl, fun _ => rfl⟩

/-- The pending deletes keep what each of them keeps. -/
theorem purgePending_keeps {I : Store α → Prop} (past : Nat) (clock : Nat → Nat) (n deletes : Nat)
    (hdone : ∀ {s p l c}, I s → s.delPending = p :: l → s.mem p = some c → c.snapshots.keys = [] →
      I (s.donePending p c)) (hs : I s) : I (purgePending past clock n deletes s) := by
  induction n generalizing s deletes with
  | zero => exact hs
  | succ n ih =>
    unfold purgePending
    cases hl : s.delPending with
    | nil => exact hs
    | cons p l =>
      dsimp only
      cases hc : s.mem p with
      | none => exact hs
      | some c =>
        dsimp only
        split_ifs with hwait hkeys
        · exact hs
        · exact hs
        · exact ih (deletes + 1) (hdone hs hl hc (not_not.mp hkeys))

/-- **`PurgeDeleted` is not seen by live snapshots** that read no version of a deleted one. -/
theorem Kept.purgeDeleted (hK : Kept h) (hs : Spared h.store h.taken)
    (horder : ∀ l, (order l).Perm l) (past : Nat) (clock : Nat → Nat) :
    Kept { h with store := h.store.purgeDeleted past clock order } ∧
      SameReads h.taken h.store (h.store.purgeDeleted past clock order) := by
  have hC : Collected h h.store := ⟨hK, hs, .of_eq fun _ _ _ => rfl⟩
  have hsnaps := hC.purgeSnapshots horder (h.store.snapshots.keys.insertionSort (· ≤ ·)) 0
  have hC' : Collected h (h.store.purgeDeleted past clock order) := 
    purgePending_keeps past clock _ 0 (fun hC hl hc hkeys => hC.donePending hl hc hkeys) hsnaps
  exact ⟨hC'.kept, hC'.reads⟩

/-! ### Runs with garbage collection -/

/-- Revisions increase; the keys of a map come in some order. -/
def Hist.Increasing (h : Hist α) : Op α → Prop
  | .set _ rev _ _ => h.last < rev
  | .delete _ rev _ => h.last < rev
  | .startSnapshot => True
  | .deleteSnapshot _ => True
  | .purgeDeleted _ _ order => ∀ l, (order l).Perm l

/-- A snapshot is not started where a deleted one was not purged yet, and a purge does not
take away a version that a live snapshot reads. -/
def Hist.Spares (h : Hist α) : Op α → Prop
  | .startSnapshot => ∀ ss, h.store.snapshots.lookup h.store.lastVer = some ss → ss.deleted = false
  | .purgeDeleted _ _ _ => Spared h.store h.taken
  | _ => True

/-- Garbage collection. -/
def Op.collects : Op α → Bool
  | .deleteSnapshot _ => true
  | .purgeDeleted _ _ _ => true
  | _ => false

theorem Kept.init : Kept (Hist.init α) :=
  ⟨.init, .init, fun q hq => (by cases hq), fun t ht => (by cases ht)⟩

/-- **A step keeps the store readable**, and garbage collection is not seen. -/
theorem Kept.step (hK : Kept h) {op : Op α} {h' : Hist α} (hinc : h.Increasing op)
    (hsp : h.Spares op) (hs : h.step op = some h') :
    Kept h' ∧ (op.collects = true → SameReads h'.taken h.store h'.store) := by
  have hwritten : ∀ key rev, op.written = some (key, rev) → h.last < rev → Kept h' := by
    intro key rev hop hlt
    have hrev0 : rev ≠ 0 := Nat.ne_of_gt (Nat.lt_of_le_of_lt (Nat.zero_le _) hlt)
    obtain ⟨s', hs', hst⟩ := hK.inv.step_written hop hrev0 (Nat.le_of_lt hlt)
    exact Option.some.inj (hs'.symm.trans hs) ▸ hK.stored hst hlt
  cases op with
  | set key rev obj now => exact ⟨hwritten key rev rfl hinc, fun hcol => by cases hcol⟩
  | delete key rev now => exact ⟨hwritten key rev rfl hinc, fun hcol => by cases hcol⟩
  | startSnapshot =>
    cases hs
    exact ⟨hK.startSnapshot hsp, fun hcol => by cases hcol⟩
  | deleteSnapshot rev =>
    cases hs
    obtain ⟨hkept, hreads⟩ := hK.deleteSnapshot rev
    exact ⟨hkept, fun _ => .of_eq hreads⟩
  | purgeDeleted past clock order =>
    cases hs
    obtain ⟨hkept, hreads⟩ := hK.purgeDeleted hsp hinc past clock
    exact ⟨hkept, fun _ => hreads⟩

end NicSw.ApiCache
