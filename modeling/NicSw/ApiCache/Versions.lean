/-
The versions of a cache object.

Versions are filed under snapshots in increasing order.  What a snapshot of revision
`r` reads is the first version that was filed at or after `r`, or the current one if
there is none: a write files the version that it replaces under the newest snapshot,
unless that snapshot has one already, so the choice stays the same.  `getVersion`
finds it, except that it takes a version under `r` itself without a look at its
revision.
-/
import NicSw.ApiCache.Objects

namespace NicSw.ApiCache

open CacheObj

variable {α : Type} {c c' : CacheObj α} {r snap bound : Nat}

/-! ### The version that a snapshot reads -/

/-- The revision of a version, and its object unless it is deleted. -/
def MvccObj.content (v : MvccObj α) : Nat × Option α := (v.objRev, if v.deleted then none else v.obj)

namespace CacheObj

/-- The current version. -/
def current (c : CacheObj α) : Nat × Option α :=
  (c.revision, if c.deleted then none else some c.obj)

/-- The first snapshot at or after `r` that has a version. -/
def firstFrom (c : CacheObj α) (r : Nat) : Option Nat := c.snapshotList.find? fun e => decide (r ≤ e)

/-- The version that a snapshot reads. -/
def select (c : CacheObj α) (r : Nat) : Nat × Option α :=
  match c.firstFrom r with
  | some e => (c.version e).content
  | none => c.current

/-- What a snapshot reads; a version that is newer was created later. -/
def readAt (c : CacheObj α) (r : Nat) : Option α := if (c.select r).1 ≤ r then (c.select r).2 else none

end CacheObj

/-- The versions of an object are in order, and below `bound`. -/
structure Versions (c : CacheObj α) (bound : Nat) : Prop where
  sorted : c.snapshotList.Pairwise (· < ·)
  last : ∀ e ∈ c.snapshotList, e ≤ c.lastSnapshot
  mem_last : c.lastSnapshot ≠ 0 → c.lastSnapshot ∈ c.snapshotList
  pos : ∀ e ∈ c.snapshotList, e ≠ 0
  filed : ∀ e v, c.snapshots.lookup e = some v → e ∈ c.snapshotList
  lt : ∀ e ∈ c.snapshotList, e < bound

/-- A snapshot of revision `r` can read the object. -/
structure Readable (c : CacheObj α) (r : Nat) : Prop where
  present : ∀ e, c.firstFrom r = some e → (c.snapshots.lookup e).isSome
  created : r < (c.select r).1 → ∀ e ∈ c.snapshotList, r ≤ e
  unchanged : c.revision ≤ r → c.select r = c.current

theorem CacheObj.mem_of_firstFrom {e : Nat} (h : c.firstFrom r = some e) :
    e ∈ c.snapshotList ∧ r ≤ e := by
  refine ⟨List.mem_of_find?_eq_some h, ?_⟩
  simpa using List.find?_some h

theorem CacheObj.firstFrom_eq_none : c.firstFrom r = none ↔ ∀ e ∈ c.snapshotList, e < r := by
  simp [firstFrom]

/-- A snapshot that has a version itself reads that one. -/
theorem Versions.firstFrom_self (h : Versions c bound) (hr : r ∈ c.snapshotList) :
    c.firstFrom r = some r := by
  have hfind : ∀ l : List Nat, l.Pairwise (· < ·) → r ∈ l →
      (l.find? fun e => decide (r ≤ e)) = some r := by
    intro l hl hmem
    induction l with
    | nil => cases hmem
    | cons e l ih =>
      obtain ⟨hlt, hl⟩ := List.pairwise_cons.mp hl
      rcases List.mem_cons.mp hmem with rfl | hmem
      · simp
      · have hne : ¬ r ≤ e := Nat.not_le.mpr (hlt r hmem)
        simpa [hne] using ih hl hmem
  exact hfind _ h.sorted hr

/-- A version, if it was there at `r`. -/
def CacheObj.takeVersion (c : CacheObj α) (ok : Nat → Prop) [DecidablePred ok] (e : Nat) :
    Except Err (Option α × Bool) :=
  if ok e then .ok ((c.version e).obj, (c.version e).deleted) else .error .snapshotNotFound

/-- The loop of `getVersion` finds the first version after `r`. -/
theorem findVersion_eq (l : List Nat) (pobj : Option (MvccObj α)) (hne : ∀ e ∈ l, e ≠ r)
    (hold : pobj.isSome ∨ (∃ e ∈ l, e < r) →
      ∀ e, (l.find? fun e => decide (r ≤ e)) = some e → (c.version e).objRev ≤ r) :
    c.findVersion r l pobj = match l.find? fun e => decide (r ≤ e) with
      | some e => c.takeVersion (fun e => (c.version e).objRev ≤ r) e
      | none => .error .snapshotNotFound := by
  induction l generalizing pobj with
  | nil => rfl
  | cons e l ih =>
    have hner := hne e (List.mem_cons_self ..)
    by_cases hlt : r < e
    · have hfind : ((e :: l).find? fun e => decide (r ≤ e)) = some e := by
        simp [Nat.le_of_lt hlt]
      rw [hfind]
      simp only [findVersion, if_pos hlt, takeVersion]
      split_ifs with hrev
      · rfl
      · cases pobj with
        | none => rfl
        | some pobj => exact absurd (hold (.inl rfl) e hfind) hrev
    · have hle : ¬ r ≤ e := fun hle => hlt (Nat.lt_of_le_of_ne hle (Ne.symm hner))
      have hfind : ((e :: l).find? fun e => decide (r ≤ e)) = l.find? fun e => decide (r ≤ e) := by
        simp [hle]
      rw [hfind] at hold ⊢
      simp only [findVersion, if_neg hlt]
      refine ih _ (fun e he => hne e (List.mem_cons_of_mem _ he)) fun _ => ?_
      exact hold (.inr ⟨e, List.mem_cons_self .., Nat.not_le.mp hle⟩)

/-- The version that the snapshot reads, if it was filed and was there at `r`, or was filed
under `r`. -/
def CacheObj.versionAt (c : CacheObj α) (r : Nat) : Except Err (Option α × Bool) :=
  match c.firstFrom r with
  | some e => c.takeVersion (fun e => e = r ∨ (c.version e).objRev ≤ r) e
  | none => .error (if c.snapshotList = [] then .noVersion else .snapshotNotFound)

/-- **`getVersion` finds the version that the snapshot reads.** -/
theorem getVersion_eq (hv : Versions c bound) (hr : Readable c r) : c.getVersion r = c.versionAt r := by
  unfold getVersion versionAt
  cases ho : c.snapshots.lookup r with
  | some o =>
    rw [hv.firstFrom_self (hv.filed r o ho)]
    have hversion : c.version r = o := by simp [version, ho]
    simp [takeVersion, hversion]
  | none =>
    -- a live snapshot keeps its own version
    have hnot : r ∉ c.snapshotList := fun hmem => by
      have hsome := hr.present r (hv.firstFrom_self hmem)
      rw [ho] at hsome
      cases hsome
    have hne : ∀ e ∈ c.snapshotList, e ≠ r := fun e he heq => hnot (heq ▸ he)
    have hold : (∃ e ∈ c.snapshotList, e < r) → ∀ e, c.firstFrom r = some e →
        (c.version e).objRev ≤ r := by
      rintro ⟨e', he', hlt⟩ e he
      by_contra hgt
      have hselect : (c.select r).1 = (c.version e).objRev := by
        simp [select, he, MvccObj.content]
      exact absurd (hr.created (hselect ▸ Nat.not_le.mp hgt) e' he') (Nat.not_le.mpr hlt)
    split_ifs with hnil
    · simp [firstFrom, hnil]
    · rw [findVersion_eq c.snapshotList none hne fun h => hold (h.resolve_left (by simp))]
      show (match c.firstFrom r with | some e => _ | none => _) = _
      cases he : c.firstFrom r with
      | none => rfl
      | some e => simp [takeVersion, hne e (mem_of_firstFrom he).1]

/-! ### A write files a version -/

/-- The versions of two objects are the same. -/
structure SameVersions (c c' : CacheObj α) : Prop where
  snapshots : c'.snapshots = c.snapshots
  snapshotList : c'.snapshotList = c.snapshotList
  lastSnapshot : c'.lastSnapshot = c.lastSnapshot

theorem SameVersions.versions (h : SameVersions c c') (hv : Versions c bound) : Versions c' bound := by
  refine ⟨?_, ?_, ?_, ?_, ?_, ?_⟩
  · rw [h.snapshotList]
    exact hv.sorted
  · rw [h.snapshotList, h.lastSnapshot]
    exact hv.last
  · rw [h.snapshotList, h.lastSnapshot]
    exact hv.mem_last
  · rw [h.snapshotList]
    exact hv.pos
  · rw [h.snapshotList, h.snapshots]
    exact hv.filed
  · rw [h.snapshotList]
    exact hv.lt

theorem file_of_filed (h : snap = 0 ∨ c.lastSnapshot = snap) : c.file snap = c := if_pos h

theorem file_of_ne (hsnap : snap ≠ 0) (hne : c.lastSnapshot ≠ snap) :
    c.file snap = { c with
      snapshots := c.snapshots.insert snap ⟨c.deleted, some c.obj, snap, c.revision⟩
      lastSnapshot := snap
      snapshotList := c.snapshotList ++ [snap] } := if_neg (by simp [hsnap, hne])

/-- Filing keeps the versions in order. -/
theorem Versions.file (hv : Versions c bound) (hle : snap = 0 ∨ c.lastSnapshot ≤ snap) {bound' : Nat}
    (hlt : snap < bound') (hb : bound ≤ bound') : Versions (c.file snap) bound' := by
  by_cases h : snap = 0 ∨ c.lastSnapshot = snap
  · rw [file_of_filed h]
    exact { hv with lt := fun e he => Nat.lt_of_lt_of_le (hv.lt e he) hb }
  obtain ⟨hsnap, hne⟩ := not_or.mp h
  have hlast : c.lastSnapshot < snap := Nat.lt_of_le_of_ne (hle.resolve_left hsnap) hne
  have hbelow : ∀ e ∈ c.snapshotList, e < snap := fun e he => Nat.lt_of_le_of_lt (hv.last e he) hlast
  have hmem : ∀ e, e ∈ c.snapshotList ++ [snap] ↔ e ∈ c.snapshotList ∨ e = snap := by simp
  rw [file_of_ne hsnap hne]
  refine ⟨?_, fun e he => ?_, fun _ => (hmem _).mpr (.inr rfl), fun e he => ?_, fun e v hl => ?_,
    fun e he => ?_⟩
  · refine List.pairwise_append.mpr ⟨hv.sorted, List.pairwise_singleton _ _, fun e he e' he' => ?_⟩
    rw [List.mem_singleton.mp he']
    exact hbelow e he
  · rcases (hmem e).mp he with he | rfl
    · exact Nat.le_of_lt (hbelow e he)
    · exact Nat.le_refl _
  · rcases (hmem e).mp he with he | rfl
    · exact hv.pos e he
    · exact hsnap
  · by_cases hes : e = snap
    · exact (hmem e).mpr (.inr hes)
    · rw [AList.lookup_insert_ne hes] at hl
      exact (hmem e).mpr (.inl (hv.filed e v hl))
  · rcases (hmem e).mp he with he | rfl
    · exact Nat.lt_of_lt_of_le (hv.lt e he) hb
    · exact hlt

/-- The versions after a write. -/
theorem lookup_file (hsame : SameVersions (c.file snap) c') {e : Nat} {v : MvccObj α}
    (hv : c'.snapshots.lookup e = some v) :
    c.snapshots.lookup e = some v ∨
      (¬ (snap = 0 ∨ c.lastSnapshot = snap) ∧ e = snap ∧
        v = ⟨c.deleted, some c.obj, snap, c.revision⟩) := by
  rw [hsame.snapshots] at hv
  by_cases hfiled : snap = 0 ∨ c.lastSnapshot = snap
  · rw [file_of_filed hfiled] at hv
    exact .inl hv
  obtain ⟨hsnap, hne⟩ := not_or.mp hfiled
  rw [file_of_ne hsnap hne] at hv
  by_cases he : e = snap
  · subst he
    rw [AList.lookup_insert] at hv
    exact .inr ⟨hfiled, rfl, (Option.some.inj hv).symm⟩
  · rw [AList.lookup_insert_ne he] at hv
    exact .inl hv

section

variable (hv : Versions c bound) (hsnap : snap ≠ 0) (hle : c.lastSnapshot ≤ snap) (hr : r ≤ snap)
  (hsame : SameVersions (c.file snap) c')
include hv hsnap hle hr hsame

/-- What the newest snapshot and older ones read after a write. -/
theorem firstFrom_file :
    ∃ e, c'.firstFrom r = some e ∧ ((c.firstFrom r = some e ∧
        c'.snapshots.lookup e = c.snapshots.lookup e) ∨
      (c.firstFrom r = none ∧ e = snap ∧
        c'.snapshots.lookup e = some ⟨c.deleted, some c.obj, snap, c.revision⟩)) := by
  by_cases heq : c.lastSnapshot = snap
  · -- the newest snapshot has a version
    rw [file_of_filed (.inr heq)] at hsame
    have hmem := hv.mem_last (heq ▸ hsnap)
    cases he : c.firstFrom r with
    | none => exact absurd (firstFrom_eq_none.mp he _ hmem) (by omega)
    | some e =>
      refine ⟨e, ?_, .inl ⟨rfl, by rw [hsame.snapshots]⟩⟩
      rw [firstFrom, hsame.snapshotList]
      exact he
  · rw [file_of_ne hsnap heq] at hsame
    have hlist : c'.firstFrom r = (c.firstFrom r).or (some snap) := by
      rw [firstFrom, hsame.snapshotList, List.find?_append]
      simp [firstFrom, hr]
    cases he : c.firstFrom r with
    | none => exact ⟨snap, by simp [hlist, he], .inr ⟨rfl, rfl, by simp [hsame.snapshots]⟩⟩
    | some e =>
      have hne : e ≠ snap := by
        have := hv.last e (mem_of_firstFrom he).1
        omega
      refine ⟨e, by simp [hlist, he], .inl ⟨rfl, ?_⟩⟩
      rw [hsame.snapshots, AList.lookup_insert_ne hne]

/-- **A write does not change what snapshots read.** -/
theorem select_file : c'.select r = c.select r := by
  obtain ⟨e, he, ⟨hc, hl⟩ | ⟨hc, rfl, hl⟩⟩ := firstFrom_file hv hsnap hle hr hsame
  · simp [select, he, hc, version, hl]
  · simp [select, he, hc, version, hl, MvccObj.content, current]

end

theorem Readable.file (hread : Readable c r) (hv : Versions c bound) (hsnap : snap ≠ 0)
    (hle : c.lastSnapshot ≤ snap) (hr : r ≤ snap) (hsame : SameVersions (c.file snap) c')
    (hcur : r < c'.revision ∨ c'.current = c.current) : Readable c' r := by
  have hselect := select_file hv hsnap hle hr hsame
  refine ⟨fun e he => ?_, fun hlt e he => ?_, fun hrev => ?_⟩
  · obtain ⟨e', he', ⟨hc, hl⟩ | ⟨hc, rfl, hl⟩⟩ := firstFrom_file hv hsnap hle hr hsame
    · cases he.symm.trans he'
      rw [hl]
      exact hread.present e hc
    · cases he.symm.trans he'
      rw [hl]
      rfl
  · rw [hselect] at hlt
    by_cases hfiled : c.lastSnapshot = snap
    · rw [hsame.snapshotList, file_of_filed (.inr hfiled)] at he
      exact hread.created hlt e he
    · rw [hsame.snapshotList, file_of_ne hsnap hfiled] at he
      rcases List.mem_append.mp he with he | he
      · exact hread.created hlt e he
      · rw [List.mem_singleton.mp he]
        exact hr
  · rcases hcur with hlt | hcur
    · exact absurd hrev (Nat.not_le.mpr hlt)
    · have hrev' : c.revision ≤ r := by
        have hfst : c'.revision = c.revision := congrArg Prod.fst hcur
        exact hfst ▸ hrev
      rw [hselect, hcur]
      exact hread.unchanged hrev'

end NicSw.ApiCache
