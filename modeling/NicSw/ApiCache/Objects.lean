/-
Cache objects behind their pointers, and the heap of pending deletes.

`Shape` says how the trie, the memory and the heap fit together: each key has its own
cache object, and the heap holds exactly the objects that are marked as being in it,
which are deleted.  Every operation keeps it.  For each operation there is a lemma
that says what it does to the cache objects of the keys.
-/
import NicSw.ApiCache.Store

namespace NicSw.ApiCache

open Function Store BinaryHeap

variable {α : Type} {s s' : Store α} {key k : Key} {p q ver rev now : Nat} {c c' : CacheObj α}
  {obj : α}

/-! ### The shape of the store -/

/-- How trie, memory and heap fit together. -/
structure Shape (s : Store α) : Prop where
  trie : ∀ k p, s.objs k = some p → ∃ c, s.mem p = some c ∧ c.key = k
  fresh : ∀ p, s.next ≤ p → s.mem p = none
  nodup : s.delPending.Nodup
  heap : ∀ p ∈ s.delPending, ∃ c, s.mem p = some c ∧ c.deleted = true ∧ c.inDelQ = true
  inDelQ : ∀ p c, s.mem p = some c → c.inDelQ = true → p ∈ s.delPending

theorem Shape.init : Shape (newStore α) where
  trie := fun k p h => by cases h
  fresh := fun p _ => rfl
  nodup := List.nodup_nil
  heap := fun p hp => by cases hp
  inDelQ := fun p c h => by cases h

/-- The shape does not depend on the snapshots. -/
theorem Shape.withSnapshots (hs : Shape s) (m : GoMap Nat Snapshot) (l : Nat) :
    Shape { s with snapshots := m, lastSnapshot := l } :=
  { hs with }

theorem Store.find_eq_some : s.find key = some (p, c) ↔ s.objs key = some p ∧ s.mem p = some c := by
  constructor
  · intro h
    obtain ⟨q, hq, h⟩ := Option.bind_eq_some_iff.mp h
    obtain ⟨d, hd, heq⟩ := Option.map_eq_some_iff.mp h
    cases heq
    exact ⟨hq, hd⟩
  · rintro ⟨ho, hm⟩
    simp [find, ho, hm]

theorem Shape.find_eq_none (h : Shape s) : s.find key = none ↔ s.objs key = none := by
  constructor
  · intro hnone
    cases ho : s.objs key with
    | none => rfl
    | some p =>
      obtain ⟨c, hc, -⟩ := h.trie key p ho
      cases hnone.symm.trans (find_eq_some.mpr ⟨ho, hc⟩)
  · intro ho
    simp [find, ho]

theorem Shape.key_eq (h : Shape s) (hf : s.find key = some (p, c)) : c.key = key := by
  obtain ⟨ho, hc⟩ := find_eq_some.mp hf
  obtain ⟨d, hd, hkey⟩ := h.trie key p ho
  rw [← hkey, Option.some.inj (hc.symm.trans hd)]

theorem Store.put_mem : (s.put p c).mem q = if q = p then some c else s.mem q := by
  by_cases hq : q = p
  · simp [put, hq]
  · simp [put, hq]

/-- One object is rewritten. -/
structure Rewrites (s s' : Store α) (p : Nat) (c : CacheObj α) : Prop where
  objs : s'.objs = s.objs
  next : s'.next = s.next
  mem : ∀ q, s'.mem q = if q = p then some c else s.mem q

/-- A rewrite keeps the shape if the heap follows. -/
theorem Rewrites.shape (h : Rewrites s s' p c') (hs : Shape s) (hc : s.mem p = some c)
    (hkey : c'.key = c.key) (hnodup : s'.delPending.Nodup)
    (hheap : ∀ q, q ∈ s'.delPending ↔ if q = p then c'.inDelQ = true else q ∈ s.delPending)
    (hdel : c'.inDelQ = true → c'.deleted = true) : Shape s' where
  trie := fun k q hq => by
    rw [h.objs] at hq
    obtain ⟨d, hd, hdk⟩ := hs.trie k q hq
    rw [h.mem]
    split_ifs with hqp
    · subst hqp
      rw [Option.some.inj (hd.symm.trans hc)] at hdk
      exact ⟨c', rfl, hkey.trans hdk⟩
    · exact ⟨d, hd, hdk⟩
  fresh := fun q hq => by
    rw [h.next] at hq
    have hqp : q ≠ p := by
      rintro rfl
      cases (hs.fresh q hq).symm.trans hc
    rw [h.mem, if_neg hqp]
    exact hs.fresh q hq
  nodup := hnodup
  heap := fun q hq => by
    rw [hheap] at hq
    rw [h.mem]
    split_ifs at hq ⊢ with hqp
    · exact ⟨c', rfl, hdel hq, hq⟩
    · exact hs.heap q hq
  inDelQ := fun q d hd hin => by
    rw [h.mem] at hd
    rw [hheap]
    split_ifs at hd ⊢ with hqp
    · rw [Option.some.inj hd]
      exact hin
    · exact hs.inDelQ q d hd hin

/-! ### Filing a version -/

/-- The store changes at most in the keys of its snapshots. -/
structure SameSnapshots (s s' : Store α) : Prop where
  lastSnapshot : s'.lastSnapshot = s.lastSnapshot
  deleted : ∀ r, (s'.snapshots.lookup r).map Snapshot.deleted
    = (s.snapshots.lookup r).map Snapshot.deleted

theorem SameSnapshots.refl (s : Store α) : SameSnapshots s s := ⟨rfl, fun _ => rfl⟩

theorem addKey_same (s : Store α) (snap : Nat) (key : Key) : SameSnapshots s (s.addKey snap key) := by
  unfold addKey
  split
  · rename_i ss hss
    refine ⟨rfl, fun r => ?_⟩
    by_cases hr : r = snap
    · subst hr
      simp [hss]
    · rw [AList.lookup_insert_ne hr]
  · exact .refl s

/-- The object with its current version filed under a snapshot. -/
def CacheObj.file (c : CacheObj α) (snap : Nat) : CacheObj α :=
  if snap = 0 ∨ c.lastSnapshot = snap then c
  else
    { c with
      snapshots := c.snapshots.insert snap ⟨c.deleted, some c.obj, snap, c.revision⟩
      lastSnapshot := snap
      snapshotList := c.snapshotList ++ [snap] }

/-- The object is the same up to its versions. -/
structure SameObj (c c' : CacheObj α) : Prop where
  revision : c'.revision = c.revision
  key : c'.key = c.key
  obj : c'.obj = c.obj
  deleted : c'.deleted = c.deleted
  inDelQ : c'.inDelQ = c.inDelQ

theorem CacheObj.file_same (c : CacheObj α) (snap : Nat) : SameObj c (c.file snap) := by
  unfold CacheObj.file
  split_ifs
  · exact ⟨rfl, rfl, rfl, rfl, rfl⟩
  · exact ⟨rfl, rfl, rfl, rfl, rfl⟩

/-- No snapshot that the object has a version of is newer than the newest one. -/
def NoBackpedal (s : Store α) (c : CacheObj α) : Prop :=
  s.lastSnapshot = 0 ∨ c.lastSnapshot ≤ s.lastSnapshot

/-- **The current version is filed under the newest snapshot.** -/
theorem addVersion_spec (key : Key) (hc : s.mem p = some c) (hle : NoBackpedal s c) :
    ∃ s1, s.addVersion key p c = some (s1, c.file s.lastSnapshot) ∧
      Rewrites s s1 p (c.file s.lastSnapshot) ∧ SameSnapshots s s1 ∧
      s1.delPending = s.delPending ∧ s1.lastVer = s.lastVer := by
  have hrefl : Rewrites s s p c := ⟨rfl, rfl, fun q => by
    split_ifs with hq
    · rw [hq, hc]
    · rfl⟩
  unfold addVersion CacheObj.addVersion CacheObj.file
  by_cases h0 : s.lastSnapshot = 0
  · simp only [h0, if_true, true_or]
    exact ⟨s, rfl, hrefl, .refl s, rfl, rfl⟩
  have hlt : ¬ s.lastSnapshot < c.lastSnapshot := Nat.not_lt.mpr (hle.resolve_left h0)
  simp only [h0, if_false, hlt, false_or, ne_eq]
  by_cases heq : c.lastSnapshot = s.lastSnapshot
  · simp only [heq, not_true, if_false, if_true]
    exact ⟨_, rfl, ⟨rfl, rfl, fun q => put_mem⟩, ⟨rfl, fun _ => rfl⟩, rfl, rfl⟩
  simp only [heq, not_false_iff, if_true, if_false]
  have hkey : ∀ (snap : Nat), (s.addKey snap key).mem = s.mem ∧ (s.addKey snap key).objs = s.objs ∧
      (s.addKey snap key).next = s.next ∧ (s.addKey snap key).delPending = s.delPending ∧
      (s.addKey snap key).lastVer = s.lastVer := by
    intro snap
    unfold addKey
    split <;> exact ⟨rfl, rfl, rfl, rfl, rfl⟩
  obtain ⟨hmem, hobjs, hnext, hpending, hver⟩ := hkey s.lastSnapshot
  refine ⟨_, rfl, ⟨hobjs, hnext, fun q => ?_⟩, ?_, hpending, hver⟩
  · rw [put_mem, hmem]
  · have hsame := addKey_same s s.lastSnapshot key
    exact { hsame with }

/-! ### What a write does -/

/-- A write leaves the object of one key at `p` as `c`, and the store at revision `ver`. -/
structure Writes (s s' : Store α) (key : Key) (p : Nat) (c : CacheObj α) (ver : Nat) : Prop where
  shape : Shape s'
  objs : s'.objs = update s.objs key (some p)
  mem : ∀ q, s'.mem q = if q = p then some c else s.mem q
  pending : ∀ q, q ∈ s'.delPending ↔ if q = p then c.inDelQ = true else q ∈ s.delPending
  same : SameSnapshots s s'
  lastVer : s'.lastVer = ver
  key_eq : c.key = key

theorem Writes.find (h : Writes s s' key p c ver) (k : Key) :
    s'.find k = if k = key then some (p, c) else s.find k := by
  by_cases hk : k = key
  · rw [if_pos hk, hk]
    exact find_eq_some.mpr ⟨by rw [h.objs, update_self], by rw [h.mem, if_pos rfl]⟩
  rw [if_neg hk, Store.find, Store.find, h.objs, update_of_ne hk]
  cases hok : s.objs k with
  | none => rfl
  | some q =>
    -- the object of another key is elsewhere
    have hq : q ≠ p := by
      rintro rfl
      obtain ⟨d, hd, hdk⟩ := h.shape.trie k q (by rw [h.objs, update_of_ne hk, hok])
      rw [h.mem, if_pos rfl] at hd
      rw [← hdk, ← Option.some.inj hd, h.key_eq] at hk
      exact hk rfl
    simp [h.mem, hq]

theorem Writes.find_cases (h : Writes s s' key p c ver) {d : CacheObj α}
    (hd : s'.find k = some (q, d)) : (k = key ∧ d = c) ∨ (k ≠ key ∧ s.find k = some (q, d)) := by
  rw [h.find] at hd
  split_ifs at hd with hk
  · exact .inl ⟨hk, (Prod.mk.inj (Option.some.inj hd)).2.symm⟩
  · exact .inr ⟨hk, hd⟩

variable {lt : Nat → Nat → Bool}

/-- An element is taken out of a heap without repetitions. -/
theorem mem_remove {l : List Nat} (hl : l.Nodup) (hp : p ∈ l) :
    (remove lt l (l.idxOf p)).Nodup ∧ ∀ q, q ∈ remove lt l (l.idxOf p) ↔ q ≠ p ∧ q ∈ l := by
  have hget : l[l.idxOf p]? = some p := by
    rw [List.getElem?_eq_getElem (List.idxOf_lt_length_of_mem hp), List.getElem_idxOf]
  have hperm := remove_perm lt hget
  obtain ⟨hnot, hnodup⟩ := List.nodup_cons.mp (hperm.nodup_iff.mp hl)
  refine ⟨hnodup, fun q => ?_⟩
  rw [hperm.mem_iff, List.mem_cons]
  constructor
  · intro hq
    exact ⟨fun heq => hnot (heq ▸ hq), .inr hq⟩
  · rintro ⟨hne, rfl | hq⟩
    · exact absurd rfl hne
    · exact hq

/-- The pending deletes after a push. -/
theorem mem_push {l : List Nat} (hl : l.Nodup) (hp : p ∉ l) {n i j : Nat} :
    (up lt n (fix lt (l ++ [p]) i) j).Nodup ∧
      ∀ q, q ∈ up lt n (fix lt (l ++ [p]) i) j ↔ q = p ∨ q ∈ l := by
  have hperm : (up lt n (fix lt (l ++ [p]) i) j).Perm (p :: l) :=
    (up_perm lt _ _ _).trans ((fix_perm lt _ _).trans (List.perm_append_singleton p l))
  exact ⟨hperm.nodup_iff.mpr (List.nodup_cons.mpr ⟨hp, hl⟩), fun q => by
    rw [hperm.mem_iff, List.mem_cons]⟩

theorem Shape.mem_pending (h : Shape s) (hc : s.mem p = some c) :
    p ∈ s.delPending ↔ c.inDelQ = true := by
  constructor
  · intro hp
    obtain ⟨d, hd, -, hin⟩ := h.heap p hp
    rwa [Option.some.inj (hc.symm.trans hd)]
  · exact h.inDelQ p c hc

/-- An object of a key is rewritten. -/
theorem Shape.writes (hs : Shape s) (hf : s.find key = some (p, c)) (hr : Rewrites s s' p c')
    (hkey : c'.key = c.key) (hsame : SameSnapshots s s') (hver : s'.lastVer = ver)
    (hnodup : s'.delPending.Nodup)
    (hheap : ∀ q, q ∈ s'.delPending ↔ if q = p then c'.inDelQ = true else q ∈ s.delPending)
    (hdel : c'.inDelQ = true → c'.deleted = true) : Writes s s' key p c' ver where
  shape := hr.shape hs (find_eq_some.mp hf).2 hkey hnodup hheap hdel
  objs := by
    rw [hr.objs, update_eq_self_iff.mpr (find_eq_some.mp hf).1.symm]
  mem := hr.mem
  pending := hheap
  same := hsame
  lastVer := hver
  key_eq := hkey.trans (hs.key_eq hf)

theorem set_rejected (hf : s.find key = some (p, c)) (hrev : rev < c.revision) :
    s.set key rev obj now = some (s, .error .revBackpedals) := by
  simp only [Store.set, hf, if_neg (Nat.not_le.mpr hrev)]

/-- **`Set` of a key that has an object.** -/
theorem set_found (hs : Shape s) (hf : s.find key = some (p, c)) (hrev : c.revision ≤ rev)
    (hle : NoBackpedal s c) (obj : α) (now : Nat) :
    ∃ s', s.set key rev obj now = some (s', .ok ()) ∧ Writes s s' key p
      { c.file s.lastSnapshot with
        obj := obj, revision := rev, deleted := false, lastUpd := now, inDelQ := false } rev := by
  obtain ⟨s1, hadd, hr, hsame, hpending, -⟩ := addVersion_spec key (find_eq_some.mp hf).2 hle
  have hmem := hs.mem_pending (Store.find_eq_some.mp hf).2
  have hc1 := c.file_same s.lastSnapshot
  simp only [Store.set, hf, if_pos hrev, hadd, bind, Option.bind, hc1.inDelQ]
  by_cases hin : c.inDelQ = true
  · obtain ⟨hnodup, hrest⟩ := mem_remove (hpending ▸ hs.nodup) (hpending ▸ hmem.mpr hin)
    simp only [hin, if_true]
    refine ⟨_, rfl, hs.writes hf ⟨hr.objs, hr.next, fun q => ?_⟩ hc1.key
      { hsame with } rfl hnodup (fun q => ?_) (by simp)⟩
    · rw [Store.put_mem]
      split_ifs with hq
      · rfl
      · show (s1.put p _).mem q = _
        rw [put_mem, if_neg hq, hr.mem, if_neg hq]
    · rw [← hpending]
      refine (hrest q).trans ?_
      split_ifs with hq <;> simp [hq]
  · simp only [hin]
    refine ⟨_, rfl, hs.writes hf ⟨hr.objs, hr.next, fun q => ?_⟩ hc1.key
      { hsame with } rfl (hpending ▸ hs.nodup) (fun q => ?_) (by simp)⟩
    · show (s1.put p _).mem q = _
      rw [put_mem, hr.mem]
      split_ifs <;> simp_all
    · show q ∈ s1.delPending ↔ _
      rw [hpending]
      split_ifs with hq
      · rw [hq, hmem]
        simp [hin]
      · rfl

/-- **`Set` of a new key.** -/
theorem set_new (hs : Shape s) (hf : s.find key = none) (rev : Nat) (obj : α) (now : Nat) :
    ∃ s', s.set key rev obj now = some (s', .ok ()) ∧ Writes s s' key s.next
      { revision := rev, key := key, obj := obj, lastUpd := now } rev := by
  have hnone := hs.fresh s.next (Nat.le_refl _)
  have hpending : s.next ∉ s.delPending := fun hp => by
    obtain ⟨c, hc, -⟩ := hs.heap _ hp
    cases hnone.symm.trans hc
  have hmem : ∀ q, (s.put s.next ⟨rev, key, obj, now, false, false, ∅, [], 0⟩).mem q
      = if q = s.next then some ⟨rev, key, obj, now, false, false, ∅, [], 0⟩ else s.mem q :=
    fun q => Store.put_mem
  simp only [Store.set, hf]
  refine ⟨_, rfl, ⟨⟨fun k q hq => ?_, fun q hq => ?_, hs.nodup, fun q hq => ?_, fun q d hd hin => ?_⟩,
    rfl, hmem, fun q => ?_, ⟨rfl, fun _ => rfl⟩, rfl, rfl⟩⟩
  · by_cases hk : k = key
    · subst hk
      have hself : update s.objs k (some s.next) k = some q := hq
      rw [update_self] at hself
      cases hself
      exact ⟨_, (hmem _).trans (if_pos rfl), rfl⟩
    · have hother : update s.objs key (some s.next) k = some q := hq
      rw [update_of_ne hk] at hother
      obtain ⟨d, hd, hdk⟩ := hs.trie k q hother
      have hne : q ≠ s.next := by
        rintro rfl
        cases hnone.symm.trans hd
      exact ⟨d, (hmem q).trans ((if_neg hne).trans hd), hdk⟩
  · have hlt : s.next < q := hq
    exact (hmem q).trans ((if_neg (Nat.ne_of_gt hlt)).trans (hs.fresh q (Nat.le_of_lt hlt)))
  · obtain ⟨d, hd, hdd⟩ := hs.heap q hq
    have hne : q ≠ s.next := fun heq => hpending (heq ▸ hq)
    exact ⟨d, (hmem q).trans ((if_neg hne).trans hd), hdd⟩
  · rw [hmem] at hd
    split_ifs at hd with hq
    · rw [← Option.some.inj hd] at hin
      cases hin
    · exact hs.inDelQ q d hd hin
  · show q ∈ s.delPending ↔ _
    split_ifs with hq
    · simpa [hq] using hpending
    · rfl

theorem delete_absent (hf : s.find key = none) :
    s.delete key rev now = some (s, .error .notFound) := by
  simp only [delete, hf]

theorem delete_rejected (hf : s.find key = some (p, c)) (hrev : rev ≠ 0 ∧ rev ≤ c.revision) :
    s.delete key rev now = some (s, .error .notCorrectRev) := by
  simp only [delete, hf, if_pos hrev]

section

variable (hs : Shape s) (hf : s.find key = some (p, c)) (hrev : ¬ (rev ≠ 0 ∧ rev ≤ c.revision))
  (hle : NoBackpedal s c)
include hs hf hrev hle

/-- **`Delete` of a tombstone** files a version and fails. -/
theorem delete_tombstone (hdel : c.deleted = true) (now : Nat) :
    ∃ s', s.delete key rev now = some (s', .error .notFound) ∧
      Writes s s' key p (c.file s.lastSnapshot) (newRev rev s.lastVer) := by
  obtain ⟨s1, hadd, hr, hsame, hpending, hver⟩ := addVersion_spec key
    (s := { s with lastVer := newRev rev s.lastVer }) (find_eq_some.mp hf).2 hle
  have hmem := hs.mem_pending (find_eq_some.mp hf).2
  have hc1 := c.file_same s.lastSnapshot
  simp only [delete, hf, if_neg hrev, hadd, bind, Option.bind, hc1.deleted, hdel, if_true]
  refine ⟨_, rfl, hs.writes hf { hr with } hc1.key { hsame with }
    hver (hpending ▸ hs.nodup) (fun q => ?_) fun _ => ?_⟩
  · rw [hpending]
    split_ifs with hq
    · rw [hq, hmem, hc1.inDelQ]
    · rfl
  · exact hc1.deleted.trans hdel

/-- **`Delete` of an object.** -/
theorem delete_found (hdel : c.deleted = false) (now : Nat) :
    ∃ s', s.delete key rev now = some (s', .ok c.obj) ∧ Writes s s' key p
      { c.file s.lastSnapshot with
        revision := newRev rev c.revision, lastUpd := now, deleted := true, inDelQ := true }
      (newRev rev s.lastVer) := by
  obtain ⟨s1, hadd, hr, hsame, hpending, hver⟩ := addVersion_spec key
    (s := { s with lastVer := newRev rev s.lastVer }) (find_eq_some.mp hf).2 hle
  have hc := (find_eq_some.mp hf).2
  have hc1 := c.file_same s.lastSnapshot
  -- objects in the heap are deleted
  have hin : c.inDelQ = false := by
    rw [Bool.eq_false_iff]
    intro hin
    obtain ⟨d, hd, hdd, -⟩ := hs.heap p (hs.inDelQ p c hc hin)
    rw [← Option.some.inj (hc.symm.trans hd), hdel] at hdd
    cases hdd
  have hp : p ∉ s.delPending := by
    rw [hs.mem_pending hc, hin]
    simp
  obtain ⟨hnodup, hrest⟩ := mem_push (hpending ▸ hs.nodup) (hpending ▸ hp)
  simp only [delete, hf, if_neg hrev, hadd, bind, Option.bind, hc1.deleted, hdel, hc1.inDelQ, hin,
    hc1.obj, hc1.revision, if_false, Bool.false_eq_true]
  refine ⟨_, rfl, hs.writes hf ⟨hr.objs, hr.next, fun q => ?_⟩ hc1.key
    { hsame with } hver hnodup (fun q => ?_) (by simp)⟩
  · show (s1.put p _).mem q = _
    rw [put_mem, hr.mem]
    split_ifs <;> rfl
  · refine (hrest q).trans ?_
    show q = p ∨ q ∈ s1.delPending ↔ _
    rw [hpending]
    split_ifs with hq <;> simp [hq]

end

end NicSw.ApiCache
