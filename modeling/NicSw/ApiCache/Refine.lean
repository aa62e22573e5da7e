/-
The store refines a map from keys to objects.

Without snapshots, what `Get` returns is the object of the last accepted `Set`, unless a
`Delete`, a `Sweep` of a marked object, or a `Clear` came after it.  A deleted object
stays in the trie and waits in the heap to be purged by its key.  `Sweep` and `Clear`
take it out of the trie and leave it in the heap; if the key is then set again, the
purge removes the new object.
-/
import NicSw.ApiCache.Purge

namespace NicSw.ApiCache

open Function Store Option

variable {α : Type}

/-! ### Calls, and the map they stand for -/

/-- The calls of a store without snapshots. -/
inductive Call (α : Type)
  | set (key : Key) (rev : Nat) (obj : α) (now : Nat)
  | delete (key : Key) (rev now : Nat)
  | mark (pfx : Key)
  | sweep (pfx : Key)
  | clear
  | purgeDeleted (past : Nat) (clock : Nat → Nat) (order : List Key → List Key)

/-- A store in a run, with the map that it stands for, the keys that are marked, and the
prefixes that were marked and not swept since. -/
structure Trace (α : Type) where
  store : Store α
  spec : Key → Option α
  marked : Key → Bool
  windows : List Key

/-- The start of a run. -/
def Trace.init (α : Type) : Trace α := ⟨newStore α, fun _ => none, fun _ => false, []⟩

/-- One call; `none` is a panic.  A call that fails does not change the map. -/
def Trace.step (tr : Trace α) : Call α → Option (Trace α)
  | .set key rev obj now =>
    (tr.store.set key rev obj now).map fun r =>
      match r.2 with
      | .ok _ => { tr with
          store := r.1
          spec := update tr.spec key (some obj)
          marked := update tr.marked key false }
      | .error _ => { tr with store := r.1 }
  | .delete key rev now =>
    (tr.store.delete key rev now).map fun r =>
      match r.2 with
      | .ok _ => { tr with store := r.1, spec := update tr.spec key none }
      | .error _ => { tr with store := r.1 }
  | .mark pfx =>
    some { tr with
      store := tr.store.mark pfx
      marked := fun k => pfx.isPrefixOf k || tr.marked k
      windows := pfx :: tr.windows }
  | .sweep pfx =>
    some
      { store := tr.store.sweep pfx
        spec := fun k => if pfx.isPrefixOf k && tr.marked k then none else tr.spec k
        marked := fun k => !pfx.isPrefixOf k && tr.marked k
        windows := tr.windows.filter fun w => w ≠ pfx }
  | .clear => some { tr with store := tr.store.clear, spec := fun _ => none }
  | .purgeDeleted past clock order =>
    some { tr with store := tr.store.purgeDeleted past clock order }

/-- The object that a key has now waits to be purged, for every key of a pending delete. -/
def Stale (s : Store α) : Prop :=
  ∀ p ∈ s.delPending, ∀ c, s.mem p = some c → ∀ q d, s.find c.key = some (q, d) → d.inDelQ = true

/-- The key is in the trie. -/
def Store.Has (s : Store α) (k : Key) : Prop := (s.objs k).isSome

/-- The character follows the prefix in the trie. -/
def Store.Follows (s : Store α) (q : Key) (ch : Char) : Prop := ∃ k, s.Has k ∧ q ++ [ch] <+: k

/-- A walk below the prefix may delete the key: its node has two children and stays, or no other
key is below the prefix, or it is alone on the last branch of a node that stays. -/
def Store.Sweepable (s : Store α) (pfx key : Key) : Prop :=
  (∃ a b, a ≠ b ∧ s.Follows key a ∧ s.Follows key b) ∨ (∀ k, s.Has k → pfx <+: k → k = key) ∨
    ∃ q ch, q ++ [ch] <+: key ∧ (∀ k, s.Has k → q ++ [ch] <+: k → k = key) ∧
      (∀ a, s.Follows q a → a ≤ ch) ∧
      ((∃ p c, s.find q = some (p, c) ∧ c.deleted = false) ∨
        ∃ a b, a ≠ b ∧ a ≠ ch ∧ b ≠ ch ∧ s.Follows q a ∧ s.Follows q b)

/-- **The trie acts as a map in a call.** -/
def Store.TrieFits (s : Store α) : Call α → Prop
  -- a node has room for `DefaultMaxChildrenPerSparseNode` children
  | .set key _ _ _ => ∀ q, ∃ l : List Char, l.length ≤ 8 ∧
      ∀ ch, s.Follows q ch ∨ q ++ [ch] <+: key → ch ∈ l
  | .sweep pfx => ∀ k p c, s.find k = some (p, c) → pfx <+: k → c.deleted → s.Sweepable pfx k
  -- the root, of up to `DefaultMaxPrefixPerNode` characters, has no item
  | .clear => ∀ k, s.Has k → k.length ≤ 10 → ∃ k', s.Has k' ∧ ¬ k <+: k'
  | .purgeDeleted _ _ _ => ∀ p ∈ s.delPending, ∀ c, s.mem p = some c →
      s.objs c.key = some p ∨ ∀ k, s.Has k → c.key <+: k → k = c.key
  | _ => True

/-- The trie acts as a map, `Clear` covers every key that has an object, and a purge finds no
pending delete of a key that has another object since. -/
def Trace.Meets (tr : Trace α) (call : Call α) : Prop :=
  tr.store.TrieFits call ∧
    match call with
    | .clear =>
      ∀ k p c, tr.store.find k = some (p, c) → c.inDelQ = false → ['/'].isPrefixOf k = true
    | .purgeDeleted _ _ _ => Stale tr.store
    | _ => True

/-- What the map has for a key, and whether the key is marked, where the store has this. -/
def Seen (o : Option α) (m : Bool) : Option (Nat × CacheObj α) → Prop
  | none => o = none
  | some (_, c) => (c.inDelQ = true → o = none) ∧ (c.inDelQ = false → o = some c.obj ∧ c.deleted = m)

/-- What holds along runs. -/
structure Refines (tr : Trace α) : Prop where
  shape : Shape tr.store
  lastSnapshot : tr.store.lastSnapshot = 0
  snapshots : ∀ r, tr.store.snapshots.lookup r = none
  seen : ∀ k, Seen (tr.spec k) (tr.marked k) (tr.store.find k)
  windows : ∀ k, tr.marked k = true → ∃ w ∈ tr.windows, w.isPrefixOf k = true

variable {tr tr' : Trace α} {s s' : Store α} {key k : Key} {p ver : Nat} {c : CacheObj α}

theorem Refines.init : Refines (Trace.init α) where
  shape := .init
  lastSnapshot := rfl
  snapshots := fun r => rfl
  seen := fun k => rfl
  windows := fun k hk => by cases hk

/-- What `Get` returns for a key that is not marked. -/
theorem Refines.get_eq (hR : Refines tr) (hk : tr.marked k = false) :
    (tr.store.get k).toOption = tr.spec k := by
  have hseen := hR.seen k
  unfold Store.get
  cases hf : tr.store.find k with
  | none =>
    rw [hf] at hseen
    exact hseen.symm
  | some pc =>
    obtain ⟨p, c⟩ := pc
    rw [hf] at hseen
    cases hin : c.inDelQ with
    | true =>
      obtain ⟨ho, hc⟩ := find_eq_some.mp hf
      obtain ⟨d, hd, hdel, -⟩ := hR.shape.heap p (hR.shape.inDelQ p c hc hin)
      rw [← Option.some.inj (hc.symm.trans hd)] at hdel
      simp [hdel, Except.toOption, hseen.1 hin]
    | false =>
      obtain ⟨hspec, hdel⟩ := hseen.2 hin
      simp [hdel, hk, Except.toOption, hspec]

/-! ### Writes -/

theorem Refines.noBackpedal (hR : Refines tr) (c : CacheObj α) : NoBackpedal tr.store c :=
  .inl hR.lastSnapshot

/-- A write to the store and to the map. -/
theorem Refines.write (hR : Refines tr) (hw : Writes tr.store s' key p c ver) {o : Option α} {m : Bool}
    (hseen : Seen o m (some (p, c))) (hm : m = true → tr.marked key = true) :
    Refines { tr with
      store := s', spec := update tr.spec key o
      marked := update tr.marked key m } := by
  refine ⟨hw.shape, hw.same.lastSnapshot.trans hR.lastSnapshot, fun r => ?_, fun k => ?_,
    fun k hk => ?_⟩
  · have hdel := hw.same.deleted r
    rw [hR.snapshots r] at hdel
    exact map_eq_none_iff.mp hdel
  · show Seen (update tr.spec key o k) (update tr.marked key m k) (s'.find k)
    rw [hw.find]
    by_cases hkey : k = key
    · subst hkey
      rw [update_self, update_self, if_pos rfl]
      exact hseen
    · rw [update_of_ne hkey, update_of_ne hkey, if_neg hkey]
      exact hR.seen k
  · have hk' : update tr.marked key m k = true := hk
    by_cases hkey : k = key
    · subst hkey
      rw [update_self] at hk'
      exact hR.windows k (hm hk')
    · rw [update_of_ne hkey] at hk'
      exact hR.windows k hk'

/-- **`Set`** does not panic and keeps the refinement. -/
theorem Refines.set (hR : Refines tr) (key : Key) (rev : Nat) (obj : α) (now : Nat) :
    ∃ tr', tr.step (.set key rev obj now) = some tr' ∧ Refines tr' := by
  cases hf : tr.store.find key with
  | none =>
    obtain ⟨s', hs', hw⟩ := set_new hR.shape hf rev obj now
    refine ⟨_, by rw [Trace.step, hs']; rfl, ?_⟩
    exact hR.write hw ⟨nofun, fun _ => ⟨rfl, rfl⟩⟩ nofun
  | some pc =>
    obtain ⟨p, c⟩ := pc
    by_cases hrev : c.revision ≤ rev
    · obtain ⟨s', hs', hw⟩ := set_found hR.shape hf hrev (hR.noBackpedal c) obj now
      refine ⟨_, by rw [Trace.step, hs']; rfl, ?_⟩
      exact hR.write hw ⟨nofun, fun _ => ⟨rfl, rfl⟩⟩ nofun
    · exact ⟨tr, by simp only [Trace.step, set_rejected hf (Nat.not_le.mp hrev), map_some], hR⟩

/-- **`Delete`** does not panic and keeps the refinement. -/
theorem Refines.delete (hR : Refines tr) (key : Key) (rev now : Nat) :
    ∃ tr', tr.step (.delete key rev now) = some tr' ∧ Refines tr' := by
  cases hf : tr.store.find key with
  | none => exact ⟨tr, by simp only [Trace.step, delete_absent hf, map_some], hR⟩
  | some pc =>
    obtain ⟨p, c⟩ := pc
    by_cases hrev : rev ≠ 0 ∧ rev ≤ c.revision
    · exact ⟨tr, by simp only [Trace.step, delete_rejected hf hrev, map_some], hR⟩
    have hfile : c.file tr.store.lastSnapshot = c := file_of_filed (.inl hR.lastSnapshot)
    cases hdel : c.deleted with
    | true =>
      obtain ⟨s', hs', hw⟩ := delete_tombstone hR.shape hf hrev (hR.noBackpedal c) hdel now
      rw [hfile] at hw
      refine ⟨_, by rw [Trace.step, hs']; rfl, ?_⟩
      -- nothing changes but the revision of the store
      have hres := hR.write hw (hf ▸ hR.seen key) id
      rwa [update_eq_self, update_eq_self] at hres
    | false =>
      obtain ⟨s', hs', hw⟩ := delete_found hR.shape hf hrev (hR.noBackpedal c) hdel now
      refine ⟨_, by rw [Trace.step, hs']; rfl, ?_⟩
      have hres := hR.write hw (o := none) (m := tr.marked key) ⟨fun _ => rfl, nofun⟩ id
      rwa [update_eq_self] at hres

/-! ### Mark, sweep and clear -/

theorem find_mark (hs : Shape s) (pfx k : Key) :
    (s.mark pfx).find k = (s.find k).map fun r =>
      (r.1, if pfx.isPrefixOf k then { r.2 with deleted := true } else r.2) := by
  unfold find
  show (s.objs k).bind _ = _
  cases ho : s.objs k with
  | none => rfl
  | some p =>
    obtain ⟨c, hc, rfl⟩ := hs.trie k p ho
    simp [mark, hc, ho]

theorem Refines.mark (hR : Refines tr) (pfx : Key) :
    ∃ tr', tr.step (.mark pfx) = some tr' ∧ Refines tr' := by
  refine ⟨_, rfl, ⟨?_, hR.lastSnapshot, hR.snapshots, fun k => ?_, fun k hk => ?_⟩⟩
  · -- marks do not touch the trie and the heap
    have hmem : ∀ p c, tr.store.mem p = some c → ∃ c', (tr.store.mark pfx).mem p = some c' ∧
        c'.key = c.key ∧ c'.inDelQ = c.inDelQ ∧ (c.deleted = true → c'.deleted = true) := by
      intro p c hc
      simp only [Store.mark, hc, map_some]
      refine ⟨_, rfl, ?_⟩
      split_ifs
      · exact ⟨rfl, rfl, fun _ => rfl⟩
      · exact ⟨rfl, rfl, id⟩
    refine ⟨fun k p hp => ?_, fun p hp => ?_, hR.shape.nodup, fun p hp => ?_, fun p c' hc' hin => ?_⟩
    · obtain ⟨c, hc, hkey⟩ := hR.shape.trie k p hp
      obtain ⟨c', hc', hkey', -⟩ := hmem p c hc
      exact ⟨c', hc', hkey'.trans hkey⟩
    · have hnone := hR.shape.fresh p hp
      show (tr.store.mem p).map _ = none
      rw [hnone]
      rfl
    · obtain ⟨c, hc, hdel, hin⟩ := hR.shape.heap p hp
      obtain ⟨c', hc', -, hin', hdel'⟩ := hmem p c hc
      exact ⟨c', hc', hdel' hdel, hin'.trans hin⟩
    · obtain ⟨c, hc, -⟩ := map_eq_some_iff.mp hc'
      obtain ⟨d, hd, -, hin', -⟩ := hmem p c hc
      rw [← Option.some.inj (hc'.symm.trans hd), hin] at hin'
      exact hR.shape.inDelQ p c hc hin'.symm
  · have hseen := hR.seen k
    show Seen (tr.spec k) (pfx.isPrefixOf k || tr.marked k) ((tr.store.mark pfx).find k)
    rw [find_mark hR.shape]
    cases hf : tr.store.find k with
    | none =>
      rw [hf] at hseen
      exact hseen
    | some pc =>
      rw [hf] at hseen
      by_cases hpfx : pfx.isPrefixOf k = true
      · rw [hpfx]
        exact ⟨hseen.1, fun hin => ⟨(hseen.2 hin).1, rfl⟩⟩
      · rw [Bool.eq_false_iff.mpr hpfx]
        exact hseen
  · rcases Bool.or_eq_true _ _ ▸ hk with hpfx | hk
    · exact ⟨pfx, List.mem_cons_self .., hpfx⟩
    · obtain ⟨w, hw, hwk⟩ := hR.windows k hk
      exact ⟨w, List.mem_cons_of_mem _ hw, hwk⟩

/-- Keys are taken out of the trie. -/
theorem Shape.remove (hs : Shape s) {objs : Key → Option Nat}
    (hobjs : ∀ k p, objs k = some p → s.objs k = some p) : Shape { s with objs := objs } :=
  ⟨fun k p hp => hs.trie k p (hobjs k p hp), hs.fresh, hs.nodup, hs.heap, hs.inDelQ⟩

theorem find_of_objs {objs : Key → Option Nat} (hobjs : ∀ k p, objs k = some p → s.objs k = some p)
    {q : Nat} {d : CacheObj α} (hd : ({ s with objs := objs } : Store α).find k = some (q, d)) :
    s.find k = some (q, d) := by
  obtain ⟨ho, hm⟩ := find_eq_some.mp hd
  exact find_eq_some.mpr ⟨hobjs k q ho, hm⟩

theorem objs_sweep (pfx k : Key) (p : Nat) (hp : (s.sweep pfx).objs k = some p) : s.objs k = some p := by
  simp only [sweep] at hp
  cases hf : s.find k with
  | none =>
    rw [hf] at hp
    exact hp
  | some pc =>
    simp only [hf] at hp
    split_ifs at hp with hdel
    rw [← Option.some.inj hp]
    exact (find_eq_some.mp hf).1

/-- A sweep takes out what is deleted below the prefix. -/
theorem find_sweep (hs : Shape s) (pfx k : Key) :
    (s.sweep pfx).find k = (s.find k).filter fun r => !(pfx.isPrefixOf k && r.2.deleted) := by
  cases hf : s.find k with
  | none =>
    have ho : (s.sweep pfx).objs k = none := by
      simp [sweep, hf, hs.find_eq_none.mp hf]
    simp [find, ho]
  | some pc =>
    obtain ⟨p, c⟩ := pc
    have hc : (s.sweep pfx).mem p = some c := (find_eq_some.mp hf).2
    by_cases hdel : (pfx.isPrefixOf k && c.deleted) = true
    · have ho : (s.sweep pfx).objs k = none := by
        simp only [sweep, hf, ← Bool.and_eq_true, hdel, if_true]
      simp [find, ho, Option.filter, hdel]
    · have ho : (s.sweep pfx).objs k = some p := by
        simp only [sweep, hf, ← Bool.and_eq_true, hdel, Bool.false_eq_true, if_false]
      simp [find, ho, hc, Option.filter, hdel]

theorem Refines.sweep (hR : Refines tr) (pfx : Key) :
    ∃ tr', tr.step (.sweep pfx) = some tr' ∧ Refines tr' := by
  refine ⟨_, rfl, ⟨hR.shape.remove (objs_sweep pfx), hR.lastSnapshot, hR.snapshots, fun k => ?_,
    fun k hk => ?_⟩⟩
  · have hseen := hR.seen k
    show Seen (if (pfx.isPrefixOf k && tr.marked k) = true then none else tr.spec k)
      (!pfx.isPrefixOf k && tr.marked k) ((tr.store.sweep pfx).find k)
    rw [find_sweep hR.shape]
    cases hf : tr.store.find k with
    | none =>
      rw [hf] at hseen
      exact ite_eq_left_iff.mpr fun _ => hseen
    | some pc =>
      obtain ⟨p, c⟩ := pc
      rw [hf] at hseen
      by_cases hdel : (pfx.isPrefixOf k && c.deleted) = true
      · rw [filter_eq_none_iff.mpr fun _ h => by cases h; simpa using hdel]
        refine ite_eq_left_iff.mpr fun hm => ?_
        -- what was taken out and not marked was deleted before
        cases hin : c.inDelQ with
        | true => exact hseen.1 hin
        | false => exact absurd ((hseen.2 hin).2 ▸ hdel) hm
      · rw [filter_eq_some_iff.mpr ⟨rfl, Bool.not_eq_true' _ ▸ Bool.eq_false_iff.mpr hdel⟩]
        refine ⟨fun hin => ite_eq_left_iff.mpr fun _ => hseen.1 hin, fun hin => ?_⟩
        obtain ⟨hspec, hmarked⟩ := hseen.2 hin
        rw [hmarked] at hdel ⊢
        refine ⟨by rw [if_neg hdel, hspec], ?_⟩
        cases hp : pfx.isPrefixOf k <;> simp_all
  · obtain ⟨hpfx, hmk⟩ := Bool.and_eq_true _ _ ▸ hk
    obtain ⟨w, hw, hwk⟩ := hR.windows k hmk
    refine ⟨w, List.mem_filter.mpr ⟨hw, ?_⟩, hwk⟩
    have hne : w ≠ pfx := by
      rintro rfl
      rw [hwk] at hpfx
      cases hpfx
    simpa using hne

theorem Refines.clear (hR : Refines tr) (hmeets : tr.Meets .clear) :
    ∃ tr', tr.step .clear = some tr' ∧ Refines tr' := by
  have hobjs : ∀ k p, tr.store.clear.objs k = some p →
      ['/'].isPrefixOf k = false ∧ tr.store.objs k = some p := by
    intro k p hp
    simp only [Store.clear] at hp
    split_ifs at hp with hpfx
    exact ⟨Bool.eq_false_iff.mpr hpfx, hp⟩
  have hfind : ∀ k q d, tr.store.clear.find k = some (q, d) → tr.store.find k = some (q, d) :=
    fun k q d hd => find_of_objs (fun k p hp => (hobjs k p hp).2) hd
  refine ⟨_, rfl, ⟨hR.shape.remove fun k p hp => (hobjs k p hp).2, hR.lastSnapshot, hR.snapshots,
    fun k => ?_, hR.windows⟩⟩
  show Seen none (tr.marked k) (tr.store.clear.find k)
  cases hf : tr.store.clear.find k with
  | none => rfl
  | some pc =>
    refine ⟨fun _ => rfl, fun hin => ?_⟩
    have hslash := hmeets.2 k pc.1 pc.2 (hfind k pc.1 pc.2 hf) hin
    rw [(hobjs k pc.1 (find_eq_some.mp hf).1).1] at hslash
    cases hslash

/-! ### Purging -/

/-- Without snapshots there is nothing to purge for them. -/
theorem purgeSnapshots_of_none (hnone : ∀ r, s.snapshots.lookup r = none) (order : List Key → List Key)
    (snaps : List Nat) (n : Nat) : purgeSnapshots order snaps s n = s := by
  induction snaps with
  | nil => rfl
  | cons snap snaps ih =>
    rw [purgeSnapshots, hnone snap]
    exact ih

/-- A pending delete is done. -/
theorem Refines.donePending (hR : Refines tr) (hstale : Stale tr.store) {l : List Nat}
    (hl : tr.store.delPending = p :: l) (hc : tr.store.mem p = some c) :
    Refines { tr with store := tr.store.donePending p c } ∧ Stale (tr.store.donePending p c) ∧
      ∀ k, (tr.store.donePending p c).get k = tr.store.get k := by
  have hD := donePending_spec hR.shape hl hc
  have hp : p ∈ tr.store.delPending := hl ▸ List.mem_cons_self ..
  have hfind : ∀ k q d, (tr.store.donePending p c).find k = some (q, d) →
      k ≠ c.key ∧ tr.store.find k = some (q, d) := by
    intro k q d hd
    rw [hD.find] at hd
    split_ifs at hd with hk
    exact ⟨hk, hd⟩
  refine ⟨⟨hD.shape, hR.lastSnapshot, hR.snapshots, fun k => ?_, hR.windows⟩,
    fun q hq d hd q' d' hf => ?_, fun k => ?_⟩
  · have hseen := hR.seen k
    show Seen (tr.spec k) (tr.marked k) ((tr.store.donePending p c).find k)
    rw [hD.find]
    split_ifs with hkey
    · cases hf : tr.store.find k with
      | none =>
        rw [hf] at hseen
        exact hseen
      | some qd =>
        rw [hf] at hseen
        exact hseen.1 (hstale p hp c hc qd.1 qd.2 (hkey ▸ hf))
    · exact hseen
  · obtain ⟨hne, hq⟩ := (hD.pending q).mp hq
    rw [hD.mem q hne] at hd
    exact hstale q hq d hd q' d' (hfind _ q' d' hf).2
  · unfold Store.get
    rw [hD.find]
    split_ifs with hk
    · cases hf : tr.store.find k with
      | none => rfl
      | some qd =>
        obtain ⟨q, d⟩ := qd
        have hin := hstale p hp c hc q d (hk ▸ hf)
        obtain ⟨d', hd', hdel, -⟩ :=
          hR.shape.heap q (hR.shape.inDelQ q d (find_eq_some.mp hf).2 hin)
        rw [← Option.some.inj ((find_eq_some.mp hf).2.symm.trans hd')] at hdel
        simp [hdel]
    · rfl

theorem Refines.purgePending (hR : Refines tr) (hstale : Stale tr.store) (past : Nat)
    (clock : Nat → Nat) (n deletes : Nat) :
    Refines { tr with store := purgePending past clock n deletes tr.store } ∧
      ∀ k, (purgePending past clock n deletes tr.store).get k = tr.store.get k := by
  have hdone := purgePending_keeps past clock n deletes
    (I := fun s => Refines { tr with store := s } ∧ Stale s ∧ ∀ k, s.get k = tr.store.get k)
    (fun {s _ _ _} ⟨hR, hstale, hget⟩ hl hc _ => by
      obtain ⟨hR', hstale', hget'⟩ := Refines.donePending hR hstale hl hc
      exact ⟨hR', hstale', fun k => (hget' k).trans (hget k)⟩) ⟨hR, hstale, fun _ => rfl⟩
  exact ⟨hdone.1, hdone.2.2⟩

/-- **`PurgeDeleted`** does not change what `Get` returns. -/
theorem Refines.purgeDeleted (hR : Refines tr) (hstale : Stale tr.store) (past : Nat)
    (clock : Nat → Nat) (order : List Key → List Key) :
    Refines { tr with store := tr.store.purgeDeleted past clock order } ∧
      ∀ k, (tr.store.purgeDeleted past clock order).get k = tr.store.get k := by
  unfold Store.purgeDeleted
  rw [purgeSnapshots_of_none hR.snapshots]
  exact hR.purgePending hstale past clock _ 0

theorem Refines.step (hR : Refines tr) {call : Call α} (hmeets : tr.Meets call) :
    ∃ tr', tr.step call = some tr' ∧ Refines tr' := by
  cases call with
  | set key rev obj now => exact hR.set key rev obj now
  | delete key rev now => exact hR.delete key rev now
  | mark pfx => exact hR.mark pfx
  | sweep pfx => exact hR.sweep pfx
  | clear => exact hR.clear hmeets
  | purgeDeleted past clock order =>
    exact ⟨_, rfl, (hR.purgeDeleted hmeets.2 past clock order).1⟩

/-! ### The main theorem -/

/-- The runs whose calls all meet the condition. -/
def Followed (ok : Trace α → Call α → Prop) : Trace α → Prop :=
  Reachable (· = Trace.init α) fun tr tr' => ∃ call, ok tr call ∧ tr.step call = some tr'

/-- **The store refines the map.**  In a run in which the trie acts as a map, no purge finds a
pending delete of a key that was set again, and `Clear` covers the keys, `Get` returns what the map has for
every key outside the marked windows, no call panics, and a purge leaves `Get` as it
was. -/
theorem get_refines (α : Type) (tr : Trace α) (hr : Followed Trace.Meets tr) :
    (∀ k, (∀ w ∈ tr.windows, w.isPrefixOf k = false) → (tr.store.get k).toOption = tr.spec k) ∧
    (∀ call, tr.Meets call → (tr.step call).isSome) ∧
    ∀ past clock order, tr.Meets (.purgeDeleted past clock order) → ∀ k,
      (tr.store.purgeDeleted past clock order).get k = tr.store.get k := by
  have hR : Refines tr := by
    refine hr.invariant (fun tr hinit => hinit ▸ .init) ?_
    rintro tr tr' hR ⟨call, hmeets, hs⟩
    obtain ⟨tr'', hs', hR'⟩ := hR.step hmeets
    exact Option.some.inj (hs'.symm.trans hs) ▸ hR'
  refine ⟨fun k hk => hR.get_eq (Bool.eq_false_iff.mpr fun hm => ?_), fun call hmeets => ?_,
    fun past clock order hmeets => (hR.purgeDeleted hmeets.2 past clock order).2⟩
  · obtain ⟨w, hw, hwk⟩ := hR.windows k hm
    rw [hk w hw] at hwk
    cases hwk
  · obtain ⟨tr', hs, -⟩ := hR.step hmeets
    simp [hs]

/-- Keys of at most 8 characters fit. -/
theorem trieFits_set {rev now : Nat} {obj : α} (l : List Char) (hl : l.length ≤ 8)
    (hs : ∀ k, s.Has k ∨ k = key → k ⊆ l) : s.TrieFits (.set key rev obj now) := by
  refine fun q => ⟨l, hl, ?_⟩
  rintro ch (⟨k, hk, hpre⟩ | hpre)
  · exact hs k (.inl hk) (hpre.subset (by simp))
  · exact hs key (.inr rfl) (hpre.subset (by simp))

/-- A key that extends `keyA`. -/
def keyAB : Key := ['/', 'a', 'b']

/-- Two keys are set, one is set again in a marked window, and the other, which extends it, is
swept. -/
theorem get_refines_sweep :
    ∃ tr : Trace Nat, Followed Trace.Meets tr ∧ tr.windows = [] ∧ tr.spec keyA = some 30 ∧
      tr.spec keyAB = none ∧ ∀ k, (tr.store.get k).toOption = tr.spec k := by
  have hone : ∀ k, (update (fun _ => none) keyA (some 0) k).isSome → k = keyA := fun k hk => by
    by_contra hne
    simp [hne] at hk
  have htwo : ∀ k, (update (update (fun _ => none) keyA (some 0)) keyAB (some 1) k).isSome →
      k = keyA ∨ k = keyAB := fun k hk => by
    by_contra hne
    simp [not_or.mp hne] at hk
  have hfits : ∀ {s : Store Nat} {key rev obj now}, (∀ k, s.Has k ∨ k = key → k = keyA ∨ k = keyAB) →
      s.TrieFits (.set key rev obj now) := fun hs =>
    trieFits_set keyAB (by decide) fun k hk => by rcases hs k hk with rfl | rfl <;> decide
  have h0 : Followed Trace.Meets (Trace.init Nat) := .start rfl
  have h1 := h0.step ⟨.set keyA 1 10 0, ⟨hfits fun k hk => .inl (hk.resolve_left nofun), trivial⟩, rfl⟩
  have h2 := h1.step ⟨.set keyAB 2 20 0, ⟨hfits fun k => .imp_left (hone k), trivial⟩, rfl⟩
  have h3 := h2.step ⟨.mark ['/'], ⟨trivial, trivial⟩, rfl⟩
  have h4 := h3.step ⟨.set keyA 3 30 0, ⟨hfits fun k hk => hk.elim (htwo k) .inl, trivial⟩, rfl⟩
  have h5 := h4.step ⟨.sweep ['/'], ⟨fun k p c hf _ hdel => ?_, trivial⟩, rfl⟩
  · exact ⟨_, h5, rfl, rfl, rfl, fun k => (get_refines Nat _ h5).1 k fun w hw => by cases hw⟩
  rcases htwo k (Option.isSome_of_eq_some (find_eq_some.mp hf).1) with rfl | rfl
  · cases hf
    cases hdel
  -- its node is the last child of that of the other key, which stays
  refine .inr (.inr ⟨keyA, 'b', List.prefix_rfl, fun k hk hpre => ?_, ?_, .inl ⟨_, _, rfl, rfl⟩⟩)
  · rcases htwo k hk with rfl | rfl
    · exact absurd hpre (by decide)
    · rfl
  · rintro a ⟨k, hk, hpre⟩
    rcases htwo k hk with rfl | rfl
    · exact absurd hpre.length_le (by simp [keyA])
    · obtain rfl : a = 'b' := by simpa [keyA, keyAB] using hpre
      decide

/-- A key is deleted, the store is cleared, and the key is set again: the purge removes the
new object.  A key that does not begin with a slash is not cleared. -/
theorem not_get_refines :
    (∃ tr : Trace Nat, Followed (fun _ _ => True) tr ∧ tr.windows = [] ∧ tr.spec keyA = some 20 ∧
      tr.store.get keyA = .error .notFound) ∧
    ∃ tr : Trace Nat, Followed (fun _ _ => True) tr ∧ tr.windows = [] ∧ tr.spec ['a'] = none ∧
      tr.store.get ['a'] = .ok 10 := by
  have h0 : Followed (fun _ _ => True) (Trace.init Nat) := .start rfl
  constructor
  · have h1 := h0.step ⟨.set keyA 1 10 0, trivial, rfl⟩
    have h2 := h1.step ⟨.delete keyA 2 0, trivial, rfl⟩
    have h3 := h2.step ⟨.clear, trivial, rfl⟩
    have h4 := h3.step ⟨.set keyA 3 20 0, trivial, rfl⟩
    have h5 := h4.step ⟨.purgeDeleted 0 (fun _ => 0) id, trivial, rfl⟩
    exact ⟨_, h5, rfl, rfl, rfl⟩
  · have h1 := h0.step ⟨.set ['a'] 1 10 0, trivial, rfl⟩
    have h2 := h1.step ⟨.clear, trivial, rfl⟩
    exact ⟨_, h2, rfl, rfl, rfl⟩

end NicSw.ApiCache
