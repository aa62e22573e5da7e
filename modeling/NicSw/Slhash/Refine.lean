/-
A stateless hash table and its client, over whole runs: the calls answer as a
finite map does, as long as every call meets the condition of `Slhash.Meets`.
-/
import NicSw.Slhash.Spec

namespace NicSw

open Function (update)

variable {K D : Type*} [LinearOrder K]

/-! ### Runs -/

variable [Zero K] [Zero D]

/-- What a client records of a call that returned `ret`. -/
def SlhOp.record (op : SlhOp K D) (ret : SdkRet) (m : K → Option D) : K → Option D :=
  if ret ≠ .ok then m
  else
    match op with
    | .insert k d _ | .update k d => Function.update m k (some d)
    | .remove k => Function.update m k none
    | .get _ => m

/-- A table and the records of its client. -/
structure SlhSystem (K D : Type*) where
  table : Slhash K D
  map : K → Option D

namespace SlhSystem

/-- A fresh table. -/
def Init (P : SlhProps K) (s : SlhSystem K D) : Prop :=
  s = ⟨Slhash.init P, fun _ => none⟩

/-- A call that returns. -/
def Step (P : SlhProps K) (hash : K → BitVec 32) (s s' : SlhSystem K D) : Prop :=
  ∃ op ret p T, s.table.Meets P hash op ∧ s.table.call P hash op = some (ret, p, T) ∧
    s' = ⟨T, op.record ret s.map⟩

/-- The states that calls lead to from a fresh table. -/
def Reached (P : SlhProps K) (hash : K → BitVec 32) : SlhSystem K D → Prop :=
  Reachable (Init P) (Step P hash)

/-- **The table and the records of its client agree.** -/
structure Inv (P : SlhProps K) (hash : K → BitVec 32) (s : SlhSystem K D) : Prop where
  ok : Slhash.Ok P hash s.table
  map : ∀ k d, s.map k = some d ↔ s.table.Stores P hash k d

variable {P : SlhProps K} {hash : K → BitVec 32} {s : SlhSystem K D} {T' : Slhash K D} {k : K}
  {d : D}

omit [Zero K] [Zero D] in
theorem Inv.map_eq_none_iff (hi : Inv P hash s) :
    s.map k = none ↔ ∀ d, ¬ s.table.Stores P hash k d := by
  rw [Option.eq_none_iff_forall_not_mem]
  exact forall_congr' fun d => not_congr (hi.map k d)

theorem Inv.of_init (h : Init P s) : Inv P hash s := by
  obtain ⟨hok, hnone⟩ := Sltcam.init_ok (D := D) P.tcam
  subst h
  refine ⟨⟨rfl, hok, fun _ => rfl, fun i hi => ?_, fun {k d} h => absurd h (hnone k d)⟩,
    fun k d => ?_⟩
  · cases hi
  · constructor
    · intro h
      cases h
    · rintro (⟨hu, -⟩ | h)
      · cases hu
      · exact absurd h (hnone k d)

omit [Zero K] [Zero D] in
/-- Data is stored for a key. -/
theorem Inv.put (hi : Inv P hash s) (hok : Slhash.Ok P hash T')
    (hst : ∀ k' d', T'.Stores P hash k' d' ↔
      (k' = k ∧ d' = d) ∨ (s.table.Stores P hash k' d' ∧ k' ≠ k)) :
    Inv P hash ⟨T', update s.map k (some d)⟩ := by
  refine ⟨hok, fun k' d' => ?_⟩
  rw [hst k' d', ← hi.map]
  show update s.map k (some d) k' = some d' ↔ _
  by_cases hk : k' = k
  · subst hk
    simp [eq_comm]
  · rw [Function.update_of_ne hk]
    simp [hk]

omit [Zero K] [Zero D] in
theorem Inv.removed (hi : Inv P hash s) (hok : Slhash.Ok P hash T')
    (hst : ∀ k' d', T'.Stores P hash k' d' ↔ s.table.Stores P hash k' d' ∧ k' ≠ k) :
    Inv P hash ⟨T', update s.map k none⟩ := by
  refine ⟨hok, fun k' d' => ?_⟩
  rw [hst k' d', ← hi.map]
  show update s.map k none k' = some d' ↔ _
  by_cases hk : k' = k
  · subst hk
    simp
  · rw [Function.update_of_ne hk]
    simp [hk]

/-- **A call keeps the invariant.**  An update that meets the condition writes
to an entry of the TCAM the data it has. -/
theorem Inv.after {op : SlhOp K D} {ret : SdkRet} {p : SltParams K D} (hi : Inv P hash s)
    (hmeets : s.table.Meets P hash op) (hc : s.table.call P hash op = some (ret, p, T')) :
    Inv P hash ⟨T', op.record ret s.map⟩ := by
  cases op with
  | insert k d highest =>
    have hpost := Slhash.call_insert_post hi.ok k d highest
    rw [hc] at hpost
    cases hpost with
    | entryExists => exact hi
    | noResource => exact hi
    | ok absent ok' stores => exact hi.put ok' stores
  | update k d =>
    have hpost := Slhash.call_update_post hi.ok k d
    rw [hc] at hpost
    cases hpost with
    | notFound => exact hi
    | table home ok' stores => exact hi.put ok' stores
    | @tcam p d' stores =>
      have hm : s.map k = some d := by
        rw [hmeets d' stores]
        exact (hi.map k d').mpr (.inr stores)
      show Inv P hash ⟨s.table, Function.update s.map k (some d)⟩
      rw [← hm, Function.update_eq_self]
      exact hi
  | remove k =>
    have hpost := Slhash.call_remove_post hi.ok k
    rw [hc] at hpost
    cases hpost with
    | notFound => exact hi
    | ok present meets ok' stores => exact hi.removed ok' stores
  | get k =>
    have hpost := Slhash.call_get_post hi.ok k
    rw [hc] at hpost
    cases hpost with
    | notFound => exact hi
    | ok => exact hi

/-- **The invariant holds in every state of a run.** -/
theorem Reached.inv (hr : Reached P hash s) : Inv P hash s := by
  refine Reachable.invariant hr (fun _ h0 => .of_init h0) ?_
  rintro s _ hi ⟨op, ret, p, T, hmeets, hc, rfl⟩
  exact hi.after hmeets hc

/-! ### The table as a map -/

/-- What a get answers. -/
theorem Inv.get (hi : Inv P hash s) (k : K) :
    ∃ p, s.table.call P hash (.get k)
        = some (if (s.map k).isSome then .ok else .entryNotFound, p, s.table) ∧
      ∀ d, s.map k = some d → p.key = k ∧ p.data = d := by
  have hpost := Slhash.call_get_post hi.ok k
  generalize s.table.call P hash (.get k) = r at hpost
  cases hpost with
  | notFound absent =>
    have hm : s.map k = none := hi.map_eq_none_iff.mpr absent
    rw [hm]
    exact ⟨_, rfl, fun d hd => by cases hd⟩
  | ok stores key =>
    have hm : s.map k = some _ := (hi.map _ _).mpr stores
    rw [hm]
    exact ⟨_, rfl, fun d hd => ⟨key, Option.some.inj hd⟩⟩

/-- A remove of `k` succeeds and removes exactly `k` from the map `m`. -/
def Removes (P : SlhProps K) (hash : K → BitVec 32) (T : Slhash K D) (m : K → Option D) (k : K) :
    Prop :=
  ∃ p T', T.call P hash (.remove k) = some (.ok, p, T') ∧
    (∃ p', T'.call P hash (.get k) = some (.entryNotFound, p', T')) ∧
    ∀ k' d', k' ≠ k → m k' = some d' →
      ∃ p', T'.call P hash (.get k') = some (.ok, p', T') ∧ p'.key = k' ∧ p'.data = d'

/-- **The calls answer as a finite map**; an insert may also find no room. -/
structure Refines (P : SlhProps K) (hash : K → BitVec 32) (T : Slhash K D) (m : K → Option D) :
    Prop where
  get : ∀ k, ∃ p, T.call P hash (.get k)
      = some (if (m k).isSome then .ok else .entryNotFound, p, T) ∧
    ∀ d, m k = some d → p.key = k ∧ p.data = d
  insert : ∀ k d highest, ∃ ret p T', T.call P hash (.insert k d highest) = some (ret, p, T') ∧
    (ret = .entryExists ↔ (m k).isSome = true) ∧ ret ∈ [SdkRet.ok, .entryExists, .noResource]
  update : ∀ k d, ∃ p T', T.call P hash (.update k d)
    = some (if (m k).isSome then .ok else .entryNotFound, p, T')
  remove_absent : ∀ k, m k = none → ∃ p, T.call P hash (.remove k) = some (.entryNotFound, p, T)
  remove_present : ∀ k, (m k).isSome = true → (Removes P hash T m k ↔ T.Meets P hash (.remove k))

theorem Inv.insert_answers (hi : Inv P hash s) (k : K) (d : D) (highest : Bool) :
    ∃ ret p T', s.table.call P hash (.insert k d highest) = some (ret, p, T') ∧
      (ret = .entryExists ↔ (s.map k).isSome = true) ∧
      ret ∈ [SdkRet.ok, .entryExists, .noResource] := by
  have hpost := Slhash.call_insert_post hi.ok k d highest
  have hnone : (∀ d, ¬ s.table.Stores P hash k d) → s.map k = none := hi.map_eq_none_iff.mpr
  generalize s.table.call P hash (.insert k d highest) = r at hpost
  cases hpost with
  | entryExists stores =>
    have hm : s.map k = some _ := (hi.map _ _).mpr stores
    exact ⟨_, _, _, rfl, by simp [hm], by simp⟩
  | noResource absent => exact ⟨_, _, _, rfl, by simp [hnone absent], by simp⟩
  | ok absent => exact ⟨_, _, _, rfl, by simp [hnone absent], by simp⟩

theorem Inv.update_answers (hi : Inv P hash s) (k : K) (d : D) :
    ∃ p T', s.table.call P hash (.update k d)
      = some (if (s.map k).isSome then .ok else .entryNotFound, p, T') := by
  have hpost := Slhash.call_update_post hi.ok k d
  generalize s.table.call P hash (.update k d) = r at hpost
  cases hpost with
  | notFound absent =>
    have hm : s.map k = none := hi.map_eq_none_iff.mpr absent
    rw [hm]
    exact ⟨_, _, rfl⟩
  | table home =>
    have hm : s.map k = some _ := (hi.map _ _).mpr home.stores
    rw [hm]
    exact ⟨_, _, rfl⟩
  | tcam stores =>
    have hm : s.map k = some _ := (hi.map _ _).mpr (.inr stores)
    rw [hm]
    exact ⟨_, _, rfl⟩

theorem Inv.remove_absent (hi : Inv P hash s) {k : K} (hm : s.map k = none) :
    ∃ p, s.table.call P hash (.remove k) = some (.entryNotFound, p, s.table) := by
  have habs := hi.map_eq_none_iff.mp hm
  have hpost := Slhash.call_remove_post hi.ok k
  generalize s.table.call P hash (.remove k) = r at hpost
  cases hpost with
  | notFound => exact ⟨_, rfl⟩
  | abort fails => exact absurd (fun ⟨d, hd⟩ => absurd (.inr hd) (habs d)) fails
  | ok present => exact absurd present (habs _)

theorem Inv.removes_iff (hi : Inv P hash s) {k : K} (hm : (s.map k).isSome = true) :
    Removes P hash s.table s.map k ↔ s.table.Meets P hash (.remove k) := by
  have hpost := Slhash.call_remove_post hi.ok k
  unfold Removes
  generalize s.table.call P hash (.remove k) = r at hpost
  cases hpost with
  | notFound absent =>
    rw [hi.map_eq_none_iff.mpr absent] at hm
    cases hm
  | abort fails => simpa using fails
  | @ok p T' d present meets ok' stores =>
    have hi' := hi.removed ok' stores
    refine iff_of_true ⟨p, T', rfl, ?_, fun k' d' hne hd => ?_⟩ meets
    · have hnone : update s.map k none k = none := Function.update_self ..
      obtain ⟨p', hget, -⟩ := hi'.get k
      simp only [hnone] at hget
      exact ⟨p', hget⟩
    · have hsome : update s.map k none k' = some d' :=
        (Function.update_of_ne hne _ _).trans hd
      obtain ⟨p', hget, hp'⟩ := hi'.get k'
      simp only [hsome] at hget
      exact ⟨p', hget, hp' d' hsome⟩

/-- **A stateless hash table refines a finite map**, and removes of present keys
succeed exactly when they meet the condition. -/
theorem Reached.slhash_refines_map (hr : Reached P hash s) : Refines P hash s.table s.map :=
  ⟨hr.inv.get, hr.inv.insert_answers, hr.inv.update_answers, fun _ => hr.inv.remove_absent,
    fun _ => hr.inv.removes_iff⟩

/-- A sequence of calls; `none` if one of them aborts. -/
def run (P : SlhProps K) (hash : K → BitVec 32) :
    List (SlhOp K D) → SlhSystem K D → Option (SlhSystem K D)
  | [], s => some s
  | op :: ops, s =>
    (s.table.call P hash op).bind fun r => run P hash ops ⟨r.2.2, op.record r.1 s.map⟩

/-- A check that a run of inserts from a fresh table passes is passed in a
reached state. -/
theorem exists_reached_of_run (P : SlhProps K) (hash : K → BitVec 32) (ops : List (SlhOp K D))
    (p : SlhSystem K D → Bool) (hops : ∀ op ∈ ops, ∃ k d highest, op = .insert k d highest)
    (h : (run P hash ops ⟨Slhash.init P, fun _ => none⟩).any p = true) :
    ∃ s, Reached P hash s ∧ p s = true := by
  have key : ∀ {s s' : SlhSystem K D}, Reached P hash s → run P hash ops s = some s' →
      Reached P hash s' := by
    clear h
    intro s s' hr h
    induction ops generalizing s with
    | nil =>
      cases h
      exact hr
    | cons op ops ih =>
      obtain ⟨⟨ret, p, T⟩, hc, hrest⟩ := Option.bind_eq_some_iff.mp h
      have hmeets : s.table.Meets P hash op := by
        obtain ⟨k, d, highest, rfl⟩ := hops op (List.mem_cons_self ..)
        trivial
      have hstep : Step P hash s ⟨T, op.record ret s.map⟩ := ⟨op, ret, p, T, hmeets, hc, rfl⟩
      exact ih (fun op' hop' => hops op' (List.mem_cons_of_mem _ hop')) (.step hr hstep) hrest
  obtain ⟨s, hs, hp⟩ := (Option.any_eq_true _ _).mp h
  exact ⟨s, key (.start rfl) hs, hp⟩

/-- A table with two buckets and a TCAM of four entries. -/
def smallProps : SlhProps Nat where
  tableSize := 2
  tcam := { Sltcam.smallTcam with clearKey := 0 }
  tableSize_pos := by decide

/-- All keys share one bucket. -/
def collidingHash (_ : Nat) : BitVec 32 := 1

def collidingOps : List (SlhOp Nat Nat) := [.insert 1 10 false, .insert 2 20 false]

theorem Reached.slhash_refines_map_colliding :
    ∃ s : SlhSystem Nat Nat, Reached smallProps collidingHash s ∧
      (s.map 1 = some 10 ∧ s.map 2 = some 20) ∧ Removes smallProps collidingHash s.table s.map 1 := by
  obtain ⟨s, hr, hs⟩ := exists_reached_of_run smallProps collidingHash collidingOps
    (fun s => decide ((s.map 1 = some 10 ∧ s.map 2 = some 20) ∧
      (s.table.bucket 1).inuse = true ∧ (s.table.hw 1).1 = 1)) (by simp [collidingOps])
    (by decide +kernel)
  obtain ⟨hm, hhome⟩ := of_decide_eq_true hs
  have hsome : (s.map 1).isSome = true := by rw [hm.1]; rfl
  exact ⟨s, hr, hm, (hr.slhash_refines_map.remove_present 1 hsome).mpr
    fun ⟨_, hd⟩ => absurd hhome (hr.inv.ok.apart hd)⟩

/-- The second key of a bucket cannot be removed. -/
theorem Reached.remove_aborts :
    ∃ s : SlhSystem Nat Nat, Reached smallProps collidingHash s ∧ s.map 2 = some 20 ∧
      (s.table.call smallProps collidingHash (.remove 2)).isNone = true := by
  obtain ⟨s, hr, hs⟩ := exists_reached_of_run smallProps collidingHash collidingOps
    (fun s => decide (s.map 2 = some 20 ∧
      (s.table.call smallProps collidingHash (.remove 2)).isNone = true)) (by simp [collidingOps])
    (by decide +kernel)
  exact ⟨s, hr, of_decide_eq_true hs⟩

end SlhSystem

end NicSw
