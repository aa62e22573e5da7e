/-
A flow table and its client, over whole runs.

A client issues calls from any thread, one at a time.  It keeps the data that
its calls stored (`map`) and a handle for each key (`handle`): the one its
insert returned, replaced whenever the table reports that an entry has moved.

`FtlSystem.Inv` ties the two together in every state of a run: the table
satisfies its invariant, it holds what the client has recorded, and a key's
handle is that of the bucket it is in.
-/
import NicSw.Ftl.Insert
import NicSw.Ftl.Remove

namespace NicSw

open Function (update update_self update_of_ne)

variable {K D : Type*}

/-! ### The client -/

section Client

variable [DecidableEq K]

/-- What a client records of a call that returned `ret`. -/
def FtlOp.record (op : FtlOp K D) (ret : SdkRet) (m : K → Option D) : K → Option D :=
  if ret ≠ .ok then m
  else
    match op with
    | .insert k d | .update k d => Function.update m k (some d)
    | .remove k => Function.update m k none
    | .get _ => m

/-- What a client does in `movecb`: once the move is done, the handle of the key
is replaced. -/
def MoveCb.record (h : K → Handle) (cb : MoveCb K D) : K → Handle :=
  if cb.done = true ∧ h cb.key = cb.oldHandle then update h cb.key cb.newHandle else h

/-- The handles of a client after a call: an insert returns a handle, and the
callbacks replace handles. -/
def FtlOp.recordHandle (op : FtlOp K D) (ret : SdkRet) (st : FtlSt K D) (h : K → Handle) :
    K → Handle :=
  let h :=
    match op, ret with
    | .insert k _, .ok => Function.update h k st.params.handle
    | _, _ => h
  st.moves.foldl MoveCb.record h

end Client

/-- A table and the records of its client. -/
structure FtlSystem (K D : Type*) where
  table : FtlTable K D
  map : K → Option D
  handle : K → Handle

namespace FtlSystem

/-! ### The invariant -/

variable [Zero K] (P : FtlProps) (hash : K → BitVec 32)

/-- **The table and the records of its client agree.** -/
structure Inv (s : FtlSystem K D) : Prop where
  ok : FtlTable.Ok P hash s.table
  live : P.moreHashes 0 = 0 → s.table.Live P
  map : ∀ k d, s.map k = some d ↔ s.table.Stores k d
  handle : ∀ b, s.table.forest.valid b = true → s.handle (s.table.own b) = b.handle

section Inv

variable {P hash} {s : FtlSystem K D} {T' : FtlTable K D} {tid : Fin 8} {k : K} {d : D}
  {b e src : BucketLoc}

theorem Inv.map_of_owner (hi : Inv P hash s) (hv : s.table.forest.valid b = true)
    (hb : s.table.own b = k) : s.map k = some (s.table.item b).2 := by
  refine (hi.map _ _).mpr ⟨b, hv, ?_⟩
  rw [← hb]
  rfl

/-- What the client has no record of is not in the table. -/
theorem Inv.map_eq_none_iff (hi : Inv P hash s) : s.map k = none ↔ s.table.Absent k := by
  constructor
  · intro hm b hv hb
    rw [hi.map_of_owner hv hb] at hm
    cases hm
  · intro ha
    rw [Option.eq_none_iff_forall_not_mem]
    intro d hd
    obtain ⟨b, hv, hb⟩ := (hi.map k d).mp hd
    exact ha b hv (congrArg Prod.fst hb)

/-- A table in which only the hint indexes moved between indexer and pools. -/
theorem Inv.set_hints (hi : Inv P hash s) {hints : HintAlloc}
    (hok : hints.Ok P.stableSize fun j => s.table.forest.valid (.hint j) = true) :
    Inv P hash { s with table := { s.table with hints := hints } } :=
  ⟨⟨hi.ok.forest, hi.ok.keyNe, hi.ok.moreHash, hok, hi.ok.entries, hi.ok.collisions⟩, hi.live,
    hi.map, hi.handle⟩

variable [DecidableEq K]

theorem Inv.inserted (hi : Inv P hash s) (hk : k ≠ 0) (habs : s.table.Absent k)
    (h : FtlTable.Inserted P hash s.table tid k d b T') :
    Inv P hash ⟨T', update s.map k (some d), update s.handle k b.handle⟩ := by
  refine ⟨h.ok hi.ok hk habs, fun hc => h.live (hi.live hc), fun k' d' => ?_, fun c hv => ?_⟩
  · show update s.map k (some d) k' = some d' ↔ T'.Stores k' d'
    rw [h.stores_iff]
    by_cases hkk : k' = k
    · subst hkk
      have hno : ¬ s.table.Stores k' d' := fun ⟨c, hv, hc⟩ => habs c hv (congrArg Prod.fst hc)
      simp [hno, eq_comm]
    · rw [update_of_ne hkk, hi.map]
      simp [hkk]
  · show update s.handle k b.handle (T'.own c) = c.handle
    rw [FtlTable.own_eq_of_item (h.item_eq c)]
    by_cases hc : c = b
    · subst hc
      rw [update_self, update_self]
    · have hvc := (h.valid_iff.mp hv).resolve_left hc
      rw [update_of_ne hc, update_of_ne (habs c hvc), hi.handle c hvc]

theorem Inv.updated (hi : Inv P hash s) (hb : s.table.own b = k)
    (h : FtlTable.Updated s.table b d T') :
    Inv P hash ⟨T', update s.map k (some d), s.handle⟩ := by
  subst hb
  refine ⟨h.ok hi.ok, fun hc => h.live (hi.live hc), fun k' d' => ?_, fun c hv => ?_⟩
  · show update s.map _ (some d) k' = some d' ↔ T'.Stores k' d'
    rw [h.stores_iff hi.ok]
    by_cases hkk : k' = s.table.own b
    · subst hkk
      simp [eq_comm]
    · rw [update_of_ne hkk, hi.map]
      simp [hkk]
  · rw [h.forest] at hv
    rw [h.own]
    exact hi.handle c hv

/-- The callbacks of a move replace the handle of the moved key. -/
theorem Inv.foldl_moveLog (hi : Inv P hash s) (hv : s.table.forest.valid src = true)
    (hne : e ≠ src) :
    (moveLog s.table true e src).foldl MoveCb.record s.handle
      = update s.handle (s.table.own src) e.handle := by
  have hsrc : s.handle (s.table.item src).1 = src.handle := hi.handle src hv
  rw [moveLog, if_pos ⟨rfl, hne⟩]
  simp only [List.foldl_cons, List.foldl_nil, MoveCb.record, Bool.false_eq_true, false_and,
    if_false, hsrc, and_self, if_true]
  rfl

theorem Inv.removed (hi : Inv P hash s) (hb : s.table.own e = k)
    (h : FtlTable.Removed P s.table tid e src T') :
    Inv P hash ⟨T', update s.map k none,
      (moveLog s.table true e src).foldl MoveCb.record s.handle⟩ := by
  subst hb
  have hsrc := h.src_valid hi.ok
  refine ⟨h.ok hi.ok, fun hc => h.live hc (hi.live hc), fun k' d' => ?_, fun c hv => ?_⟩
  · show update s.map _ none k' = some d' ↔ T'.Stores k' d'
    rw [h.stores_iff hi.ok]
    by_cases hkk : k' = s.table.own e
    · subst hkk
      simp
    · rw [update_of_ne hkk, hi.map]
      simp [hkk]
  · show (moveLog s.table true e src).foldl MoveCb.record s.handle (T'.own c) = c.handle
    obtain ⟨hvc, hcs⟩ := h.valid_iff.mp hv
    rw [FtlTable.own_eq_of_item (h.item_eq hv)]
    by_cases hne : e = src
    · subst hne
      rw [moveLog, if_neg (by simp), List.foldl_nil, update_of_ne hcs]
      exact hi.handle c hvc
    rw [hi.foldl_moveLog hsrc hne]
    by_cases hc : c = e
    · subst hc
      rw [update_self]
      exact update_self _ _ _
    · have hown : s.table.own c ≠ s.table.own src := fun ho => hcs (hi.ok.forest.ownInj hvc hsrc ho)
      rw [update_of_ne hc, update_of_ne hown]
      exact hi.handle c hvc

end Inv

/-! ### Runs -/

variable [DecidableEq K] [Zero D]

/-- A fresh table. -/
def Init (s : FtlSystem K D) : Prop := FtlTable.init P = some s.table ∧ ∀ k, s.map k = none

/-- The state after a call. -/
def after (s : FtlSystem K D) (op : FtlOp K D) (ret : SdkRet) (st : FtlSt K D) : FtlSystem K D :=
  ⟨st.table, op.record ret s.map, op.recordHandle ret st s.handle⟩

/-- A call by some thread, on a key that is not all zeros. -/
def Step (s s' : FtlSystem K D) : Prop :=
  ∃ tid op ret st, op.key ≠ 0 ∧ s.table.call P hash tid op = some (ret, st) ∧ s' = s.after op ret st

/-- The states that calls lead to from a fresh table. -/
def Reached : FtlSystem K D → Prop := Reachable (Init P) (Step P hash)

/-- A sequence of calls; `none` if one of them aborts. -/
def run : List (Fin 8 × FtlOp K D) → FtlSystem K D → Option (FtlSystem K D)
  | [], s => some s
  | (tid, op) :: ops, s =>
    (s.table.call P hash tid op).bind fun r => run ops (s.after op r.1 r.2)

/-- A sequence of calls on a fresh table. -/
def runFresh (ops : List (Fin 8 × FtlOp K D)) : Option (FtlSystem K D) :=
  (FtlTable.init P).bind fun T => run P hash ops ⟨T, fun _ => none, fun _ => Handle.null⟩

section Run

variable {P hash} {s : FtlSystem K D} {T : FtlTable K D} {tid : Fin 8} {op : FtlOp K D}
  {ret : SdkRet} {st : FtlSt K D}

omit [DecidableEq K] in
/-- A fresh table is empty. -/
theorem Inv.of_init (h : Init P s) : Inv P hash s := by
  obtain ⟨hinit, hmap⟩ := h
  obtain ⟨A, hA, hAok⟩ := HintAlloc.init_ok P.word_le_stableSize
  unfold FtlTable.init at hinit
  rw [hA] at hinit
  have hT := (Option.some.inj hinit).symm
  have hv : ∀ {b}, ¬ s.table.forest.valid b = true := by
    intro b
    rw [hT]
    exact Bool.false_ne_true
  have hcount : ∀ f n, s.table.forest.count f n = 0 := by
    intro f n
    rw [Forest.count, Finset.card_eq_zero, Finset.filter_eq_empty_iff]
    exact fun _ _ => hv
  have hnone : ∀ k d, ¬ s.table.Stores k d := fun k d ⟨b, hb, _⟩ => hv hb
  refine ⟨⟨?_, fun b hb => absurd hb hv, fun b hb => absurd hb hv, ?_, ?_, ?_⟩,
    fun _ b hb => absurd hb hv, fun k d => ?_, fun b hb => absurd hb hv⟩
  · exact ⟨fun b hb => absurd hb hv, fun hl => absurd hl.valid hv, fun hl => absurd hl.valid hv,
      fun hb => absurd hb hv, fun b hb => absurd hb hv⟩
  · rw [hT]
    exact hAok.congr fun j => by simp [FtlTable.forest]
  · rw [hcount, hcount, hT]
    simp
  · rw [hcount, hT]
    simp
  · rw [hmap]
    simp [hnone]

section

variable (hN : P.numHints ≤ 6)
include hN

section

variable (hok : FtlTable.Ok P hash T) (tid : Fin 8)
include hok

theorem call_insert_post (k : K) (d : D) :
    InsertPost P hash tid ⟨T, (FtlOp.insert k d).params hash, []⟩
      (T.call P hash tid (.insert k d)) :=
  FtlMain.insert_post hN hok rfl rfl

theorem call_update_post {k : K} (d : D) (hk : k ≠ 0) :
    UpdatePost P ⟨T, (FtlOp.update k d).params hash, []⟩ (T.call P hash tid (.update k d)) :=
  FtlMain.update_post hN hok hk rfl rfl

theorem call_remove_post (k : K) :
    RemovePost P tid ⟨T, (FtlOp.remove k).params hash, []⟩ (T.call P hash tid (.remove k)) :=
  FtlMain.remove_post hN hok rfl

theorem call_get_post {k : K} (hk : k ≠ 0) :
    GetPost P ⟨T, (FtlOp.get k).params hash, []⟩ (T.call P hash tid (.get k)) :=
  FtlMain.get_post hN hok hk rfl rfl

end

/-- **A call keeps the invariant.** -/
theorem Inv.after (hi : Inv P hash s) (hk : op.key ≠ 0)
    (hc : s.table.call P hash tid op = some (ret, st)) : Inv P hash (s.after op ret st) := by
  cases op with
  | insert k d =>
    have hpost := call_insert_post hN hi.ok tid k d
    rw [hc] at hpost
    cases hpost with
    | entryExists =>
      exact hi
    | maxRecircExceed =>
      exact hi
    | noResource _ hok =>
      exact hi.set_hints hok
    | ok absent inserted => exact hi.inserted hk absent inserted
  | update k d =>
    have hk' : k ≠ 0 := hk
    have hpost := call_update_post hN hi.ok tid d hk'
    rw [hc] at hpost
    cases hpost with
    | notFound =>
      exact hi
    | ok own updated => exact hi.updated own updated
  | remove k =>
    have hpost := call_remove_post hN hi.ok tid k
    rw [hc] at hpost
    cases hpost with
    | notFound =>
      exact hi
    | ok removed own => exact hi.removed own removed
  | get k =>
    have hk' : k ≠ 0 := hk
    have hpost := call_get_post hN hi.ok tid hk'
    rw [hc] at hpost
    cases hpost with
    | notFound =>
      exact hi
    | ok => exact hi

/-- **The invariant holds in every state of a run.** -/
theorem Reached.inv (hr : Reached P hash s) : Inv P hash s := by
  refine Reachable.invariant hr (fun _ h0 => .of_init h0) ?_
  rintro s _ hi ⟨tid, op, ret, st, hk, hc, rfl⟩
  exact hi.after hN hk hc

end

theorem Reached.run {s' : FtlSystem K D} {ops : List (Fin 8 × FtlOp K D)}
    (hr : Reached P hash s) (hops : ∀ c ∈ ops, c.2.key ≠ 0)
    (h : FtlSystem.run P hash ops s = some s') : Reached P hash s' := by
  induction ops generalizing s with
  | nil =>
    cases h
    exact hr
  | cons c ops ih =>
    obtain ⟨⟨ret, st⟩, hc, hrest⟩ := Option.bind_eq_some_iff.mp h
    have hstep : Step P hash s (s.after c.2 ret st) :=
      ⟨c.1, c.2, ret, st, hops c (List.mem_cons_self ..), hc, rfl⟩
    exact ih (.step hr hstep) (fun c' hc' => hops c' (List.mem_cons_of_mem _ hc')) hrest

/-- A check that a run from a fresh table passes is passed in a reached state. -/
theorem exists_reached_of_runFresh (P : FtlProps) (hash : K → BitVec 32)
    (ops : List (Fin 8 × FtlOp K D)) (p : FtlSystem K D → Bool)
    (hops : ∀ c ∈ ops, c.2.key ≠ 0) (h : (runFresh P hash ops).any p = true) :
    ∃ s, Reached P hash s ∧ p s = true := by
  obtain ⟨s, hs, hp⟩ := (Option.any_eq_true _ _).mp h
  obtain ⟨T, hT, hrun⟩ := Option.bind_eq_some_iff.mp hs
  exact ⟨s, Reached.run (.start ⟨hT, fun _ => rfl⟩) hops hrun, hp⟩

/-! ### The table as a map -/

/-- **Calls on table `T` answer as calls on the map `m` do.**  An insert of a new
key may also fail for want of room, and only such an insert can abort. -/
structure Refines (P : FtlProps) (hash : K → BitVec 32) (T : FtlTable K D) (m : K → Option D) :
    Prop where
  get : ∀ tid k, k ≠ 0 → ∃ st, T.call P hash tid (.get k)
      = some (if (m k).isSome then .ok else .entryNotFound, st) ∧
    st.table = T ∧ ∀ d, m k = some d → st.params.key = k ∧ st.params.data = d
  insert_abort : ∀ tid k d, k ≠ 0 → T.call P hash tid (.insert k d) = none →
    m k = none ∧ 10 ≤ P.maxRecircs
  insert : ∀ tid k d ret st, k ≠ 0 → T.call P hash tid (.insert k d) = some (ret, st) →
    (ret = .entryExists ↔ (m k).isSome = true) ∧
      ret ∈ [SdkRet.ok, .entryExists, .noResource, .maxRecircExceed]
  update : ∀ tid k d, k ≠ 0 → ∃ st, T.call P hash tid (.update k d)
      = some (if (m k).isSome then .ok else .entryNotFound, st)
  remove : ∀ tid k, k ≠ 0 → ∃ st, T.call P hash tid (.remove k)
      = some (if (m k).isSome then .ok else .entryNotFound, st)
  others : ∀ tid op ret st, op.key ≠ 0 → T.call P hash tid op = some (ret, st) →
    ∀ tid' k, k ≠ 0 → k ≠ op.key →
      (st.table.call P hash tid' (.get k)).map (fun r => (r.1, r.2.params.data))
        = (T.call P hash tid' (.get k)).map (fun r => (r.1, r.2.params.data))

/-- What a get answers. -/
theorem Inv.get (hN : P.numHints ≤ 6) (hclear : P.moreHashes 0 = 0) (hi : Inv P hash s)
    (tid : Fin 8) {k : K} (hk : k ≠ 0) :
    ∃ st, s.table.call P hash tid (.get k)
        = some (if (s.map k).isSome then .ok else .entryNotFound, st) ∧
      st.table = s.table ∧ st.params.key = k ∧ st.params.data = (s.map k).getD 0 := by
  have hpost := call_get_post hN hi.ok tid hk
  generalize s.table.call P hash tid (.get k) = r at hpost
  cases hpost with
  | abort dead => exact absurd (hi.live hclear) dead
  | notFound absent =>
    have hm : s.map k = none := hi.map_eq_none_iff.mpr absent
    rw [hm]
    exact ⟨_, rfl, rfl, rfl, rfl⟩
  | ok valid own =>
    have hm : s.map k = some _ := hi.map_of_owner valid own
    rw [hm]
    exact ⟨_, rfl, rfl, own, rfl⟩

omit [Zero K] [Zero D] in
/-- A call records nothing about other keys. -/
theorem record_of_ne {m : K → Option D} {k : K} (hk : k ≠ op.key) : op.record ret m k = m k := by
  unfold FtlOp.record
  cases op <;> split <;> first | rfl | exact update_of_ne hk _ _

/-- **A flow table refines a finite map.** -/
theorem Reached.refines_map (hN : P.numHints ≤ 6) (hclear : P.moreHashes 0 = 0)
    (hr : Reached P hash s) : Refines P hash s.table s.map := by
  have hi := hr.inv hN
  refine ⟨?_, ?_, ?_, ?_, ?_, ?_⟩
  · intro tid k hk
    obtain ⟨st, hc, ht, hkey, hdata⟩ := hi.get hN hclear tid hk
    refine ⟨st, hc, ht, fun d hd => ⟨hkey, ?_⟩⟩
    rw [hdata, hd]
    rfl
  · intro tid k d hk hc
    have hpost := call_insert_post hN hi.ok tid k d
    rw [hc] at hpost
    cases hpost with
    | abort recircs absent => exact ⟨hi.map_eq_none_iff.mpr absent, recircs⟩
  · intro tid k d ret st hk hc
    have hpost := call_insert_post hN hi.ok tid k d
    have hnone : s.table.Absent k → s.map k = none := hi.map_eq_none_iff.mpr
    rw [hc] at hpost
    cases hpost with
    | entryExists valid own =>
      have hm : s.map k = some _ := hi.map_of_owner valid own
      simp [hm]
    | maxRecircExceed absent => simp [hnone absent]
    | noResource absent => simp [hnone absent]
    | ok absent => simp [hnone absent]
  · intro tid k d hk
    have hpost := call_update_post hN hi.ok tid d hk
    generalize s.table.call P hash tid (.update k d) = r at hpost
    cases hpost with
    | abort dead => exact absurd (hi.live hclear) dead
    | notFound absent =>
      have hm : s.map k = none := hi.map_eq_none_iff.mpr absent
      rw [hm]
      exact ⟨_, rfl⟩
    | ok own updated =>
      have hm : s.map k = some _ := hi.map_of_owner updated.valid own
      rw [hm]
      exact ⟨_, rfl⟩
  · intro tid k hk
    have hpost := call_remove_post hN hi.ok tid k
    generalize s.table.call P hash tid (.remove k) = r at hpost
    cases hpost with
    | abort dead => exact absurd (hi.live hclear) dead
    | notFound absent =>
      have hm : s.map k = none := hi.map_eq_none_iff.mpr absent
      rw [hm]
      exact ⟨_, rfl⟩
    | ok removed own =>
      have hm : s.map k = some _ := hi.map_of_owner removed.valid own
      rw [hm]
      exact ⟨_, rfl⟩
  · intro tid op ret st hop hc tid' k hk hne
    obtain ⟨st1, hc1, -, -, hd1⟩ := hi.get hN hclear tid' hk
    obtain ⟨st2, hc2, -, -, hd2⟩ := (hi.after hN hop hc).get hN hclear tid' hk
    have hm : (s.after op ret st).map k = s.map k := record_of_ne hne
    rw [hm] at hc2 hd2
    have htable : (s.after op ret st).table = st.table := rfl
    rw [htable] at hc2
    rw [hc1, hc2, Option.map_some, Option.map_some, hd1, hd2]

/-- A small table whose entries have `n` hints and a more slot. -/
def smallProps (n : Nat) (hn : 1 ≤ n) : FtlProps where
  ptableSize := 2
  stableSize := 64
  numHints := n
  maxRecircs := 8
  moreHashes := id
  two_le_ptableSize := by decide
  ptableSize_le := by decide
  word_le_stableSize := by decide
  stableSize_le := by decide
  numHints_pos := hn
  moreHashes_one := by decide

/-- Keys below 100 share one main bucket, the others share another. -/
def smallHash (k : Nat) : BitVec 32 := BitVec.ofNat 32 (if k < 100 then 2 * k else 2 * k + 1)

/-- Three colliding keys are stored, and the first is removed again. -/
def collidingOps : List (Fin 8 × FtlOp Nat Nat) :=
  [(0, .insert 1 10), (0, .insert 2 20), (0, .insert 3 30), (1, .remove 1)]

theorem Reached.refines_map_colliding :
    ∃ s : FtlSystem Nat Nat, Reached (smallProps 4 (by decide)) smallHash s ∧
      (s.map 1 = none ∧ s.map 3 = some 30) ∧
      Refines (smallProps 4 (by decide)) smallHash s.table s.map := by
  obtain ⟨s, hr, hs⟩ :=
    exists_reached_of_runFresh (smallProps 4 (by decide)) smallHash collidingOps
      (fun s => decide (s.map 1 = none ∧ s.map 3 = some 30)) (by decide) (by decide +kernel)
  exact ⟨s, hr, of_decide_eq_true hs, Reached.refines_map (by decide) rfl hr⟩

/-- With seven hints in an entry the number of the more slot that the code asks
for (`HINT_SLOT_MORE`) is that of the last hint.  A key stored behind it is
lost when that hint's link is given up. -/
def losingOps : List (Fin 8 × FtlOp Nat Nat) :=
  ((List.range' 1 9).map fun k => (0, .insert k k)) ++
    [(0, .remove 8), (0, .remove 9), (1, .insert 100 0), (1, .insert 101 0), (0, .insert 9 9),
      (1, .remove 101), (1, .remove 100)]

theorem Reached.get_loses_key :
    ∃ s : FtlSystem Nat Nat, Reached (smallProps 7 (by decide)) smallHash s ∧ s.map 9 = some 9 ∧
      (s.table.call (smallProps 7 (by decide)) smallHash 0 (.get 9)).map (·.1)
        = some .entryNotFound := by
  obtain ⟨s, hr, hs⟩ :=
    exists_reached_of_runFresh (smallProps 7 (by decide)) smallHash losingOps
      (fun s => decide (s.map 9 = some 9 ∧
        (s.table.call (smallProps 7 (by decide)) smallHash 0 (.get 9)).map (·.1)
          = some .entryNotFound)) (by decide) (by decide +kernel)
  exact ⟨s, hr, of_decide_eq_true hs⟩

/-! ### Handles -/

/-- `get_with_handle` on `h` returns key `k` and data `d`. -/
def ReadsAt (P : FtlProps) (T : FtlTable K D) (h : Handle) (k : K) (d : D) : Prop :=
  ∃ st, T.getWithHandle P h = some (.ok, st) ∧ st.params.key = k ∧ st.params.data = d

omit [DecidableEq K] in
/-- The handle of a bucket in use reads that bucket. -/
theorem readsAt_handle {b : BucketLoc} (hok : FtlTable.Ok P hash T)
    (hv : T.forest.valid b = true) : ReadsAt P T b.handle (T.item b).1 (T.item b).2 := by
  unfold ReadsAt FtlTable.getWithHandle
  generalize hst : (⟨T, ⟨0, 0, 0, b.handle, false⟩, []⟩ : FtlSt K D) = st
  have hread : ∀ c : Apictx K D, c.loc = b → FtlBucket.InRange c →
      FtlBucket.read st c false = some { c with entry := (T.bucket b).hw } := by
    rintro c rfl hr
    subst hst
    exact FtlBucket.read_of_valid hr hv
  unfold FtlMain.getWithHandle
  cases b with
  | main i =>
    have hi : i % 2 ^ 32 = i := Nat.mod_eq_of_lt (lt_of_lt_of_le (hok.main_lt hv) P.ptableSize_le)
    have hh : st.params.handle = ⟨i, 0, true, false⟩ := by
      rw [← hst, ← hi]
      simp [BucketLoc.handle, Handle.setPindex, Handle.null]
    simp only [hh, if_true, Bool.false_eq_true, if_false]
    rw [hread _ rfl (.inl rfl)]
    exact ⟨_, rfl, rfl, rfl⟩
  | hint j =>
    have hj : j % 2 ^ 30 = j := Nat.mod_eq_of_lt (lt_of_lt_of_le (hok.hint_lt hv) P.stableSize_le)
    have hh : st.params.handle = ⟨0, j, false, true⟩ := by
      rw [← hst, ← hj]
      simp [BucketLoc.handle, Handle.setSindex, Handle.null]
    have hne : (BucketLoc.hint j).index ≠ 0 := hok.hints.outNe hv
    simp only [hh, if_true]
    rw [hread _ rfl (.inr hne)]
    exact ⟨_, rfl, rfl, rfl⟩

/-- **The handles of a client that follows the move callbacks are exact**, and the
callbacks of a move name the key that moved and where it moved. -/
structure HandlesExact (P : FtlProps) (hash : K → BitVec 32) (s : FtlSystem K D) : Prop where
  reads : ∀ k d, s.map k = some d → ReadsAt P s.table (s.handle k) k d
  moves : ∀ tid op ret st, op.key ≠ 0 → s.table.call P hash tid op = some (ret, st) →
    st.moves = [] ∨ ∃ k d old new,
      st.moves = [⟨k, d, old, new, false⟩, ⟨k, d, old, new, true⟩] ∧ k ≠ op.key ∧
      s.handle k = old ∧ ReadsAt P s.table old k d ∧
      (s.after op ret st).handle k = new ∧ ReadsAt P st.table new k d

/-- **Handles stay exact over whole runs.** -/
theorem Reached.handles_exact (hN : P.numHints ≤ 6) (hr : Reached P hash s) :
    HandlesExact P hash s := by
  have hi := hr.inv hN
  refine ⟨fun k d hm => ?_, fun tid op ret st hk hc => ?_⟩
  · obtain ⟨b, hv, hb⟩ := (hi.map k d).mp hm
    have hown : s.table.own b = k := congrArg Prod.fst hb
    have hreads := readsAt_handle hi.ok hv
    rwa [hb, ← hi.handle b hv, hown] at hreads
  · have hi' := hi.after hN hk hc
    cases op with
    | insert k d =>
      have hpost := call_insert_post hN hi.ok tid k d
      rw [hc] at hpost
      cases hpost <;> exact .inl rfl
    | update k d =>
      have hk' : k ≠ 0 := hk
      have hpost := call_update_post hN hi.ok tid d hk'
      rw [hc] at hpost
      cases hpost <;> exact .inl rfl
    | get k =>
      have hk' : k ≠ 0 := hk
      have hpost := call_get_post hN hi.ok tid hk'
      rw [hc] at hpost
      cases hpost <;> exact .inl rfl
    | remove k =>
      have hpost := call_remove_post hN hi.ok tid k
      rw [hc] at hpost
      cases hpost with
      | notFound => exact .inl rfl
      | @ok e src T' removed own =>
        by_cases hne : e = src
        · rw [moveLog, if_neg (by simp [hne])]
          exact .inl rfl
        have hsrc : s.table.forest.valid src = true := removed.src_valid hi.ok
        have he : T'.forest.valid e = true := removed.valid_iff.mpr ⟨removed.valid, hne⟩
        have hitem : T'.item e = s.table.item src := by
          rw [removed.item_eq he, update_self]
        refine .inr ⟨s.table.own src, (s.table.item src).2, src.handle, e.handle, ?_, ?_,
          hi.handle src hsrc, readsAt_handle hi.ok hsrc, ?_, ?_⟩
        · exact if_pos ⟨rfl, hne⟩
        · intro ho
          exact hne (hi.ok.forest.ownInj removed.valid hsrc (own.trans ho.symm))
        · show (moveLog s.table true e src).foldl MoveCb.record s.handle _ = _
          rw [hi.foldl_moveLog hsrc hne, update_self]
        · have hok' : FtlTable.Ok P hash T' := hi'.ok
          have hreads := readsAt_handle hok' he
          rwa [hitem] at hreads

theorem Reached.handles_exact_colliding :
    ∃ s : FtlSystem Nat Nat, Reached (smallProps 4 (by decide)) smallHash s ∧
      s.handle 3 = (BucketLoc.main 0).handle ∧
      ReadsAt (smallProps 4 (by decide)) s.table (BucketLoc.main 0).handle 3 30 := by
  obtain ⟨s, hr, hs⟩ :=
    exists_reached_of_runFresh (smallProps 4 (by decide)) smallHash collidingOps
      (fun s => decide (s.map 3 = some 30 ∧ s.handle 3 = (BucketLoc.main 0).handle)) (by decide)
      (by decide +kernel)
  obtain ⟨hm, hh⟩ := of_decide_eq_true hs
  exact ⟨s, hr, hh, hh ▸ (Reached.handles_exact (by decide) hr).reads 3 30 hm⟩

/-- With seven hints a key is stored behind the last hint and removed again: its
bucket is freed, but the hint still leads there. -/
def staleOps : List (Fin 8 × FtlOp Nat Nat) :=
  ((List.range' 1 9).map fun k => (0, .insert k k)) ++ [(0, .remove 8), (0, .remove 9)]

/-- A remove then moves the freed bucket: the callbacks name the zero key, which no
client has stored. -/
theorem Reached.moves_zero_key :
    ∃ s : FtlSystem Nat Nat, Reached (smallProps 7 (by decide)) smallHash s ∧
      (∃ st, s.table.call (smallProps 7 (by decide)) smallHash 0 (.remove 1) = some (.ok, st) ∧
        st.moves.map (·.key) = [0, 0]) ∧
      ¬ HandlesExact (smallProps 7 (by decide)) smallHash s := by
  obtain ⟨s, hr, hs⟩ :=
    exists_reached_of_runFresh (smallProps 7 (by decide)) smallHash staleOps
      (fun s => (s.table.call (smallProps 7 (by decide)) smallHash 0 (.remove 1)).any
        fun (r : SdkRet × FtlSt Nat Nat) => decide (r.1 = .ok ∧ r.2.moves.map (·.key) = [0, 0] ∧
          r.2.moves.all fun cb => decide (cb.oldHandle ≠ s.handle 0))) (by decide)
      (by decide +kernel)
  obtain ⟨⟨ret, st⟩, hc, hcheck⟩ := (Option.any_eq_true _ _).mp hs
  obtain ⟨rfl, hkeys, hold⟩ := of_decide_eq_true hcheck
  refine ⟨s, hr, ⟨st, hc, hkeys⟩, fun h => ?_⟩
  rcases h.moves 0 (.remove 1) _ _ Nat.one_ne_zero hc with
    hnil | ⟨k, d, old, new, hmoves, -, hh, -⟩
  · rw [hnil] at hkeys
    cases hkeys
  · rw [hmoves] at hkeys hold
    obtain rfl : k = 0 := (List.cons.inj hkeys).1
    have hne := List.all_eq_true.mp hold _ (List.mem_cons_self ..)
    exact of_decide_eq_true hne hh.symm

/-! ### Hint accounting -/

/-- **Where each hint index is**: linked from one slot of one valid bucket, in
one position of one pool, or free in the indexer. -/
structure Partitioned (P : FtlProps) (T : FtlTable K D) : Prop where
  cover : ∀ j, 1 ≤ j → j < P.stableSize → (∃ b s, T.forest.IsLink P.numHints b s j) ∨
    (∃ tid pos, T.hints.InPool tid pos j) ∨ T.hints.indexer.isUsed j = false
  linked_once : ∀ {j b s b' s'}, T.forest.IsLink P.numHints b s j →
    T.forest.IsLink P.numHints b' s' j → b = b' ∧ s = s'
  pooled_once : ∀ {j tid pos tid' pos'}, T.hints.InPool tid pos j → T.hints.InPool tid' pos' j →
    tid = tid' ∧ pos = pos'
  not_linked_pooled : ∀ {j b s tid pos}, T.forest.IsLink P.numHints b s j →
    ¬ T.hints.InPool tid pos j
  linked : ∀ {j b s}, T.forest.IsLink P.numHints b s j →
    T.hints.indexer.isUsed j = true ∧ 1 ≤ j ∧ j < P.stableSize
  pooled : ∀ {j tid pos}, T.hints.InPool tid pos j →
    T.hints.indexer.isUsed j = true ∧ 1 ≤ j ∧ j < P.stableSize

omit [DecidableEq K] [Zero D] in
/-- The hint buckets in use are those linked. -/
theorem valid_hint_iff (hok : FtlTable.Ok P hash T) {j : Nat} :
    T.forest.valid (.hint j) = true ↔ ∃ b s, T.forest.IsLink P.numHints b s j :=
  ⟨fun hv => (hok.forest.linked hv).2, fun ⟨_, _, hl⟩ => hok.forest.linkValid hl⟩

omit [DecidableEq K] [Zero D] in
theorem partitioned (hok : FtlTable.Ok P hash T) : Partitioned P T := by
  refine ⟨fun j hj _ => ?_, hok.forest.linkInj, hok.hints.inj,
    fun hl => hok.hints.apart (hok.forest.linkValid hl), fun hl => ?_, fun hp => ?_⟩
  · rw [← valid_hint_iff hok]
    cases hu : T.hints.indexer.isUsed j with
    | false => exact .inr (.inr rfl)
    | true =>
      rcases (hok.hints.used j).mp hu with h0 | hv | hp
      · omega
      · exact .inl hv
      · exact .inr (.inl hp)
  · have hu := hok.hints.out_used (hok.forest.linkValid hl)
    exact ⟨hu, Nat.pos_of_ne_zero hl.ne, hok.hints.lt_size hu⟩
  · have hu := hok.hints.inPool_used hp
    exact ⟨hu, Nat.pos_of_ne_zero (hok.hints.poolNe hp), hok.hints.lt_size hu⟩

omit [DecidableEq K] [Zero D] in
/-- The keys on record are the owners of the buckets in use. -/
theorem Inv.ncard_map (hi : Inv P hash s) :
    {k | s.map k ≠ none}.ncard =
      s.table.forest.count .main P.ptableSize + s.table.forest.count .hint P.stableSize := by
  have hset : {k | s.map k ≠ none} = s.table.own '' {b | s.table.forest.valid b = true} := by
    ext k
    show s.map k ≠ none ↔ ∃ b, s.table.forest.valid b = true ∧ s.table.own b = k
    rw [ne_eq, hi.map_eq_none_iff, FtlTable.Absent]
    push Not
    rfl
  have hinj : Set.InjOn s.table.own {b | s.table.forest.valid b = true} :=
    fun _ hb _ hb' ho => hi.ok.forest.ownInj hb hb' ho
  rw [hset, hinj.ncard_image, Forest.ncard_valid (fun _ => hi.ok.main_lt) (fun _ => hi.ok.hint_lt)]

/-- **Hint accounting**: where each hint index is, that the hint buckets in use are
those linked, that chains have depths, and what the counters count. -/
structure HintsAccounted (P : FtlProps) (s : FtlSystem K D) : Prop where
  partitioned : Partitioned P s.table
  valid_iff : ∀ j, s.table.forest.valid (.hint j) = true ↔
    ∃ b t, s.table.forest.IsLink P.numHints b t j
  depth : ∃ depth : BucketLoc → Nat, (∀ i, depth (.main i) = 0) ∧
    ∀ b t j, s.table.forest.IsLink P.numHints b t j →
      depth (.hint j) = depth b + 1 ∧ depth (.hint j) < P.maxRecircs
  entries : (∑ t, (s.table.tstats t).entries).toNat = {k | s.map k ≠ none}.ncard
  collisions : (∑ t, (s.table.tstats t).collisions).toNat =
    {j | ∃ b t, s.table.forest.IsLink P.numHints b t j}.ncard

/-- **Hint accounting over whole runs.** -/
theorem Reached.hints_accounted (hN : P.numHints ≤ 6) (hr : Reached P hash s) :
    HintsAccounted P s := by
  have hi := hr.inv hN
  have hlinked : {j | ∃ b t, s.table.forest.IsLink P.numHints b t j}
      = {j | s.table.forest.valid (.hint j) = true} :=
    Set.ext fun j => (valid_hint_iff hi.ok).symm
  -- the tables are too small for a counter to wrap around
  have hmain : s.table.forest.count .main P.ptableSize ≤ 2 ^ 32 :=
    ((Finset.card_filter_le _ _).trans (Finset.card_range _).le).trans P.ptableSize_le
  have hhint : s.table.forest.count .hint P.stableSize ≤ 2 ^ 30 :=
    ((Finset.card_filter_le _ _).trans (Finset.card_range _).le).trans P.stableSize_le
  refine ⟨partitioned hi.ok, fun j => valid_hint_iff hi.ok,
    ⟨s.table.forest.depth P.numHints, Forest.depth_main, fun b t j hl => ?_⟩, ?_, ?_⟩
  · obtain ⟨hd, hB⟩ := hi.ok.forest.depth_link hl
    have hmax : P.maxDepth ≤ P.maxRecircs - 1 := min_le_right _ _
    exact ⟨hd, by omega⟩
  · rw [hi.ok.entries, hi.ncard_map, BitVec.natCast_eq_ofNat, BitVec.toNat_ofNat]
    exact Nat.mod_eq_of_lt (by omega)
  · rw [hi.ok.collisions, hlinked, Forest.ncard_valid_hint fun _ => hi.ok.hint_lt,
      BitVec.natCast_eq_ofNat, BitVec.toNat_ofNat]
    exact Nat.mod_eq_of_lt (by omega)

theorem Reached.hints_accounted_colliding :
    ∃ s : FtlSystem Nat Nat, Reached (smallProps 4 (by decide)) smallHash s ∧
      {j | ∃ b t, s.table.forest.IsLink 4 b t j}.ncard = 1 := by
  obtain ⟨s, hr, hs⟩ :=
    exists_reached_of_runFresh (smallProps 4 (by decide)) smallHash collidingOps
      (fun s => decide ((∑ t, (s.table.tstats t).collisions).toNat = 1)) (by decide)
      (by decide +kernel)
  have hcount := (Reached.hints_accounted (by decide) hr).collisions
  exact ⟨s, hr, hcount.symm.trans (of_decide_eq_true hs)⟩

/-- With seven hints a bucket that was freed is still linked. -/
theorem Reached.links_freed_hint :
    ∃ s : FtlSystem Nat Nat, Reached (smallProps 7 (by decide)) smallHash s ∧
      s.table.forest.IsLink 7 (.main 0) 7 57 ∧ s.table.hints.indexer.isUsed 57 = false ∧
      ¬ HintsAccounted (smallProps 7 (by decide)) s := by
  obtain ⟨s, hr, hs⟩ :=
    exists_reached_of_runFresh (smallProps 7 (by decide)) smallHash staleOps
      (fun s => decide (s.table.forest.IsLink 7 (.main 0) 7 57 ∧
        s.table.hints.indexer.isUsed 57 = false)) (by decide) (by decide +kernel)
  obtain ⟨hl, hfree⟩ := of_decide_eq_true hs
  refine ⟨s, hr, hl, hfree, fun h => ?_⟩
  have hused := (h.partitioned.linked hl).1
  rw [hfree] at hused
  cases hused

/-! ### Inserts that fail -/

/-- The buckets of both tables. -/
def buckets (P : FtlProps) : List BucketLoc :=
  (List.range P.ptableSize).map .main ++ (List.range P.stableSize).map .hint

/-- Index `j` is allocated, but no bucket links to it and no pool holds it. -/
def Orphan (P : FtlProps) (T : FtlTable K D) (j : Nat) : Prop :=
  T.hints.indexer.isUsed j = true ∧
    (∀ b ∈ buckets P, ∀ t ∈ List.range' 1 (P.numHints + 1), ¬ T.forest.IsLink P.numHints b t j) ∧
    ∀ tid, ∀ pos < ((T.hints.pools tid).poolCount + 1).toNat, ¬ T.hints.InPool tid pos j

instance (P : FtlProps) (T : FtlTable K D) (j : Nat) : Decidable (Orphan P T j) :=
  inferInstanceAs (Decidable (_ ∧ _ ∧ _))

omit [DecidableEq K] [Zero D] in
/-- Only index `0`, which stands for no hint, is set aside. -/
theorem orphan_iff (hok : FtlTable.Ok P hash T) {j : Nat} : Orphan P T j ↔ j = 0 := by
  constructor
  · rintro ⟨hu, hlinks, hpools⟩
    rcases (hok.hints.used j).mp hu with h0 | hv | ⟨tid, pos, hp⟩
    · exact h0
    · obtain ⟨b, t, hl⟩ := (valid_hint_iff hok).mp hv
      refine absurd hl (hlinks b ?_ t (List.mem_range'_1.mpr ⟨hl.pos, ?_⟩))
      · cases b with
        | main i =>
          have hi := List.mem_range.mpr (hok.main_lt hl.valid)
          exact List.mem_append_left _ (List.mem_map_of_mem hi)
        | hint i =>
          have hi := List.mem_range.mpr (hok.hint_lt hl.valid)
          exact List.mem_append_right _ (List.mem_map_of_mem hi)
      · have hle := hl.le
        omega
    · have hpos := hp.1
      exact absurd hp (hpools tid pos (by omega))
  · rintro rfl
    exact ⟨(hok.hints.used 0).mpr (.inl rfl), fun _ _ _ _ hl => hl.ne rfl,
      fun _ _ _ hp => hok.hints.poolNe hp rfl⟩

/-- **An insert that fails changes nothing**: every bucket is as before, and so
are the hint indexes that are allocated but in no chain and no pool. -/
theorem Reached.failed_insert_noop (hN : P.numHints ≤ 6) (hr : Reached P hash s) (k : K) (d : D)
    (hc : s.table.call P hash tid (.insert k d) = some (ret, st)) (hret : ret ≠ .ok) :
    st.table.bucket = s.table.bucket ∧ {j | Orphan P st.table j} = {j | Orphan P s.table j} := by
  have hi := hr.inv hN
  have hpost := call_insert_post hN hi.ok tid k d
  rw [hc] at hpost
  cases hpost with
  | entryExists => exact ⟨rfl, rfl⟩
  | maxRecircExceed => exact ⟨rfl, rfl⟩
  | noResource _ hok =>
    -- a refill of the pool may have moved indexes out of the indexer
    refine ⟨rfl, Set.ext fun j => ?_⟩
    exact (orphan_iff (hi.set_hints hok).ok).trans (orphan_iff hi.ok).symm
  | ok => exact absurd rfl hret

/-- Keys with one hash: a main bucket and a chain of seven hint buckets. -/
def deepOps : List (Fin 8 × FtlOp Nat Nat) :=
  (List.range 8).map fun i => (0, .insert (100 + i * 2 ^ 31) i)

/-- The insert of one more key fails at the end of the chain. -/
theorem Reached.failed_insert_noop_deep :
    ∃ (s : FtlSystem Nat Nat) (st : FtlSt Nat Nat),
      Reached (smallProps 4 (by decide)) smallHash s ∧
      s.table.call (smallProps 4 (by decide)) smallHash 0 (.insert (100 + 8 * 2 ^ 31) 8)
        = some (.maxRecircExceed, st) ∧ st.table.bucket = s.table.bucket := by
  obtain ⟨s, hr, hs⟩ :=
    exists_reached_of_runFresh (smallProps 4 (by decide)) smallHash deepOps
      (fun s => (s.table.call (smallProps 4 (by decide)) smallHash 0
        (.insert (100 + 8 * 2 ^ 31) 8)).any fun r => r.1 == .maxRecircExceed) (by decide)
      (by decide +kernel)
  obtain ⟨⟨ret, st⟩, hc, he⟩ := (Option.any_eq_true _ _).mp hs
  obtain rfl : ret = .maxRecircExceed := eq_of_beq he
  exact ⟨s, st, hr, hc, (Reached.failed_insert_noop (by decide) hr _ 8 hc (by decide)).1⟩

/-- With seven hints, threads get indexes of buckets that are still linked.  Thread 2
takes 57 for a chain that already leads through bucket 57, so that the bucket links to
itself and no longer to 50; index 50 is in the pool of thread 1 as well. -/
def sharingOps : List (Fin 8 × FtlOp Nat Nat) :=
  ((List.range' 1 8 ++ List.range' 100 8 ++ [9, 108]).map fun k => (0, .insert k k)) ++
    [(0, .remove 8), (3, .insert (101 + 2 ^ 31) 0), (0, .remove 107),
      (3, .insert (102 + 2 ^ 31) 0), (0, .remove 9), (0, .remove 108),
      (1, .insert (103 + 2 ^ 31) 0), (1, .remove (103 + 2 ^ 31)), (0, .insert 108 108),
      (0, .remove 100), (2, .insert 10 10), (2, .insert 11 11)]

/-- An insert by thread 1 takes index 50, finds its bucket in use and no further
index, and fails: index 50 is lost. -/
theorem Reached.failed_insert_loses_hint :
    ∃ (s : FtlSystem Nat Nat) (st : FtlSt Nat Nat),
      Reached (smallProps 7 (by decide)) smallHash s ∧
      s.table.call (smallProps 7 (by decide)) smallHash 1 (.insert (104 + 2 ^ 31) 0)
        = some (.noResource, st) ∧
      ¬ Orphan (smallProps 7 (by decide)) s.table 50 ∧
      Orphan (smallProps 7 (by decide)) st.table 50 := by
  obtain ⟨s, hr, hs⟩ :=
    exists_reached_of_runFresh (smallProps 7 (by decide)) smallHash sharingOps
      (fun s => (s.table.call (smallProps 7 (by decide)) smallHash 1
        (.insert (104 + 2 ^ 31) 0)).any fun (r : SdkRet × FtlSt Nat Nat) =>
        decide (r.1 = .noResource ∧ s.table.hints.InPool 1 0 50 ∧
          Orphan (smallProps 7 (by decide)) r.2.table 50))
      (by decide) (by decide +kernel)
  obtain ⟨⟨ret, st⟩, hc, hcheck⟩ := (Option.any_eq_true _ _).mp hs
  obtain ⟨rfl, hpool, horphan⟩ := of_decide_eq_true hcheck
  refine ⟨s, st, hr, hc, fun h => ?_, horphan⟩
  have hpos := hpool.1
  exact h.2.2 1 0 (by omega) hpool

end Run

end FtlSystem

end NicSw
