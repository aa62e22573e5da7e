/-
What the bucket functions of the flow table do.

Each function has one lemma here that says what it returns and what it does to
the state; its callers use that lemma and not its definition.

The entries have at most six hints, so that `HINT_SLOT_MORE` (7) is no hint
slot.
-/
import NicSw.Ftl.Effect

namespace NicSw

open FtlTable (bump)

open FtlEntry

open Function (update update_eq_self)

variable {K D : Type*} {P : FtlProps}

/-! ### Entries -/

namespace FtlEntry

variable {e : FtlEntry K D} {s hint hash : Nat}

theorem getHintHash_hintSlotMore (hN : P.numHints ≤ 6) :
    e.getHintHash P hintSlotMore = e.link (P.numHints + 1) :=
  if_neg (by unfold hintSlotMore; omega)

theorem getHintHash_of_le (hs : s ≤ P.numHints + 1) : e.getHintHash P s = e.link s := by
  unfold getHintHash moreHintSlot
  split
  · rfl
  · rw [show s = P.numHints + 1 by omega]

@[simp] theorem setHintHash_key : (e.setHintHash P s hint hash).key = e.key := by
  unfold setHintHash
  split <;> rfl

@[simp] theorem setHintHash_data : (e.setHintHash P s hint hash).data = e.data := by
  unfold setHintHash
  split <;> rfl

theorem setHintHash_link (hs : s ≤ P.numHints + 1) :
    (e.setHintHash P s hint hash).link = update e.link s
      ⟨hint, if s = P.numHints + 1 then P.moreHashes hash else hash⟩ := by
  unfold setHintHash moreHintSlot
  split
  · rw [if_neg (by omega)]
  · rw [if_pos (by omega), show s = P.numHints + 1 by omega]

end FtlEntry

/-! ### State changes -/

namespace FtlSt

variable {st : FtlSt K D} {b : BucketLoc} {e : FtlEntry K D} {v : Bool}

@[simp] theorem setHw_valid : (st.setHw b e).table.forest.valid = st.table.forest.valid := by
  funext c
  refine (Function.apply_update (fun _ x => x.valid) st.table.bucket b _ c).trans ?_
  exact congrFun (update_eq_self b _) c

@[simp] theorem setHw_link :
    (st.setHw b e).table.forest.link = update st.table.forest.link b e.link := by
  funext c
  exact Function.apply_update (fun _ x => x.hw.link) st.table.bucket b _ c

@[simp] theorem setHw_item :
    (st.setHw b e).table.item = update st.table.item b (e.key, e.data) := by
  funext c
  exact Function.apply_update (fun _ x => (x.hw.key, x.hw.data)) st.table.bucket b _ c

@[simp] theorem setValid_valid :
    (st.setValid b v).table.forest.valid = update st.table.forest.valid b v := by
  funext c
  exact Function.apply_update (fun _ x => x.valid) st.table.bucket b _ c

theorem setValid_hw {c : BucketLoc} :
    ((st.setValid b v).table.bucket c).hw = (st.table.bucket c).hw := by
  refine (Function.apply_update (fun _ x => x.hw) st.table.bucket b _ c).trans ?_
  exact congrFun (update_eq_self b _) c

@[simp] theorem setValid_link : (st.setValid b v).table.forest.link = st.table.forest.link := by
  funext c
  exact congrArg link setValid_hw

@[simp] theorem setValid_item : (st.setValid b v).table.item = st.table.item := by
  funext c
  exact congrArg (fun e : FtlEntry K D => (e.key, e.data)) setValid_hw

end FtlSt

/-! ### Reading and writing buckets -/

namespace FtlBucket

variable {st : FtlSt K D} {ctx : Apictx K D}

/-- The context may touch its bucket: it is a main context or its hint index is
not `0`. -/
def InRange (ctx : Apictx K D) : Prop := ctx.level = 0 ∨ ctx.loc.index ≠ 0

theorem InRange.guard (h : InRange ctx) : (!ctx.isMain && ctx.loc.index == 0) = false := by
  unfold Apictx.isMain
  rcases h with h | h
  · simp [h]
  · simp [h]

theorem read_of_valid (hr : InRange ctx) (hv : st.table.forest.valid ctx.loc = true) :
    read st ctx false = some { ctx with entry := (st.table.bucket ctx.loc).hw } := by
  have hb : (st.table.bucket ctx.loc).valid = true := hv
  unfold read
  simp only [hr.guard, hb, Bool.true_or, if_true, Bool.false_eq_true, if_false]
  cases (st.table.bucket ctx.loc).hw.entryValid <;> simp

theorem read_of_not_valid (hr : InRange ctx) (hv : st.table.forest.valid ctx.loc = false)
    (he : ctx.entry.entryValid = false) : read st ctx false = some ctx := by
  have hb : (st.table.bucket ctx.loc).valid = false := hv
  unfold read
  simp [hr.guard, hb, he]

/-- A read with `force_hwread` takes the entry as it is in memory. -/
theorem read_force (hr : InRange ctx) :
    read st ctx true = some { ctx with entry := (st.table.bucket ctx.loc).hw } := by
  unfold read
  simp [hr.guard]

/-- There is no hint bucket `0`. -/
theorem read_eq_none (hl : ctx.level ≠ 0) (hi : ctx.loc.index = 0) : read st ctx false = none := by
  unfold read Apictx.isMain
  simp [hl, hi]

theorem write_of_not_pending (hw : ctx.writePending = false) : write P st ctx = some (ctx, st) := by
  unfold write
  simp [hw]

/-- The hash that a link of a slot is written with. -/
def linkHash (P : FtlProps) (s h : Nat) : Nat := if s = P.numHints + 1 then P.moreHashes 1 else h

/-- A write stores the entry of the context and, if it has a hint, the link to it. -/
theorem write_of_pending (P : FtlProps) (st : FtlSt K D) (hw : ctx.writePending = true)
    (hr : InRange ctx) (hs : ctx.hint ≠ 0 → ctx.hintSlot ≤ P.numHints + 1) :
    ∃ e, write P st ctx =
        some ({ ctx with entry := e, writePending := false }, st.setHw ctx.loc e) ∧
      (e.key, e.data) = (ctx.entry.key, ctx.entry.data) ∧
      e.link = if ctx.hint = 0 then ctx.entry.link else
        Function.update ctx.entry.link ctx.hintSlot
          ⟨ctx.hint, linkHash P ctx.hintSlot ctx.hashMsbits⟩ := by
  unfold write
  simp only [hw, hr.guard, Bool.not_true, Bool.false_eq_true, if_false]
  refine ⟨_, rfl, ?_, ?_⟩
  · split
    · rfl
    · split <;> simp
  · split
    · rfl
    rename_i hh
    unfold linkHash
    split
    · rename_i hm
      have hm' : ctx.hintSlot = P.numHints + 1 := hm
      rw [setHintHash_link (hs hh), if_pos hm', if_pos hm']
    · rename_i hm
      have hm' : ctx.hintSlot ≠ P.numHints + 1 := hm
      rw [setHintHash_link (hs hh), if_neg hm', if_neg hm']

end FtlBucket

/-- **What has been written** since `st`: the valid bits, the links and the items
as they are left, and the callbacks that were made. -/
structure Wrote (st st' : FtlSt K D) (valid : BucketLoc → Bool) (link : BucketLoc → Nat → HintLink)
    (item : BucketLoc → K × D) (log : List (MoveCb K D)) : Prop where
  valid : st'.table.forest.valid = valid
  link : st'.table.forest.link = link
  item : st'.table.item = item
  hints : st'.table.hints = st.table.hints
  tstats : st'.table.tstats = st.table.tstats
  params : st'.params = st.params
  moves : st'.moves = st.moves ++ log

namespace Wrote

variable {st0 st : FtlSt K D} {valid : BucketLoc → Bool} {link : BucketLoc → Nat → HintLink}
  {item : BucketLoc → K × D} {log : List (MoveCb K D)} {ctx : Apictx K D}

theorem refl (st : FtlSt K D) :
    Wrote st st st.table.forest.valid st.table.forest.link st.table.item [] :=
  ⟨rfl, rfl, rfl, rfl, rfl, rfl, (List.append_nil _).symm⟩

/-- Without callbacks, only the table has changed. -/
theorem eq (h : Wrote st0 st valid link item []) : st = ⟨st.table, st0.params, st0.moves⟩ := by
  rw [← h.params, ← List.append_nil st0.moves, ← h.moves]

theorem setValid (h : Wrote st0 st valid link item log) (b : BucketLoc) (v : Bool) :
    Wrote st0 (st.setValid b v) (update valid b v) link item log := { h with
  valid := by rw [FtlSt.setValid_valid, h.valid]
  link := FtlSt.setValid_link.trans h.link
  item := FtlSt.setValid_item.trans h.item }

/-- A context is written. -/
theorem write (h : Wrote st0 st valid link item log) (P : FtlProps) (hp : ctx.writePending = true)
    (hr : FtlBucket.InRange ctx) (hs : ctx.hint ≠ 0 → ctx.hintSlot ≤ P.numHints + 1) :
    ∃ e st', FtlBucket.write P st ctx = some ({ ctx with entry := e, writePending := false }, st') ∧
      Wrote st0 st' valid (Function.update link ctx.loc e.link)
        (update item ctx.loc (ctx.entry.key, ctx.entry.data)) log ∧
      e.link = if ctx.hint = 0 then ctx.entry.link else update ctx.entry.link ctx.hintSlot
        ⟨ctx.hint, FtlBucket.linkHash P ctx.hintSlot ctx.hashMsbits⟩ := by
  obtain ⟨e, hw, hkd, hl⟩ := FtlBucket.write_of_pending P st hp hr hs
  refine ⟨e, _, hw, ⟨FtlSt.setHw_valid.trans h.valid, ?_, ?_, h.hints, h.tstats, h.params, h.moves⟩,
    hl⟩
  · rw [FtlSt.setHw_link, h.link]
  · rw [FtlSt.setHw_item, h.item, hkd]

/-- The bucket of a context without a hint is filled. -/
theorem create (P : FtlProps) (st : FtlSt K D) (hr : FtlBucket.InRange ctx) (hz : ctx.hint = 0) :
    ∃ c st', FtlBucket.write P (FtlBucket.create st ctx).2 (FtlBucket.create st ctx).1 = some (c, st') ∧
      Wrote { st with params.handle := FtlBucket.handleOf ctx st.params.handle } st'
        (update st.table.forest.valid ctx.loc true)
        (update st.table.forest.link ctx.loc ctx.entry.link)
        (update st.table.item ctx.loc (st.params.key, st.params.data)) [] := by
  have hr' : FtlBucket.InRange (FtlBucket.create st ctx).1 := hr
  have hz' : (FtlBucket.create st ctx).1.hint = 0 := hz
  obtain ⟨e, st', hw, hw', hl⟩ := ((refl { st with
    params.handle := FtlBucket.handleOf ctx st.params.handle }).setValid ctx.loc true).write P
    rfl hr' fun h => absurd hz' h
  rw [hl, if_pos hz'] at hw'
  exact ⟨_, st', hw, hw'⟩

end Wrote

namespace FtlBucket

variable {st : FtlSt K D} {ctx : Apictx K D}

/-! ### Finding a key or a hint in a bucket -/

section Find

variable {k : K} {s : Nat}

theorem findFirstFreeHint_eq (hN : P.numHints ≤ 6) (hslot : ctx.hintSlot = 0)
    (hf : freeSlot P.numHints ctx.entry.link = some s) :
    ∃ m, findFirstFreeHint P ctx = (.ok, { ctx with
      hintSlot := s, hint := (ctx.entry.link s).hint, moreHashs := m }) := by
  unfold freeSlot at hf
  unfold findFirstFreeHint
  cases hfind : (List.range' 1 P.numHints).find? fun i => (ctx.entry.link i).hint = 0 with
  | some i =>
    rw [hfind] at hf
    obtain rfl := Option.some.inj hf
    have hi : i ≠ 0 := by
      have := List.mem_range'_1.mp (List.mem_of_find?_eq_some hfind)
      omega
    rw [if_pos hi]
    exact ⟨_, rfl⟩
  | none =>
    rw [hfind] at hf
    simp only at hf ⊢
    split at hf
    · rename_i hz
      cases hf
      rw [if_neg (by simp [hslot])]
      simp only [getHintHash_hintSlotMore hN]
      rw [if_pos hz]
      exact ⟨_, rfl⟩
    · cases hf

/-- The last hint of a bucket, with the hash of its slot. -/
theorem findLastHint_of_some (hl : lastSlot P.numHints ctx.entry.link = some s) :
    ∃ m h, findLastHint P ctx = (.ok, { ctx with
        hintSlot := s, hint := (ctx.entry.link s).hint, moreHashs := m, hashMsbits := h }) ∧
      (s ≠ P.numHints + 1 → h = (ctx.entry.link s).hash) := by
  obtain ⟨h1, h2, -⟩ := lastSlot_eq_some hl
  have hslot : ctx.entry.findLastHint P = s := by
    rw [FtlEntry.findLastHint, hl]
    rfl
  have hvalid : isHintSlotValid P s = true := by
    have h0 : s ≠ 0 := by omega
    simp [isHintSlotValid, moreHintSlot, h0, h2]
  unfold findLastHint
  simp only [hslot, hvalid, Bool.not_true, Bool.false_eq_true, if_false, getHintHash_of_le h2]
  split
  · rename_i hs
    exact ⟨_, _, rfl, fun hne => absurd hs hne⟩
  · exact ⟨_, _, rfl, fun _ => rfl⟩

theorem findLastHint_of_none (hl : lastSlot P.numHints ctx.entry.link = none) :
    findLastHint P ctx = (.entryNotFound, { ctx with hintSlot := 0 }) := by
  have hslot : ctx.entry.findLastHint P = 0 := by
    rw [FtlEntry.findLastHint, hl]
    rfl
  unfold findLastHint
  simp only [hslot]
  rfl

/-- Where a context leads after a collision: along a link, or to a bucket still
to be linked from a free slot. -/
def Lead (P : FtlProps) (link : Nat → HintLink) (h : Nat) (ctx : Apictx K D) : Prop :=
  (∃ s, route P.numHints link h = some s ∧ (link s).hint ≠ 0 ∧ ctx.hint = (link s).hint) ∨
    (DeadEnd P.numHints link h ∧ ctx.hint = 0 ∧ (link ctx.hintSlot).hint = 0 ∧
      SlotFor P.numHints h ctx.hintSlot (linkHash P ctx.hintSlot h))
variable [DecidableEq K]

theorem find_of_eq (hk : ctx.entry.key = k) :
    find P k ctx = (.ok, { ctx with hit := true, exmatch := true }) :=
  if_pos hk

section

variable (hN : P.numHints ≤ 6) (hk : ctx.entry.key ≠ k)
include hN hk

/-- A hint that matches: the context leads on along the route of the key. -/
theorem find_of_route (hr : route P.numHints ctx.entry.link ctx.hashMsbits = some s) :
    ∃ m, find P k ctx = (.ok, { ctx with
      hintSlot := s, hint := (ctx.entry.link s).hint, hit := true, moreHashs := m }) := by
  unfold find findHint
  rw [if_neg hk]
  rcases route_eq_some.mp hr with hm | ⟨hm, rfl, hz⟩
  · rw [hm]
    exact ⟨ctx.moreHashs, rfl⟩
  · rw [hm]
    simp only [getHintHash_hintSlotMore hN]
    rw [if_pos hz]
    exact ⟨_, rfl⟩

theorem find_of_no_route (hr : route P.numHints ctx.entry.link ctx.hashMsbits = none) :
    find P k ctx = (.entryNotFound, { ctx with
      hint := (ctx.entry.link (P.numHints + 1)).hint, moreHashs := 0 }) := by
  obtain ⟨hm, hz⟩ := route_eq_none.mp hr
  unfold find findHint
  rw [if_neg hk, hm]
  simp only [getHintHash_hintSlotMore hN, hz]
  rw [if_neg (by simp)]

/-- An append to a bucket with another key is a collision, and the context
leads on. -/
theorem append_of_ne (hslot : ctx.hintSlot = 0) (hex : ctx.exmatch = false)
    (hm : MoreOk P.numHints ctx.entry.link) :
    ∃ s j m hit, append P k ctx = (.collision,
        { ctx with hintSlot := s, hint := j, hit := hit, moreHashs := m }) ∧
      Lead P ctx.entry.link ctx.hashMsbits
        { ctx with hintSlot := s, hint := j, hit := hit, moreHashs := m } := by
  unfold append
  cases hr : route P.numHints ctx.entry.link ctx.hashMsbits with
  | some s =>
    obtain ⟨m, hf⟩ := find_of_route hN hk hr
    rw [hf]
    simp only [hex, Bool.false_eq_true, if_false]
    refine ⟨s, _, m, true, rfl, ?_⟩
    by_cases hj : (ctx.entry.link s).hint = 0
    · -- the more slot, with its hash left set
      have hs : s = P.numHints + 1 := by
        rcases route_eq_some.mp hr with hmatch | ⟨-, hs, -⟩
        · exact absurd hj (matchSlot_eq_some.mp hmatch).2.1.2
        · exact hs
      refine .inr ⟨fun s' hs' => ?_, hj, hj, .inr ⟨hs, ?_⟩⟩
      · rw [hr] at hs'
        rwa [← Option.some.inj hs']
      · show linkHash P s _ ≠ 0
        rw [linkHash, if_pos hs]
        exact P.moreHashes_one
    · exact .inl ⟨s, hr, hj, rfl⟩
  | none =>
    rw [find_of_no_route hN hk hr]
    obtain ⟨s, hfree, hzero, hfor⟩ := freeSlot_of_route_none P.moreHashes_one hm hr
    set ctx' : Apictx K D :=
      { ctx with hint := (ctx.entry.link (P.numHints + 1)).hint, moreHashs := 0 }
    have hslot' : ctx'.hintSlot = 0 := hslot
    obtain ⟨m, hff⟩ := findFirstFreeHint_eq hN hslot' hfree
    simp only [hff]
    refine ⟨s, _, m, ctx.hit, rfl, .inr ⟨fun s' hs' => ?_, hzero, hzero, hfor⟩⟩
    rw [hr] at hs'
    cases hs'

end

end Find

end FtlBucket

/-! ### Contexts on a path -/

/-- The handle of a bucket. -/
def BucketLoc.handle : BucketLoc → Handle
  | .main i => Handle.null.setPindex i
  | .hint j => Handle.null.setSindex j

/-- The table does not hold `k`. -/
def FtlTable.Absent (T : FtlTable K D) (k : K) : Prop :=
  ∀ b, T.forest.valid b = true → T.own b ≠ k

/-- A context at place `n` of a path, before anything is written. -/
structure CtxAt (T : FtlTable K D) (b : BucketLoc) (n h : Nat) (ctx : Apictx K D) : Prop where
  loc : ctx.loc = b
  level : ctx.level = n
  entry : ctx.entry = (T.bucket b).hw
  hashMsbits : ctx.hashMsbits = h
  writePending : ctx.writePending = false

theorem CtxAt.inRange {T : FtlTable K D} {b : BucketLoc} {ctx : Apictx K D} {N i h h' n : Nat}
    (hc : CtxAt T b n h ctx) (hp : Forest.OnPath N T.forest i h' b n) :
    FtlBucket.InRange ctx := by
  unfold FtlBucket.InRange
  rw [hc.level, hc.loc]
  rcases hp.eq_hint with ⟨h0, -⟩ | ⟨-, j, hj, rfl⟩
  · exact .inl h0
  · exact .inr hj

namespace FtlMain

variable {st : FtlSt K D} {tid : Fin 8}

/-- The context of the main bucket of a key, read. -/
def mainCtx [Zero K] [Zero D] (P : FtlProps) (T : FtlTable K D) (h : BitVec 32) : Apictx K D :=
  { (initctx P h : Apictx K D) with entry := (T.bucket (.main (P.tableIndex h))).hw }

theorem count_inc_entries :
    count tid (fun s => { s with entries := s.entries + 1 }) st =
      { st with table.tstats := bump st.table.tstats tid 1 0 } := by
  simp [count, bump]

theorem count_inc_both :
    count tid (fun s => { s with entries := s.entries + 1 })
        (count tid (fun s => { s with collisions := s.collisions + 1 }) st) =
      { st with table.tstats := bump st.table.tstats tid 1 1 } := by
  simp [count, bump]

theorem count_dec_entries :
    count tid (fun s => { s with entries := s.entries - 1 }) st =
      { st with table.tstats := bump st.table.tstats tid (-1) 0 } := by
  simp [count, bump, sub_eq_add_neg]

theorem count_dec_both :
    count tid (fun s => { s with entries := s.entries - 1 })
        (count tid (fun s => { s with collisions := s.collisions - 1 }) st) =
      { st with table.tstats := bump st.table.tstats tid (-1) (-1) } := by
  simp [count, bump, sub_eq_add_neg]

end FtlMain

end NicSw
