/-
What a lookup can find (`FindPost`), and from it what `update_` and `get_` can
do.

A lookup follows the path of the key.  It can fail an assert only at a more
slot whose hash is set but which leads nowhere, and then the key is not in the
table.
-/
import NicSw.Ftl.Bucket

namespace NicSw

open FtlBucket FtlMain

variable {K D : Type*} {P : FtlProps}

/-! ### Lookup -/

/-- **All that a lookup can find**; no result is an abort. -/
inductive FindPost (P : FtlProps) (hash : K → BitVec 32) (st : FtlSt K D) :
    Option (SdkRet × Apictx K D) → Prop
  | abort (dead : ¬ st.table.Live P) (absent : st.table.Absent st.params.key) :
      FindPost P hash st none
  | notFound {ctx : Apictx K D} (absent : st.table.Absent st.params.key) :
      FindPost P hash st (some (.entryNotFound, ctx))
  | ok {ctx : Apictx K D} {b : BucketLoc} {n h : Nat} (valid : st.table.forest.valid b = true)
      (own : st.table.own b = st.params.key)
      (path : st.table.forest.OnPath P.numHints (P.idx hash st.params.key)
        (P.msb hash st.params.key) b n)
      (at_ : CtxAt st.table b n h ctx) (hint : ctx.hint = 0) :
      FindPost P hash st (some (.ok, ctx))

section Find

variable [Zero K] {hash : K → BitVec 32} {st : FtlSt K D} {ctx : Apictx K D} {b : BucketLoc}
  {n m s : Nat}

section Searched

variable (hok : FtlTable.Ok P hash st.table)
  (hs : Forest.Searched P.numHints st.table.forest (P.idx hash) (P.msb hash) st.table.own
    st.params.key b m)
  (hr : route P.numHints (st.table.forest.link b) (P.msb hash st.params.key) = some s)
include hok hs hr

/-- A route to no bucket: the table is not live, and the key is not in it. -/
theorem FtlTable.Ok.dead (hz : (st.table.forest.link b s).hint = 0) :
    ¬ st.table.Live P ∧ st.table.Absent st.params.key :=
  ⟨fun hl => (hl b hs.valid).hint_ne_zero hr hz, hs.not_owned hok.forest (deadEnd_of_route hr hz)⟩

/-- A route to a bucket does not use up the contexts. -/
theorem FtlTable.Ok.level_lt (hz : (st.table.forest.link b s).hint ≠ 0) :
    m < ftlMaxApiContexts := by
  have hl := Forest.isLink_of_route hs.valid hr rfl hz
  obtain ⟨i, h, hp⟩ := hok.forest.path_link hs.path hl
  have hdepth := hok.forest.depth_le (hok.forest.linkValid hl) hp
  exact hdepth.trans (min_le_left _ _)

end Searched

variable [DecidableEq K] [Zero D]

/-- **`hint_table::find_` along the path of the key**, by induction on the
contexts left. -/
theorem FtlHint.find_post (hN : P.numHints ≤ 6) (hok : FtlTable.Ok P hash st.table)
    (hs : Forest.Searched P.numHints st.table.forest (P.idx hash) (P.msb hash) st.table.own
      st.params.key b m)
    (hlevel : ctx.level = m) (hmsb : ctx.hashMsbits = P.msb hash st.params.key)
    (hr : route P.numHints (st.table.forest.link b) (P.msb hash st.params.key) = some s)
    (hhint : ctx.hint = (st.table.forest.link b s).hint) (hfuel : n + m = ftlMaxApiContexts) :
    FindPost P hash st (FtlHint.find P st n ctx) := by
  induction n generalizing b m ctx s with
  | zero =>
    by_cases hz : ctx.hint = 0
    · obtain ⟨hdead, habsent⟩ := hok.dead hs hr (hhint ▸ hz)
      exact .abort hdead habsent
    · have hlt := hok.level_lt hs hr (hhint ▸ hz)
      omega
  | succ n ih =>
    by_cases hz : ctx.hint = 0
    · -- the assert of `read_` that hint buckets have an index
      have hread : read st (FtlHint.ctxnew ctx) false = none := read_eq_none (Nat.succ_ne_zero _) hz
      rw [FtlHint.find, hread]
      obtain ⟨hdead, habsent⟩ := hok.dead hs hr (hhint ▸ hz)
      exact .abort hdead habsent
    · have hl := Forest.isLink_of_route hs.valid hr hhint.symm hz
      have hv := hok.forest.linkValid hl
      set hctx : Apictx K D := { FtlHint.ctxnew ctx with
        entry := (st.table.bucket (.hint ctx.hint)).hw }
      have hread : read st (FtlHint.ctxnew ctx) false = some hctx := read_of_valid (.inr hz) hv
      have hmsb' : hctx.hashMsbits = P.msb hash st.params.key := hmsb
      have hlevel' : hctx.level = m + 1 := congrArg (· + 1) hlevel
      rw [FtlHint.find]
      simp only [hread, Option.bind_eq_bind, Option.bind_some]
      by_cases hk : st.table.own (.hint ctx.hint) = st.params.key
      · rw [find_of_eq hk]
        exact .ok hv hk (hs.path.step hs.valid hr hhint.symm hz) ⟨rfl, hlevel', rfl, rfl, rfl⟩ rfl
      have hk' : hctx.entry.key ≠ st.params.key := hk
      have hs' := hs.step hr hhint.symm hz hv hk
      cases hr' : route P.numHints hctx.entry.link hctx.hashMsbits with
      | none =>
        rw [find_of_no_route hN hk' hr']
        rw [hmsb'] at hr'
        exact .notFound (hs'.not_owned hok.forest (deadEnd_of_no_route hr'))
      | some s' =>
        obtain ⟨m', hf⟩ := find_of_route hN hk' hr'
        rw [hf]
        rw [hmsb'] at hr'
        exact ih hs' hlevel' hmsb' hr' rfl (by omega)

/-- **What a lookup can find.** -/
theorem FtlMain.find_post (hN : P.numHints ≤ 6) (hok : FtlTable.Ok P hash st.table)
    (hk0 : st.params.key ≠ 0) (hhash : st.params.hash32b = hash st.params.key) :
    FindPost P hash st (find P st) := by
  unfold find
  cases hv : st.table.forest.valid (.main (P.idx hash st.params.key)) with
  | false =>
    have hread : read st (initctx P (hash st.params.key)) false
        = some (initctx P (hash st.params.key)) :=
      read_of_not_valid (.inl rfl) hv rfl
    -- the cleared entry has no hints and the key 0
    have hne : (initctx P (hash st.params.key) : Apictx K D).entry.key ≠ st.params.key := hk0.symm
    have hr : route P.numHints (initctx P (hash st.params.key) : Apictx K D).entry.link
        (P.hashMsbits (hash st.params.key)) = none := by
      refine route_eq_none.mpr ⟨matchSlot_eq_none.mpr fun i _ _ hi => ?_, rfl⟩
      exact hi.2 rfl
    simp only [hhash, hread, Option.bind_eq_bind, Option.bind_some]
    rw [find_of_no_route hN hne hr]
    exact .notFound (hok.forest.not_owned_of_root hv)
  | true =>
    set ctx := mainCtx P st.table (hash st.params.key)
    have hread : read st (initctx P (hash st.params.key)) false = some ctx :=
      read_of_valid (.inl rfl) hv
    simp only [hhash, hread, Option.bind_eq_bind, Option.bind_some]
    by_cases hk : st.table.own (.main (P.idx hash st.params.key)) = st.params.key
    · rw [find_of_eq hk]
      exact .ok hv hk .root ⟨rfl, rfl, rfl, rfl, rfl⟩ rfl
    have hk' : ctx.entry.key ≠ st.params.key := hk
    have hs : Forest.Searched P.numHints st.table.forest (P.idx hash) (P.msb hash)
        st.table.own st.params.key _ 0 := Forest.Searched.root hv hk
    cases hr : route P.numHints ctx.entry.link ctx.hashMsbits with
    | none =>
      rw [find_of_no_route hN hk' hr]
      exact .notFound (hs.not_owned hok.forest (deadEnd_of_no_route hr))
    | some s =>
      obtain ⟨m, hf⟩ := find_of_route hN hk' hr
      rw [hf]
      exact FtlHint.find_post hN hok hs rfl rfl hr rfl (Nat.add_zero _)

/-! ### Update and get -/

/-- **All that an update can do**; no result is an abort. -/
inductive UpdatePost (P : FtlProps) (st : FtlSt K D) : Option (SdkRet × FtlSt K D) → Prop
  | abort (dead : ¬ st.table.Live P) (absent : st.table.Absent st.params.key) :
      UpdatePost P st none
  | notFound (absent : st.table.Absent st.params.key) :
      UpdatePost P st (some (.entryNotFound, st))
  | ok {b : BucketLoc} {T' : FtlTable K D} (own : st.table.own b = st.params.key)
      (updated : FtlTable.Updated st.table b st.params.data T') :
      UpdatePost P st (some (.ok, ⟨T', { st.params with handle := b.handle }, st.moves⟩))

/-- **All that a get can do**; no result is an abort. -/
inductive GetPost (P : FtlProps) (st : FtlSt K D) : Option (SdkRet × FtlSt K D) → Prop
  | abort (dead : ¬ st.table.Live P) (absent : st.table.Absent st.params.key) : GetPost P st none
  | notFound (absent : st.table.Absent st.params.key) :
      GetPost P st (some (.entryNotFound, st))
  | ok {b : BucketLoc} (valid : st.table.forest.valid b = true)
      (own : st.table.own b = st.params.key) :
      GetPost P st (some (.ok, { st with params := { st.params with
        handle := b.handle, key := (st.table.item b).1, data := (st.table.item b).2 } }))

omit [DecidableEq K] [Zero K] [Zero D] in
/-- The handle of the bucket of a context on a path. -/
theorem FtlBucket.handleOf_null {i : Nat} (hp : st.table.forest.OnPath P.numHints i m b n)
    (hl : ctx.level = n) (hloc : ctx.loc = b) :
    handleOf ctx Handle.null = b.handle := by
  unfold handleOf Apictx.isMain
  rcases hp.eq_hint with ⟨h0, rfl⟩ | ⟨h0, j, -, rfl⟩
  · rw [if_pos (by simpa using hl.trans h0), hloc]
    rfl
  · rw [if_neg (by simpa using hl ▸ h0), hloc]
    rfl

omit [DecidableEq K] [Zero K] [Zero D] in
/-- `Bucket::update_` rewrites the data of the bucket and nothing else. -/
theorem FtlBucket.update_spec {i h : Nat} (hv : st.table.forest.valid b = true)
    (hp : st.table.forest.OnPath P.numHints i m b n) (hc : CtxAt st.table b n h ctx)
    (hz : ctx.hint = 0) (hnull : st.params.handle = Handle.null) :
    ∃ T', update P st ctx
        = some ⟨T', { st.params with handle := b.handle }, st.moves⟩ ∧
      FtlTable.Updated st.table b st.params.data T' := by
  have hr := hc.inRange hp
  have hhandle := handleOf_null hp hc.level hc.loc
  obtain ⟨rfl, -, hent, -, -⟩ := hc
  have hb : (st.table.bucket ctx.loc).valid = true := hv
  set st1 : FtlSt K D := { st with params.handle := ctx.loc.handle } with hst1
  set ctx' : Apictx K D := { ctx with
    entry := { ctx.entry with data := st.params.data }, writePending := true } with hctx'
  have hw : ctx'.writePending = true := rfl
  have hr' : InRange ctx' := hr
  have hz' : ctx'.hint = 0 := hz
  obtain ⟨e, hwr, hkd, hl⟩ := write_of_pending P st1 hw hr' fun hne => absurd hz' hne
  refine ⟨(st1.setHw ctx.loc e).table, ?_, ⟨hv, ?_, ?_, rfl, rfl⟩⟩
  · unfold update
    simp only [hb, Bool.not_true, Bool.false_eq_true, if_false, hnull, hhandle]
    rw [← hst1, ← hctx', hwr]
    rfl
  · ext1
    · rw [FtlSt.setHw_valid]
    · rw [FtlSt.setHw_link, hl, if_pos hz']
      show Function.update st.table.forest.link ctx.loc ctx.entry.link = _
      rw [hent]
      exact Function.update_eq_self _ _
  · rw [FtlSt.setHw_item, hkd]
    show Function.update st.table.item ctx.loc (ctx.entry.key, st.params.data) = _
    rw [hent]
    rfl

section

variable (hN : P.numHints ≤ 6) (hok : FtlTable.Ok P hash st.table) (hk0 : st.params.key ≠ 0)
  (hhash : st.params.hash32b = hash st.params.key) (hnull : st.params.handle = Handle.null)
include hN hok hk0 hhash hnull

/-- **What an update can do.** -/
theorem FtlMain.update_post : UpdatePost P st (update P st) := by
  unfold update
  have hfind := find_post hN hok hk0 hhash
  generalize find P st = r at hfind
  cases hfind with
  | abort dead absent => exact .abort dead absent
  | notFound absent => exact .notFound absent
  | ok valid own path at_ hint =>
    obtain ⟨T', heq, hupd⟩ := update_spec valid path at_ hint hnull
    simp only [Option.bind_eq_bind, Option.bind_some, ne_eq, not_true_eq_false, if_false, heq,
      Option.map_some]
    exact .ok own hupd

/-- **What a get can do.** -/
theorem FtlMain.get_post : GetPost P st (get P st) := by
  unfold get
  have hfind := find_post hN hok hk0 hhash
  generalize find P st = r at hfind
  cases hfind with
  | abort dead absent => exact .abort dead absent
  | notFound absent => exact .notFound absent
  | ok valid own path at_ hint =>
    simp only [Option.bind_eq_bind, Option.bind_some, ne_eq, not_true_eq_false, if_false, hnull,
      handleOf_null path at_.level at_.loc, at_.entry]
    exact .ok valid own

end

end Find

end NicSw
