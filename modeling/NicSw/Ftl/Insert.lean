/-
What an insert into a flow table can do (`InsertPost`).

The recursion over hint levels follows the path of the key: `Forest.Searched`
says how far it has come.  It finds the key, or it comes to the end of the path,
where it allocates a hint, fills the hint's bucket and links it.
-/
import NicSw.Ftl.Bucket

namespace NicSw

open Function FtlBucket Option

variable {K D : Type*} {P : FtlProps}

/-- **All that an insert of `k` can do**, as its result and the state after it;
no result is an abort. -/
inductive InsertPost (P : FtlProps) (hash : K → BitVec 32) (tid : Fin 8) (st : FtlSt K D) :
    Option (SdkRet × FtlSt K D) → Prop
  | abort (recircs : 10 ≤ P.maxRecircs) (absent : st.table.Absent st.params.key) :
      InsertPost P hash tid st none
  | entryExists {b : BucketLoc} (valid : st.table.forest.valid b = true)
      (own : st.table.own b = st.params.key) : InsertPost P hash tid st (some (.entryExists, st))
  | maxRecircExceed (absent : st.table.Absent st.params.key) :
      InsertPost P hash tid st (some (.maxRecircExceed, st))
  | noResource {hints : HintAlloc} (absent : st.table.Absent st.params.key)
      (hok : hints.Ok P.stableSize fun j => st.table.forest.valid (.hint j) = true) :
      InsertPost P hash tid st (some (.noResource, { st with table.hints := hints }))
  | ok {b : BucketLoc} {T' : FtlTable K D} (absent : st.table.Absent st.params.key)
      (inserted : FtlTable.Inserted P hash st.table tid st.params.key st.params.data b T') :
      InsertPost P hash tid st (some (.ok, ⟨T', { st.params with handle := b.handle }, st.moves⟩))

namespace FtlHint

/-- The end of `main_table::insert_` after a collision: the write of the context
that the hint table returned, and the counters. -/
def finish (P : FtlProps) (tid : Fin 8) (r : Option (SdkRet × Apictx K D × FtlSt K D)) :
    Option (SdkRet × FtlSt K D) := do
  let (ret, ctx, st) ← r
  if ret = .ok then do
    let (_, st) ← write P st ctx
    some (.ok, { st with table.tstats := FtlTable.bump st.table.tstats tid 1 1 })
  else some (ret, st)

section Insert

variable [DecidableEq K] [Zero K] [Zero D] {hash : K → BitVec 32} {tid : Fin 8} {st : FtlSt K D}
  {ctx : Apictx K D} {b : BucketLoc} {n m : Nat}

/-- `insert_` into a bucket in use goes on from that bucket; the parent context
has nothing to write. -/
theorem finish_insert_of_valid {hctx : Apictx K D} (hmax : ¬ P.maxRecircs ≤ ctx.level + 1)
    (hj : ctx.hint ≠ 0) (hw : ctx.writePending = false)
    (hread : read st (ctxnew ctx) false = some hctx)
    (hv : (st.table.bucket hctx.loc).valid = true) :
    finish P tid (insert P tid (n + 1) ctx st) =
      if (append P st.params.key hctx).1 = .collision then
        finish P tid (insert P tid n (append P st.params.key hctx).2 st)
      else finish P tid (some ((append P st.params.key hctx).1,
        (FtlBucket.append P st.params.key hctx).2, st)) := by
  have hins : FtlBucket.insert P st hctx = ((FtlBucket.append P st.params.key hctx).1,
      (append P st.params.key hctx).2, st) := if_pos hv
  -- whatever the hint context comes to, writing the parent context adds nothing
  have hrest : ∀ r : Option (SdkRet × Apictx K D × FtlSt K D),
      finish P tid (r.bind fun x => if x.1 = .ok then
          (write P x.2.2 x.2.1).bind fun y => some (SdkRet.ok, ctx, y.2)
        else some (x.1, ctx, x.2.2)) = finish P tid r := by
    rintro (_ | ⟨ret, c, s⟩)
    · rfl
    · by_cases hret : ret = .ok
      · subst hret
        simp only [finish, bind_eq_bind, bind_some, if_true]
        cases write P s c with
        | none => rfl
        | some y =>
          simp [write_of_not_pending hw]
      · simp [finish, if_neg hret]
  rw [insert, if_neg hmax, if_neg hj]
  simp only [hread, hins, bind_eq_bind, bind_some]
  split
  · exact hrest _
  · exact hrest (some ((FtlBucket.append P st.params.key hctx).1,
      (FtlBucket.append P st.params.key hctx).2, st))

/-- `insert_` at the end of a path: the hint that was allocated has a bucket
that is not in use, which takes the item; its parent gets the link. -/
theorem finish_insert_of_alloc {j : Nat} {hints : HintAlloc} (hc : CtxAt st.table b m n ctx)
    (hr : FtlBucket.InRange ctx) (hmax : ¬ P.maxRecircs ≤ ctx.level + 1) (hzero : ctx.hint = 0)
    (hslot : ctx.hintSlot ≤ P.numHints + 1) (hnull : st.params.handle = Handle.null)
    (halloc : st.table.hints.alloc tid = (some j, hints)) (hj : j ≠ 0)
    (hv : st.table.forest.valid (.hint j) = false) (hb : b ≠ .hint j) {x : Nat} :
    ∃ T' : FtlTable K D,
      finish P tid (insert P tid (x + 1) ctx st) = some (.ok,
        ⟨T', { st.params with handle := (BucketLoc.hint j).handle }, st.moves⟩) ∧
      T'.forest = st.table.forest.attach b ctx.hintSlot (linkHash P ctx.hintSlot n) j ∧
      (∀ c, T'.item c = update st.table.item (.hint j) (st.params.key, st.params.data) c) ∧
      T'.hints = hints ∧ T'.tstats = FtlTable.bump st.table.tstats tid 1 1 := by
  set st1 : FtlSt K D := { st with table.hints := hints }
  set ctx1 : Apictx K D := { ctx with hint := j, writePending := true }
  have halloc' : alloc tid ctx st = (.ok, ctx1, st1) := by
    unfold alloc
    rw [halloc]
  have hrange : FtlBucket.InRange (ctxnew ctx1) := .inr hj
  have hread : FtlBucket.read st1 (ctxnew ctx1) false = some (ctxnew ctx1) :=
    FtlBucket.read_of_not_valid hrange hv rfl
  have hins : FtlBucket.insert P st1 (ctxnew ctx1) = (.ok, FtlBucket.create st1 (ctxnew ctx1)) :=
    if_neg (by
      show ¬ (st.table.bucket (.hint j)).valid = true
      rw [show (st.table.bucket (.hint j)).valid = false from hv]
      simp)
  obtain ⟨c, st2, hw1, h1⟩ := Wrote.create P st1 hrange rfl
  have hr1 : FtlBucket.InRange ctx1 := hr
  have hnz : ctx1.hint ≠ 0 := hj
  obtain ⟨e, st3, hw2, h2, hl⟩ := h1.write P rfl hr1 fun _ => hslot
  have hloc : ctx1.loc = b := hc.loc
  refine ⟨{ st3.table with tstats := FtlTable.bump st3.table.tstats tid 1 1 }, ?_, ?_, ?_, h2.hints, ?_⟩
  · rw [insert, if_neg hmax, if_pos hzero, halloc']
    simp only [hread, hins, bind_eq_bind, bind_some]
    rw [if_neg (by simp)]
    simp only [if_true, finish, bind_eq_bind, hw1, hw2, bind_some]
    rw [h2.eq]
    rw [hnull]
    rfl
  · show st3.table.forest = _
    have hentry : ctx1.entry.link = st.table.forest.link b := by
      rw [hc.entry]
      rfl
    ext1
    · exact h2.valid
    · have hmsb : ctx1.hashMsbits = n := hc.hashMsbits
      rw [h2.link, hl, if_neg hnz, hloc, hentry, hmsb]
      rfl
  · intro c
    show st3.table.item c = _
    have hentry : (ctx1.entry.key, ctx1.entry.data) = st.table.item b := by
      rw [hc.entry]
      rfl
    rw [h2.item, hentry, hloc]
    show update (update st.table.item (.hint j) _) b (st.table.item b) c = _
    rw [← update_of_ne hb (st.params.key, st.params.data) st.table.item, update_eq_self]
  · show FtlTable.bump st3.table.tstats tid 1 1 = _
    rw [h2.tstats]

/-- `hint_table::insert_` at the end of the path of the key. -/
theorem insert_post_of_deadEnd (hok : FtlTable.Ok P hash st.table)
    (hnull : st.params.handle = Handle.null)
    (hs : Forest.Searched P.numHints st.table.forest (P.idx hash) (P.msb hash) st.table.own
      st.params.key b m)
    (hc : CtxAt st.table b m (P.msb hash st.params.key) ctx)
    (hd : DeadEnd P.numHints (st.table.forest.link b) (P.msb hash st.params.key))
    (hzero : ctx.hint = 0) (hfree : (st.table.forest.link b ctx.hintSlot).hint = 0)
    (hslot : SlotFor P.numHints (P.msb hash st.params.key) ctx.hintSlot
      (linkHash P ctx.hintSlot (P.msb hash st.params.key)))
    (hfuel : n + m = ftlMaxApiContexts) :
    InsertPost P hash tid st (finish P tid (insert P tid n ctx st)) := by
  have habs : st.table.Absent st.params.key := hs.not_owned hok.forest hd
  by_cases hmax : P.maxRecircs ≤ ctx.level + 1
  · rw [insert, if_pos hmax]
    exact .maxRecircExceed habs
  have halloc := hok.hints.alloc tid
  rcases hr : st.table.hints.alloc tid with ⟨_ | j, hints⟩
  · rw [hr] at halloc
    rw [insert, if_neg hmax, if_pos hzero, alloc, hr]
    exact .noResource habs halloc
  rw [hr] at halloc
  obtain ⟨hnot, hints'⟩ := halloc
  have hv : st.table.forest.valid (.hint j) = false := by simpa using hnot
  have hj : j ≠ 0 := hints'.outNe (.inr rfl)
  have hb : b ≠ .hint j := by
    rintro rfl
    exact absurd (hs.valid.symm.trans hv) (by simp)
  have hlevel := hc.level
  cases n with
  | zero =>
    -- no context left: the assert of `ctxnew_`
    rw [insert, if_neg hmax, if_pos hzero, alloc, hr]
    refine .abort ?_ habs
    unfold ftlMaxApiContexts at hfuel
    omega
  | succ n =>
    have hle : ctx.hintSlot ≤ P.numHints + 1 := by
      rcases hslot with ⟨-, h, -⟩ | ⟨h, -⟩ <;> omega
    obtain ⟨T', hfin, hforest, hitem, hhints, hstats⟩ :=
      finish_insert_of_alloc hc (hc.inRange hs.path) hmax hzero hle hnull hr hj hv hb
    rw [hfin]
    refine .ok habs (.hint ⟨hs.valid, hd, hslot, hfree, hv, hj⟩ hs.path ?_
      (fun h => if_pos h) hforest hitem (hhints ▸ hints') hstats)
    refine le_min ?_ ?_ <;> omega

/-- **`hint_table::insert_` from a bucket on the path of the key**, by induction
on the contexts left; each round goes one bucket down the path. -/
theorem insert_post (hN : P.numHints ≤ 6) (hok : FtlTable.Ok P hash st.table)
    (hnull : st.params.handle = Handle.null)
    (hs : Forest.Searched P.numHints st.table.forest (P.idx hash) (P.msb hash) st.table.own
      st.params.key b m)
    (hc : CtxAt st.table b m (P.msb hash st.params.key) ctx)
    (hlead : FtlBucket.Lead P (st.table.forest.link b) (P.msb hash st.params.key) ctx)
    (hfuel : n + m = ftlMaxApiContexts) :
    InsertPost P hash tid st (finish P tid (insert P tid n ctx st)) := by
  have hB : P.maxDepth ≤ ftlMaxApiContexts ∧ P.maxDepth ≤ P.maxRecircs - 1 :=
    ⟨min_le_left _ _, min_le_right _ _⟩
  induction n generalizing b m ctx with
  | zero =>
    rcases hlead with ⟨s, hr, hne, -⟩ | ⟨hd, hzero, hfree, hslot⟩
    · -- the next bucket would be deeper than a bucket in use can be
      have hl := Forest.isLink_of_route hs.valid hr rfl hne
      obtain ⟨i, h, hp⟩ := hok.forest.path_link hs.path hl
      have := hok.forest.depth_le (hok.forest.linkValid hl) hp
      omega
    · exact insert_post_of_deadEnd hok hnull hs hc hd hzero hfree hslot hfuel
  | succ n ih =>
    rcases hlead with ⟨s, hr, hne, hhint⟩ | ⟨hd, hzero, hfree, hslot⟩
    · have hl := Forest.isLink_of_route hs.valid hr rfl hne
      have hv := hok.forest.linkValid hl
      obtain ⟨i, h, hp⟩ := hok.forest.path_link hs.path hl
      have hdepth := hok.forest.depth_le hv hp
      have hlevel := hc.level
      rw [← hhint] at hne hv hp
      set hctx : Apictx K D :=
        { ctxnew ctx with entry := (st.table.bucket (.hint ctx.hint)).hw }
      have hread : read st (ctxnew ctx) false = some hctx := read_of_valid (.inr hne) hv
      rw [finish_insert_of_valid (by omega) hne hc.writePending hread hv]
      by_cases hk : st.table.own (.hint ctx.hint) = st.params.key
      · have happ : append P st.params.key hctx
            = (.entryExists, { hctx with hit := true, exmatch := true }) := by
          unfold append
          rw [find_of_eq hk]
          rfl
        rw [happ, if_neg (by simp)]
        exact .entryExists hv hk
      · have hk' : hctx.entry.key ≠ st.params.key := hk
        obtain ⟨s', j', m', hit, happ, hlead'⟩ := append_of_ne hN hk' rfl rfl (hok.forest.more _ hv)
        have hmsb : hctx.hashMsbits = P.msb hash st.params.key := hc.hashMsbits
        rw [happ, if_pos rfl]
        refine ih (hs.step hr hhint.symm hne hv hk) ⟨rfl, ?_, rfl, hmsb, rfl⟩ ?_ (by omega)
        · show ctx.level + 1 = m + 1
          rw [hlevel]
        · rw [hmsb] at hlead'
          exact hlead'
    · exact insert_post_of_deadEnd hok hnull hs hc hd hzero hfree hslot hfuel

end Insert

end FtlHint

namespace FtlMain

variable [DecidableEq K] [Zero K] [Zero D] {hash : K → BitVec 32} {tid : Fin 8} {st : FtlSt K D}

/-- `main_table::insert_` into a main bucket that is not in use. -/
theorem insert_of_not_valid (hhash : st.params.hash32b = hash st.params.key)
    (hnull : st.params.handle = Handle.null)
    (hv : st.table.forest.valid (.main (P.idx hash st.params.key)) = false) :
    ∃ T' : FtlTable K D,
      insert P tid st = some (.ok, ⟨T', { st.params with
        handle := (BucketLoc.main (P.idx hash st.params.key)).handle }, st.moves⟩) ∧
      FtlTable.Inserted P hash st.table tid st.params.key st.params.data
        (.main (P.idx hash st.params.key)) T' := by
  set ctx : Apictx K D := initctx P (hash st.params.key) with hctx
  have hread : read st ctx false = some ctx := FtlBucket.read_of_not_valid (.inl rfl) hv rfl
  have hins : FtlBucket.insert P st ctx = (.ok, FtlBucket.create st ctx) :=
    if_neg (by
      show ¬ st.table.forest.valid (.main (P.idx hash st.params.key)) = true
      rw [hv]
      simp)
  have hr : FtlBucket.InRange ctx := .inl rfl
  obtain ⟨c, st2, hw, h⟩ := Wrote.create P st hr rfl
  refine ⟨{ st2.table with tstats := FtlTable.bump st2.table.tstats tid 1 0 }, ?_, ?_⟩
  · unfold insert
    simp only [hhash, ← hctx, hread, hins, bind_eq_bind, bind_some, hw, if_true,
      reduceCtorEq, decide_false, Bool.false_eq_true, if_false]
    rw [count_inc_entries, h.eq]
    rw [hnull, ← hhash]
    rfl
  · refine .main hv ?_ (fun c => ?_) h.hints ?_
    · show st2.table.forest = _
      ext1
      · exact h.valid
      · exact h.link
    · show st2.table.item c = _
      rw [h.item]
      rfl
    · show FtlTable.bump st2.table.tstats tid 1 0 = _
      rw [h.tstats]

/-- **What an insert can do.** -/
theorem insert_post (hN : P.numHints ≤ 6) (hok : FtlTable.Ok P hash st.table)
    (hhash : st.params.hash32b = hash st.params.key) (hnull : st.params.handle = Handle.null) :
    InsertPost P hash tid st (insert P tid st) := by
  cases hv : st.table.forest.valid (.main (P.idx hash st.params.key)) with
  | false =>
    obtain ⟨T', heq, hins⟩ := insert_of_not_valid hhash hnull hv
    rw [heq]
    exact .ok (hok.forest.not_owned_of_root hv) hins
  | true =>
    set ctx := mainCtx P st.table (hash st.params.key)
    have hread : read st (initctx P (hash st.params.key)) false = some ctx :=
      FtlBucket.read_of_valid (.inl rfl) hv
    have hbkt : FtlBucket.insert P st ctx = ((FtlBucket.append P st.params.key ctx).1,
        (FtlBucket.append P st.params.key ctx).2, st) := if_pos hv
    unfold insert
    simp only [hhash, hread, hbkt, bind_eq_bind, bind_some]
    by_cases hk : st.table.own (.main (P.idx hash st.params.key)) = st.params.key
    · have happ : append P st.params.key ctx
          = (.entryExists, { ctx with hit := true, exmatch := true }) := by
        unfold append
        rw [FtlBucket.find_of_eq hk]
        rfl
      rw [happ]
      exact .entryExists hv hk
    · have hk' : ctx.entry.key ≠ st.params.key := hk
      obtain ⟨s, j, m, hit, happ, hlead⟩ :=
        FtlBucket.append_of_ne hN hk' rfl rfl (hok.forest.more _ hv)
      rw [happ]
      set ctx' : Apictx K D := { ctx with hintSlot := s, hint := j, hit := hit, moreHashs := m }
      have hpost : InsertPost P hash tid st (FtlHint.finish P tid
          (FtlHint.insert P tid ftlMaxApiContexts ctx' st)) :=
        FtlHint.insert_post hN hok hnull (Forest.Searched.root hv hk)
          ⟨rfl, rfl, rfl, rfl, rfl⟩ hlead (Nat.add_zero _)
      simp only [decide_true, if_true, count_inc_both]
      exact hpost

end FtlMain

end NicSw
