/-
What a remove can do (`RemovePost`).

A remove empties the bucket of the key.  If hints hang below that bucket, the
tail below its last hint moves up into it and is given up in its place.
-/
import NicSw.Ftl.Find

namespace NicSw

open Handle (null)

open FtlBucket FtlHint Option FtlMain

open Function (update update_self update_of_ne update_eq_self update_idem)

variable {K D : Type*} {P : FtlProps}

/-! ### The tail of a chain -/

/-- The context of a bucket whose links are to be followed by last hints: it
leads to what its slot leads to. -/
structure LeadsLast (P : FtlProps) (T : FtlTable K D) (b : BucketLoc) (m : Nat)
    (ctx : Apictx K D) : Prop where
  loc : ctx.loc = b
  level : ctx.level = m
  link : T.forest.IsLink P.numHints b ctx.hintSlot ctx.hint

/-- **What `tail_` returns** from a context with a hint: a bucket without links
below it, and the context of its parent, which is the context it started from
or one that was read on the way. -/
structure TailPost (P : FtlProps) (T : FtlTable K D) (b : BucketLoc) (ctx pctx tctx : Apictx K D)
    (j : Nat) : Prop where
  loc : tctx.loc = .hint j
  entry : tctx.entry = (T.bucket (.hint j)).hw
  hint : tctx.hint = 0
  leaf : T.forest.IsLeaf P.numHints (.hint j)
  below : Forest.Ok.Below P.numHints T.forest b (.hint j)
  link : T.forest.IsLink P.numHints pctx.loc pctx.hintSlot j
  level : tctx.level = pctx.level + 1
  path : ∃ i h, T.forest.OnPath P.numHints i h pctx.loc pctx.level
  parent : pctx = ctx ∨ (ctx.level < pctx.level ∧ pctx.entry = (T.bucket pctx.loc).hw ∧
    pctx.loc.index ≠ 0)

/-- The hash that is left in a slot when its link is cleared. -/
def clearHash (P : FtlProps) (s : Nat) : Nat := if s = P.numHints + 1 then P.moreHashes 0 else 0

variable {j : Nat} {ectx : Apictx K D}

namespace Wrote

variable {st0 st : FtlSt K D} {valid : BucketLoc → Bool} {link : BucketLoc → Nat → HintLink}
  {item : BucketLoc → K × D} {log : List (MoveCb K D)} {ctx : Apictx K D}

section

variable (h : Wrote st0 st valid link item log)
include h

theorem notify (e : FtlEntry K D) (old new : Handle) (done : Bool) :
    Wrote st0 (notify st e old new done) valid link item
      (log ++ if st0.params.movecb then [⟨e.key, e.data, old, new, done⟩] else []) := by
  unfold FtlBucket.notify
  rw [← h.params]
  split
  · refine { h with moves := ?_ }
    rw [← List.append_assoc, ← h.moves]
  · rwa [List.append_nil]

/-- A parent context is written without its link. -/
theorem delink (hr : FtlBucket.InRange ctx) (hs : ctx.hintSlot ≤ P.numHints + 1) :
    ∃ c st', FtlBucket.write P st (FtlBucket.delink P ctx) = some (c, st') ∧
      Wrote st0 st' valid (update link ctx.loc
          (update ctx.entry.link ctx.hintSlot ⟨0, clearHash P ctx.hintSlot⟩))
        (update item ctx.loc (ctx.entry.key, ctx.entry.data)) log := by
  have hr' : FtlBucket.InRange (FtlBucket.delink P ctx) := hr
  obtain ⟨e, st', hw, hw', hl⟩ := h.write P rfl hr' fun h => absurd rfl h
  have hlink : (FtlBucket.delink P ctx).entry.link =
      update ctx.entry.link ctx.hintSlot ⟨0, clearHash P ctx.hintSlot⟩ :=
    FtlEntry.setHintHash_link hs
  have hz : (FtlBucket.delink P ctx).hint = 0 := rfl
  rw [hl, if_pos hz, hlink] at hw'
  refine ⟨_, st', hw, ?_⟩
  simpa [FtlBucket.delink] using hw'

/-- The end of a move: the tail is written back empty, and the second callback
gets what is then in the bucket of the key. -/
theorem moved (P : FtlProps) (old new : Handle) (hloc : ctx.loc = .hint j) (hj : j ≠ 0)
    (hz : ctx.hint = 0) (hp : ctx.writePending = true) (her : FtlBucket.InRange ectx)
    (het : ectx.loc ≠ .hint j) :
    ∃ st', moved P st ectx ctx old new = some st' ∧
      Wrote st0 st' valid (update link (.hint j) ctx.entry.link)
        (update item (.hint j) (ctx.entry.key, ctx.entry.data))
        (log ++ if st0.params.movecb then
          [⟨(item ectx.loc).1, (item ectx.loc).2, old, new, true⟩] else []) := by
  have hr : FtlBucket.InRange ctx := .inr (by rwa [hloc])
  obtain ⟨e, st1, hwr, hw, hl⟩ := h.write P hp hr fun hh => absurd hz hh
  rw [hl, if_pos hz, hloc] at hw
  have hx : st1.table.item ectx.loc = item ectx.loc := by
    rw [hw.item, update_of_ne het]
  unfold FtlBucket.moved
  simp only [hwr, bind_eq_bind, bind_some]
  rw [← hx, ← hw.params]
  cases hm : st1.params.movecb with
  | false =>
    rw [if_neg (by simp), if_neg (by simp), List.append_nil]
    exact ⟨_, rfl, hw⟩
  | true =>
    rw [if_pos rfl, read_force her]
    have hn := hw.notify (st1.table.bucket ectx.loc).hw old new true
    rw [← hw.params, hm] at hn
    exact ⟨_, rfl, hn⟩

end

end Wrote

section Remove

variable [Zero K] [Zero D] {hash : K → BitVec 32} {st : FtlSt K D} {tid : Fin 8}
  {ctx : Apictx K D} {b : BucketLoc} {n m s i h : Nat}

/-- **`hint_table::tail_`**, by induction on the contexts left. -/
theorem FtlHint.tail_post (hok : FtlTable.Ok P hash st.table)
    (hp : st.table.forest.OnPath P.numHints i h b m) (hl : LeadsLast P st.table b m ctx)
    (hfuel : n + m = ftlMaxApiContexts) (pctx0 : Option (Apictx K D)) :
    ∃ pctx tctx j, tail P st n pctx0 ctx = some (some pctx, tctx) ∧
      TailPost P st.table b ctx pctx tctx j := by
  have hB : P.maxDepth ≤ ftlMaxApiContexts ∧ P.maxDepth ≤ P.maxRecircs - 1 :=
    ⟨min_le_left _ _, min_le_right _ _⟩
  induction n generalizing b m ctx i h pctx0 with
  | zero =>
    obtain ⟨i', h', hp'⟩ := hok.forest.path_link hp hl.link
    have := hok.forest.depth_le (hok.forest.linkValid hl.link) hp'
    omega
  | succ n ih =>
    have hv := hok.forest.linkValid hl.link
    obtain ⟨i', h', hp'⟩ := hok.forest.path_link hp hl.link
    have hdepth := hok.forest.depth_le hv hp'
    have hne := hl.link.ne
    have hlevel := hl.level
    set tctx : Apictx K D := { ctxnew ctx with
      entry := (st.table.bucket (.hint ctx.hint)).hw }
    have hread : read st (ctxnew ctx) false = some tctx := read_of_valid (.inr hne) hv
    have hmax : ¬ P.maxRecircs ≤ (ctxnew ctx).level := by
      show ¬ P.maxRecircs ≤ ctx.level + 1
      omega
    have hstep : Forest.Ok.Below P.numHints st.table.forest b (.hint ctx.hint) :=
      .single ⟨_, _, hl.link, rfl⟩
    rw [tail, if_neg hne]
    simp only [if_neg hmax, hread, bind_eq_bind, bind_some]
    cases hlast : lastSlot P.numHints tctx.entry.link with
    | none =>
      rw [findLastHint_of_none hlast]
      refine ⟨ctx, _, ctx.hint, rfl, ⟨rfl, rfl, rfl, ?_, hstep, ?_, rfl, ⟨i, h, ?_⟩, .inl rfl⟩⟩
      · exact fun s h1 h2 => lastSlot_eq_none (hok.forest.more _ hv) hlast h1 h2
      · rw [hl.loc]
        exact hl.link
      · rw [hl.loc, hl.level]
        exact hp
    | some s =>
      obtain ⟨m', x, hf, -⟩ := findLastHint_of_some hlast
      obtain ⟨h1, h2, h3⟩ := lastSlot_eq_some hlast
      rw [hf]
      set tctx' : Apictx K D := { tctx with
        hintSlot := s, hint := (tctx.entry.link s).hint, moreHashs := m', hashMsbits := x }
      have hlevel' : tctx'.level = m + 1 := congrArg (· + 1) hlevel
      obtain ⟨pctx, t, j, htail, hpost⟩ :=
        ih hp' ⟨rfl, hlevel', hv, h1, h2, rfl, h3⟩ (by omega) (some ctx)
      refine ⟨pctx, t, j, htail,
        { hpost with below := hstep.trans hpost.below, parent := .inr ?_ }⟩
      rcases hpost.parent with rfl | ⟨hlt, hent, hidx⟩
      · exact ⟨by omega, rfl, hne⟩
      · exact ⟨by omega, hent, hidx⟩

/-- A context without a hint is the tail itself. -/
theorem FtlHint.tail_of_no_hint (hz : ctx.hint = 0) (pctx : Option (Apictx K D)) :
    tail P st n pctx ctx = some (pctx, ctx) := by
  unfold tail
  exact if_pos hz

/-! ### Defragmentation -/

/-- The callbacks for the move of an item from bucket `src` to bucket `e`. -/
def moveLog (T : FtlTable K D) (movecb : Bool) (e src : BucketLoc) : List (MoveCb K D) :=
  if movecb = true ∧ e ≠ src then
    [⟨(T.item src).1, (T.item src).2, src.handle, e.handle, false⟩,
      ⟨(T.item src).1, (T.item src).2, src.handle, e.handle, true⟩]
  else []

/-- **What the move of the tail `j` to bucket `e` leaves**, `p` being the parent
of the tail. -/
structure DefragPost (P : FtlProps) (st st' : FtlSt K D) (e p : BucketLoc) (s j : Nat) : Prop where
  forest : st'.table.forest = st.table.forest.detach p s (clearHash P s) j
  item : ∀ b, b ≠ .hint j →
    st'.table.item b = update st.table.item e (st.table.item (.hint j)) b
  hints : st'.table.hints = st.table.hints
  tstats : st'.table.tstats = st.table.tstats
  params : st'.params = st.params
  moves : st'.moves = st.moves ++ moveLog st.table st.params.movecb e (.hint j)

omit [Zero K] [Zero D] in
theorem FtlBucket.handleOf_null_hint (hl : ctx.level ≠ 0) (hloc : ctx.loc = .hint j) :
    handleOf ctx null = (BucketLoc.hint j).handle := by
  unfold handleOf Apictx.isMain
  rw [if_neg (by simpa using hl), hloc]
  rfl

variable {e p : BucketLoc} {st' st1 : FtlSt K D}

omit [Zero K] [Zero D] in
/-- What the writes of a move come to: the item of the tail is in `e`, the link of `p` is
gone and the tail `j` is cleared. -/
theorem Wrote.defrag {x : K × D} (hpt : p ≠ .hint j)
    (hw : Wrote st st' (update st.table.forest.valid (.hint j) false)
      (update (update st.table.forest.link p
        (update (st.table.forest.link p) s ⟨0, clearHash P s⟩)) (.hint j)
        (st.table.forest.link (.hint j)))
      (update (update st.table.item e (st.table.item (.hint j))) (.hint j) x)
      (moveLog st.table st.params.movecb e (.hint j))) : DefragPost P st st' e p s j := by
  refine ⟨?_, fun b hb => ?_, hw.hints, hw.tstats, hw.params, hw.moves⟩
  · ext1
    · exact hw.valid
    · rw [hw.link, ← update_of_ne hpt.symm (update (st.table.forest.link p) s
        ⟨0, clearHash P s⟩) st.table.forest.link, update_eq_self]
      rfl
  · rw [hw.item, update_of_ne hb]

/-- A context that has found its key: the bucket's entry without key and data,
and the last hint of the bucket, if any, as it is stored. -/
structure Emptied (P : FtlProps) (T : FtlTable K D) (e : BucketLoc) (m : Nat)
    (ectx : Apictx K D) : Prop where
  loc : ectx.loc = e
  level : ectx.level = m
  link : ectx.entry.link = T.forest.link e
  slot : ectx.hint ≠ 0 → T.forest.IsLink P.numHints e ectx.hintSlot ectx.hint ∧
    T.forest.link e ectx.hintSlot =
      ⟨ectx.hint, linkHash P ectx.hintSlot ectx.hashMsbits⟩

variable {tctx pctx : Apictx K D}

/-- Once `e` and the parent of the tail are written, what is left of a move is
the tail. -/
theorem FtlBucket.moved_post {st3 : FtlSt K D} {c : Apictx K D}
    (hpath : st.table.forest.OnPath P.numHints i h e m) (heloc : ectx.loc = e)
    (hlevel : ectx.level = m) (htloc : tctx.loc = .hint j) (htlevel : tctx.level ≠ 0)
    (hz : tctx.hint = 0) (hentry : tctx.entry = (st.table.bucket (.hint j)).hw) (hj : j ≠ 0)
    (het : e ≠ .hint j) (hpt : p ≠ .hint j) (hcloc : c.loc = e) (hcr : InRange c)
    (hw : Wrote st st3 (Function.update st.table.forest.valid (.hint j) false)
      (Function.update st.table.forest.link p
        (Function.update (st.table.forest.link p) s ⟨0, clearHash P s⟩))
      (Function.update st.table.item e (st.table.item (.hint j)))
      (if st.params.movecb then [⟨tctx.entry.key, tctx.entry.data,
        handleOf tctx null, handleOf ectx null, false⟩] else [])) :
    ∃ st', moved P st3 c { tctx with entry := tctx.entry.clearKeyData, writePending := true }
        (handleOf tctx null) (handleOf ectx null) = some st' ∧
      DefragPost P st st' e p s j := by
  set tctx' : Apictx K D := { tctx with entry := tctx.entry.clearKeyData, writePending := true }
  have hloc : tctx'.loc = .hint j := htloc
  obtain ⟨st', heq, hw'⟩ := hw.moved P (handleOf tctx null) (handleOf ectx null) hloc
    hj hz rfl hcr (hcloc ▸ het)
  have hlt : tctx'.entry.link = st.table.forest.link (.hint j) := by
    show tctx.entry.link = _
    rw [hentry]
    rfl
  refine ⟨st', heq, Wrote.defrag (x := (tctx'.entry.key, tctx'.entry.data)) hpt ?_⟩
  rw [hlt, hcloc, update_self] at hw'
  convert hw' using 1
  rw [moveLog, handleOf_null_hint htlevel htloc, handleOf_null hpath hlevel heloc, hentry]
  cases st.params.movecb with
  | false => rfl
  | true => simp [het, FtlTable.item]

/-- **`Bucket::defragment_` when the tail is another bucket.** -/
theorem FtlBucket.defragment_move (hok : FtlTable.Ok P hash st.table)
    (hpath : st.table.forest.OnPath P.numHints i h e m) (he : Emptied P st.table e m ectx)
    (hne : ectx.hint ≠ 0) (hpost : TailPost P st.table e ectx pctx tctx j) :
    ∃ st', defragment P st ectx pctx tctx = some st' ∧
      DefragPost P st st' e pctx.loc pctx.hintSlot j := by
  have het : e ≠ .hint j := by
    rintro rfl
    exact hpost.leaf.not_isLink (he.slot hne).1
  have hpt : pctx.loc ≠ .hint j := fun h => hpost.leaf.not_isLink (h ▸ hpost.link)
  have htlevel : tctx.level ≠ 0 := by rw [hpost.level]; omega
  have hisTail : (ectx.level == tctx.level) = false := by
    have hlevel : ectx.level ≤ pctx.level := by
      rcases hpost.parent with h | ⟨h, -⟩
      · rw [h]
      · exact h.le
    rw [hpost.level]
    simp only [beq_eq_false_iff_ne, ne_eq]
    omega
  set old := handleOf tctx null with hold
  set new := handleOf ectx null with hnew
  set ectx' : Apictx K D := { ectx with
    entry := { ectx.entry with key := tctx.entry.key, data := tctx.entry.data }
    writePending := true } with hectx'
  set tctx' : Apictx K D := { tctx with entry := tctx.entry.clearKeyData, writePending := true }
  set st1 := notify st tctx.entry old new false with hst1
  have hmove : move st1 ectx tctx = (ectx', tctx', st1.setValid tctx.loc false) := by
    unfold move
    rw [hisTail]
    rfl
  have hw := ((Wrote.refl st).notify tctx.entry old new false).setValid tctx.loc false
  rw [← hst1, hpost.loc, List.nil_append] at hw
  have hitemt : (ectx'.entry.key, ectx'.entry.data) = st.table.item (.hint j) := by
    show (tctx.entry.key, tctx.entry.data) = _
    rw [hpost.entry]
    rfl
  have hre : InRange ectx' := by
    rcases hpath.eq_hint with ⟨h0, -⟩ | ⟨-, x, hx, rfl⟩
    · exact .inl (he.level.trans h0)
    · refine .inr ?_
      rwa [he.loc]
  have hloc' : ectx'.loc = e := he.loc
  have hlink' : ectx'.entry.link = st.table.forest.link e := he.link
  unfold defragment
  simp only [hisTail, Bool.false_eq_true, if_false, ← hold, ← hnew, ← hst1, hmove, hpost.loc]
  rcases hpost.parent with rfl | ⟨hlt, hpe, hpi⟩
  · -- the parent is the bucket itself, which is written once
    have hsl : ectx'.hintSlot ≤ P.numHints + 1 := hpost.link.le
    obtain ⟨c, st3, hwr, hw3⟩ := hw.delink hre hsl
    rw [hlink', hitemt, hloc'] at hw3
    simp only [beq_self_eq_true, if_true, bind_some, hwr]
    rw [he.loc] at hpt ⊢
    exact moved_post hpath he.loc he.level hpost.loc htlevel hpost.hint hpost.entry
      hpost.link.ne het hpt hloc' hre hw3
  · -- the bucket is written before its parent
    have hisParent : (ectx.level == pctx.level) = false := by
      simp only [beq_eq_false_iff_ne, ne_eq]
      omega
    have hep : e ≠ pctx.loc := by
      intro hep
      obtain ⟨i', h', hp'⟩ := hpost.path
      have := (hok.forest.path_unique hpath (hep ▸ hp')).2
      have := he.level
      omega
    obtain ⟨y, st2, hwr, hw2, hly⟩ := hw.write P rfl hre fun _ => (he.slot hne).1.le
    -- the last hint of the bucket is written back as it was
    have hsame : y.link = st.table.forest.link e := by
      rw [hly, if_neg hne, hlink']
      rw [← (he.slot hne).2, update_eq_self]
    rw [hsame, hloc', update_eq_self, hitemt] at hw2
    have hrp : InRange pctx := .inr hpi
    obtain ⟨c, st3, hwz, hw3⟩ := hw2.delink (P := P) hrp hpost.link.le
    have hpitem : (pctx.entry.key, pctx.entry.data)
        = Function.update st.table.item e (st.table.item (.hint j)) pctx.loc := by
      rw [update_of_ne hep.symm, hpe]
      rfl
    rw [hpitem, update_eq_self, hpe] at hw3
    simp only [hisParent, Bool.false_eq_true, if_false, hwr, bind_some, hwz]
    exact moved_post hpath he.loc he.level hpost.loc htlevel hpost.hint hpost.entry
      hpost.link.ne het hpt hloc' hre hw3

/-- **`Bucket::defragment_` when the removed bucket is the tail**: it has been
given up already, and its parent's link is cleared. -/
theorem FtlBucket.defragment_self (hloc : ectx.loc = .hint j) (hz : ectx.hint = 0)
    (hlink : ectx.entry.link = st.table.forest.link (.hint j))
    (hp : st.table.forest.IsLink P.numHints pctx.loc pctx.hintSlot j) (hrp : InRange pctx)
    (hlevel : ectx.level = pctx.level + 1) (hpe : pctx.entry = (st.table.bucket pctx.loc).hw)
    {x : K × D} (hw : Wrote st st1 (Function.update st.table.forest.valid (.hint j) false)
      st.table.forest.link (Function.update st.table.item (.hint j) x) []) :
    ∃ st', defragment P st1 ectx pctx ectx = some st' ∧
      DefragPost P st st' (.hint j) pctx.loc pctx.hintSlot j := by
  have hisParent : (ectx.level == pctx.level) = false := by
    rw [hlevel]
    simp
  set ectx' : Apictx K D := { ectx with entry := ectx.entry.clearKeyData, writePending := true }
  have hmove : move st1 ectx ectx = (ectx', ectx', st1.setValid ectx.loc false) := by
    unfold move
    rw [beq_self_eq_true]
    rfl
  have hz' : ectx'.hint = 0 := hz
  have hloc' : ectx'.loc = .hint j := hloc
  have hlink' : ectx'.entry.link = st.table.forest.link (.hint j) := hlink
  have hr : InRange ectx' := .inr (by rw [hloc']; exact hp.ne)
  obtain ⟨y, st2, hwr, hw2, hly⟩ := (hw.setValid ectx.loc false).write P rfl hr
    fun hne => absurd hz' hne
  rw [hly, if_pos hz', hlink', hloc, update_eq_self, update_idem, update_idem] at hw2
  obtain ⟨c, st3, hwz, hw3⟩ := hw2.delink (P := P) hrp hp.le
  refine ⟨st3, ?_, ?_, fun b hb => ?_, hw3.hints, hw3.tstats, hw3.params, ?_⟩
  · unfold FtlBucket.defragment
    simp [hmove, hisParent, hwr, hwz]
  · ext1
    · exact hw3.valid
    · rw [hw3.link, hpe]
      rfl
  · rw [hw3.item, hpe]
    by_cases hbp : b = pctx.loc
    · rw [hbp, update_self, update_of_ne (hbp ▸ hb)]
      rfl
    · rw [update_of_ne hbp, update_of_ne hb, update_of_ne hb]
  · rw [hw3.moves, moveLog, if_neg (by simp)]

/-! ### Remove -/

/-- **All that a remove of `k` can do**; no result is an abort. -/
inductive RemovePost (P : FtlProps) (tid : Fin 8) (st : FtlSt K D) :
    Option (SdkRet × FtlSt K D) → Prop
  | abort (dead : ¬ st.table.Live P) (absent : st.table.Absent st.params.key) :
      RemovePost P tid st none
  | notFound {d : D} (absent : st.table.Absent st.params.key) :
      RemovePost P tid st (some (.entryNotFound, { st with params.data := d }))
  | ok {e src : BucketLoc} {T' : FtlTable K D} (removed : FtlTable.Removed P st.table tid e src T')
      (own : st.table.own e = st.params.key) :
      RemovePost P tid st (some (.ok, ⟨T', { st.params with data := (st.table.item e).2 },
        st.moves ++ moveLog st.table st.params.movecb e src⟩))

omit [Zero K] [Zero D] in
/-- The data that a remove starts with does not matter. -/
theorem RemovePost.of_data {d : D} {r : Option (SdkRet × FtlSt K D)}
    (hr : RemovePost P tid { st with params.data := d } r) : RemovePost P tid st r := by
  cases hr with
  | abort dead absent => exact .abort dead absent
  | notFound absent => exact .notFound absent
  | ok removed own => exact .ok removed own

/-- The end of `main_table::remove_` when a hint was given up: the counters. -/
def FtlHint.finishRemove (tid : Fin 8) (r : Option (SdkRet × FtlSt K D)) :
    Option (SdkRet × FtlSt K D) := do
  let (ret, st) ← r
  if ret ≠ .ok then some (ret, st)
  else some (.ok, { st with table.tstats := FtlTable.bump st.table.tstats tid (-1) (-1) })

omit [Zero K] [Zero D] in
theorem FtlHint.finishRemove_eq (r : Option (SdkRet × FtlSt K D)) :
    finishRemove tid r = r.bind fun (ret, st) =>
      if ret ≠ .ok then some (ret, st)
      else some (.ok, count tid (fun s => { s with entries := s.entries - 1 })
        (count tid (fun s => { s with collisions := s.collisions - 1 }) st)) := by
  simp only [count_dec_both]
  rfl

omit [Zero D] in
/-- A move and the return of the tail's index to the indexer delete the key of
the bucket. -/
theorem DefragPost.removePost (hok : FtlTable.Ok P hash st.table)
    (hd : DefragPost P st1 st' e p s j)
    (hst1 : st1 = { st with params.data := (st.table.item e).2 })
    (hv : st.table.forest.valid e = true) (hk : st.table.own e = st.params.key)
    (hl : st.table.forest.IsLink P.numHints p s j)
    (hleaf : st.table.forest.IsLeaf P.numHints (.hint j))
    (hbel : Forest.Ok.Below P.numHints st.table.forest e (.hint j)) (hloc : tctx.loc = .hint j) :
    RemovePost P tid st (finishRemove tid (some (.ok, dealloc tctx st'))) := by
  subst hst1
  have hvj := hok.forest.linkValid hl
  have hclear : clearHash P s = 0 ∨ clearHash P s = P.moreHashes 0 := by
    unfold clearHash
    split
    · exact .inr rfl
    · exact .inl rfl
  set T' : FtlTable K D := { (dealloc tctx st').table with
    tstats := FtlTable.bump st'.table.tstats tid (-1) (-1) }
  have hrem : FtlTable.Removed P st.table tid e (.hint j) T' := by
    refine .tail hv hl hleaf hbel hclear hd.forest (fun b hb => hd.item b ?_) ?_ ?_
    · rintro rfl
      have hb' : st'.table.forest.valid (.hint j) = true := hb
      rw [hd.forest] at hb'
      exact (Forest.valid_of_detach hb').2 rfl
    · show (st'.table.hints.dealloc tctx.loc.index).Ok _ _
      rw [hd.hints, hloc]
      exact hok.hints.dealloc hvj
    · show FtlTable.bump st'.table.tstats tid (-1) (-1) = _
      rw [hd.tstats]
  have hres : finishRemove tid (some (.ok, dealloc tctx st'))
      = some (.ok, ⟨T', { st.params with data := (st.table.item e).2 },
        st.moves ++ moveLog st.table st.params.movecb e (.hint j)⟩) := by
    show some (SdkRet.ok, FtlSt.mk T' st'.params st'.moves) = _
    rw [hd.params, hd.moves]
  rw [hres]
  exact .ok hrem hk

/-- `hint_table::defragment_` is a search for the tail, the move and the return
of the tail's index. -/
theorem FtlHint.defragment_eq {pctx0 : Option (Apictx K D)}
    (ht : tail P st n pctx0 ectx = some (some pctx, tctx))
    (hd : FtlBucket.defragment P st ectx pctx tctx = some st') :
    defragment P n pctx0 ectx st = some (dealloc tctx st') := by
  unfold defragment
  simp [ht, hd]

/-- **The removal of a key whose bucket has hints below it.** -/
theorem FtlHint.defragment_post (hok : FtlTable.Ok P hash st.table)
    (hp : st.table.forest.OnPath P.numHints i h e m) (hv : st.table.forest.valid e = true)
    (hk : st.table.own e = st.params.key) (he : Emptied P st.table e m ectx) (hne : ectx.hint ≠ 0)
    (hfuel : n + m = ftlMaxApiContexts) (pctx0 : Option (Apictx K D)) :
    RemovePost P tid st (finishRemove tid
      ((defragment P n pctx0 ectx { st with params.data := (st.table.item e).2 }).map
        fun st => (.ok, st))) := by
  set st1 : FtlSt K D := { st with params.data := (st.table.item e).2 } with hst1
  have hok1 : FtlTable.Ok P hash st1.table := hok
  have hp1 : st1.table.forest.OnPath P.numHints i h e m := hp
  have he1 : Emptied P st1.table e m ectx := he
  obtain ⟨pctx, tctx, j, htail, hpost⟩ :=
    tail_post hok1 hp1 ⟨he.loc, he.level, (he.slot hne).1⟩ hfuel pctx0
  obtain ⟨st', hd, hpost'⟩ := defragment_move hok1 hp1 he1 hne hpost
  rw [defragment_eq htail hd]
  exact hpost'.removePost hok hst1 hv hk hpost.link hpost.leaf hpost.below hpost.loc

/-! ### Emptying the bucket of a key -/

/-- A context after its key is found: key and data are cleared. -/
def Apictx.emptied (ctx : Apictx K D) : Apictx K D :=
  { ctx with hit := true, exmatch := true, entry := ctx.entry.clearKeyData, writePending := true }

/-- The hints stay when key and data are cleared. -/
theorem CtxAt.emptied_link (hc : CtxAt st.table b m h ctx) :
    ctx.emptied.entry.link = st.table.forest.link b := by
  show ctx.entry.link = _
  rw [hc.entry]
  rfl

variable [DecidableEq K]

/-- `Bucket::remove_` on the bucket of the key looks for its last hint. -/
theorem FtlBucket.remove_of_eq (hv : (st.table.bucket ctx.loc).valid = true)
    (hk : ctx.entry.key = st.params.key) :
    remove P st ctx = match findLastHint P ctx.emptied with
      | (.entryNotFound, c) =>
        (write P (({ st with params.data := ctx.entry.data } : FtlSt K D).setValid c.loc false)
          c).map fun r => (.ok, r)
      | (ret, c) => some (ret, c, { st with params.data := ctx.entry.data }) := by
  unfold remove
  simp only [hv, Bool.not_true, Bool.false_eq_true, if_false, find_of_eq hk]
  rfl

section Bucket

variable (hN : P.numHints ≤ 6) (hc : CtxAt st.table b m h ctx) (hv : st.table.forest.valid b = true)

include hN hc hv

/-- `Bucket::remove_` on a bucket with another key leads on along the route. -/
theorem FtlBucket.remove_of_route (hex : ctx.exmatch = false) (hk : st.table.own b ≠ st.params.key)
    (hr : route P.numHints (st.table.forest.link b) h = some s) :
    ∃ c, remove P st ctx = some (.ok, c, { st with params.data := ctx.entry.data }) ∧
      c.exmatch = false ∧ CtxAt st.table b m h c ∧ c.hintSlot = s ∧
      c.hint = (st.table.forest.link b s).hint := by
  obtain ⟨rfl, hlevel, hent, rfl, hw⟩ := hc
  have hk' : ctx.entry.key ≠ st.params.key := by rwa [hent]
  have hr' : route P.numHints ctx.entry.link ctx.hashMsbits = some s := by rwa [hent]
  obtain ⟨x, hf⟩ := find_of_route hN hk' hr'
  have hb : (st.table.bucket ctx.loc).valid = true := hv
  unfold remove
  simp only [hb, Bool.not_true, Bool.false_eq_true, if_false, hf, hex, Bool.not_false, if_true]
  refine ⟨_, rfl, rfl, ⟨rfl, hlevel, hent, rfl, hw⟩, rfl, ?_⟩
  rw [hent]
  rfl

theorem FtlBucket.remove_of_no_route (hk : st.table.own b ≠ st.params.key)
    (hr : route P.numHints (st.table.forest.link b) h = none) :
    ∃ c, remove P st ctx = some (.entryNotFound, c, { st with params.data := ctx.entry.data }) := by
  obtain ⟨rfl, -, hent, rfl, -⟩ := hc
  have hk' : ctx.entry.key ≠ st.params.key := by rwa [hent]
  have hr' : route P.numHints ctx.entry.link ctx.hashMsbits = none := by rwa [hent]
  have hb : (st.table.bucket ctx.loc).valid = true := hv
  unfold remove
  simp only [hb, Bool.not_true, Bool.false_eq_true, if_false, find_of_no_route hN hk' hr']
  exact ⟨_, rfl⟩

omit hN

/-- `Bucket::remove_` on the bucket of the key, when hints hang below it: nothing
is written yet. -/
theorem FtlBucket.remove_of_last (hok : FtlTable.Ok P hash st.table)
    (hk : st.table.own b = st.params.key)
    (hlast : lastSlot P.numHints (st.table.forest.link b) = some s) :
    ∃ ectx, remove P st ctx
        = some (.ok, ectx, { st with params.data := ctx.entry.data }) ∧
      ectx.exmatch = true ∧ ectx.hint ≠ 0 ∧ Emptied P st.table b m ectx := by
  have hlink := hc.emptied_link
  obtain ⟨rfl, hlevel, hent, -, -⟩ := hc
  have hk' : ctx.entry.key = st.params.key := by rwa [hent]
  have hb : (st.table.bucket ctx.loc).valid = true := hv
  have hlast' : lastSlot P.numHints ctx.emptied.entry.link = some s := by rwa [hlink]
  obtain ⟨x, y, hf, hy⟩ := findLastHint_of_some hlast'
  obtain ⟨h1, h2, h3⟩ := lastSlot_eq_some hlast
  rw [remove_of_eq hb hk', hf]
  refine ⟨_, rfl, rfl, ?_, ⟨rfl, hlevel, hlink, fun _ => ?_⟩⟩
  · show (ctx.emptied.entry.link s).hint ≠ 0
    rwa [hlink]
  · show st.table.forest.IsLink P.numHints ctx.loc s (ctx.emptied.entry.link s).hint ∧
      st.table.forest.link ctx.loc s = ⟨(ctx.emptied.entry.link s).hint, linkHash P s y⟩
    rw [hlink] at hy ⊢
    refine ⟨⟨hv, h1, h2, rfl, h3⟩, ?_⟩
    -- the more slot is always written with one hash, a hint slot with its own
    by_cases hs : s = P.numHints + 1
    · subst hs
      rw [linkHash, if_pos rfl, ← hok.moreHash _ hv h3]
    · rw [linkHash, if_neg hs, hy hs]

/-- `Bucket::remove_` on the bucket of the key, when it has no hints: the bucket
is given up. -/
theorem FtlBucket.remove_of_leaf (hp : st.table.forest.OnPath P.numHints i n b m)
    (hz : ctx.hint = 0) (hk : st.table.own b = st.params.key)
    (hlast : lastSlot P.numHints (st.table.forest.link b) = none) :
    ∃ ectx st', remove P st ctx = some (.ok, ectx, st') ∧
      ectx.exmatch = true ∧ ectx.hint = 0 ∧ Emptied P st.table b m ectx ∧
      ∃ x, Wrote { st with params.data := (st.table.item b).2 } st'
        (Function.update st.table.forest.valid b false) st.table.forest.link
        (Function.update st.table.item b x) [] := by
  have hrange := hc.inRange hp
  have hlink := hc.emptied_link
  obtain ⟨rfl, hlevel, hent, -, -⟩ := hc
  have hk' : ctx.entry.key = st.params.key := by rwa [hent]
  have hb : (st.table.bucket ctx.loc).valid = true := hv
  have hlast' : lastSlot P.numHints ctx.emptied.entry.link = none := by rwa [hlink]
  set ctx' : Apictx K D := { ctx.emptied with hintSlot := 0 }
  have hz' : ctx'.hint = 0 := hz
  set st1 : FtlSt K D := { st with params.data := (st.table.item ctx.loc).2 }
  have hr' : InRange ctx' := hrange
  obtain ⟨y, st', hwr, hw, hly⟩ := ((Wrote.refl st1).setValid ctx.loc false).write P rfl hr'
    fun hh => absurd hz' hh
  rw [if_pos hz'] at hly
  have hly' := hly.trans hlink
  have hdata : ctx.entry.data = (st.table.item ctx.loc).2 := by
    rw [hent]
    rfl
  have heq : remove P st ctx = some (.ok,
      { ctx' with entry := y, writePending := false }, st') := by
    rw [remove_of_eq hb hk', findLastHint_of_none hlast', hdata]
    show (write P (st1.setValid ctx.loc false) ctx').map _ = _
    rw [hwr]
    rfl
  have hself : Function.update st1.table.forest.link ctx'.loc (st.table.forest.link ctx.loc)
      = st.table.forest.link := update_eq_self _ _
  rw [hly', hself] at hw
  exact ⟨_, _, heq, rfl, hz, ⟨rfl, hlevel, hly', fun hh => absurd hz hh⟩, _, hw⟩

end Bucket

/-- **`hint_table::remove_` along the path of the key**, by induction on the
contexts left. -/
theorem FtlHint.remove_post (hN : P.numHints ≤ 6) (hok : FtlTable.Ok P hash st.table)
    (hs : Forest.Searched P.numHints st.table.forest (P.idx hash) (P.msb hash) st.table.own
      st.params.key b m)
    (hc : CtxAt st.table b m (P.msb hash st.params.key) ctx) (hslot : ctx.hintSlot = s)
    (hr : route P.numHints (st.table.forest.link b) (P.msb hash st.params.key) = some s)
    (hhint : ctx.hint = (st.table.forest.link b s).hint) (hfuel : n + m = ftlMaxApiContexts) :
    RemovePost P tid st (finishRemove tid (remove P n ctx st)) := by
  induction n generalizing b m ctx s st with
  | zero =>
    by_cases hz : ctx.hint = 0
    · obtain ⟨hdead, habsent⟩ := hok.dead hs hr (hhint ▸ hz)
      exact .abort hdead habsent
    · have hlt := hok.level_lt hs hr (hhint ▸ hz)
      omega
  | succ n ih =>
    by_cases hz : ctx.hint = 0
    · have hread : read st (ctxnew ctx) false = none :=
        read_eq_none (Nat.succ_ne_zero _) hz
      rw [remove, hread]
      obtain ⟨hdead, habsent⟩ := hok.dead hs hr (hhint ▸ hz)
      exact .abort hdead habsent
    · have hl := Forest.isLink_of_route hs.valid hr hhint.symm hz
      have hv := hok.forest.linkValid hl
      have hp := hs.path.step hs.valid hr hhint.symm hz
      set hctx : Apictx K D := { ctxnew ctx with
        entry := (st.table.bucket (.hint ctx.hint)).hw }
      have hread : read st (ctxnew ctx) false = some hctx := read_of_valid (.inr hz) hv
      have hlevel : hctx.level = m + 1 := congrArg (· + 1) hc.level
      have hc' : CtxAt st.table (.hint ctx.hint) (m + 1) (P.msb hash st.params.key) hctx :=
        ⟨rfl, hlevel, rfl, hc.hashMsbits, rfl⟩
      rw [remove]
      simp only [hread, bind_eq_bind, bind_some]
      by_cases hk : st.table.own (.hint ctx.hint) = st.params.key
      · cases hlast : lastSlot P.numHints (st.table.forest.link (.hint ctx.hint)) with
        | some s' =>
          obtain ⟨ectx, heq, hex, hne, he⟩ := remove_of_last hc' hv hok hk hlast
          rw [heq]
          simp only [bind_some, ne_eq, not_true_eq_false, if_false, hex, if_true]
          exact defragment_post hok hp hv hk he hne (by omega) (some ctx)
        | none =>
          obtain ⟨ectx, st1, heq, hex, hez, he, x, hw⟩ := remove_of_leaf hc' hv hp rfl hk hlast
          have hleaf : st.table.forest.IsLeaf P.numHints (.hint ctx.hint) :=
            fun s h1 h2 => lastSlot_eq_none (hok.forest.more _ hv) hlast h1 h2
          set st0 : FtlSt K D :=
            { st with params.data := (st.table.item (.hint ctx.hint)).2 } with hst0
          have hl' : st0.table.forest.IsLink P.numHints ctx.loc ctx.hintSlot ctx.hint := by
            rw [hc.loc, hslot]
            exact hl
          have hlink : ectx.entry.link = st0.table.forest.link (.hint ctx.hint) := he.link
          have hent : ctx.entry = (st0.table.bucket ctx.loc).hw := by
            rw [hc.loc]
            exact hc.entry
          obtain ⟨st', hd, hpost⟩ := defragment_self he.loc hez hlink hl'
            (hc.inRange hs.path) (he.level.trans (congrArg (· + 1) hc.level.symm)) hent hw
          rw [heq]
          simp only [bind_some, ne_eq, not_true_eq_false, if_false, hex, if_true]
          rw [defragment_eq (tail_of_no_hint hez _) hd]
          exact hpost.removePost hok hst0 hv hk hl' hleaf .refl he.loc
      · have hs' := hs.step hr hhint.symm hz hv hk
        cases hr' : route P.numHints (st.table.forest.link (.hint ctx.hint))
            (P.msb hash st.params.key) with
        | none =>
          obtain ⟨c, heq⟩ := remove_of_no_route hN hc' hv hk hr'
          rw [heq]
          exact .notFound (hs'.not_owned hok.forest (deadEnd_of_no_route hr'))
        | some s' =>
          obtain ⟨c, heq, hex, hcc, hcs, hch⟩ := remove_of_route hN hc' hv rfl hk hr'
          rw [heq]
          simp only [bind_some, ne_eq, not_true_eq_false, if_false, hex, Bool.false_eq_true]
          set st0 : FtlSt K D := { st with params.data := hctx.entry.data }
          have hok0 : FtlTable.Ok P hash st0.table := hok
          exact RemovePost.of_data (ih hok0 hs' hcc hcs hr' hch (by omega))

/-- **What a remove can do.** -/
theorem FtlMain.remove_post (hN : P.numHints ≤ 6) (hok : FtlTable.Ok P hash st.table)
    (hhash : st.params.hash32b = hash st.params.key) :
    RemovePost P tid st (remove P tid st) := by
  unfold remove
  cases hv : st.table.forest.valid (.main (P.idx hash st.params.key)) with
  | false =>
    have hread : read st (initctx P (hash st.params.key)) false
        = some (initctx P (hash st.params.key)) :=
      FtlBucket.read_of_not_valid (.inl rfl) hv rfl
    have hrem : FtlBucket.remove P st (initctx P (hash st.params.key))
        = some (.entryNotFound, initctx P (hash st.params.key), st) := by
      have hb : (st.table.bucket (.main (P.tableIndex (hash st.params.key)))).valid = false := hv
      unfold FtlBucket.remove
      simp [initctx, hb]
    simp only [hhash, hread, hrem, bind_eq_bind, bind_some]
    exact RemovePost.notFound (d := st.params.data) (hok.forest.not_owned_of_root hv)
  | true =>
    set ctx := mainCtx P st.table (hash st.params.key)
    have hread : read st (initctx P (hash st.params.key)) false = some ctx :=
      read_of_valid (.inl rfl) hv
    have hc : CtxAt st.table (.main (P.idx hash st.params.key)) 0
        (P.msb hash st.params.key) ctx := ⟨rfl, rfl, rfl, rfl, rfl⟩
    simp only [hhash, hread, bind_eq_bind, bind_some]
    by_cases hk : st.table.own (.main (P.idx hash st.params.key)) = st.params.key
    · cases hlast : lastSlot P.numHints
          (st.table.forest.link (.main (P.idx hash st.params.key))) with
      | some s =>
        obtain ⟨ectx, heq, hex, hne, he⟩ := remove_of_last hc hv hok hk hlast
        have hpost : RemovePost P tid st _ := defragment_post hok
          (Forest.OnPath.root (h := P.msb hash st.params.key)) hv hk he hne rfl none
        rw [finishRemove_eq] at hpost
        rw [heq]
        simp only [bind_some, ne_eq, not_true_eq_false, if_false, hex, if_true, hne,
          not_false_eq_true]
        rw [bind_map] at hpost
        exact hpost
      | none =>
        obtain ⟨ectx, st1, heq, hex, hez, -, x, hw⟩ :=
          remove_of_leaf hc hv (Forest.OnPath.root (h := P.msb hash st.params.key)) rfl hk hlast
        have hleaf : st.table.forest.IsLeaf P.numHints (.main (P.idx hash st.params.key)) :=
          fun s h1 h2 => lastSlot_eq_none (hok.forest.more _ hv) hlast h1 h2
        rw [heq]
        simp only [bind_some, ne_eq, not_true_eq_false, if_false, hex, if_true, hez,
          count_dec_entries]
        set T' : FtlTable K D :=
          { st1.table with tstats := FtlTable.bump st1.table.tstats tid (-1) 0 }
        have hrem : FtlTable.Removed P st.table tid (.main (P.idx hash st.params.key))
            (.main (P.idx hash st.params.key)) T' := by
          refine .main rfl hv hleaf ?_ (fun c hvc => ?_) hw.hints ?_
          · ext1
            · exact hw.valid
            · exact hw.link
          · show st1.table.item c = _
            rw [hw.item, update_of_ne]
            rintro rfl
            have hvc' : st1.table.forest.valid (.main (P.idx hash st.params.key)) = true := hvc
            rw [hw.valid, update_self] at hvc'
            exact Bool.false_ne_true hvc'
          · show FtlTable.bump st1.table.tstats tid (-1) 0 = _
            rw [hw.tstats]
        have hpost : RemovePost P tid st _ := .ok hrem hk
        rw [moveLog, if_neg (by simp), List.append_nil] at hpost
        rw [hw.eq]
        exact hpost
    · have hs : Forest.Searched P.numHints st.table.forest (P.idx hash) (P.msb hash)
          st.table.own st.params.key _ 0 := Forest.Searched.root hv hk
      cases hr : route P.numHints (st.table.forest.link (.main (P.idx hash st.params.key)))
          (P.msb hash st.params.key) with
      | none =>
        obtain ⟨c, heq⟩ := remove_of_no_route hN hc hv hk hr
        rw [heq]
        exact .notFound (hs.not_owned hok.forest (deadEnd_of_no_route hr))
      | some s =>
        obtain ⟨c, heq, hex, hcc, hcs, hch⟩ := remove_of_route hN hc hv rfl hk hr
        rw [heq]
        simp only [bind_some, ne_eq, not_true_eq_false, if_false, hex, Bool.false_eq_true]
        set st0 : FtlSt K D := { st with params.data := ctx.entry.data }
        have hok0 : FtlTable.Ok P hash st0.table := hok
        have hpost : RemovePost P tid st0 _ :=
          FtlHint.remove_post hN hok0 hs hcc hcs hr hch (Nat.add_zero _)
        rw [finishRemove_eq] at hpost
        exact hpost.of_data

end Remove

end NicSw
