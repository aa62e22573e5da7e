/-
Reservations in the TCAM: `reserve`, `release` and the transaction.

A reserved index is allocated in the indexer of the table and in the indexer
of the transaction.  `reserve` allocates in the table first; when the
transaction then refuses the index, nothing gives it back.

`Accounted` holds in every state that the API leads to, whatever it is called
with: what the transaction holds is allocated in the table, and it holds
nothing when it is not open.
-/
import NicSw.Sdk.IndexerRuns
import NicSw.Sltcam.Table

namespace NicSw

open Indexer Option

variable {K D : Type*}

/-! ### The calls -/

namespace SltTxn

/-- `start`. -/
def start (txn : SltTxn) : SdkRet × SltTxn :=
  if txn.valid then (.txnExists, txn)
  else if txn.reservedCount ≠ 0 then (.txnIncomplete, txn)
  else (.ok, { txn with valid := true, reservedCount := 0 })

/-- `end`. -/
def stop (txn : SltTxn) : SdkRet × SltTxn :=
  if !txn.valid then (.txnNotFound, txn)
  else if txn.reservedCount ≠ 0 then (.txnIncomplete, txn)
  else (.ok, { txn with valid := false, reservedCount := 0 })

/-- `reserve`; its `alloc_` takes one index, whatever the number of handles. -/
def reserve (txn : SltTxn) (ctx : SltCtx K D) : Option (SdkRet × SltTxn) :=
  if !txn.valid then some (.txnNotFound, txn)
  else if !ctx.tcamIndexValid then none
  else
    match txn.indexer.allocWithid ctx.tcamIndex with
    | .error _ => some (.entryExists, txn)
    | .ok ix => some (.ok, { txn with indexer := ix, reservedCount := txn.reservedCount + 1 })

end SltTxn

namespace Sltcam

variable [LinearOrder K] [Zero D] (P : SltProps K)

/-- `reserve`, which makes its context for the operation `release`. -/
def reserve (T : Sltcam K D) (params : SltParams K D) :
    Option (SdkRet × SltParams K D × Sltcam K D) :=
  (T.alloc (SltCtx.create P .release params)).bind fun
    | (.ok, ctx, T) =>
      (T.txn.reserve ctx).bind fun
        | (.ok, txn) => some (.ok, saveHandle ctx, { T with txn := txn })
        | (ret, txn) => some (ret, ctx.params, { T with txn := txn })
    | (ret, ctx, T) => some (ret, ctx.params, T)

/-- `release`. -/
def release (T : Sltcam K D) (params : SltParams K D) :
    Option (SdkRet × SltParams K D × Sltcam K D) :=
  let ctx := SltCtx.create P .release params
  (T.txn.releaseRet ctx).bind fun
    | (.ok, txn) => (dealloc { T with txn := txn } ctx).map fun r => (r.1, params, r.2)
    | (ret, txn) => some (ret, params, { T with txn := txn })

/-- `txn_start`. -/
def txnStart (T : Sltcam K D) : SdkRet × Sltcam K D :=
  (T.txn.start.1, { T with txn := T.txn.start.2 })

/-- `txn_end`. -/
def txnEnd (T : Sltcam K D) : SdkRet × Sltcam K D :=
  (T.txn.stop.1, { T with txn := T.txn.stop.2 })

/-- A call that changes the TCAM returns. -/
inductive Step (T : Sltcam K D) : Sltcam K D → Prop
  | insert {p ret p' T'} (h : T.insert P p = some (ret, p', T')) : Step T T'
  | update {p ret p' T'} (h : T.update P p = some (ret, p', T')) : Step T T'
  | remove {p ret p' T'} (h : T.remove P p = some (ret, p', T')) : Step T T'
  | reserve {p ret p' T'} (h : T.reserve P p = some (ret, p', T')) : Step T T'
  | release {p ret p' T'} (h : T.release P p = some (ret, p', T')) : Step T T'
  | txnStart : Step T T.txnStart.2
  | txnEnd : Step T T.txnEnd.2

/-- The TCAMs that calls of the API lead to. -/
def Reached : Sltcam K D → Prop := Reachable (· = init P) (Step P)

end Sltcam

/-! ### Freeing a range -/

theorem SltParams.handles_pos (p : SltParams K D) : 1 ≤ p.handles := by
  rw [SltParams.handles]
  split <;> omega

/-- **The loop of `dealloc_`** frees what is allocated in the range, and reports
what became of the last index. -/
theorem sltFreeLoop_spec {ix : Indexer} (hok : ix.Ok) (start n : Nat) :
    (sltFreeLoop ix start n).2.Ok ∧ (sltFreeLoop ix start n).2.size = ix.size ∧
      (∀ k < ix.size, (sltFreeLoop ix start n).2.isUsed k
        = (ix.isUsed k && !decide (start ≤ k ∧ k < start + n))) ∧
      ((sltFreeLoop ix start n).1 = true → 1 ≤ n →
        start + n - 1 < ix.size ∧ ix.isUsed (start + n - 1) = true) := by
  induction n with
  | zero =>
    refine ⟨hok, rfl, fun k _ => ?_, fun _ h => absurd h (by decide)⟩
    have : ¬ (start ≤ k ∧ k < start + 0) := by omega
    simp only [sltFreeLoop, this, decide_false, Bool.not_false, Bool.and_true]
  | succ n ih =>
    obtain ⟨hok', hsize, hused, -⟩ := ih
    -- the frees before leave the next index as it was
    have hnext : start + n < ix.size →
        (sltFreeLoop ix start n).2.isUsed (start + n) = ix.isUsed (start + n) := by
      intro hlt
      have : ¬ (start ≤ start + n ∧ start + n < start + n) := by omega
      rw [hused _ hlt]
      simp only [this, decide_false, Bool.not_false, Bool.and_true]
    rw [sltFreeLoop]
    generalize (sltFreeLoop ix start n).2 = ix1 at hok' hsize hused hnext ⊢
    cases hf : ix1.free (start + n) with
    | ok ix2 =>
      obtain ⟨hlt, hu, -⟩ := free_eq_ok hf
      obtain ⟨ix3, hf', hused', hok2, hsize2⟩ := free_ok hok' hlt hu
      cases hf.symm.trans hf'
      rw [hsize] at hlt
      refine ⟨hok2, hsize2.trans hsize, fun k hk => ?_, fun _ _ => ⟨hlt, hnext hlt ▸ hu⟩⟩
      rw [hused' k, hused k hk, Bool.and_comm, Bool.and_assoc, ← Bool.not_or, ← Bool.decide_or]
      congr 2
      exact decide_eq_decide.mpr (by omega)
    | error e =>
      refine ⟨hok', hsize, fun k hk => ?_, fun h => absurd h Bool.false_ne_true⟩
      rw [hused k hk]
      by_cases hkn : k = start + n
      · -- an index that cannot be freed is not allocated
        subst hkn
        have hfree : ix.isUsed (start + n) = false := by
          rw [← hnext hk]
          by_contra hu
          obtain ⟨ix3, hf', -⟩ :=
            free_ok hok' (hsize ▸ hk) (show ix1.isUsed (start + n) = true by simpa using hu)
          rw [hf] at hf'
          cases hf'
        rw [hfree, Bool.false_and, Bool.false_and]
      · congr 2
        exact decide_eq_decide.mpr (by omega)

/-! ### The transaction -/

namespace SltTxn

/-- **The indexer and the counter of a transaction** over `n` indexes. -/
structure Ok (n : Nat) (txn : SltTxn) : Prop where
  txn_ok : txn.indexer.Ok
  txn_size : txn.indexer.size = n
  count : txn.indexer.allocated.card ≤ txn.reservedCount
  idle : txn.valid = false → txn.reservedCount = 0

/-- The transaction is in order and holds nothing that it did not hold before. -/
structure Less (n : Nat) (txn txn' : SltTxn) : Prop where
  ok : Ok n txn'
  less : ∀ k < n, txn'.indexer.isUsed k = true → txn.indexer.isUsed k = true

variable {n : Nat} {txn : SltTxn}

theorem Ok.of_init (n : Nat) : Ok n ⟨false, 0, init n false⟩ := by
  obtain ⟨hok, hsize, -⟩ := init_ok n
  exact ⟨hok, hsize, (card_allocated_init _).le, fun _ => rfl⟩

section

variable (h : Ok n txn)
include h

/-- A transaction that is not open holds nothing. -/
theorem Ok.unused_of_idle (hidle : txn.valid = false) {k : Nat} (hk : k < n) :
    txn.indexer.isUsed k = false := by
  have hcard := h.count
  rw [h.idle hidle, Nat.le_zero] at hcard
  exact unused_of_card_eq_zero hcard (h.txn_size ▸ hk)

theorem Ok.less : Less n txn txn := ⟨h, fun _ _ => id⟩

/-- `start` and `end` of a transaction that has nothing reserved. -/
theorem Ok.reset (hz : ¬ txn.reservedCount ≠ 0) (v : Bool) :
    Less n txn { txn with valid := v, reservedCount := 0 } :=
  ⟨⟨h.txn_ok, h.txn_size, h.count.trans (Nat.le_of_eq (not_not.mp hz)), fun _ => rfl⟩,
    fun _ _ => id⟩

theorem Ok.start : Less n txn txn.start.2 := by
  unfold SltTxn.start
  split
  · exact h.less
  · split
    · exact h.less
    · exact h.reset ‹_› true

theorem Ok.stop : Less n txn txn.stop.2 := by
  unfold SltTxn.stop
  split
  · exact h.less
  · split
    · exact h.less
    · exact h.reset ‹_› false

end

end SltTxn

/-! ### Accounting -/

variable (P : SltProps K)

/-- **The indexers of a table and of its transaction agree.** -/
structure Accounted (ix : Indexer) (txn : SltTxn) : Prop extends txn.Ok P.tableSize where
  ok : ix.Ok
  size : ix.size = P.tableSize
  sub : ∀ k < P.tableSize, txn.indexer.isUsed k = true → ix.isUsed k = true

namespace Accounted

variable {P} {ix ix' : Indexer} {txn txn' : SltTxn} {ctx : SltCtx K D} {ret : SdkRet} {i : Nat}

theorem of_init (P : SltProps K) :
    Accounted P (init P.tableSize false) ⟨false, 0, init P.tableSize false⟩ := by
  obtain ⟨hok, hsize, -⟩ := init_ok P.tableSize
  exact ⟨.of_init _, hok, hsize, fun _ _ h => h⟩

section

variable (h : Accounted P ix txn)
include h

/-- The transaction may hold less. -/
theorem less (ht : txn.Less P.tableSize txn') : Accounted P ix txn' :=
  ⟨ht.ok, h.ok, h.size, fun k hk hu => h.sub k hk (ht.less k hk hu)⟩

theorem alloc {lowest : Bool} (ha : ix.alloc lowest = .ok (i, ix')) : Accounted P ix' txn := by
  obtain ⟨-, -, hused, hok, hsize⟩ := alloc_ok h.ok ha
  refine ⟨h.toOk, hok, hsize.trans h.size, fun k hk hu => ?_⟩
  rw [hused, h.sub k hk hu, Bool.or_true]

/-- The table may free what the transaction does not hold. -/
theorem free {start n : Nat}
    (hno : ∀ k < P.tableSize, start ≤ k → k < start + n → txn.indexer.isUsed k = false) :
    Accounted P (sltFreeLoop ix start n).2 txn := by
  obtain ⟨hok, hsize, hused, -⟩ := sltFreeLoop_spec h.ok start n
  refine ⟨h.toOk, hok, hsize.trans h.size, fun k hk hu => ?_⟩
  have hout : ¬ (start ≤ k ∧ k < start + n) := by
    rintro ⟨h1, h2⟩
    rw [hno k hk h1 h2] at hu
    cases hu
  rw [hused k (h.size ▸ hk), h.sub k hk hu, decide_eq_false hout]
  rfl

/-- **The transaction takes an index of the table.** -/
theorem txn_reserve (hu : ix.isUsed ctx.tcamIndex = true)
    (hr : txn.reserve ctx = some (ret, txn')) : Accounted P ix txn' := by
  unfold SltTxn.reserve at hr
  split at hr
  · cases hr
    exact h
  rename_i hvalid
  split at hr
  · cases hr
  cases ha : txn.indexer.allocWithid ctx.tcamIndex with
  | error e =>
    rw [ha] at hr
    cases hr
    exact h
  | ok ix1 =>
    rw [ha] at hr
    cases hr
    obtain rfl := allocWithid_eq_ok ha
    have hoff := Nat.mod_lt ctx.tcamIndex (show 0 < 64 by decide)
    have hused : ∀ k, (txn.indexer.mark (ctx.tcamIndex / 64) (ctx.tcamIndex % 64)).isUsed k
        = (decide (k = ctx.tcamIndex) || txn.indexer.isUsed k) := by
      intro k
      rw [isUsed_mark hoff, Nat.div_add_mod']
    refine ⟨⟨h.txn_ok.mark hoff, h.txn_size, ?_, fun hf => absurd hf (by simpa using hvalid)⟩,
      h.ok, h.size, fun k hk hk' => ?_⟩
    · exact (card_allocated_mark_le hoff).trans (Nat.succ_le_succ h.count)
    · rw [hused, Bool.or_eq_true, decide_eq_true_eq] at hk'
      rcases hk' with rfl | hk'
      · exact hu
      · exact h.sub k hk hk'

/-- **The transaction gives indexes up**, all of the range that it holds. -/
theorem txn_release (hr : txn.releaseRet ctx = some (ret, txn')) :
    Accounted P ix txn' ∧ ∀ k < P.tableSize, ctx.tcamIndex ≤ k →
      k < ctx.tcamIndex + ctx.params.handles → txn'.indexer.isUsed k = false := by
  unfold SltTxn.releaseRet at hr
  split at hr
  · rename_i hvalid
    cases hr
    exact ⟨h, fun k hk _ _ => h.unused_of_idle (by simpa using hvalid) hk⟩
  rename_i hvalid
  split at hr
  · cases hr
  obtain ⟨hok, hsize, hused, hlast⟩ := sltFreeLoop_spec h.txn_ok ctx.tcamIndex ctx.params.handles
  generalize sltFreeLoop txn.indexer ctx.tcamIndex ctx.params.handles = r
    at hr hok hsize hused hlast
  obtain ⟨ok, ix1⟩ := r
  have hcleared : ∀ k < P.tableSize, ctx.tcamIndex ≤ k →
      k < ctx.tcamIndex + ctx.params.handles → ix1.isUsed k = false := by
    intro k hk h1 h2
    rw [hused k (h.txn_size ▸ hk), decide_eq_true ⟨h1, h2⟩, Bool.not_true, Bool.and_false]
  have hkept : ∀ k < P.tableSize, ix1.isUsed k = true → txn.indexer.isUsed k = true := by
    intro k hk hu
    rw [hused k (h.txn_size ▸ hk), Bool.and_eq_true] at hu
    exact hu.1
  have hkept' : ∀ k < txn.indexer.size, ix1.isUsed k = true → txn.indexer.isUsed k = true :=
    fun k hk => hkept k (h.txn_size ▸ hk)
  cases ok with
  | false =>
    cases hr
    exact ⟨h.less ⟨⟨hok, hsize.trans h.txn_size,
      (card_allocated_le hsize hkept').trans h.count, h.idle⟩, hkept⟩, hcleared⟩
  | true =>
    dsimp only at hr
    split at hr
    · cases hr
    cases hr
    refine ⟨h.less ⟨⟨hok, hsize.trans h.txn_size, ?_,
      fun hf => absurd hf (by simpa using hvalid)⟩, hkept⟩, hcleared⟩
    -- the last index of the range was held
    have hpos := ctx.params.handles_pos
    obtain ⟨hlt, hu⟩ := hlast rfl hpos
    have hcard : ix1.allocated.card < txn.indexer.allocated.card :=
      card_allocated_lt hsize hkept' hlt hu (hcleared _ (h.txn_size ▸ hlt) (by omega) (by omega))
    have hcount := h.count
    show ix1.allocated.card ≤ txn.reservedCount - 1
    omega

end

end Accounted

/-! ### The calls keep the accounts -/

theorem triple_inj {α β γ : Type*} {a a' : α} {b b' : β} {c c' : γ}
    (h : (a, b, c) = (a', b', c')) : a = a' ∧ b = b' ∧ c = c' := by
  obtain ⟨ha, hbc⟩ := Prod.mk.inj h
  exact ⟨ha, Prod.mk.inj hbc⟩

/-- What a call returns, read off its result. -/
theorem some_triple_inj {α β γ : Type*} {a a' : α} {b b' : β} {c c' : γ}
    (h : some (a, b, c) = some (a', b', c')) : a = a' ∧ b = b' ∧ c = c' :=
  triple_inj (Option.some.inj h)

namespace Sltcam

section Calls

variable {P} {T T' : Sltcam K D} {ctx : SltCtx K D} {p p' : SltParams K D} {ret : SdkRet}

theorem release_accounted (h : Accounted P T.indexer T.txn) {txn' : SltTxn}
    (hr : T.txn.release ctx = some txn') :
    Accounted P T.indexer txn' ∧ ∀ k < P.tableSize, ctx.tcamIndex ≤ k →
      k < ctx.tcamIndex + ctx.params.handles → txn'.indexer.isUsed k = false := by
  rw [SltTxn.release] at hr
  obtain ⟨⟨ret, txn⟩, hret, rfl⟩ := map_eq_some_iff.mp hr
  exact h.txn_release hret

theorem insertAt_accounted (h : Accounted P T.indexer T.txn)
    (hc : T.insertAt ctx = some (ret, p', T')) : Accounted P T'.indexer T'.txn := by
  obtain ⟨db, -, hdb⟩ := bind_eq_some_iff.mp hc
  obtain ⟨txn, hr, htxn⟩ := bind_eq_some_iff.mp hdb
  cases htxn
  exact (release_accounted h hr).1

section Alloc

variable {i : Nat} {ix : Indexer} {e : IndexerError} (hv : ctx.tcamIndexValid = false)

include hv

theorem alloc_of_ok (ha : T.indexer.alloc (!ctx.params.highest) = .ok (i, ix)) :
    T.alloc ctx = some (.ok, { ctx with tcamIndex := i, tcamIndexValid := true },
      { T with indexer := ix }) := by
  unfold Sltcam.alloc
  rw [hv, if_neg Bool.false_ne_true, ha]

theorem alloc_of_error (ha : T.indexer.alloc (!ctx.params.highest) = .error e) :
    T.alloc ctx = some (.noResource, ctx, T) := by
  unfold Sltcam.alloc
  rw [hv, if_neg Bool.false_ne_true, ha]

end Alloc

/-- `alloc_` takes an index or leaves everything as it is. -/
theorem alloc_accounted (h : Accounted P T.indexer T.txn) {ctx' : SltCtx K D}
    (hc : T.alloc ctx = some (ret, ctx', T')) :
    Accounted P T'.indexer T'.txn ∧
      (ret = .ok → T'.indexer.isUsed ctx'.tcamIndex = true) ∧ (ret ≠ .ok → T' = T) := by
  unfold Sltcam.alloc at hc
  split at hc
  · cases hc
  split at hc
  · rename_i i ix ha
    cases hc
    obtain ⟨-, -, hused, -⟩ := alloc_ok h.ok ha
    refine ⟨h.alloc ha, fun _ => ?_, fun hret => absurd rfl hret⟩
    rw [hused, decide_eq_true rfl, Bool.true_or]
  · cases hc
    exact ⟨h, fun hret => absurd hret (by decide), fun _ => rfl⟩

theorem dealloc_accounted (h : Accounted P T.indexer T.txn)
    (hno : ∀ k < P.tableSize, ctx.tcamIndex ≤ k → k < ctx.tcamIndex + ctx.params.handles →
      T.txn.indexer.isUsed k = false)
    (hc : T.dealloc ctx = some (ret, T')) : Accounted P T'.indexer T'.txn := by
  have hfree := h.free hno
  unfold Sltcam.dealloc at hc
  split at hc
  · cases hc
  · generalize sltFreeLoop T.indexer ctx.tcamIndex ctx.params.handles = r at hc hfree
    obtain ⟨_ | _, ix⟩ := r <;> (obtain ⟨-, rfl⟩ := Prod.mk.inj (Option.some.inj hc); exact hfree)

variable [LinearOrder K] [Zero D]

section

variable (h : Accounted P T.indexer T.txn)
include h

theorem insert_accounted
    (hc : T.insert P p = some (ret, p', T')) : Accounted P T'.indexer T'.txn := by
  unfold Sltcam.insert at hc
  dsimp only at hc
  split at hc
  · split at hc
    · cases hc
      exact h
    split at hc
    · exact insertAt_accounted h hc
    obtain ⟨⟨ret1, ctx1, T1⟩, ha, hrest⟩ := bind_eq_some_iff.mp hc
    obtain ⟨h₁, -, -⟩ := alloc_accounted h ha
    split at hrest
    · rename_i heq
      cases heq
      exact insertAt_accounted h₁ hrest
    · rename_i heq
      cases heq
      cases hrest
      exact h₁
  · cases hc
    exact h

/-- `update` does not touch the indexers. -/
theorem update_accounted
    (hc : T.update P p = some (ret, p', T')) : Accounted P T'.indexer T'.txn := by
  unfold Sltcam.update at hc
  dsimp only at hc
  split at hc
  · split at hc
    · cases hc
      exact h
    · split at hc <;> (obtain ⟨-, -, rfl⟩ := some_triple_inj hc; exact h)
  · cases hc
    exact h

theorem removeKey_accounted
    (hc : T.removeKey P ctx = some (ret, p', T')) : Accounted P T'.indexer T'.txn := by
  unfold Sltcam.removeKey at hc
  split at hc
  · rename_i ctx1 hfind
    obtain ⟨db, -, hdb⟩ := bind_eq_some_iff.mp hc
    obtain ⟨txn, hr, htxn⟩ := bind_eq_some_iff.mp hdb
    obtain ⟨⟨ret1, T1⟩, hd, hrest⟩ := bind_eq_some_iff.mp htxn
    cases hrest
    obtain ⟨h₁, hclear⟩ := release_accounted h hr
    -- one index is freed in the table, and the transaction gave it up before
    have hgone : ∀ k < P.tableSize, ctx1.tcamIndex ≤ k → k < ctx1.tcamIndex + 1 →
        txn.indexer.isUsed k = false := by
      intro k hk h1 h2
      have hpos := ctx1.params.handles_pos
      exact hclear k hk h1 (show k < ctx1.tcamIndex + ctx1.params.handles by omega)
    exact @dealloc_accounted _ _ P ⟨T.indexer, txn, db, (T.write (ctx1.clearsw P)).hw⟩ _ _ _ h₁
      hgone hd
  · cases hc
    exact h

theorem remove_accounted
    (hc : T.remove P p = some (ret, p', T')) : Accounted P T'.indexer T'.txn := by
  unfold Sltcam.remove at hc
  dsimp only at hc
  split at hc
  · split at hc
    · obtain ⟨ctx1, -, hrest⟩ := bind_eq_some_iff.mp hc
      exact removeKey_accounted h hrest
    · exact removeKey_accounted h hc
  · cases hc
    exact h

omit [LinearOrder K] in
theorem reserve_accounted
    (hc : T.reserve P p = some (ret, p', T')) : Accounted P T'.indexer T'.txn := by
  obtain ⟨⟨ret1, ctx1, T1⟩, ha, hrest⟩ := bind_eq_some_iff.mp hc
  obtain ⟨h₁, hused, -⟩ := alloc_accounted h ha
  split at hrest
  · rename_i heq
    cases heq
    obtain ⟨⟨ret2, txn⟩, hr, hlast⟩ := bind_eq_some_iff.mp hrest
    have h₂ := h₁.txn_reserve (hused rfl) hr
    split at hlast <;>
      (rename_i heq'; obtain ⟨-, rfl⟩ := Prod.mk.inj heq'
       obtain ⟨-, -, rfl⟩ := some_triple_inj hlast; exact h₂)
  · rename_i heq
    cases heq
    cases hrest
    exact h₁

omit [LinearOrder K] in
theorem release_call_accounted
    (hc : T.release P p = some (ret, p', T')) : Accounted P T'.indexer T'.txn := by
  obtain ⟨⟨ret1, txn⟩, hr, hrest⟩ := bind_eq_some_iff.mp hc
  obtain ⟨h₁, hclear⟩ := h.txn_release hr
  split at hrest
  · rename_i heq
    cases heq
    obtain ⟨⟨ret2, T2⟩, hd, hlast⟩ := map_eq_some_iff.mp hrest
    cases hlast
    exact @dealloc_accounted _ _ P { T with txn := txn } _ _ _ h₁ hclear hd
  · rename_i heq
    cases heq
    cases hrest
    exact h₁

end

/-- **The indexers agree in every state that the API leads to.** -/
theorem Reached.accounted (hr : Reached P T) : Accounted P T.indexer T.txn := by
  refine @Reachable.invariant _ _ _ (fun T : Sltcam K D => Accounted P T.indexer T.txn) _ hr
    (fun T h0 => ?_) fun T T' h hs => ?_
  · rw [h0]
    exact .of_init P
  · cases hs with
    | insert hc => exact insert_accounted h hc
    | update hc => exact update_accounted h hc
    | remove hc => exact remove_accounted h hc
    | reserve hc => exact reserve_accounted h hc
    | release hc => exact release_call_accounted h hc
    | txnStart => exact h.less h.toOk.start
    | txnEnd => exact h.less h.toOk.stop

/-! ### Reserves that fail -/

variable (P T p) in
/-- **A reserve that fails leaves no trace** in the two indexers. -/
def NoTrace : Prop :=
  ∀ ret p' T', T.reserve P p = some (ret, p', T') → ret ≠ .ok →
    (∀ k, T'.indexer.isUsed k = T.indexer.isUsed k) ∧
      ∀ k, T'.txn.indexer.isUsed k = T.txn.indexer.isUsed k

omit [LinearOrder K] in
/-- What `reserve` does once the table has an index for it. -/
theorem reserve_of_alloc (h : Accounted P T.indexer T.txn) (hp : p.handle.pvalid = false) {i : Nat}
    {ix : Indexer} (ha : T.indexer.alloc (!p.highest) = .ok (i, ix)) :
    T.reserve P p =
      if T.txn.valid then
        some (.ok, { p with handle := p.handle.setPindex i },
          ⟨ix, ⟨true, T.txn.reservedCount + 1, T.txn.indexer.mark (i / 64) (i % 64)⟩, T.db, T.hw⟩)
      else some (.txnNotFound, p, { T with indexer := ix }) := by
  obtain ⟨hlt, hfree, -⟩ := alloc_ok h.ok ha
  rw [h.size] at hlt
  -- the transaction cannot hold an index that was free in the table
  have hunused : T.txn.indexer.isUsed i = false := by
    by_contra hu
    rw [h.sub i hlt (by simpa using hu)] at hfree
    cases hfree
  have hwithid := allocWithid_of_free h.txn_ok (h.txn_size ▸ hlt) hunused
  have halloc : T.alloc (SltCtx.create P .release p) = _ := alloc_of_ok hp ha
  rw [Sltcam.reserve, halloc, bind_some]
  show (SltTxn.reserve T.txn _).bind _ = _
  unfold SltTxn.reserve
  cases hv : T.txn.valid with
  | false => rfl
  | true =>
    rw [hwithid]
    rfl

omit [LinearOrder K] in
theorem reserve_of_error (hp : p.handle.pvalid = false) {e : IndexerError}
    (ha : T.indexer.alloc (!p.highest) = .error e) :
    T.reserve P p = some (.noResource, p, T) := by
  have halloc : T.alloc (SltCtx.create P .release p) = _ := alloc_of_error hp ha
  rw [Sltcam.reserve, halloc]
  rfl

omit [LinearOrder K] in
/-- **A reserve that fails leaves no trace exactly if** a transaction is open,
or the table has no index to give. -/
theorem noTrace_iff (h : Accounted P T.indexer T.txn) (p : SltParams K D) :
    NoTrace P T p ↔ p.handle.pvalid = true ∨ T.txn.valid = true ∨
      (∀ k < P.tableSize, T.indexer.isUsed k = true) ∨
      (p.highest = true ∧ ¬ T.indexer.TopWordOpen) := by
  have hwords : T.indexer.numWords ≠ 0 := by
    have := h.ok.words
    have := h.size
    have := P.tableSize_pos
    omega
  have herr := alloc_error_iff h.ok hwords (!p.highest)
  rw [h.size, Bool.not_eq_false'] at herr
  rw [← herr]
  cases hp : p.handle.pvalid with
  | true =>
    refine iff_of_true (fun ret p' T' hc => ?_) (.inl rfl)
    have hnone : T.reserve P p = none := by
      show Option.bind (if p.handle.pvalid then none else _) _ = none
      rw [hp]
      rfl
    rw [hnone] at hc
    cases hc
  | false =>
    cases ha : T.indexer.alloc (!p.highest) with
    | error e =>
      refine iff_of_true (fun ret p' T' hc _ => ?_) (.inr (.inr ⟨e, rfl⟩))
      have hfail : T.reserve P p = some (.noResource, p, T) := reserve_of_error hp ha
      cases hfail.symm.trans hc
      exact ⟨fun _ => rfl, fun _ => rfl⟩
    | ok r =>
      obtain ⟨i, ix⟩ := r
      have hc1 := reserve_of_alloc h hp ha
      cases hv : T.txn.valid with
      | true =>
        refine iff_of_true (fun ret p' T' hc hret => ?_) (.inr (.inl rfl))
        rw [hv, if_pos rfl] at hc1
        cases hc1.symm.trans hc
        exact absurd rfl hret
      | false =>
        -- the index stays allocated in the table
        refine iff_of_false (fun hno => ?_) ?_
        · rw [hv, if_neg Bool.false_ne_true] at hc1
          obtain ⟨-, hfree, hused, -⟩ := alloc_ok h.ok ha
          have hsame := (hno _ _ _ hc1 (by decide)).1 i
          rw [hused, hfree, decide_eq_true rfl] at hsame
          cases hsame
        · rintro (hf | hf | ⟨e, hf⟩) <;> cases hf

/-- Over all states that the API leads to. -/
theorem Reached.reserve_noTrace_iff (hr : Reached P T) (p : SltParams K D) :
    NoTrace P T p ↔ p.handle.pvalid = true ∨ T.txn.valid = true ∨
      (∀ k < P.tableSize, T.indexer.isUsed k = true) ∨
      (p.highest = true ∧ ¬ T.indexer.TopWordOpen) :=
  noTrace_iff hr.accounted p

/-- A reserve of `n` handles. -/
def reserveParams (n : Nat) : SltParams Nat Nat := ⟨0, 0, Handle.null, n, false⟩

/-- A reserve in a transaction that has reserved before. -/
theorem Reached.reserve_noTrace_open :
    ∃ T : Sltcam Nat Nat, T.txn.indexer.isUsed 1 = true ∧ NoTrace smallTcam T (reserveParams 1) := by
  have h1 : Reached smallTcam (init smallTcam : Sltcam Nat Nat).txnStart.2 :=
    .step (.start rfl) .txnStart
  have h2 := h1.step (.reserve (p := reserveParams 1) rfl)
  have h3 := h2.step (.reserve (p := reserveParams 1) rfl)
  exact ⟨_, rfl, (Reached.reserve_noTrace_iff h3 _).mpr (.inr (.inl rfl))⟩

/-- Without a transaction a reserve fails, and its index stays allocated. -/
theorem not_noTrace_noTransaction :
    Reached smallTcam (init smallTcam : Sltcam Nat Nat) ∧
      ¬ NoTrace smallTcam (init smallTcam : Sltcam Nat Nat) (reserveParams 1) := by
  refine ⟨.start rfl, ?_⟩
  rw [noTrace_iff (.of_init smallTcam)]
  rintro (h | h | h | ⟨h, -⟩)
  · cases h
  · cases h
  · have hzero := h 0 (by decide)
    cases hzero
  · cases h

end Calls

end Sltcam

end NicSw
