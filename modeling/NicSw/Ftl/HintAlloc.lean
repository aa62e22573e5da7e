/-
Hint allocation of the FTL: the bitmap indexer (`ftl_indexer.hpp`) and the
thread local pools in front of it (`hint_table::alloc_`, `dealloc_`).

An alloc takes the top of the thread's pool; an empty pool is first refilled
from the indexer, 256 indexes at a time.  A dealloc returns the index to the
indexer and not to the pool.

`Ok` is the accounting invariant: an index is marked in the indexer
exactly when it is `0`, handed out, or in one position of one pool.
-/
import NicSw.Lib.Bitmap
import NicSw.Lib.Run

namespace NicSw

open Function

/-! ### The indexer -/

/-- `ftlint::indexer`. -/
structure FtlIndexer where
  pool : Nat → BitVec 64
  numWords : Nat
  lastAlloc : Nat

/-- `__builtin_ffsll`: one plus the index of the lowest set bit, or `0`. -/
def ffsll (x : BitVec 64) : Nat :=
  match (List.range 64).find? fun i => x.getLsbD i with
  | some i => i + 1
  | none => 0

namespace FtlIndexer

/-- `indexer::init`. -/
def init (numEntries : Nat) : FtlIndexer :=
  ⟨fun _ => 0#64, numEntries / 64, 0⟩

/-- The loop of `indexer::alloc`, `n` words at most, from word `w` until it is
back at `start`. -/
def allocFrom (ix : FtlIndexer) (start : Nat) : Nat → Nat → Option (Nat × FtlIndexer)
  | 0, _ => none
  | n + 1, w =>
    match ffsll (~~~ix.pool w) with
    | i + 1 =>
      some (w * 64 + i,
        { ix with
          pool := update ix.pool w (ix.pool w ||| 1#64 <<< i)
          lastAlloc := w * 64 + i })
    | 0 =>
      let w' := (w + 1) % ix.numWords
      if w' = start then none else allocFrom ix start n w'

/-- `indexer::alloc`; `none` is `SDK_RET_NO_RESOURCE`. -/
def alloc (ix : FtlIndexer) : Option (Nat × FtlIndexer) :=
  ix.allocFrom (ix.lastAlloc / 64) ix.numWords (ix.lastAlloc / 64)

/-- `indexer::free`. -/
def free (ix : FtlIndexer) (index : Nat) : FtlIndexer :=
  { ix with
    pool := update ix.pool (index / 64)
      (ix.pool (index / 64) &&& ~~~(1#64 <<< (index % 64))) }

/-- Index `i` is marked in the bitmap. -/
def isUsed (ix : FtlIndexer) (i : Nat) : Bool := (ix.pool (i / 64)).getLsbD (i % 64)

theorem ffsll_eq_succ {x : BitVec 64} {i : Nat} (h : ffsll x = i + 1) :
    i < 64 ∧ x.getLsbD i = true := by
  unfold ffsll at h
  split at h
  · rename_i j hj
    obtain rfl : j = i := by omega
    exact ⟨List.mem_range.mp (List.mem_of_find?_eq_some hj), by simpa using List.find?_some hj⟩
  · omega

theorem ffsll_eq_zero {x : BitVec 64} {i : Nat} (h : ffsll x = 0) (hi : i < 64) :
    x.getLsbD i = false := by
  unfold ffsll at h
  split at h
  · omega
  · rename_i hnone
    simpa using List.find?_eq_none.mp hnone i (List.mem_range.mpr hi)

variable {ix ix' : FtlIndexer} {i start n w : Nat}

/-- Setting bit `i` of word `w` marks that index and no other. -/
theorem isUsed_set {l k : Nat} (hi : i < 64) :
    isUsed { ix with
        pool := update ix.pool w (ix.pool w ||| 1#64 <<< i), lastAlloc := l } k
      = (decide (k = w * 64 + i) || ix.isUsed k) :=
  Bitmap.test_set hi k

theorem allocFrom_eq_some (hw : w < ix.numWords) (h : ix.allocFrom start n w = some (i, ix')) :
    i / 64 < ix.numWords ∧ ix.isUsed i = false ∧ ix'.numWords = ix.numWords ∧
      ix'.lastAlloc = i ∧ ∀ k, ix'.isUsed k = (decide (k = i) || ix.isUsed k) := by
  induction n generalizing w with
  | zero => cases h
  | succ n ih =>
    unfold allocFrom at h
    split at h
    · rename_i b hb
      obtain ⟨hlt, hbit⟩ := ffsll_eq_succ hb
      cases h
      refine ⟨by omega, ?_, rfl, rfl, fun k => isUsed_set hlt⟩
      refine (Bitmap.test_word _ _ hlt).trans ?_
      simpa [hlt] using hbit
    · simp only at h
      split at h
      · cases h
      · exact ih (Nat.mod_lt _ (by omega)) h

/-- A word with a free bit ends the search. -/
theorem allocFrom_of_ffsll (h : ffsll (~~~ix.pool w) = i + 1) :
    ∃ ix', ix.allocFrom start (n + 1) w = some (w * 64 + i, ix') := by
  rw [allocFrom, h]
  exact ⟨_, rfl⟩

/-- **Alloc** marks one index that was not marked. -/
theorem alloc_eq_some (hw : ix.lastAlloc / 64 < ix.numWords) (h : ix.alloc = some (i, ix')) :
    i / 64 < ix.numWords ∧ ix.isUsed i = false ∧ ix'.numWords = ix.numWords ∧
      ix'.lastAlloc = i ∧ ∀ k, ix'.isUsed k = (decide (k = i) || ix.isUsed k) :=
  allocFrom_eq_some hw h

/-- **The loop goes round**: it gives up only when no word has a free bit.  The
`j` words from `start` on have been looked at. -/
theorem allocFrom_eq_none {j : Nat} (hstart : start < ix.numWords) (hn : ix.numWords ≤ j + n)
    (hfull : ∀ i < j, ffsll (~~~ix.pool ((start + i) % ix.numWords)) = 0)
    (h : ix.allocFrom start n ((start + j) % ix.numWords) = none) :
    ∀ i < ix.numWords, ffsll (~~~ix.pool ((start + i) % ix.numWords)) = 0 := by
  induction n generalizing j with
  | zero => exact fun i hi => hfull i (by omega)
  | succ n ih =>
    unfold allocFrom at h
    split at h
    · cases h
    rename_i hword
    have hfull' : ∀ i < j + 1, ffsll (~~~ix.pool ((start + i) % ix.numWords)) = 0 := by
      intro i hi
      rcases Nat.lt_succ_iff_lt_or_eq.mp hi with hi | rfl
      · exact hfull i hi
      · exact hword
    rw [Nat.mod_add_mod, Nat.add_assoc] at h
    simp only at h
    split at h
    · rename_i hback
      -- back at the start, so all words have been looked at
      have hle : ix.numWords ≤ j + 1 := by
        by_contra hlt
        rcases Nat.lt_or_ge (start + (j + 1)) ix.numWords with hsum | hsum
        · rw [Nat.mod_eq_of_lt hsum] at hback
          omega
        · rw [Nat.mod_eq_sub_mod hsum, Nat.mod_eq_of_lt (by omega)] at hback
          omega
      exact fun i hi => hfull' i (by omega)
    · exact ih (by omega) hfull' h

/-- Alloc fails only when every index is marked. -/
theorem isUsed_of_alloc_eq_none (hw : ix.lastAlloc / 64 < ix.numWords) (h : ix.alloc = none)
    (hi : i / 64 < ix.numWords) : ix.isUsed i = true := by
  have h0 : ix.allocFrom (ix.lastAlloc / 64) ix.numWords
      ((ix.lastAlloc / 64 + 0) % ix.numWords) = none := by
    rwa [Nat.add_zero, Nat.mod_eq_of_lt hw]
  have hfull := allocFrom_eq_none hw (Nat.zero_add _).ge (fun i hi => absurd hi (Nat.not_lt_zero i)) h0
  generalize ix.lastAlloc / 64 = start at hw hfull
  -- the word of the index, counted from the start
  have hword : ffsll (~~~ix.pool (i / 64)) = 0 := by
    rcases Nat.lt_or_ge (i / 64) start with hlt | hge
    · have := hfull (i / 64 + ix.numWords - start) (by omega)
      rwa [show start + (i / 64 + ix.numWords - start) = i / 64 + ix.numWords by omega,
        Nat.add_mod_right, Nat.mod_eq_of_lt hi] at this
    · have := hfull (i / 64 - start) (by omega)
      rwa [show start + (i / 64 - start) = i / 64 by omega, Nat.mod_eq_of_lt hi] at this
  have hlt : i % 64 < 64 := Nat.mod_lt _ (by decide)
  simpa [isUsed, hlt] using ffsll_eq_zero hword hlt

/-- **Free** unmarks one index. -/
theorem isUsed_free (ix : FtlIndexer) (i k : Nat) :
    (ix.free i).isUsed k = (!decide (k = i) && ix.isUsed k) :=
  Bitmap.test_clear _ _ _

/-- An alloc that succeeds, or a free of an index of the table; beside the
indexer, the indexes that were allocated and not freed since. -/
inductive Step (size : Nat) (s : FtlIndexer × Finset Nat) : FtlIndexer × Finset Nat → Prop
  | alloc {k : Nat} {ix₁ : FtlIndexer} (call : s.1.alloc = some (k, ix₁)) :
      Step size s (ix₁, insert k s.2)
  | free {k : Nat} (lt : k < size) : Step size s (s.1.free k, s.2.erase k)

/-- **The indexer**: over every history, alloc returns an index of the table that
is not allocated, and fails exactly when all are allocated. -/
theorem alloc_of_reachable {size : Nat} (hdvd : 64 ∣ size) (hpos : 0 < size)
    {s : FtlIndexer × Finset Nat} (hr : Reachable (· = (init size, ∅)) (Step size) s) :
    (∀ i ix', s.1.alloc = some (i, ix') → i ∉ s.2 ∧ i < size) ∧
      (s.1.alloc = none ↔ ∀ i < size, i ∈ s.2) := by
  have hi : (∀ k, s.1.isUsed k = true ↔ k ∈ s.2) ∧ s.1.lastAlloc / 64 < s.1.numWords ∧
      s.1.numWords = size / 64 := by
    refine hr.invariant (I := fun s => (∀ k, s.1.isUsed k = true ↔ k ∈ s.2) ∧
      s.1.lastAlloc / 64 < s.1.numWords ∧ s.1.numWords = size / 64) ?_ ?_
    · rintro _ rfl
      refine ⟨fun k => by simp [isUsed, init], ?_, rfl⟩
      show 0 / 64 < size / 64
      omega
    rintro s s' ⟨hused, hcur, hwords⟩ hstep
    cases hstep with
    | alloc call =>
      obtain ⟨hlt, -, hw, hl, hused'⟩ := alloc_eq_some hcur call
      refine ⟨fun k => ?_, by rw [hl, hw]; exact hlt, hw.trans hwords⟩
      rw [hused' k, Bool.or_eq_true, decide_eq_true_eq, hused k, Finset.mem_insert]
    | free lt =>
      refine ⟨fun k => ?_, hcur, hwords⟩
      rw [isUsed_free, Bool.and_eq_true, hused k, Finset.mem_erase]
      simp
  obtain ⟨hused, hcur, hwords⟩ := hi
  have hsome : ∀ i ix', s.1.alloc = some (i, ix') → i ∉ s.2 ∧ i < size := by
    intro i ix' h
    obtain ⟨hlt, hfree, -⟩ := alloc_eq_some hcur h
    rw [← hused, hfree]
    exact ⟨Bool.false_ne_true, by omega⟩
  refine ⟨hsome, fun h i hlt => (hused i).mp (isUsed_of_alloc_eq_none hcur h (by omega)), ?_⟩
  intro hall
  cases ha : s.1.alloc with
  | none => rfl
  | some r =>
    obtain ⟨hnot, hlt⟩ := hsome r.1 r.2 ha
    exact absurd (hall _ hlt) hnot

/-- Two indexes are allocated and the first one is freed. -/
theorem alloc_of_reachable_freed :
    ∃ s : FtlIndexer × Finset Nat, s.2 = {1} ∧
      (∀ i ix', s.1.alloc = some (i, ix') → i ∉ s.2 ∧ i < 128) ∧
      (s.1.alloc = none ↔ ∀ i < 128, i ∈ s.2) := by
  have h0 : Reachable (· = (init 128, ∅)) (Step 128) (init 128, ∅) := .start rfl
  have h1 := h0.step (.alloc rfl)
  have h2 := h1.step (.alloc rfl)
  have h3 := h2.step (.free (k := 0) (by decide))
  exact ⟨_, by decide, alloc_of_reachable (by decide) (by decide) h3⟩

end FtlIndexer

/-! ### The thread local pools -/

/-- `PDS_FLOW_HINT_POOL_COUNT_MAX`. -/
def poolCountMax : Nat := 256

/-- `ftl_flow_hint_id_thr_local_pool_t`: the position of the top, `-1` when the
pool is empty, and the indexes. -/
structure HintPool where
  poolCount : Int
  hintIds : Nat → Nat

/-- The indexer and the pools of the `FTL_MAX_THREADS` threads. -/
structure HintAlloc where
  indexer : FtlIndexer
  pools : Fin 8 → HintPool

namespace HintAlloc

/-- `hint_table::init_`: index `0` cannot be used and is taken by a first
alloc; `none` is the failed `SDK_ASSERT`. -/
def init (tableSize : Nat) : Option HintAlloc :=
  (FtlIndexer.init tableSize).alloc.map fun r => ⟨r.2, fun _ => ⟨-1, fun _ => 0⟩⟩

/-- The refill loop of `alloc_`, with `n` for `refill_count`. -/
def refill : Nat → HintPool → FtlIndexer → HintPool × FtlIndexer
  | 0, p, ix => (p, ix)
  | n + 1, p, ix =>
    match ix.alloc with
    -- pool_count was incremented for the alloc and is decremented again
    | none => (p, ix)
    | some (hint, ix) =>
      let count := p.poolCount + 1
      refill n ⟨count, update p.hintIds count.toNat hint⟩ ix

/-- Take the top of a pool. -/
def pop (A : HintAlloc) (tid : Fin 8) (p : HintPool) : Nat × HintAlloc :=
  (p.hintIds p.poolCount.toNat,
    { A with pools := update A.pools tid { p with poolCount := p.poolCount - 1 } })

/-- `hint_table::alloc_`; no index is `SDK_RET_NO_RESOURCE`. -/
def alloc (A : HintAlloc) (tid : Fin 8) : Option Nat × HintAlloc :=
  if 0 ≤ (A.pools tid).poolCount then
    let r := A.pop tid (A.pools tid)
    (some r.1, r.2)
  else
    let (p, ix) := refill poolCountMax (A.pools tid) A.indexer
    let A := { A with indexer := ix, pools := update A.pools tid p }
    if 0 ≤ p.poolCount then
      let r := A.pop tid p
      (some r.1, r.2)
    else
      (none, A)

/-- `hint_table::dealloc_`. -/
def dealloc (A : HintAlloc) (index : Nat) : HintAlloc :=
  { A with indexer := A.indexer.free index }

/-- Index `j` is at position `pos` of the pool of thread `tid`. -/
def InPool (A : HintAlloc) (tid : Fin 8) (pos j : Nat) : Prop :=
  (pos : Int) ≤ (A.pools tid).poolCount ∧ (A.pools tid).hintIds pos = j

instance (A : HintAlloc) (tid : Fin 8) (pos j : Nat) : Decidable (A.InPool tid pos j) :=
  inferInstanceAs (Decidable (_ ∧ _))

/-! ### Accounting -/

/-- **The accounting of indexes**, where `out` are those handed out: an index is
marked exactly when it is `0`, handed out or pooled, and it is only one of
these, in one position of one pool. -/
structure Ok (size : Nat) (A : HintAlloc) (out : Nat → Prop) : Prop where
  used : ∀ j, A.indexer.isUsed j = true ↔ j = 0 ∨ out j ∨ ∃ tid pos, A.InPool tid pos j
  apart : ∀ {j tid pos}, out j → ¬ A.InPool tid pos j
  inj : ∀ {j tid tid' pos pos'}, A.InPool tid pos j → A.InPool tid' pos' j →
    tid = tid' ∧ pos = pos'
  outNe : ∀ {j}, out j → j ≠ 0
  poolNe : ∀ {j tid pos}, A.InPool tid pos j → j ≠ 0
  bound : ∀ j, A.indexer.isUsed j = true → j / 64 < A.indexer.numWords
  cursor : A.indexer.lastAlloc / 64 < A.indexer.numWords
  words : A.indexer.numWords = size / 64
  count : ∀ tid, -1 ≤ (A.pools tid).poolCount

section Accounting

variable {size n j : Nat} {A : HintAlloc} {tid : Fin 8} {out : Nat → Prop} {ix : FtlIndexer}

theorem Ok.lt_size (hok : Ok size A out) (hj : A.indexer.isUsed j = true) : j < size := by
  have h1 := hok.bound j hj
  rw [hok.words] at h1
  omega

theorem Ok.out_used (hok : Ok size A out) (hj : out j) : A.indexer.isUsed j = true :=
  (hok.used j).mpr (.inr (.inl hj))

variable {pos x : Nat}

theorem Ok.inPool_used (hok : Ok size A out) (hj : A.InPool tid pos j) : A.indexer.isUsed j = true :=
  (hok.used j).mpr (.inr (.inr ⟨tid, pos, hj⟩))

/-- The accounting depends on `out` as a set only. -/
theorem Ok.congr {out' : Nat → Prop} (hok : Ok size A out) (h : ∀ j, out j ↔ out' j) :
    Ok size A out' := by
  obtain rfl : out = out' := funext fun j => propext (h j)
  exact hok

/-- The allocator with one more index on top of a pool. -/
def push (A : HintAlloc) (tid : Fin 8) (j : Nat) (ix : FtlIndexer) : HintAlloc where
  indexer := ix
  pools := update A.pools tid
    ⟨(A.pools tid).poolCount + 1,
      update (A.pools tid).hintIds ((A.pools tid).poolCount + 1).toNat j⟩

theorem inPool_push (hc : -1 ≤ (A.pools tid).poolCount) {t : Fin 8} :
    (A.push tid j ix).InPool t pos x ↔
      A.InPool t pos x ∨ (t = tid ∧ pos = ((A.pools tid).poolCount + 1).toNat ∧ x = j) := by
  unfold InPool push
  by_cases ht : t = tid
  · subst ht
    simp only [update_self, true_and]
    by_cases hp : pos = ((A.pools t).poolCount + 1).toNat
    · subst hp
      rw [update_self]
      constructor
      · rintro ⟨-, rfl⟩
        exact .inr ⟨rfl, rfl⟩
      · rintro (⟨h1, -⟩ | ⟨-, rfl⟩)
        · omega
        · exact ⟨by omega, rfl⟩
    · rw [update_of_ne hp]
      constructor
      · rintro ⟨h1, h2⟩
        exact .inl ⟨by omega, h2⟩
      · rintro (⟨h1, h2⟩ | ⟨h1, -⟩)
        · exact ⟨by omega, h2⟩
        · exact absurd h1 hp
  · simp only [update_of_ne ht, ht, false_and, or_false]

/-- One round of the refill: an unmarked index goes on top of the pool. -/
theorem Ok.push (hok : Ok size A out) (ha : A.indexer.alloc = some (j, ix)) :
    Ok size (A.push tid j ix) out := by
  obtain ⟨hb, hfree, hw, hl, hused⟩ := FtlIndexer.alloc_eq_some hok.cursor ha
  have hin : ∀ {t pos x}, (A.push tid j ix).InPool t pos x ↔ A.InPool t pos x ∨
      (t = tid ∧ pos = ((A.pools tid).poolCount + 1).toNat ∧ x = j) :=
    inPool_push (hok.count tid)
  have hnew : ∀ {x}, A.indexer.isUsed x = true → x ≠ j := by
    rintro x hx rfl
    exact absurd (hx.symm.trans hfree) (by simp)
  have hused' : ∀ x, (A.push tid j ix).indexer.isUsed x = true ↔
      x = j ∨ A.indexer.isUsed x = true := by
    intro x
    show ix.isUsed x = true ↔ _
    rw [hused x, Bool.or_eq_true, decide_eq_true_eq]
  refine ⟨fun x => ?_, fun hx hp => ?_, fun hp hp' => ?_, hok.outNe, fun hp => ?_,
    fun x hx => ?_, ?_, ?_, fun t => ?_⟩
  · rw [hused' x, hok.used x]
    constructor
    · rintro (rfl | rfl | ho | ⟨t, pos, hp⟩)
      · exact .inr (.inr ⟨tid, _, hin.mpr (.inr ⟨rfl, rfl, rfl⟩)⟩)
      · exact .inl rfl
      · exact .inr (.inl ho)
      · exact .inr (.inr ⟨t, pos, hin.mpr (.inl hp)⟩)
    · rintro (rfl | ho | ⟨t, pos, hp⟩)
      · exact .inr (.inl rfl)
      · exact .inr (.inr (.inl ho))
      · rcases hin.mp hp with hp | ⟨-, -, rfl⟩
        · exact .inr (.inr (.inr ⟨t, pos, hp⟩))
        · exact .inl rfl
  · rcases hin.mp hp with hp | ⟨-, -, rfl⟩
    · exact hok.apart hx hp
    · exact hnew (hok.out_used hx) rfl
  · rcases hin.mp hp with h1 | ⟨rfl, rfl, rfl⟩ <;> rcases hin.mp hp' with h2 | ⟨h3, h4, h5⟩
    · exact hok.inj h1 h2
    · exact absurd h5 (hnew (hok.inPool_used h1))
    · exact absurd rfl (hnew (hok.inPool_used h2))
    · exact ⟨h3.symm, h4.symm⟩
  · rcases hin.mp hp with hp | ⟨-, -, rfl⟩
    · exact hok.poolNe hp
    · rintro rfl
      exact hnew ((hok.used 0).mpr (.inl rfl)) rfl
  · show x / 64 < ix.numWords
    rw [hw]
    rcases (hused' x).mp hx with rfl | hx
    · exact hb
    · exact hok.bound x hx
  · show ix.lastAlloc / 64 < ix.numWords
    rw [hl, hw]
    exact hb
  · exact hw.trans hok.words
  · have := hok.count t
    have := hok.count tid
    by_cases ht : t = tid
    · subst ht
      show -1 ≤ (update A.pools t _ t).poolCount
      rw [update_self]
      show -1 ≤ (A.pools t).poolCount + 1
      omega
    · show -1 ≤ (update A.pools tid _ t).poolCount
      rwa [update_of_ne ht]

/-- The allocator after a refill of `n` rounds. -/
def refilled (A : HintAlloc) (tid : Fin 8) (n : Nat) : HintAlloc where
  indexer := (refill n (A.pools tid) A.indexer).2
  pools := update A.pools tid (refill n (A.pools tid) A.indexer).1

/-- The refill keeps the accounting, also when the indexer runs out. -/
theorem Ok.refilled (hok : Ok size A out) : Ok size (A.refilled tid n) out := by
  induction n generalizing A with
  | zero =>
    have h : A.refilled tid 0 = A := by
      show (⟨A.indexer, update A.pools tid (A.pools tid)⟩ : HintAlloc) = A
      rw [update_eq_self]
    rwa [h]
  | succ n ih =>
    cases ha : A.indexer.alloc with
    | none =>
      have h : A.refilled tid (n + 1) = A := by
        unfold HintAlloc.refilled refill
        rw [ha]
        rw [update_eq_self]
      rwa [h]
    | some r =>
      obtain ⟨j, ix⟩ := r
      have h : A.refilled tid (n + 1) = (A.push tid j ix).refilled tid n := by
        unfold HintAlloc.refilled
        rw [refill, ha]
        simp [HintAlloc.push]
      rw [h]
      exact ih (hok.push ha)

theorem inPool_pop (hc : 0 ≤ (A.pools tid).poolCount) {t : Fin 8} :
    (A.pop tid (A.pools tid)).2.InPool t pos x ↔
      A.InPool t pos x ∧ ¬ (t = tid ∧ pos = (A.pools tid).poolCount.toNat) := by
  unfold InPool pop
  by_cases ht : t = tid
  · subst ht
    simp only [update_self, true_and]
    constructor
    · rintro ⟨h1, h2⟩
      exact ⟨⟨by omega, h2⟩, by omega⟩
    · rintro ⟨⟨h1, h2⟩, h3⟩
      exact ⟨by omega, h2⟩
  · simp only [update_of_ne ht, ht, false_and, not_false_iff, and_true]

/-- **Taking the top of a pool** hands out an index that was pooled. -/
theorem Ok.pop (hok : Ok size A out) (hc : 0 ≤ (A.pools tid).poolCount) :
    Ok size (A.pop tid (A.pools tid)).2 (fun x => out x ∨ x = (A.pop tid (A.pools tid)).1) ∧
      ¬ out (A.pop tid (A.pools tid)).1 := by
  set top := (A.pop tid (A.pools tid)).1 with htop
  have htopIn : A.InPool tid (A.pools tid).poolCount.toNat top := ⟨by omega, rfl⟩
  have hin : ∀ {t pos x}, (A.pop tid (A.pools tid)).2.InPool t pos x ↔
      A.InPool t pos x ∧ ¬ (t = tid ∧ pos = (A.pools tid).poolCount.toNat) := inPool_pop hc
  refine ⟨⟨fun x => ?_, fun hx hp => ?_, fun hp hp' => ?_, fun hx => ?_, fun hp => ?_,
    hok.bound, hok.cursor, hok.words, fun t => ?_⟩, fun ho => hok.apart ho htopIn⟩
  · refine (hok.used x).trans ⟨?_, ?_⟩
    · rintro (rfl | ho | ⟨t, pos, hp⟩)
      · exact .inl rfl
      · exact .inr (.inl (.inl ho))
      · by_cases hx : x = top
        · exact .inr (.inl (.inr hx))
        · refine .inr (.inr ⟨t, pos, hin.mpr ⟨hp, ?_⟩⟩)
          rintro ⟨rfl, rfl⟩
          exact hx hp.2.symm
    · rintro (rfl | (ho | rfl) | ⟨t, pos, hp⟩)
      · exact .inl rfl
      · exact .inr (.inl ho)
      · exact .inr (.inr ⟨tid, _, htopIn⟩)
      · exact .inr (.inr ⟨t, pos, (hin.mp hp).1⟩)
  · obtain ⟨hp, hne⟩ := hin.mp hp
    rcases hx with ho | rfl
    · exact hok.apart ho hp
    · exact hne (hok.inj hp htopIn)
  · exact hok.inj (hin.mp hp).1 (hin.mp hp').1
  · rcases hx with ho | rfl
    · exact hok.outNe ho
    · exact hok.poolNe htopIn
  · exact hok.poolNe (hin.mp hp).1
  · have := hok.count t
    by_cases ht : t = tid
    · subst ht
      show -1 ≤ (update A.pools t _ t).poolCount
      rw [update_self]
      show -1 ≤ (A.pools t).poolCount - 1
      omega
    · show -1 ≤ (update A.pools tid _ t).poolCount
      rwa [update_of_ne ht]

/-- `alloc_` either takes the top of the pool, possibly after a refill, or has
nothing to hand out. -/
theorem alloc_cases (A : HintAlloc) (tid : Fin 8) :
    ∃ B, (B = A ∨ B = A.refilled tid poolCountMax) ∧
      ((0 ≤ (B.pools tid).poolCount ∧
          A.alloc tid = (some (B.pop tid (B.pools tid)).1, (B.pop tid (B.pools tid)).2)) ∨
        A.alloc tid = (none, B)) := by
  unfold alloc
  by_cases hc : 0 ≤ (A.pools tid).poolCount
  · exact ⟨A, .inl rfl, .inl ⟨hc, if_pos hc⟩⟩
  have hself : ((A.refilled tid poolCountMax).pools tid)
      = (refill poolCountMax (A.pools tid) A.indexer).1 := update_self _ _ _
  refine ⟨A.refilled tid poolCountMax, .inr rfl, ?_⟩
  rw [if_neg hc, hself]
  by_cases hr : 0 ≤ (refill poolCountMax (A.pools tid) A.indexer).1.poolCount
  · exact .inl ⟨hr, if_pos hr⟩
  · exact .inr (if_neg hr)

/-- **Alloc** hands out an index that was not out, or leaves what is out alone. -/
theorem Ok.alloc (hok : Ok size A out) (tid : Fin 8) :
    match A.alloc tid with
    | (some j, A') => ¬ out j ∧ Ok size A' fun x => out x ∨ x = j
    | (none, A') => Ok size A' out := by
  obtain ⟨B, hB, hcase⟩ := alloc_cases A tid
  have hokB : Ok size B out := by
    rcases hB with rfl | rfl
    · exact hok
    · exact hok.refilled
  rcases hcase with ⟨hc, h⟩ | h
  · rw [h]
    exact ⟨(hokB.pop hc).2, (hokB.pop hc).1⟩
  · rw [h]
    exact hokB

/-- **Dealloc** takes back an index that was out. -/
theorem Ok.dealloc (hok : Ok size A out) (hj : out j) :
    Ok size (A.dealloc j) fun x => out x ∧ x ≠ j := by
  have hused : ∀ x, (A.dealloc j).indexer.isUsed x = true ↔ x ≠ j ∧ A.indexer.isUsed x = true := by
    intro x
    show (A.indexer.free j).isUsed x = true ↔ _
    rw [FtlIndexer.isUsed_free, Bool.and_eq_true, Bool.not_eq_true', decide_eq_false_iff_not]
  refine ⟨fun x => ?_, fun hx hp => hok.apart hx.1 hp, fun hp hp' => hok.inj hp hp',
    fun hx => hok.outNe hx.1, fun hp => hok.poolNe hp, fun x hx => hok.bound x ((hused x).mp hx).2,
    hok.cursor, hok.words, hok.count⟩
  rw [hused x, hok.used x]
  constructor
  · rintro ⟨hne, rfl | ho | hp⟩
    · exact .inl rfl
    · exact .inr (.inl ⟨ho, hne⟩)
    · exact .inr (.inr hp)
  · rintro (rfl | ⟨ho, hne⟩ | ⟨t, pos, hp⟩)
    · exact ⟨fun h => hok.outNe hj h.symm, .inl rfl⟩
    · exact ⟨hne, .inr (.inl ho)⟩
    · refine ⟨?_, .inr (.inr ⟨t, pos, hp⟩)⟩
      rintro rfl
      exact hok.apart hj hp

end Accounting

/-- A table of one bitmap word or more starts with nothing handed out or
pooled. -/
theorem init_ok {size : Nat} (hsize : 64 ≤ size) :
    ∃ A, init size = some A ∧ Ok size A fun _ => False := by
  have hz : ∀ k, (FtlIndexer.init size).isUsed k = false := fun k => by
    simp [FtlIndexer.isUsed, FtlIndexer.init]
  have hcur : (FtlIndexer.init size).lastAlloc / 64 < (FtlIndexer.init size).numWords := by
    show 0 / 64 < size / 64
    omega
  obtain ⟨m, hm⟩ : ∃ m, size / 64 = m + 1 := ⟨size / 64 - 1, by omega⟩
  obtain ⟨ix, ha⟩ : ∃ ix, (FtlIndexer.init size).alloc = some (0, ix) := by
    show ∃ ix, (FtlIndexer.init size).allocFrom (0 / 64) (size / 64) (0 / 64) = some (0, ix)
    have hfree : ffsll (~~~(FtlIndexer.init size).pool (0 / 64)) = 0 + 1 :=
      show ffsll (~~~(0#64)) = 0 + 1 by decide
    rw [hm]
    exact FtlIndexer.allocFrom_of_ffsll hfree
  obtain ⟨hb, -, hw, hl, hused⟩ := FtlIndexer.alloc_eq_some hcur ha
  have hempty : ∀ {t : Fin 8} {pos x : Nat}, ¬ InPool ⟨ix, fun _ => ⟨-1, fun _ => 0⟩⟩ t pos x := by
    rintro t pos x ⟨h1, -⟩
    have : (pos : Int) ≤ -1 := h1
    omega
  have hused' : ∀ x, ix.isUsed x = true ↔ x = 0 := by
    intro x
    rw [hused x, hz x, Bool.or_false, decide_eq_true_eq]
  refine ⟨⟨ix, fun _ => ⟨-1, fun _ => 0⟩⟩, by rw [init, ha]; rfl, ?_⟩
  refine ⟨fun x => ?_, fun h => h.elim, fun h => (hempty h).elim, fun h => h.elim,
    fun h => (hempty h).elim, fun x hx => ?_, ?_, hw, fun _ => le_refl _⟩
  · refine (hused' x).trans ⟨.inl, ?_⟩
    rintro (h | h | ⟨t, pos, h⟩)
    · exact h
    · exact h.elim
    · exact (hempty h).elim
  · obtain rfl := (hused' x).mp hx
    rw [hw]
    exact hb
  · show ix.lastAlloc / 64 < ix.numWords
    rw [hl, hw]
    exact hb

end HintAlloc

end NicSw
