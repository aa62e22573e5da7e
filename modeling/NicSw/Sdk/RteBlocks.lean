/-
Which blocks `alloc_block` of the indexer over a DPDK bitmap finds.

The search begins at the lowest free index.  From there it checks slab by slab
whether the indexes are free.  When one is not, it goes on in the slab behind, at
the lowest free index of that slab: a run that begins later in a slab, or in the
slab where an attempt has failed, is never tried.  If nothing is found the search
leaves the bitmap.

`Finds` follows these attempts on the free indexes alone.  `alloc_block` is right,
whatever stands behind the bitmap, exactly if there are not enough free indexes or
`Finds` holds from the slab of the lowest one.
-/
import NicSw.Sdk.RteIndexer

namespace NicSw

open RteBitmap

namespace RteIndexer

variable {x : RteIndexer} {S : Bitmap.Scan} {behind : Nat → BitVec 64} {start n size w f k : Nat}

/-! ### Runs of free indexes -/

/-- The indexes from `start` on are free, `n` of them. -/
def FreeRun (x : RteIndexer) (start n : Nat) : Prop :=
  ∀ k, start ≤ k → k < start + n → x.Free k

/-- The lowest free index of a slab. -/
structure LowestFree (x : RteIndexer) (w f : Nat) : Prop where
  free : x.Free f
  slab : f / 64 = w
  lowest : ∀ k, k / 64 = w → k < f → ¬ x.Free k

/-- The run of free indexes from `f` ends at `k`, with fewer than `n` indexes. -/
structure EndsAt (x : RteIndexer) (n f k : Nat) : Prop where
  le : f ≤ k
  lt : k < f + n
  free : ∀ j, f ≤ j → j < k → x.Free j
  used : ¬ x.Free k

/-- **The attempts of `alloc_block` from slab `w` on reach a run of `n` indexes.** -/
inductive Finds (x : RteIndexer) (n : Nat) : Nat → Prop
  | here {w f : Nat} (hlow : x.LowestFree w f) (hrun : x.FreeRun f n) : Finds x n w
  | empty {w : Nat} (hempty : ∀ k, k / 64 = w → ¬ x.Free k) (hnext : Finds x n (w + 1)) :
      Finds x n w
  | broken {w f k : Nat} (hlow : x.LowestFree w f) (hend : x.EndsAt n f k)
      (hnext : Finds x n (k / 64 + 1)) : Finds x n w

/-- **`alloc_block` is right**: it succeeds exactly if there is a run of free indexes,
and then marks exactly such a run on both levels; `usage_` is the number of the
indexes that are given out. -/
structure BlockCorrect (x : RteIndexer) (behind : Nat → BitVec 64) (n : Nat) : Prop where
  ok_iff : (∃ index, (x.allocBlock behind n).1 = .ok index) ↔ ∃ start, x.FreeRun start n
  run : ∀ index, (x.allocBlock behind n).1 = .ok index → x.FreeRun index n
  marks : ∀ index, (x.allocBlock behind n).1 = .ok index →
    x.bits.Sets (x.allocBlock behind n).2.bits (x.bits.filled index n false)
  usage : (x.allocBlock behind n).2.usage = (x.allocBlock behind n).2.allocated.card

/-! ### Attempts -/

/-- Where the attempt in slab `w` begins; `nextpos` is left from an earlier one. -/
def attempt (x : RteIndexer) (behind : Nat → BitVec 64) (w nextpos : Nat) : Nat :=
  w * 64 + (lowestSet (x.slabAt behind w)).getD nextpos

/-- The rounds that are left at most. -/
def rounds (x : RteIndexer) (n start currSize : Nat) : Nat :=
  (x.bits.array2Size + 1 - start / 64) * (n + 1) + currSize

variable {start' currSize nextpos fuel nextpos' : Nat}

theorem rounds_forward {currSize' : Nat} (hstart : start ≤ start') (hsize : currSize' < currSize) :
    x.rounds n start' currSize' < x.rounds n start currSize := by
  have hle : (x.bits.array2Size + 1 - start' / 64) * (n + 1)
      ≤ (x.bits.array2Size + 1 - start / 64) * (n + 1) :=
    Nat.mul_le_mul_right _ (by omega)
  unfold rounds
  omega

theorem rounds_next (hin : start / 64 < x.bits.array2Size) (hslab : start / 64 < start' / 64) :
    x.rounds n start' n < x.rounds n start currSize := by
  have hle : (x.bits.array2Size + 1 - start' / 64 + 1) * (n + 1)
      ≤ (x.bits.array2Size + 1 - start / 64) * (n + 1) :=
    Nat.mul_le_mul_right _ (by omega)
  rw [Nat.add_mul, Nat.one_mul] at hle
  unfold rounds
  omega

theorem lowestSet_getD_lt {v : BitVec 64} (hpos : nextpos < 64) : (lowestSet v).getD nextpos < 64 := by
  cases h : lowestSet v with
  | none => exact hpos
  | some i => exact (lowestSet_eq_some h).1

theorem attempt_div (x : RteIndexer) (behind : Nat → BitVec 64) (w : Nat) (hpos : nextpos < 64) :
    x.attempt behind w nextpos / 64 = w := by
  have hlt := lowestSet_getD_lt (v := x.slabAt behind w) hpos
  unfold attempt
  omega

/-- The first index of a block that does not read as free. -/
theorem exists_first_used (h : ¬ x.RunAt behind start n) :
    ∃ k, start ≤ k ∧ k < start + n ∧ x.RunAt behind start (k - start) ∧
      x.reads behind k = false := by
  induction n with
  | zero => exact absurd (runAt_zero start) h
  | succ n ih =>
    by_cases hrun : x.RunAt behind start n
    · refine ⟨start + n, Nat.le_add_right _ _, by omega, ?_, ?_⟩
      · rwa [Nat.add_sub_cancel_left]
      · rw [← Bool.not_eq_true]
        intro hlast
        refine h (hrun.append (m := 1) fun k h1 h2 => ?_)
        rwa [show k = start + n by omega]
    · obtain ⟨k, hle, hlt, hrest⟩ := ih hrun
      exact ⟨k, hle, by omega, hrest⟩

/-- What comes of an attempt: the block, or a used index where it ends and the next
attempt. -/
inductive AttemptPost (x : RteIndexer) (behind : Nat → BitVec 64)
    (n fuel start currSize nextpos : Nat) : Option Nat → Prop
  | found (hrun : x.RunAt behind start currSize) :
      AttemptPost x behind n fuel start currSize nextpos (some (start + currSize))
  | left {k : Nat} (hle : start ≤ k) (hlt : k < start + currSize)
      (hrun : x.RunAt behind start (k - start)) (hused : x.reads behind k = false)
      (hout : x.bits.array2Size ≤ k / 64) :
      AttemptPost x behind n fuel start currSize nextpos none
  | next {k fuel' nextpos' : Nat} (hle : start ≤ k) (hlt : k < start + currSize)
      (hrun : x.RunAt behind start (k - start)) (hused : x.reads behind k = false)
      (hin : k / 64 < x.bits.array2Size) (hfuel : fuel' < fuel)
      (hpos : nextpos < 64 → nextpos' < 64)
      (henough : x.rounds n (x.attempt behind (k / 64 + 1) nextpos) n < fuel') :
      AttemptPost x behind n fuel start currSize nextpos
        (x.blockLoop behind n fuel' (x.attempt behind (k / 64 + 1) nextpos) n nextpos')

theorem attempt_cases (behind : Nat → BitVec 64) (nextpos : Nat)
    (hfuel : x.rounds n start currSize < fuel) :
    AttemptPost x behind n fuel start currSize nextpos
      (x.blockLoop behind n fuel start currSize nextpos) := by
  induction fuel generalizing start currSize with
  | zero => exact absurd hfuel (Nat.not_lt_zero _)
  | succ fuel ih =>
    rw [blockLoop]
    split
    · rename_i h0
      subst h0
      exact .found (runAt_zero start)
    rename_i h0
    have hpos := blockSize_pos start h0
    have hblock := blockSize_le start currSize
    dsimp only
    split
    · rename_i hfree
      have hrun := checkSlabSet_run.mp hfree
      have hless : x.rounds n (start + blockSize start currSize)
          (currSize - blockSize start currSize) < x.rounds n start currSize :=
        rounds_forward (Nat.le_add_right _ _) (by omega)
      have hrest := ih (Nat.lt_of_lt_of_le hless (Nat.le_of_lt_succ hfuel))
      generalize x.blockLoop behind n fuel _ _ nextpos = r at hrest ⊢
      -- the run so far and that of the rest
      have happend : ∀ {k}, start + blockSize start currSize ≤ k →
          x.RunAt behind (start + blockSize start currSize)
            (k - (start + blockSize start currSize)) →
          x.RunAt behind start (k - start) := by
        intro k hle hk
        have hall := hrun.append hk
        rwa [show blockSize start currSize
          + (k - (start + blockSize start currSize)) = k - start by omega] at hall
      cases hrest with
      | found hrun' =>
        have hall := hrun.append hrun'
        rw [Nat.add_sub_cancel' hblock] at hall
        rw [Nat.add_assoc, Nat.add_sub_cancel' hblock]
        exact .found hall
      | left hle hlt hrun' hused hout =>
        exact .left (by omega) (by omega) (happend hle hrun') hused hout
      | next hle hlt hrun' hused hin hless hpos' henough =>
        exact .next (by omega) (by omega) (happend hle hrun') hused hin (by omega) hpos' henough
    · rename_i hfree
      obtain ⟨k, hle, hlt, hrun, hused⟩ :=
        exists_first_used fun hrun => hfree (checkSlabSet_run.mpr hrun)
      have hslab : start / 64 = k / 64 := by
        unfold blockSize at hlt
        split at hlt <;> omega
      rw [hslab]
      split
      · rename_i hin
        rw [if_neg (Nat.not_lt.mpr hblock)]
        refine .next hle (by omega) hrun hused hin (Nat.lt_succ_self fuel) ?_
          (Nat.lt_of_lt_of_le (rounds_next (hslab ▸ hin) ?_) (Nat.le_of_lt_succ hfuel))
        · exact fun hpos' => lowestSet_getD_lt hpos'
        · unfold attempt
          omega
      · rename_i hout
        exact .left hle (by omega) hrun hused (Nat.not_lt.mp hout)

/-! ### Free indexes and what the search reads -/

/-- In the bitmap the search reads the free indexes. -/
theorem Inv.reads_iff (h : x.Inv) (hk : k / 64 < x.bits.array2Size) :
    x.reads behind k = true ↔ x.Free k := by
  unfold reads Bitmap.test slabAt
  rw [if_pos hk]
  exact ⟨fun hbit => ⟨h.below k hbit, hbit⟩, fun hfree => hfree.2⟩

theorem Inv.slab_lt (h : x.Inv) (hk : x.Free k) : k / 64 < x.bits.array2Size := by
  have hlt := hk.1
  have hslabs := h.slabs
  omega

theorem Inv.reads_of_free (h : x.Inv) (hk : x.Free k) : x.reads behind k = true :=
  (h.reads_iff (h.slab_lt hk)).mpr hk

theorem FreeRun.reads (hrun : x.FreeRun start n) (h : x.Inv) : x.RunAt behind start n :=
  fun k h1 h2 => h.reads_of_free (hrun k h1 h2)

/-- What stands before the attempt in its slab does not read as free. -/
theorem attempt_reads (x : RteIndexer) (behind : Nat → BitVec 64) (w nextpos : Nat) :
    (∀ j, j / 64 = w → x.reads behind j = false) ∨
      x.reads behind (x.attempt behind w nextpos) = true ∧
        x.attempt behind w nextpos / 64 = w ∧
        ∀ j, j / 64 = w → j < x.attempt behind w nextpos → x.reads behind j = false := by
  unfold attempt
  cases hlow : lowestSet (x.slabAt behind w) with
  | none => exact .inl (Bitmap.word_eq_zero.mp (lowestSet_eq_none.mp hlow))
  | some i =>
    obtain ⟨hlt, hbit, hfirst⟩ := lowestSet_eq_some hlow
    rw [Option.getD_some]
    refine .inr ⟨(Bitmap.test_word _ _ hlt).trans hbit, by omega, fun j hj hji => ?_⟩
    have hclear := hfirst (j % 64) (by omega)
    rwa [← hj] at hclear

/-- An attempt begins at the lowest free index of its slab. -/
theorem LowestFree.attempt_eq (hlow : x.LowestFree w f) (h : x.Inv) (nextpos : Nat) :
    x.attempt behind w nextpos = f := by
  have hf : x.reads behind f = true := h.reads_of_free hlow.free
  have hslab := hlow.slab
  have hin := h.slab_lt hlow.free
  rcases x.attempt_reads behind w nextpos with hnone | ⟨hread, hdiv, hfirst⟩
  · cases (hnone f hslab).symm.trans hf
  rcases Nat.lt_trichotomy (x.attempt behind w nextpos) f with hless | heq | hmore
  · exact absurd ((h.reads_iff (by omega)).mp hread) (hlow.lowest _ hdiv hless)
  · exact heq
  · cases (hfirst f hslab hmore).symm.trans hf

/-- The attempt in a slab with a free index begins at the lowest one. -/
theorem Inv.lowestFree_attempt (h : x.Inv) (hw : w < x.bits.array2Size)
    (hk : x.reads behind (x.attempt behind w nextpos) = true) (hpos : nextpos < 64) :
    x.LowestFree w (x.attempt behind w nextpos) := by
  have hdiv := attempt_div x behind w hpos
  have hfree := (h.reads_iff (by rw [hdiv]; exact hw)).mp hk
  refine ⟨hfree, hdiv, fun j hj hlt hjfree => ?_⟩
  have hread : x.reads behind j = true := h.reads_of_free hjfree
  rcases x.attempt_reads behind w nextpos with hnone | ⟨-, -, hfirst⟩
  · cases (hnone j hj).symm.trans hread
  · cases (hfirst j hj hlt).symm.trans hread

theorem Finds.slab_lt (hfinds : x.Finds n w) (h : x.Inv) : w < x.bits.array2Size := by
  induction hfinds with
  | here hlow _ =>
    have hin := h.slab_lt hlow.free
    rwa [hlow.slab] at hin
  | empty _ _ ih => omega
  | broken hlow _ _ _ =>
    have hin := h.slab_lt hlow.free
    rwa [hlow.slab] at hin

/-! ### The search -/

/-- An attempt that ends at a used index in the bitmap leads to the slab behind. -/
theorem attempt_broken (nextpos : Nat) (hfuel : x.rounds n start n < fuel) (hle : start ≤ k)
    (hlt : k < start + n) (hrun : x.RunAt behind start (k - start))
    (hused : x.reads behind k = false) (hin : k / 64 < x.bits.array2Size) :
    ∃ fuel' nextpos', fuel' < fuel ∧ (nextpos < 64 → nextpos' < 64) ∧
      x.rounds n (x.attempt behind (k / 64 + 1) nextpos) n < fuel' ∧
      x.blockLoop behind n fuel start n nextpos
        = x.blockLoop behind n fuel' (x.attempt behind (k / 64 + 1) nextpos) n nextpos' := by
  -- both are the first used index
  have hfirst : ∀ k', start ≤ k' → x.RunAt behind start (k' - start) →
      x.reads behind k' = false → k' = k := by
    intro k' hle' hrun' hused'
    rcases Nat.lt_trichotomy k' k with hless | heq | hmore
    · rw [hrun k' hle' (by omega)] at hused'
      cases hused'
    · exact heq
    · rw [hrun' k hle (by omega)] at hused
      cases hused
  have hpost := attempt_cases behind nextpos hfuel
  generalize x.blockLoop behind n fuel start n nextpos = r at hpost ⊢
  cases hpost with
  | found hall =>
    rw [hall k hle hlt] at hused
    cases hused
  | left hle' _ hrun' hused' hout =>
    rw [hfirst _ hle' hrun' hused'] at hout
    exact absurd hin (Nat.not_lt.mpr hout)
  | @next k' fuel' nextpos' hle' _ hrun' hused' _ hless hpos henough =>
    obtain rfl := hfirst _ hle' hrun' hused'
    exact ⟨fuel', nextpos', hless, hpos, henough, rfl⟩

/-- **What `Finds` reaches, the search finds**, whatever stands behind the bitmap. -/
theorem Finds.blockLoop (hfinds : x.Finds n w) (h : x.Inv) (hn : 0 < n) (behind : Nat → BitVec 64)
    (hpos : nextpos < 64) (hpos' : nextpos' < 64)
    (hfuel : x.rounds n (x.attempt behind w nextpos) n < fuel) :
    ∃ g, x.blockLoop behind n fuel (x.attempt behind w nextpos) n nextpos' = some (g + n) ∧
      x.FreeRun g n := by
  induction hfinds generalizing fuel nextpos nextpos' with
  | @here w f hlow hrun =>
    rw [hlow.attempt_eq h] at hfuel ⊢
    have hreads : x.RunAt behind f n := hrun.reads h
    have hpost := attempt_cases behind nextpos' hfuel
    generalize x.blockLoop behind n fuel f n nextpos' = r at hpost ⊢
    cases hpost with
    | found _ => exact ⟨f, rfl, hrun⟩
    | left hle hlt _ hused _ =>
      rw [hreads _ hle hlt] at hused
      cases hused
    | next hle hlt _ hused _ _ _ _ =>
      rw [hreads _ hle hlt] at hused
      cases hused
  | @empty w hempty hnext ih =>
    have hin : w < x.bits.array2Size := by
      have hlt := hnext.slab_lt h
      omega
    have hdiv := attempt_div x behind w hpos
    have hused : x.reads behind (x.attempt behind w nextpos) = false := by
      rw [← Bool.not_eq_true, h.reads_iff (by rw [hdiv]; exact hin)]
      exact hempty _ hdiv
    obtain ⟨fuel', nextpos'', -, hpos'', henough, heq⟩ := attempt_broken nextpos'
      hfuel (Nat.le_refl _) (by omega) (by rw [Nat.sub_self]; exact runAt_zero _) hused
      (by rw [hdiv]; exact hin)
    rw [hdiv] at henough heq
    rw [heq]
    exact ih hpos' (hpos'' hpos') henough
  | @broken w f k hlow hend hnext ih =>
    rw [hlow.attempt_eq h] at hfuel ⊢
    have hin : k / 64 < x.bits.array2Size := by
      have hlt := hnext.slab_lt h
      omega
    have hrun : x.RunAt behind f (k - f) := fun j h1 h2 =>
      h.reads_of_free (hend.free j h1 (by omega))
    have hused : x.reads behind k = false := by
      rw [← Bool.not_eq_true, h.reads_iff hin]
      exact hend.used
    obtain ⟨fuel', nextpos'', -, hpos'', henough, heq⟩ := attempt_broken nextpos'
      hfuel hend.le hend.lt hrun hused hin
    rw [heq]
    exact ih hpos' (hpos'' hpos') henough

/-- **A run of free indexes that the search finds is one that `Finds` reaches.** -/
theorem Inv.finds_of_blockLoop (h : x.Inv) (hn : 0 < n) {fin : Nat} (hpos : nextpos < 64)
    (hpos' : nextpos' < 64) (hfuel : x.rounds n (x.attempt behind w nextpos) n < fuel)
    (hloop : x.blockLoop behind n fuel (x.attempt behind w nextpos) n nextpos' = some fin)
    (hrun : x.FreeRun (fin - n) n) : x.Finds n w := by
  induction fuel using Nat.strong_induction_on generalizing w nextpos nextpos' with
  | _ fuel ih =>
    have hdiv := attempt_div x behind w hpos
    have hpost := attempt_cases behind nextpos' hfuel
    generalize hstart : x.attempt behind w nextpos = start at *
    rw [hloop] at hpost
    generalize hres : some fin = r at hpost
    cases hpost with
    | found _ =>
      cases hres
      rw [Nat.add_sub_cancel] at hrun
      have hfree := hrun start (Nat.le_refl _) (by omega)
      have hin := h.slab_lt hfree
      subst hstart
      exact .here (h.lowestFree_attempt (hdiv ▸ hin) (h.reads_of_free hfree) hpos) hrun
    | left => cases hres
    | @next k fuel' nextpos'' hle hlt hreads hused hin hless hpos'' henough =>
      have hnext := ih fuel' hless hpos' (hpos'' hpos') henough hres.symm
      by_cases hread : x.reads behind start = true
      · -- the attempt began at the lowest free index of the slab
        subst hstart
        refine .broken (h.lowestFree_attempt (by omega) hread hpos)
          ⟨hle, hlt, fun j h1 h2 => ?_, fun hfree => ?_⟩ hnext
        · exact (h.reads_iff (by omega)).mp (hreads j h1 (by omega))
        · rw [h.reads_of_free hfree] at hused
          cases hused
      · have hk : k = start := by
          rcases Nat.eq_or_lt_of_le hle with heq | hgt
          · exact heq.symm
          · exact absurd (hreads start (Nat.le_refl _) (by omega)) hread
        rw [hk, hdiv] at hnext
        refine .empty (fun j hj hfree => ?_) hnext
        rw [← hstart] at hread
        have hclear := (x.attempt_reads behind w nextpos).resolve_right (fun h => hread h.1) j hj
        cases hclear.symm.trans (h.reads_of_free hfree)

/-- With ones behind the bitmap the search always finds something. -/
theorem blockLoop_ones (nextpos : Nat) (hfuel : x.rounds n start n < fuel) :
    x.blockLoop (fun _ => BitVec.allOnes 64) n fuel start n nextpos ≠ none := by
  induction fuel using Nat.strong_induction_on generalizing start nextpos with
  | _ fuel ih =>
    have hpost := attempt_cases (fun _ => BitVec.allOnes 64) nextpos hfuel
    generalize x.blockLoop (fun _ => BitVec.allOnes 64) n fuel start n nextpos = r at hpost ⊢
    cases hpost with
    | found _ => exact Option.some_ne_none _
    | @left k _ _ _ hused hout =>
      unfold RteIndexer.reads Bitmap.test slabAt at hused
      rw [if_neg (Nat.not_lt.mpr hout), BitVec.getLsbD_allOnes,
        decide_eq_true (Nat.mod_lt k (by decide))] at hused
      cases hused
    | next _ _ _ _ _ hless _ henough => exact ih _ hless _ henough

/-! ### Which blocks are found -/

/-- The lowest free index of all. -/
structure LowestIndex (x : RteIndexer) (f : Nat) : Prop where
  free : x.Free f
  lowest : ∀ k < f, ¬ x.Free k

theorem LowestIndex.attempt_eq (hlow : x.LowestIndex f) (h : x.Inv)
    (behind : Nat → BitVec 64) (nextpos : Nat) :
    x.attempt behind (f / 64) nextpos = f :=
  LowestFree.attempt_eq ⟨hlow.free, rfl, fun k _ hk => hlow.lowest k hk⟩ h nextpos

theorem LowestIndex.unique {f' : Nat} (h1 : x.LowestIndex f) (h2 : x.LowestIndex f') : f = f' := by
  rcases Nat.lt_trichotomy f f' with hlt | heq | hgt
  · exact absurd h1.free (h2.lowest f hlt)
  · exact heq
  · exact absurd h2.free (h1.lowest f' hgt)

theorem Inv.lowestIndex (h : x.Inv) (hscan : x.bits.leftmostSlabScan = some f) :
    x.LowestIndex f := by
  obtain ⟨hbit, hfirst⟩ := h.ready.leftmostSlabScan_some hscan
  refine ⟨⟨h.below f hbit, hbit⟩, fun k hk hfree => ?_⟩
  have hset := hfree.2
  rw [hfirst k hk] at hset
  cases hset

theorem rounds_lt_blockFuel (x : RteIndexer) (n start : Nat) :
    x.rounds n start n < x.blockFuel n := by
  have hle : (x.bits.array2Size + 1 - start / 64) * (n + 1) ≤ (x.bits.array2Size + 1) * (n + 1) :=
    Nat.mul_le_mul_right _ (Nat.sub_le _ _)
  unfold rounds blockFuel
  rw [show x.bits.array2Size + 2 = x.bits.array2Size + 1 + 1 from rfl, Nat.add_mul _ 1, Nat.one_mul]
  omega

/-- A run has room among the free indexes. -/
theorem FreeRun.usage_le (hrun : x.FreeRun start n) (h : x.Inv) : x.usage + n ≤ x.size := by
  have hdisj : Disjoint x.allocated (Finset.Ico start (start + n)) := by
    rw [Finset.disjoint_left]
    intro k hk hin
    obtain ⟨h1, h2⟩ := Finset.mem_Ico.mp hin
    have hclear := (mem_allocated.mp hk).2
    rw [(hrun k h1 h2).2] at hclear
    cases hclear
  have hsub : x.allocated ∪ Finset.Ico start (start + n) ⊆ Finset.range x.size := by
    intro k hk
    rw [Finset.mem_union, Finset.mem_Ico] at hk
    rcases hk with hk | ⟨h1, h2⟩
    · exact Finset.mem_range.mpr (mem_allocated.mp hk).1
    · exact Finset.mem_range.mpr (hrun k h1 h2).1
  have hcard := Finset.card_le_card hsub
  rw [Finset.card_union_of_disjoint hdisj, Nat.card_Ico, Nat.add_sub_cancel_left,
    Finset.card_range, ← h.usage] at hcard
  exact hcard

/-- A call that is refused is right if there is no run. -/
theorem Inv.blockCorrect_error (h : x.Inv) (hno : ∀ start, ¬ x.FreeRun start n)
    (hres : x.allocBlock behind n = (.error .noResource, x)) : x.BlockCorrect behind n := by
  have hne : ∀ index, (x.allocBlock behind n).1 ≠ .ok index := by
    rw [hres]
    exact fun index heq => by cases heq
  refine ⟨iff_of_false (fun ⟨index, hi⟩ => hne index hi) fun ⟨start, hrun⟩ => hno start hrun,
    fun index hi => absurd hi (hne index), fun index hi => absurd hi (hne index), ?_⟩
  rw [hres]
  exact h.usage

/-- A call that gives out a run is right. -/
theorem Inv.blockCorrect_ok (h : x.Inv) (hrun : x.FreeRun start n)
    (hres : x.allocBlock behind n = (.ok start, x.takeBlock start n)) :
    x.BlockCorrect behind n := by
  have hindex : ∀ index, (x.allocBlock behind n).1 = .ok index → index = start := by
    rw [hres]
    intro index heq
    cases heq
    rfl
  refine ⟨iff_of_true ⟨start, by rw [hres]⟩ ⟨start, hrun⟩, fun index hi => ?_,
    fun index hi => ?_, ?_⟩
  · rw [hindex index hi]
    exact hrun
  · rw [hindex index hi, hres]
    have hsets := h.ready.clearSlabs (h.fits fun k h1 h2 => (hrun k h1 h2).1)
    simpa [RteIndexer.takeBlock] using hsets
  · rw [hres]
    exact (h.takeBlock hrun).usage

/-- **Exactly which blocks `alloc_block` finds**, whatever stands behind the bitmap. -/
theorem Inv.blockCorrect_iff (h : x.Inv) (hn : 0 < n) :
    (∀ behind, x.BlockCorrect behind n) ↔
      x.size < x.usage + n ∨ ∃ f, x.LowestIndex f ∧ x.Finds n (f / 64) := by
  constructor
  · intro hall
    rcases Nat.lt_or_ge x.size (x.usage + n) with hfull | hroom
    · exact .inl hfull
    refine .inr ?_
    have hcorrect := hall fun _ => BitVec.allOnes 64
    cases hscan : x.bits.leftmostSlabScan with
    | none =>
      -- all indexes are given out, so there is no room
      have hcard : x.allocated = Finset.range x.size :=
        Finset.filter_true_of_mem fun k _ => h.ready.leftmostSlabScan_none hscan k
      have husage := h.usage
      rw [hcard, Finset.card_range] at husage
      omega
    | some f =>
      have hlow := h.lowestIndex hscan
      refine ⟨f, hlow, ?_⟩
      have hstart := hlow.attempt_eq h (fun _ => BitVec.allOnes 64) 0
      obtain ⟨fin, hloop⟩ := Option.ne_none_iff_exists'.mp
        (blockLoop_ones 0 (rounds_lt_blockFuel x n f))
      have hok : (x.allocBlock (fun _ => BitVec.allOnes 64) n).1 = .ok (fin - n) := by
        unfold RteIndexer.allocBlock
        rw [if_neg (by omega), hscan]
        dsimp only
        rw [hloop]
      rw [← hstart] at hloop
      exact h.finds_of_blockLoop hn (by decide) (by decide) (rounds_lt_blockFuel x n _) hloop
        (hcorrect.run _ hok)
  · rintro (hfull | ⟨f, hlow, hfinds⟩) behind
    · refine h.blockCorrect_error (fun start hrun => ?_) ?_
      · exact absurd (hrun.usage_le h) (Nat.not_le.mpr hfull)
      · unfold RteIndexer.allocBlock
        rw [if_pos (.inr hfull)]
    · have hzero : 0 < 64 := by decide
      obtain ⟨g, hloop, hrun⟩ := hfinds.blockLoop h hn behind hzero hzero
        (rounds_lt_blockFuel x n _)
      rw [hlow.attempt_eq h behind 0] at hloop
      refine h.blockCorrect_ok hrun ?_
      have hroom := hrun.usage_le h
      unfold RteIndexer.allocBlock
      rw [if_neg (by omega)]
      cases hscan : x.bits.leftmostSlabScan with
      | none =>
        have hset := hlow.free.2
        rw [h.ready.leftmostSlabScan_none hscan] at hset
        cases hset
      | some f' =>
        rw [(h.lowestIndex hscan).unique hlow]
        dsimp only
        rw [hloop]
        dsimp only
        rw [Nat.add_sub_cancel]

/-- **In every history** the search of `alloc_block` is right exactly if there are not
enough free indexes, or the attempts from the slab of the lowest one reach a run. -/
theorem Reached.allocBlock_correct_iff {skipZero : Bool} (hr : Reached S ClearBehind size skipZero x)
    (hn : 0 < n) :
    (∀ behind, x.BlockCorrect behind n) ↔
      x.size < x.usage + n ∨ ∃ f, x.LowestIndex f ∧ x.Finds n (f / 64) :=
  hr.inv.blockCorrect_iff hn

theorem Reached.allocBlock_correct_fresh : ∃ x,
    Reached .plain ClearBehind 100 false x ∧ ∀ behind, x.BlockCorrect behind 70 := by
  obtain ⟨x, hx⟩ : ∃ x, init 100 false = some x := ⟨_, rfl⟩
  have hr : Reached .plain ClearBehind 100 false x := .start hx
  refine ⟨x, hr, (Reached.allocBlock_correct_iff hr (by decide)).mpr (.inr ⟨0, ?_⟩)⟩
  have hfree : ∀ k < 100, x.Free k := by
    cases hx
    intro k hk
    refine ⟨hk, ?_⟩
    rw [if_neg (by decide), (initFree_spec (by decide)).2.1]
    exact decide_eq_true hk
  refine ⟨⟨hfree 0 (by decide), fun k hk => absurd hk (Nat.not_lt_zero k)⟩, ?_⟩
  exact .here (f := 0) ⟨hfree 0 (by decide), rfl, fun k _ hk => absurd hk (Nat.not_lt_zero k)⟩
    fun k _ hk => hfree k (by omega)

/-- Of four indexes the second is taken: the attempt from index `0` fails, and the run
of two behind it is not tried. -/
theorem not_blockCorrect_later : ∃ x,
    Reached .plain ClearBehind 4 false x ∧ x.FreeRun 2 2 ∧ ¬ x.BlockCorrect (fun _ => 0#64) 2 := by
  let x : RteIndexer := ⟨4, .initFree 4, 0, 0, 0#64⟩
  have hr : Reached .plain ClearBehind 4 false (x.allocAt 1).2 := .step (.start rfl) (.allocAt 1)
  have hrun : (x.allocAt 1).2.FreeRun 2 2 := by
    intro k h1 h2
    obtain rfl | rfl : k = 2 ∨ k = 3 := by omega
    · exact ⟨by decide +kernel, by decide +kernel⟩
    · exact ⟨by decide +kernel, by decide +kernel⟩
  refine ⟨_, hr, hrun, fun h => ?_⟩
  obtain ⟨index, hok⟩ := h.ok_iff.mpr ⟨2, hrun⟩
  have hres : ((x.allocAt 1).2.allocBlock (fun _ => 0#64) 2).1 = .error .noResource := by
    decide +kernel
  rw [hres] at hok
  cases hok

end RteIndexer

end NicSw
