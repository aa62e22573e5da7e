/-
Rule bitmaps (`rte_bitmap` and `rte_bitmap_utils.hpp`): the slabs of `array2`, and a scan
that gives the slabs with set bits in order, with wrap-around.

`array1` only says which lines of `array2` have set bits, to make the scan fast, and is left
out: whatever scan of DPDK reads it finds the slab that `scan` finds (`scan_found`).

A walk over a bitmap is a loop over slabs around a loop over the bits of a slab, with a bit
scan that starts after the last position.  It comes to one fold over the set positions, in
ascending order (`walk_eq`).
-/
import NicSw.Lib.SummaryBitmap

namespace NicSw.Rfc

open List

/-- `rte_bitmap`, as the slabs of `array2`. -/
abbrev RteBitmap := List (BitVec 64)

namespace RteBitmap

/-- Bit `k` is set. -/
def test (b : RteBitmap) (k : Nat) : Bool := (b.getD (k / 64) 0).getLsbD (k % 64)

/-- `rte_bitmap_reset`, of a bitmap with `n` slabs. -/
def reset (n : Nat) : RteBitmap := List.replicate n 0

/-- `rte_bitmap_set`. -/
def set (b : RteBitmap) (k : Nat) : RteBitmap := b.modify (k / 64) (· ||| 1#64 <<< (k % 64))

/-- `rte_bitmap_clear`. -/
def clear (b : RteBitmap) (k : Nat) : RteBitmap :=
  b.modify (k / 64) (· &&& ~~~(1#64 <<< (k % 64)))

/-- `rte_bitmap_and`. -/
def and (b c : RteBitmap) : RteBitmap := zipWith (· &&& ·) b c

/-- `rte_bitmap_or`. -/
def or (b c : RteBitmap) : RteBitmap := zipWith (· ||| ·) b c

variable {b c : RteBitmap} {i k n : Nat}

@[simp] theorem length_reset : (reset n).length = n := length_replicate

@[simp] theorem length_set : (b.set k).length = b.length := length_modify ..

@[simp] theorem length_clear : (b.clear k).length = b.length := length_modify ..

theorem length_and (h : c.length = b.length) : (b.and c).length = b.length := by
  rw [and, length_zipWith, h, Nat.min_self]

@[simp] theorem test_reset : (reset n).test k = false := by
  rw [test, reset, getD_eq_getElem?_getD, getElem?_replicate]
  split <;> exact BitVec.getLsbD_zero

/-- The words after one was changed. -/
theorem getD_modify {w : Nat} {f : BitVec 64 → BitVec 64} (hf : w < b.length ∨ f 0 = 0) :
    (fun j => getD (b.modify w f) j 0) = Function.update (b.getD · 0) w (f (b.getD w 0)) := by
  funext j
  rw [getD_eq_getElem?_getD, getElem?_modify]
  by_cases hj : w = j
  · subst hj
    rw [Function.update_self, getD_eq_getElem?_getD]
    cases hslab : b[w]? with
    | none =>
      have hlen := getElem?_eq_none_iff.mp hslab
      exact (hf.resolve_left (by omega)).symm
    | some slab => simp
  · simp [hj, Function.update_of_ne (Ne.symm hj)]

theorem test_set (h : i < 64 * b.length) : (b.set i).test k = (decide (k = i) || b.test k) := by
  have hwords := getD_modify (f := (· ||| 1#64 <<< (i % 64))) (.inl (by omega : i / 64 < b.length))
  have htest := @Bitmap.test_set (b.getD · 0) (i / 64) _ (Nat.mod_lt i (by decide)) k
  rw [← hwords, Nat.div_add_mod'] at htest
  exact htest

theorem test_clear : (b.clear i).test k = (!decide (k = i) && b.test k) := by
  have hwords := getD_modify (b := b) (w := i / 64) (f := (· &&& ~~~(1#64 <<< (i % 64)))) (.inr (by simp))
  have htest := Bitmap.test_clear (b.getD · 0) i k
  rw [← hwords] at htest
  exact htest

/-- A copy. -/
theorem or_reset (h : b.length = n) : b.or (reset n) = b := by
  subst h
  refine ext_getElem (by simp [or]) fun i _ _ => ?_
  simp [or, reset]

/-- **Bitmaps of one size are determined by their set bits**, which is what
`rte_bitmap_eq` compares. -/
theorem eq_of_test (hlen : c.length = b.length) (h : ∀ k, b.test k = c.test k) : b = c := by
  refine ext_getElem hlen.symm fun i hb hc => ?_
  refine BitVec.eq_of_getLsbD_eq fun j hj => ?_
  have hbit := h (i * 64 + j)
  rw [test, test, show (i * 64 + j) / 64 = i by omega, show (i * 64 + j) % 64 = j by omega,
    getD_eq_getElem?_getD, getD_eq_getElem?_getD, getElem?_eq_getElem hb,
    getElem?_eq_getElem hc] at hbit
  exact hbit

/-! ### Scans -/

/-- `rte_bitmap_slab_scan`, after a position or, with `none`, from the start of the slab. -/
def slabScan (slab : BitVec 64) : Option Nat → Option Nat
  | none => lowestSet slab
  | some curPos => (lowestSet ((slab >>> curPos) >>> 1)).map (· + curPos + 1)

/-- `rte_bitmap_get_global_bit_pos`. -/
def globalBitPos (index2 pos : Nat) : Nat := index2 <<< 6 + pos

/-- The first slab with a set bit from slab `i` on. -/
def scanFrom (b : RteBitmap) (i : Nat) : Option Nat := Bitmap.scanFrom (b.getD · 0) b.length i

/-- `rte_bitmap_scan`, with the slab that is found; `index2` is the iterator. -/
def scan (b : RteBitmap) (index2 : Nat) : Option Nat := Bitmap.nextWord (b.getD · 0) b.length index2

theorem scan_eq (b : RteBitmap) (i : Nat) : b.scan i = (b.scanFrom i).or (b.scanFrom 0) := rfl

/-- The iterator is behind the last slab at first. -/
theorem scan_length (b : RteBitmap) : b.scan b.length = b.scanFrom 0 := by
  rw [scan_eq, scanFrom, Bitmap.scanFrom, Nat.sub_self]
  rfl

theorem scan_found (S : Bitmap.Scan) {array1 : Nat → BitVec 64}
    (h : Bitmap.Summarizes array1 (b.getD · 0)) (index2 : Nat) :
    (S.scan array1 (b.getD · 0) b.length index2).1 = b.scan index2 :=
  S.found b.length index2 h

section Walk

variable {σ : Type} (visit : σ → Nat → Option σ)

/-- The loop over the bits of a slab, the one before `index2`. -/
def slabLoop (slab : BitVec 64) (index2 : Nat) : Nat → Option Nat → σ → Option σ
  | 0, _, _ => none
  | fuel + 1, posn, s =>
    match slabScan slab posn with
    | none => some s
    | some newPosn => do
        let s ← visit s (globalBitPos (index2 - 1) newPosn)
        slabLoop slab index2 fuel (some newPosn) s

/-- The loop over the slabs, until the first one comes again. -/
def scanLoop (b : RteBitmap) (startPosn : Nat) : Nat → Nat → σ → Option σ
  | 0, _, _ => none
  | fuel + 1, index2, s => do
      let s ← slabLoop visit (b.getD (index2 - 1) 0) index2 65 none s
      let next ← b.scan index2
      if next <<< 6 = startPosn then some s else scanLoop b startPosn fuel (next + 1) s

/-- What is visited of slab `j`. -/
def visitSlab (b : RteBitmap) (s : σ) (j : Nat) : Option σ :=
  ((range' 0 64).filter (b.getD j 0).getLsbD).foldlM (fun s p => visit s (globalBitPos j p)) s

/-- The positions of the set bits, in order. -/
def posns (b : RteBitmap) : List Nat :=
  (range' 0 b.length).flatMap fun j =>
    ((range' 0 64).filter (b.getD j 0).getLsbD).map (globalBitPos j)

variable {visit}

/-- A scan after a position is a search from the next one. -/
theorem slabScan_some (slab : BitVec 64) {p : Nat} (hp : p < 64) :
    slabScan slab (some p) = (range' (p + 1) (64 - (p + 1))).find? slab.getLsbD := by
  have hmap : (range 64).map (· + p + 1) = range' (p + 1) 64 := by
    rw [range_eq_range', List.range'_eq_map_range, List.range'_eq_map_range, map_map]
    refine map_congr_left fun i _ => ?_
    simp only [Function.comp_apply]
    omega
  have hsplit : range' (p + 1) 64 = range' (p + 1) (64 - (p + 1)) ++ range' 64 (p + 1) := by
    rw [show range' (p + 1) 64 = range' (p + 1) (64 - (p + 1) + (p + 1)) by
      congr 1; omega, ← List.range'_append_1]
    congr 2
    omega
  have hhigh : (range' 64 (p + 1)).find? slab.getLsbD = none := by
    refine find?_eq_none.mpr fun j hj => ?_
    rw [BitVec.getLsbD_of_ge _ _ (mem_range'_1.mp hj).1]
    exact Bool.false_ne_true
  have hbits : (lowestSet ((slab >>> p) >>> 1)).map (· + p + 1)
      = ((range 64).map (· + p + 1)).find? slab.getLsbD := by
    rw [lowestSet, find?_map]
    congr 2
    funext i
    simp only [Function.comp_apply, BitVec.getLsbD_ushiftRight]
    congr 1
    omega
  rw [slabScan, hbits, hmap, hsplit, find?_append, hhigh, Option.or_none]

/-- **A slab.**  `n` bits are left, from bit `c` on. -/
theorem slabLoop_eq (slab : BitVec 64) (index2 : Nat) {n c fuel : Nat} {posn : Option Nat} {s : σ}
    (hc : c + n = 64) (hfuel : n < fuel)
    (hscan : slabScan slab posn = (range' c n).find? slab.getLsbD) :
    slabLoop visit slab index2 fuel posn s
      = ((range' c n).filter slab.getLsbD).foldlM
          (fun s p => visit s (globalBitPos (index2 - 1) p)) s := by
  induction n generalizing c fuel posn s with
  | zero =>
    obtain ⟨fuel, rfl⟩ := Nat.exists_eq_add_of_lt hfuel
    rw [Nat.zero_add, slabLoop, hscan]
    rfl
  | succ n ih =>
    rw [range'_succ] at hscan ⊢
    cases hbit : slab.getLsbD c with
    | true =>
      obtain ⟨fuel, rfl⟩ : ∃ f, fuel = f + 1 := ⟨fuel - 1, by omega⟩
      rw [find?_cons_of_pos hbit] at hscan
      rw [slabLoop, hscan, filter_cons_of_pos hbit, foldlM_cons]
      refine bind_congr fun s' => ih (by omega) (by omega) ?_
      rw [slabScan_some slab (by omega), show 64 - (c + 1) = n by omega]
    | false =>
      rw [find?_cons_of_neg (by simp [hbit])] at hscan
      rw [filter_cons_of_neg (by simp [hbit])]
      exact ih (by omega) (by omega) hscan

theorem visitSlab_of_zero {b : RteBitmap} {j : Nat} (h : b.getD j 0 = 0) (s : σ) :
    visitSlab visit b s j = some s := by
  rw [visitSlab, h, filter_eq_nil_iff.mpr fun p _ => by simp]
  rfl

/-- Slabs without set bits are skipped. -/
theorem foldlM_skip {b : RteBitmap} {m i j : Nat} (s : σ)
    (h : (range' i m).find? (fun j => b.getD j 0 ≠ 0) = some j) :
    i ≤ j ∧ j < i + m ∧ b.getD j 0 ≠ 0 ∧ (range' i m).foldlM (visitSlab visit b) s
      = (range' j (i + m - j)).foldlM (visitSlab visit b) s := by
  induction m generalizing i with
  | zero => cases h
  | succ m ih =>
    rw [range'_succ] at h ⊢
    by_cases hzero : b.getD i 0 = 0
    · rw [find?_cons_of_neg (by simpa using hzero)] at h
      obtain ⟨hle, hlt, hne, hfold⟩ := ih h
      refine ⟨by omega, by omega, hne, ?_⟩
      rw [foldlM_cons, visitSlab_of_zero hzero]
      show List.foldlM _ s _ = _
      rw [hfold, show i + 1 + m - j = i + (m + 1) - j by omega]
    · rw [find?_cons_of_pos (by simpa using hzero)] at h
      obtain rfl := Option.some.inj h
      refine ⟨by omega, by omega, hzero, ?_⟩
      rw [show i + (m + 1) - i = m + 1 by omega, range'_succ]

theorem foldlM_zero {b : RteBitmap} {m i : Nat} (s : σ)
    (h : (range' i m).find? (fun j => b.getD j 0 ≠ 0) = none) :
    (range' i m).foldlM (visitSlab visit b) s = some s := by
  induction m generalizing i with
  | zero => rfl
  | succ m ih =>
    rw [range'_succ] at h ⊢
    by_cases hzero : b.getD i 0 = 0
    · rw [find?_cons_of_neg (by simpa using hzero)] at h
      rw [foldlM_cons, visitSlab_of_zero hzero]
      exact ih h
    · rw [find?_cons_of_pos (by simpa using hzero)] at h
      cases h

/-- **The slabs from `i` on**, up to the wrap-around. -/
theorem scanLoop_eq {b : RteBitmap} {first : Nat} (hfirst : b.scanFrom 0 = some first)
    {n i fuel : Nat} (s : σ) (hi : i + (n + 1) = b.length) (hle : first ≤ i) (hfuel : n < fuel) :
    scanLoop visit b (first <<< 6) fuel (i + 1) s
      = (range' i (n + 1)).foldlM (visitSlab visit b) s := by
  induction n using Nat.strong_induction_on generalizing i fuel s with
  | _ n ih =>
    obtain ⟨fuel, rfl⟩ : ∃ f, fuel = f + 1 := ⟨fuel - 1, by omega⟩
    rw [scanLoop, range'_succ, foldlM_cons,
      slabLoop_eq _ _ (n := 64) (c := 0) rfl (by decide)
        (by rw [slabScan, lowestSet, range_eq_range'])]
    refine bind_congr fun s' => ?_
    have hn : b.length - (i + 1) = n := by omega
    cases hnext : b.scanFrom (i + 1) with
    | none =>
      rw [scan_eq, hnext, hfirst, Option.none_or, Option.bind_eq_bind, Option.bind_some, if_pos rfl]
      rw [scanFrom, Bitmap.scanFrom, hn] at hnext
      rw [foldlM_zero s' hnext]
    | some j =>
      rw [scan_eq, hnext, Option.some_or, Option.bind_eq_bind, Option.bind_some]
      rw [scanFrom, Bitmap.scanFrom, hn] at hnext
      obtain ⟨hij, hlt, -, hfold⟩ := @foldlM_skip σ visit b _ _ _ s' hnext
      have hne : ¬ j <<< 6 = first <<< 6 := by
        omega
      rw [if_neg hne, hfold, show i + 1 + n - j = (i + n - j) + 1 by omega]
      exact ih (i + n - j) (by omega) s' (by omega) (by omega) (by omega)

theorem foldlM_visitSlab (b : RteBitmap) (js : List Nat) (s : σ) :
    js.foldlM (visitSlab visit b) s
      = (js.flatMap fun j =>
          ((range' 0 64).filter (b.getD j 0).getLsbD).map (globalBitPos j)).foldlM visit s := by
  induction js generalizing s with
  | nil => rfl
  | cons j js ih =>
    rw [foldlM_cons, flatMap_cons, foldlM_append, foldlM_map, visitSlab]
    exact bind_congr fun s' => ih s'

/-- **A walk over a bitmap visits the set positions, in order.** -/
theorem walk_eq {b : RteBitmap} {first : Nat} (hfirst : b.scan b.length = some first) (s : σ) :
    scanLoop visit b (first <<< 6) b.length (first + 1) s = b.posns.foldlM visit s := by
  rw [scan_length] at hfirst
  obtain ⟨-, hlt, -, hfold⟩ := @foldlM_skip σ visit b _ _ _ s hfirst
  rw [Nat.sub_zero, Nat.zero_add] at hlt hfold
  rw [scanLoop_eq hfirst (n := b.length - first - 1) s (by omega) le_rfl (by omega),
    show b.length - first - 1 + 1 = b.length - first by omega, ← hfold, foldlM_visitSlab]
  rfl

end Walk

theorem mem_posns {b : RteBitmap} : k ∈ b.posns ↔ b.test k = true := by
  simp only [posns, mem_flatMap, mem_range'_1, mem_map, mem_filter, globalBitPos, Nat.shiftLeft_eq]
  constructor
  · rintro ⟨j, -, p, ⟨⟨-, hp⟩, hbit⟩, rfl⟩
    rw [test, show (j * 2 ^ 6 + p) / 64 = j by omega, show (j * 2 ^ 6 + p) % 64 = p by omega]
    exact hbit
  · intro hbit
    refine ⟨k / 64, ⟨Nat.zero_le _, ?_⟩, k % 64, ⟨⟨Nat.zero_le _, by omega⟩, hbit⟩, by omega⟩
    by_contra hlen
    rw [test, getD_eq_getElem?_getD, getElem?_eq_none (by omega)] at hbit
    simp at hbit

theorem posns_sorted (b : RteBitmap) : b.posns.Pairwise (· < ·) := by
  rw [posns, pairwise_flatMap]
  have hrange : (range' 0 64).Pairwise (· < ·) := pairwise_lt_range' ..
  refine ⟨fun j _ => ?_, ?_⟩
  · refine List.Pairwise.map _ (fun p q hpq => ?_) (hrange.filter _)
    simpa [globalBitPos] using hpq
  · refine List.Pairwise.imp (fun {i j} hij p hp q hq => ?_) (pairwise_lt_range' ..)
    obtain ⟨p', hp', rfl⟩ := mem_map.mp hp
    obtain ⟨q', -, rfl⟩ := mem_map.mp hq
    have hp64 := (mem_range'_1.mp (mem_filter.mp hp').1).2
    simp only [globalBitPos, Nat.shiftLeft_eq]
    omega

/-- An empty bitmap is found to be empty. -/
theorem scan_eq_none_iff {b : RteBitmap} : b.scan b.length = none ↔ ∀ k, b.test k = false := by
  constructor
  · intro h k
    by_cases hlen : k / 64 < b.length
    · exact Bitmap.word_eq_zero.mp (Bitmap.eq_zero_of_nextWord h hlen) k rfl
    · rw [test, getD_eq_getElem?_getD, getElem?_eq_none (by omega)]
      exact BitVec.getLsbD_zero
  · intro h
    cases hscan : b.scan b.length with
    | none => rfl
    | some j =>
      have hzero : ∀ k, k / 64 = j → Bitmap.test (b.getD · 0) k = false := fun k _ => h k
      exact absurd (Bitmap.word_eq_zero.mpr hzero) (Bitmap.ne_zero_of_nextWord hscan)

end RteBitmap

end NicSw.Rfc
