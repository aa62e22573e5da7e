/-
What TCP reassembly hands over: the bytes of the stream.

The stored segments are read as pairs of distances from the current sequence number.  They
are in order and apart from each other, and every byte they cover is at its distance in the
buffer (`Inv`).  Entering, merging and delivering segments keep this.  What does not keep it
is a payload that bypasses the buffer while segments are stored: the current sequence number
moves on and the stored bytes stay where they are.  And the test whether a payload fits the
buffer compares sequence numbers as plain numbers, so that a payload across the wrap is
written past the end of the buffer.
-/
import NicSw.Sfw.TcpBuffer
import NicSw.Lib.Run
import Mathlib.Data.List.TakeWhile
import Mathlib.Tactic.Linarith

namespace NicSw.TcpBuffer

open BitVec (ofNat toNat_ofNat toNat_add)

open List

/-! ### Sequence numbers -/

theorem add_ofNat (c : BitVec 32) (a b : Nat) :
    c + ofNat 32 a + ofNat 32 b = c + ofNat 32 (a + b) := by
  rw [BitVec.add_assoc, ← BitVec.ofNat_add]

/-- Numbers that are near each other compare as their distances from a common one. -/
theorem compareSeqNumbers_add (c : BitVec 32) {a b : Nat} (hab : a < b + 2 ^ 31)
    (hba : b < a + 2 ^ 31) :
    compareSeqNumbers (c + ofNat 32 a) (c + ofNat 32 b) =
      if a = b then 0 else if a < b then -1 else 1 := by
  have hx : (c + ofNat 32 a).toNat = (c.toNat + a) % 2 ^ 32 := by
    rw [toNat_add, toNat_ofNat]
    omega
  have hy : (c + ofNat 32 b).toNat = (c.toNat + b) % 2 ^ 32 := by
    rw [toNat_add, toNat_ofNat]
    omega
  have heq : c + ofNat 32 a = c + ofNat 32 b ↔ a = b := by
    rw [← BitVec.toNat_inj, hx, hy]
    omega
  unfold compareSeqNumbers
  simp only [BitVec.toNat_sub, BitVec.lt_def, heq, hx, hy]
  split_ifs <;> first | rfl | omega

theorem compare_pos (c : BitVec 32) {a b : Nat} (hab : a < b + 2 ^ 31) (hba : b < a + 2 ^ 31) :
    compareSeqNumbers (c + ofNat 32 a) (c + ofNat 32 b) > 0 ↔ b < a := by
  rw [compareSeqNumbers_add c hab hba]
  split_ifs <;> omega

theorem compare_neg (c : BitVec 32) {a b : Nat} (hab : a < b + 2 ^ 31) (hba : b < a + 2 ^ 31) :
    compareSeqNumbers (c + ofNat 32 a) (c + ofNat 32 b) < 0 ↔ a < b := by
  rw [compareSeqNumbers_add c hab hba]
  split_ifs <;> omega

theorem compare_nonneg (c : BitVec 32) {a b : Nat} (hab : a < b + 2 ^ 31) (hba : b < a + 2 ^ 31) :
    compareSeqNumbers (c + ofNat 32 a) (c + ofNat 32 b) ≥ 0 ↔ b ≤ a := by
  rw [compareSeqNumbers_add c hab hba]
  split_ifs <;> omega

theorem compare_nonpos (c : BitVec 32) {a b : Nat} (hab : a < b + 2 ^ 31) (hba : b < a + 2 ^ 31) :
    compareSeqNumbers (c + ofNat 32 a) (c + ofNat 32 b) ≤ 0 ↔ a ≤ b := by
  rw [compareSeqNumbers_add c hab hba]
  split_ifs <;> omega

/-! ### Segments as distances -/

/-- The segment from distance `x.1` to distance `x.2` of a sequence number. -/
def seg (c : BitVec 32) (x : Nat × Nat) : Segment :=
  ⟨c + ofNat 32 x.1, c + ofNat 32 x.2⟩

@[simp] theorem seg_start (c : BitVec 32) (x : Nat × Nat) :
    (seg c x).start = c + ofNat 32 x.1 := rfl

@[simp] theorem seg_stop (c : BitVec 32) (x : Nat × Nat) : (seg c x).stop = c + ofNat 32 x.2 := rfl

/-- The later of two ends. -/
theorem seg_stop_max (c : BitVec 32) {a b : Nat} (ha : a < 2 ^ 31) (hb : b < 2 ^ 31) :
    (if compareSeqNumbers (c + ofNat 32 a) (c + ofNat 32 b) > 0
      then c + ofNat 32 a else c + ofNat 32 b) =
      c + ofNat 32 (max b a) := by
  simp only [compare_pos c (show a < b + 2 ^ 31 by omega) (by omega)]
  split_ifs with h
  · rw [Nat.max_eq_right (Nat.le_of_lt h)]
  · rw [Nat.max_eq_left (Nat.le_of_not_lt h)]

/-- The earlier of two starts. -/
theorem seg_start_min (c : BitVec 32) {a b : Nat} (ha : a < 2 ^ 31) (hb : b < 2 ^ 31) :
    (if compareSeqNumbers (c + ofNat 32 a) (c + ofNat 32 b) < 0
      then c + ofNat 32 a else c + ofNat 32 b) =
      c + ofNat 32 (min b a) := by
  simp only [compare_neg c (show a < b + 2 ^ 31 by omega) (by omega)]
  split_ifs with h
  · rw [Nat.min_eq_right (Nat.le_of_lt h)]
  · rw [Nat.min_eq_left (Nat.le_of_not_lt h)]

/-- In order, apart from each other, and not behind `bound`. -/
structure Separated (bound : Nat) (l : List (Nat × Nat)) : Prop where
  apart : l.Pairwise fun x y => x.2 < y.1
  le : ∀ x ∈ l, x.1 ≤ x.2 ∧ x.2 ≤ bound

/-- Distance `i` is in one of the segments. -/
def Covered (l : List (Nat × Nat)) (i : Nat) : Prop := ∃ x ∈ l, x.1 ≤ i ∧ i < x.2

variable {c : BitVec 32} {bound : Nat} {l : List (Nat × Nat)} {x new : Nat × Nat}

theorem Separated.cons (hl : Separated bound l) (hx : x.1 ≤ x.2 ∧ x.2 ≤ bound)
    (hlt : ∀ y ∈ l, x.2 < y.1) : Separated bound (x :: l) :=
  ⟨pairwise_cons.2 ⟨hlt, hl.apart⟩, forall_mem_cons.2 ⟨hx, hl.le⟩⟩

theorem Separated.sublist {l' : List (Nat × Nat)} (hl : Separated bound l)
    (hs : l'.Sublist l) : Separated bound l' :=
  ⟨hl.apart.sublist hs, fun x hx => hl.le x (hs.subset hx)⟩

theorem Separated.mono {bound' : Nat} (hl : Separated bound l) (h : bound ≤ bound') :
    Separated bound' l :=
  ⟨hl.apart, fun x hx => ⟨(hl.le x hx).1, Nat.le_trans (hl.le x hx).2 h⟩⟩

/-- What is entered: the new list is separated, and covers no more than the old one and the
new segment. -/
structure Entered (bound : Nat) (l : List (Nat × Nat)) (new : Nat × Nat)
    (l' : List (Nat × Nat)) : Prop where
  separated : Separated bound l'
  covered : ∀ i, Covered l' i → Covered l i ∨ new.1 ≤ i ∧ i < new.2

/-- **Merging.**  The segments that the current one reaches become part of it. -/
theorem mergeNext_spec (hb : bound < 2 ^ 31) (hl : Separated bound l)
    (hx : x.1 ≤ x.2 ∧ x.2 ≤ bound) (hlt : ∀ y ∈ l, x.1 < y.1) :
    ∃ l', mergeNext (seg c x) (l.map (seg c)) = l'.map (seg c) ∧ Separated bound l' ∧
      (∀ y ∈ l', x.1 ≤ y.1) ∧ ∀ i, Covered l' i → Covered (x :: l) i := by
  induction l generalizing x with
  | nil => exact ⟨[x], rfl, ⟨pairwise_singleton _ _, by simpa using hx⟩, by simp,
      fun _ h => h⟩
  | cons y l ih =>
    obtain ⟨hyl, hl'⟩ := pairwise_cons.1 hl.apart
    have hy := hl.le y (mem_cons_self ..)
    have hxy := hlt y (mem_cons_self ..)
    have htail : Separated bound l := hl.sublist (sublist_cons_self y l)
    have hreach : compareSeqNumbers (seg c x).stop (seg c y).start ≥ 0 ↔ y.1 ≤ x.2 := by
      rw [seg_stop, seg_start, compare_nonneg c (by omega) (by omega)]
    rw [map_cons, mergeNext]
    split
    next hge =>
      -- the next segment is reached: go on with the union of the two
      have hstop := seg_stop_max c (show y.2 < 2 ^ 31 by omega) (show x.2 < 2 ^ 31 by omega)
      obtain ⟨l', heq, hsep, hfirst, hcov⟩ := ih (x := (x.1, max x.2 y.2)) htail
        (by simp only; omega) fun z hz => by have := hyl z hz; simp only; omega
      refine ⟨l', ?_, hsep, hfirst, fun i hi => ?_⟩
      · rw [← heq, seg_stop, seg_stop, hstop]
        rfl
      · obtain ⟨z, hz, h1, h2⟩ := hcov i hi
        obtain rfl | hz := mem_cons.1 hz
        · simp only at h1 h2
          by_cases hix : i < x.2
          · exact ⟨x, mem_cons_self .., h1, hix⟩
          · exact ⟨y, by simp, by omega, by omega⟩
        · exact ⟨z, by simp [hz], h1, h2⟩
    next hge =>
      have hgt : x.2 < y.1 := by
        by_contra hn
        exact hge (hreach.2 (by omega))
      refine ⟨x :: y :: l, rfl, hl.cons hx ?_, ?_, fun _ h => h⟩
      · refine forall_mem_cons.2 ⟨hgt, fun z hz => ?_⟩
        have := hyl z hz
        omega
      · refine forall_mem_cons.2 ⟨Nat.le_refl _, fun z hz => ?_⟩
        exact Nat.le_of_lt (hlt z hz)

theorem Covered.of_subset {l' : List (Nat × Nat)} {i : Nat} (h : Covered l' i)
    (hs : ∀ y ∈ l', y ∈ l) : Covered l i :=
  h.imp fun y hy => ⟨hs y hy.1, hy.2⟩

/-- A segment between two parts of the list. -/
theorem Separated.insert {l1 l2 : List (Nat × Nat)} (hl : Separated bound (l1 ++ l2))
    (hnew : new.1 ≤ new.2 ∧ new.2 ≤ bound) (h₁ : ∀ y ∈ l1, y.2 < new.1)
    (h₂ : ∀ y ∈ l2, new.2 < y.1) : Separated bound (l1 ++ new :: l2) := by
  obtain ⟨p1, p2, p₁₂⟩ := pairwise_append.1 hl.apart
  refine ⟨pairwise_append.2 ⟨p1, pairwise_cons.2 ⟨h₂, p2⟩, ?_⟩, ?_⟩
  · intro y hy
    exact forall_mem_cons.2 ⟨h₁ y hy, p₁₂ y hy⟩
  · intro y hy
    obtain hy | hy := mem_append.1 hy
    · exact hl.le y (mem_append_left _ hy)
    · obtain rfl | hy := mem_cons.1 hy
      · exact hnew
      · exact hl.le y (mem_append_right _ hy)

/-- A segment that touches none of the others is entered in its place.  Where the slots are
full, others are dropped, or the segment itself. -/
theorem insertAt_spec {l1 l2 : List (Nat × Nat)} (hl : Separated bound (l1 ++ l2))
    (hnew : new.1 ≤ new.2 ∧ new.2 ≤ bound) (h₁ : ∀ y ∈ l1, y.2 < new.1)
    (h₂ : ∀ y ∈ l2, new.2 < y.1) :
    ∃ l', insertAt ((l1 ++ l2).map (seg c)) l1.length (seg c new) = l'.map (seg c) ∧
      Entered bound (l1 ++ l2) new l' := by
  have hins : ∀ k, Entered bound (l1 ++ l2) new (l1 ++ new :: l2.take k) := by
    intro k
    have hsub : (l1 ++ l2.take k).Sublist (l1 ++ l2) := (take_sublist k l2).append_left l1
    refine ⟨(hl.sublist hsub).insert hnew h₁ fun y hy => h₂ y (mem_of_mem_take hy), ?_⟩
    rintro i ⟨y, hy, hi⟩
    obtain hy | hy := mem_append.1 hy
    · exact .inl ⟨y, mem_append_left _ hy, hi⟩
    · obtain rfl | hy := mem_cons.1 hy
      · exact .inr hi
      · exact .inl ⟨y, mem_append_right _ (mem_of_mem_take hy), hi⟩
  -- the slots in use are those of the first part and some of the second
  have hslots : ∀ k, ((l1 ++ l2.take k).map (seg c)).take l1.length ++
      seg c new :: ((l1 ++ l2.take k).map (seg c)).drop l1.length =
        (l1 ++ new :: l2.take k).map (seg c) := by
    intro k
    simp
  simp only [insertAt]
  by_cases hfull : ((l1 ++ l2).map (seg c)).length + 1 ≥ maxSegments
  · rw [if_pos hfull]
    by_cases hcur : l1.length ≤ (((l1 ++ l2).map (seg c)).take (maxSegments - 2)).length
    · rw [if_pos hcur]
      have hle : l1.length ≤ maxSegments - 2 := by
        rw [length_take] at hcur
        omega
      refine ⟨_, ?_, hins (maxSegments - 2 - l1.length)⟩
      rw [← map_take, take_append, take_of_length_le hle]
      exact hslots _
    · rw [if_neg hcur]
      refine ⟨(l1 ++ l2).take (maxSegments - 1), (map_take ..).symm, ?_, ?_⟩
      · exact hl.sublist (take_sublist ..)
      · exact fun i hi => .inl (hi.of_subset fun y hy => mem_of_mem_take hy)
  · rw [if_neg hfull, if_pos (by simp)]
    refine ⟨_, ?_, hins l2.length⟩
    have h := hslots l2.length
    rwa [take_length] at h ⊢

/-- **A segment is entered**: in its place, at the end, or merged with what it touches. -/
theorem enterSegment_spec {segs : List Segment} (hb : bound < 2 ^ 31)
    (hl : Separated bound l) (hnew : new.1 ≤ new.2 ∧ new.2 ≤ bound)
    (h : enterSegment (l.map (seg c)) (seg c new) = some segs) :
    ∃ l', segs = l'.map (seg c) ∧ Entered bound l new l' := by
  set p : Segment → Bool := fun s => compareSeqNumbers (seg c new).start s.stop > 0 with hp
  have hend : ∀ y ∈ l, (p (seg c y) = true ↔ y.2 < new.1) := by
    intro y hy
    have := hl.le y hy
    rw [hp, decide_eq_true_eq, seg_start, seg_stop, compare_pos c (by omega) (by omega)]
  -- the segments before the new one are those that end before it
  obtain ⟨l1, l2, rfl, htake, h₁, h₂⟩ : ∃ l1 l2, l = l1 ++ l2 ∧
      (l.map (seg c)).takeWhile p = l1.map (seg c) ∧ (∀ y ∈ l1, y.2 < new.1) ∧
      ∀ y ∈ l2.head?, new.1 ≤ y.2 := by
    refine ⟨l.takeWhile (p ∘ seg c), l.dropWhile (p ∘ seg c), takeWhile_append_dropWhile.symm,
      takeWhile_map .., fun y hy => ?_, fun y hy => ?_⟩
    · have hmem : y ∈ l := (takeWhile_sublist _).subset hy
      have hpy : (p ∘ seg c) y = true := mem_takeWhile_imp hy
      exact (hend y hmem).1 hpy
    · have hmem : y ∈ l := (dropWhile_sublist _).subset (mem_of_mem_head? hy)
      have hnot := head?_dropWhile_not (p ∘ seg c) l
      rw [Option.mem_def.1 hy] at hnot
      by_contra hlt
      have := (hend y hmem).2 (by omega)
      simp [this] at hnot
  have hl2 : Separated bound l2 := hl.sublist (sublist_append_right l1 l2)
  have hl1 : Separated bound l1 := hl.sublist (sublist_append_left l1 l2)
  obtain ⟨-, p2, p₁₂⟩ := pairwise_append.1 hl.apart
  simp only [enterSegment, ← hp, htake, length_map] at h
  rw [map_append, drop_left' (by simp)] at h
  cases l2 with
  | nil =>
    simp only [map_nil, append_nil] at h
    split_ifs at h
    cases h
    refine ⟨l1 ++ [new], by simp, hl.insert hnew h₁ (by simp), fun i hi => ?_⟩
    obtain ⟨y, hy, hi⟩ := hi
    obtain hy | hy := mem_append.1 hy
    · exact .inl ⟨y, by simpa using hy, hi⟩
    · rw [mem_singleton.1 hy] at hi
      exact .inr hi
  | cons y l2 =>
    have hy := hl2.le y (mem_cons_self ..)
    have hny : new.1 ≤ y.2 := h₂ y rfl
    have hbehind := (pairwise_cons.1 p2).1
    have hbefore : compareSeqNumbers (seg c new).stop (seg c y).start < 0 ↔ new.2 < y.1 := by
      rw [seg_start, seg_stop, compare_neg c (by omega) (by omega)]
    simp only [map_cons] at h
    split at h
    next hlt =>
      rw [hbefore] at hlt
      cases h
      rw [← map_cons, ← map_append]
      refine insertAt_spec hl hnew h₁ (forall_mem_cons.2 ⟨hlt, fun z hz => ?_⟩)
      have := hbehind z hz
      omega
    next hge =>
      -- the new segment touches `y`
      cases h
      rw [seg_start, seg_start, seg_stop, seg_stop,
        seg_start_min c (show new.1 < 2 ^ 31 by omega) (show y.1 < 2 ^ 31 by omega),
        seg_stop_max c (show new.2 < 2 ^ 31 by omega) (show y.2 < 2 ^ 31 by omega)]
      obtain ⟨l', heq, hsep, hfirst, hcov⟩ := mergeNext_spec (c := c)
        (x := (min y.1 new.1, max y.2 new.2)) hb (hl2.sublist (sublist_cons_self y l2))
        (by simp only; omega) fun z hz => by have := hbehind z hz; simp only; omega
      refine ⟨l1 ++ l', ?_, ⟨pairwise_append.2 ⟨hl1.apart, hsep.apart, ?_⟩, ?_⟩, ?_⟩
      · rw [map_append, ← heq]
        rfl
      · intro z hz w hw
        have h3 := hfirst w hw
        have h4 := h₁ z hz
        have h5 := p₁₂ z hz y (mem_cons_self ..)
        omega
      · intro z hz
        obtain hz | hz := mem_append.1 hz
        · exact hl1.le z hz
        · exact hsep.le z hz
      · rintro i ⟨z, hz, hi⟩
        obtain hz | hz := mem_append.1 hz
        · exact .inl ⟨z, mem_append_left _ hz, hi⟩
        obtain ⟨w, hw, hi⟩ := hcov i ⟨z, hz, hi⟩
        obtain rfl | hw := mem_cons.1 hw
        · -- the union of the two has no gap
          by_cases hiy : y.1 ≤ i ∧ i < y.2
          · exact .inl ⟨y, by simp, hiy⟩
          · exact .inr (by omega)
        · exact .inl ⟨w, by simp [hw], hi⟩

/-! ### The buffer -/

/-- The bytes of a stream from a position. -/
def piece (stream : Nat → Byte) (p len : Nat) : List Byte :=
  (List.range len).map fun i => stream (p + i)

variable {stream : Nat → Byte} {buff : Nat → Byte} {n : Nat}

/-- Every byte that is covered is at its distance. -/
def Holds (stream : Nat → Byte) (n : Nat) (buff : Nat → Byte) (l : List (Nat × Nat)) : Prop :=
  ∀ i, Covered l i → buff i = stream (n + i)

theorem copyIn_apply (buff : Nat → Byte) (off : Nat) (payload : List Byte) (i : Nat) :
    copyIn buff off payload i =
      if h : off ≤ i ∧ i < off + payload.length then payload.get ⟨i - off, by omega⟩
      else buff i := by
  unfold copyIn
  by_cases hoff : off ≤ i
  · rw [if_pos hoff]
    by_cases hlt : i < off + payload.length
    · rw [dif_pos ⟨hoff, hlt⟩, getElem?_eq_getElem (by omega)]
      rfl
    · rw [dif_neg fun h => hlt h.2, getElem?_eq_none (by omega)]
      rfl
  · rw [if_neg hoff, dif_neg fun h => hoff h.1]

@[simp] theorem length_piece (stream : Nat → Byte) (p len : Nat) :
    (piece stream p len).length = len := by
  simp [piece]

/-- A piece of the stream is copied to its place. -/
theorem copyIn_piece (buff : Nat → Byte) (off len i : Nat) :
    copyIn buff off (piece stream (n + off) len) i =
      if off ≤ i ∧ i < off + len then stream (n + i) else buff i := by
  rw [copyIn_apply]
  simp only [length_piece]
  by_cases h : off ≤ i ∧ i < off + len
  · rw [dif_pos h, if_pos h]
    simp only [piece, get_eq_getElem, getElem_map, getElem_range]
    congr 1
    omega
  · rw [dif_neg h, if_neg h]

/-- **A payload is stored**: what was entered is in the buffer. -/
theorem Holds.copyIn {l' : List (Nat × Nat)} {off len : Nat} (hh : Holds stream n buff l)
    (he : Entered bound l (off, off + len) l') :
    Holds stream n (TcpBuffer.copyIn buff off (piece stream (n + off) len)) l' := by
  intro i hi
  rw [copyIn_piece]
  split_ifs with hin
  · rfl
  · obtain hc | hc := he.covered i hi
    · exact hh i hc
    · exact absurd hc hin

/-- The first bytes of the buffer are those of the stream. -/
theorem Holds.bytes {b : Nat} (hh : Holds stream n buff l) (h0 : (0, b) ∈ l) :
    bytes buff b = piece stream n b := by
  refine map_congr_left fun i hi => ?_
  exact hh i ⟨(0, b), h0, Nat.zero_le i, mem_range.1 hi⟩

theorem seg_start_sub (hx : x.1 < 2 ^ 32) : ((seg c x).start - c).toNat = x.1 := by
  rw [seg_start, BitVec.add_comm, BitVec.add_sub_cancel, toNat_ofNat]
  exact Nat.mod_eq_of_lt hx

theorem seg_stop_sub_start (hx : x.1 ≤ x.2) (hx' : x.2 < 2 ^ 32) :
    ((seg c x).stop - (seg c x).start).toNat = x.2 - x.1 := by
  rw [seg_start, seg_stop, BitVec.toNat_sub, toNat_add, toNat_add, toNat_ofNat, toNat_ofNat]
  omega

/-- Distances from a sequence number that has moved on. -/
def shift (k : Nat) (x : Nat × Nat) : Nat × Nat := (x.1 - k, x.2 - k)

/-- **The payload moves to the front.**  Each segment is moved below its own place, so that
the ones behind it are still where they were. -/
theorem moveDown_spec {k : Nat} (hb : bound < 2 ^ 32) (hl : Separated bound l)
    (hk : ∀ x ∈ l, k ≤ x.1) (hh : Holds stream n buff l) :
    Holds stream (n + k) (moveDown c k buff (l.map (seg c))) (l.map (shift k)) ∧
      ∀ i, (∀ x ∈ l, i + k < x.1) → moveDown c k buff (l.map (seg c)) i = buff i := by
  induction l generalizing buff with
  | nil =>
    refine ⟨fun i hi => ?_, fun i _ => rfl⟩
    obtain ⟨x, hx, -⟩ := hi
    cases hx
  | cons x l ih =>
    obtain ⟨hxl, -⟩ := pairwise_cons.1 hl.apart
    have hx := hl.le x (mem_cons_self ..)
    have hkx := hk x (mem_cons_self ..)
    -- what is moved is a piece of the stream
    have hpiece : (List.range ((seg c x).stop - (seg c x).start).toNat).map
        (fun i => buff (((seg c x).start - c).toNat + i)) =
          piece stream (n + k + (x.1 - k)) (x.2 - x.1) := by
      rw [seg_stop_sub_start hx.1 (by omega), seg_start_sub (by omega)]
      refine map_congr_left fun i hi => ?_
      have hi := mem_range.1 hi
      rw [hh (x.1 + i) ⟨x, mem_cons_self .., by omega, by omega⟩]
      congr 1
      omega
    set buff1 := TcpBuffer.copyIn buff (x.1 - k)
      (piece stream (n + k + (x.1 - k)) (x.2 - x.1)) with hbuff1
    have hstep : moveDown c k buff ((x :: l).map (seg c)) = moveDown c k buff1 (l.map (seg c)) := by
      rw [hbuff1, ← hpiece, ← seg_start_sub (c := c) (show x.1 < 2 ^ 32 by omega)]
      rfl
    have hheld : Holds stream n buff1 l := by
      rintro i ⟨y, hy, hi⟩
      have := hxl y hy
      rw [hbuff1, copyIn_piece, if_neg (by omega)]
      exact hh i ⟨y, mem_cons_of_mem x hy, hi⟩
    obtain ⟨ih1, ih2⟩ := ih (hl.sublist (sublist_cons_self x l))
      (fun y hy => hk y (mem_cons_of_mem x hy)) hheld
    rw [hstep]
    refine ⟨?_, fun i hi => ?_⟩
    · rintro i ⟨z, hz, hi⟩
      obtain rfl | hz := mem_cons.1 hz
      · -- the moves of the segments behind do not reach this one
        have hi' : x.1 - k ≤ i ∧ i < x.2 - k := hi
        rw [ih2 i fun y hy => by have := hxl y hy; omega, hbuff1, copyIn_piece, if_pos (by omega)]
      · exact ih1 i ⟨z, hz, hi⟩
    · obtain ⟨hix, hil⟩ := forall_mem_cons.1 hi
      rw [ih2 i hil, hbuff1, copyIn_piece, if_neg (by omega)]

/-! ### The invariant -/

/-- **The invariant**, after `n` bytes of the stream were consumed. -/
structure Inv (stream : Nat → Byte) (s0 : BitVec 32) (t : Buffer) (n : Nat) : Prop where
  curSeq : t.curSeq = s0 + ofNat 32 n
  size : t.buffSize = 0 ∨ minBuffSize ≤ t.buffSize
  size_le : t.buffSize ≤ maxBuffSize
  segs : ∃ l, t.segments = l.map (seg t.curSeq) ∧ Separated t.buffSize l ∧ Holds stream n t.buff l

variable {s0 : BitVec 32} {t : Buffer} {handler : List Byte → Nat}

/-- What there is to be delivered is the first segment, at distance 0. -/
theorem reassembled_eq (hb : bound < 2 ^ 32) (hl : Separated bound l)
    (ht : t.segments = l.map (seg t.curSeq)) :
    reassembled t = 0 ∨ ∃ b rest, l = (0, b) :: rest ∧ reassembled t = b := by
  unfold reassembled
  rw [ht]
  cases l with
  | nil => exact .inl rfl
  | cons x rest =>
    have hx := hl.le x (mem_cons_self ..)
    simp only [map_cons]
    by_cases h0 : (seg t.curSeq x).start = t.curSeq
    · have hz : x.1 = 0 := by
        rw [← seg_start_sub (c := t.curSeq) (show x.1 < 2 ^ 32 by omega), h0, BitVec.sub_self]
        rfl
      rw [if_pos h0, seg_stop_sub_start hx.1 (by omega), hz]
      exact .inr ⟨x.2, rest, by rw [← hz], rfl⟩
    · rw [if_neg h0]
      exact .inl rfl

/-- What the handler has consumed leaves the buffer. -/
theorem seg_shift {k : Nat} (hk : k ≤ x.1) (hx : x.1 ≤ x.2) :
    seg (c + ofNat 32 k) (shift k x) = seg c x := by
  have hadd : ∀ a, k ≤ a → c + ofNat 32 k + ofNat 32 (a - k) = c + ofNat 32 a := by
    intro a ha
    rw [add_ofNat, Nat.add_sub_cancel' ha]
  exact Segment.ext (hadd x.1 hk) (hadd x.2 (Nat.le_trans hk hx))

theorem Separated.shift {k : Nat} (hl : Separated bound l) (hk : ∀ x ∈ l, k ≤ x.1) :
    Separated bound (l.map (shift k)) := by
  refine ⟨pairwise_map.2 (hl.apart.imp_of_mem fun {x y} hx hy hxy => ?_), fun y hy => ?_⟩
  · have h₁ := hk x hx
    have h₂ := hl.le x hx
    show x.2 - k < y.1 - k
    omega
  · obtain ⟨x, hx, rfl⟩ := mem_map.1 hy
    have h₂ := hl.le x hx
    show x.1 - k ≤ x.2 - k ∧ x.2 - k ≤ bound
    omega

/-- **Delivery.**  The handler is given the stream, and what is left is at its place. -/
theorem Inv.deliver (h : Inv stream s0 t n) (hh : ∀ d, handler d ≤ d.length) :
    (deliver t handler).1 = piece stream n (reassembled t) ∧
      Inv stream s0 (deliver t handler).2 (n + handler (deliver t handler).1) := by
  obtain ⟨l, ht, hl, hheld⟩ := h.segs
  have hmax : maxBuffSize = 16384 := rfl
  have hsize := h.size_le
  have hb : t.buffSize < 2 ^ 32 := by omega
  have hdata : bytes t.buff (reassembled t) = piece stream n (reassembled t) := by
    obtain hz | ⟨b, rest, rfl, hr⟩ := reassembled_eq hb hl ht
    · rw [hz]
      rfl
    · rw [hr]
      exact hheld.bytes (mem_cons_self ..)
  have hle := hh (bytes t.buff (reassembled t))
  rw [hdata, length_piece] at hle
  unfold TcpBuffer.deliver
  simp only [hdata]
  set k := handler (piece stream n (reassembled t)) with hk
  by_cases hk0 : k = 0
  · rw [if_pos hk0]
    refine ⟨rfl, ?_⟩
    rw [← hk, hk0]
    exact h
  rw [if_neg hk0]
  refine ⟨rfl, ?_⟩
  obtain hz | ⟨b, rest, rfl, hr⟩ := reassembled_eq hb hl ht
  · omega
  -- what is left of the first segment, and the segments behind it
  obtain ⟨hrest, -⟩ := pairwise_cons.1 hl.apart
  have hb0 := hl.le (0, b) (mem_cons_self ..)
  obtain ⟨l', hl', hsegs⟩ : ∃ l', ((l' = rest ∧ k = b) ∨ (l' = (k, b) :: rest ∧ k < b)) ∧
      advance t.segments (reassembled t) k = l'.map (seg t.curSeq) := by
    rw [ht, hr, map_cons, advance]
    by_cases hkb : k = b
    · exact ⟨rest, .inl ⟨rfl, hkb⟩, if_pos hkb⟩
    · refine ⟨(k, b) :: rest, .inr ⟨rfl, by omega⟩, ?_⟩
      simp [hkb, seg]
  have hsep : Separated t.buffSize l' ∧ (∀ x ∈ l', k ≤ x.1) ∧
      ∀ i, Covered l' i → Covered ((0, b) :: rest) i := by
    have htail := hl.sublist (sublist_cons_self (0, b) rest)
    have hge : ∀ x ∈ rest, k ≤ x.1 := fun x hx => by have := hrest x hx; omega
    obtain ⟨rfl, -⟩ | ⟨rfl, hkb⟩ := hl'
    · exact ⟨htail, hge, fun i hi => hi.of_subset fun y hy => mem_cons_of_mem _ hy⟩
    refine ⟨htail.cons (by simp only; omega) hrest, forall_mem_cons.2 ⟨Nat.le_refl _, hge⟩, ?_⟩
    rintro i ⟨y, hy, hi⟩
    obtain rfl | hy := mem_cons.1 hy
    · exact ⟨(0, b), mem_cons_self .., Nat.zero_le _, hi.2⟩
    · exact ⟨y, mem_cons_of_mem _ hy, hi⟩
  simp only [hsegs]
  have hmove := (moveDown_spec (c := t.curSeq) hb hsep.1 hsep.2.1
    fun i hi => hheld i (hsep.2.2 i hi)).1
  refine ⟨?_, h.size, h.size_le, l'.map (shift k), ?_, hsep.1.shift hsep.2.1, hmove⟩
  · show t.curSeq + ofNat 32 k = _
    rw [h.curSeq, add_ofNat]
  · rw [map_map]
    refine map_congr_left fun x hx => ?_
    exact (seg_shift (hsep.2.1 x hx) (hsep.1.le x hx).1).symm

/-! ### The steps of an insertion -/

/-- Doubling ends at a size that is large enough, or too large. -/
theorem growTo_spec (reqd size fuel : Nat) (h : maxBuffSize < size * 2 ^ fuel) :
    size ≤ growTo reqd size fuel ∧
      (reqd ≤ growTo reqd size fuel ∨ maxBuffSize < growTo reqd size fuel) := by
  induction fuel generalizing size with
  | zero =>
    rw [Nat.pow_zero, Nat.mul_one] at h
    exact ⟨Nat.le_refl _, .inr h⟩
  | succ fuel ih =>
    rw [growTo]
    split_ifs with hgo
    · obtain ⟨h₁, h₂⟩ := ih (2 * size) (by rw [Nat.pow_succ] at h; linarith)
      exact ⟨by omega, h₂⟩
    · exact ⟨Nat.le_refl _, by omega⟩

/-- The payload fits the buffer, or the code sees that it does not: it ends behind the end of
the buffer as a plain number. -/
def Fits (t : Buffer) (stop : BitVec 32) : Prop :=
  t.buffSize = 0 ∨ (stop - t.curSeq).toNat ≤ t.buffSize ∨ stop ≥ t.endBuffSeq

/-- **The buffer is large enough** for what the code sees not to fit. -/
theorem Inv.reserve {stop : BitVec 32} {mem : Nat → Byte} {t' : Buffer}
    (h : Inv stream s0 t n) (hfit : Fits t stop) (hr : reserve t stop mem = some t') :
    Inv stream s0 t' n ∧ t'.curSeq = t.curSeq ∧ (stop - t.curSeq).toNat ≤ t'.buffSize := by
  obtain ⟨l, ht, hl, hheld⟩ := h.segs
  have hmin : minBuffSize = 2048 := rfl
  have hmax : maxBuffSize = 16384 := rfl
  simp only [TcpBuffer.reserve] at hr
  split at hr
  next h0 =>
    obtain ⟨hge, hok⟩ := growTo_spec (stop - t.curSeq).toNat minBuffSize 4 (by decide)
    split at hr
    · cases hr
    next hle =>
      cases hr
      refine ⟨⟨h.curSeq, .inr hge, Nat.le_of_not_lt hle, l, ht, hl.mono (by simp only; omega), ?_⟩,
        rfl, by simp only; omega⟩
      rintro i ⟨x, hx, hi⟩
      have := hl.le x hx
      omega
  next h0 =>
    have hsize : minBuffSize ≤ t.buffSize := h.size.resolve_left h0
    split at hr
    next hend =>
      obtain ⟨hge, hok⟩ := growTo_spec (stop - t.curSeq).toNat t.buffSize 4 (by omega)
      split at hr
      · cases hr
      next hle =>
        cases hr
        refine ⟨⟨h.curSeq, .inr (Nat.le_trans hsize hge), Nat.le_of_not_lt hle, l, ht,
          hl.mono hge, ?_⟩, rfl, by simp only; omega⟩
        rintro i ⟨x, hx, hi⟩
        have := hl.le x hx
        show (if i < t.buffSize then t.buff i else mem i) = _
        rw [if_pos (by omega)]
        exact hheld i ⟨x, hx, hi⟩
    next hend =>
      cases hr
      exact ⟨h, rfl, (hfit.resolve_left h0).resolve_right hend⟩

/-- What a call gives: the handler was given the stream from where it is, and the invariant
holds behind what it has consumed. -/
structure Delivers (stream : Nat → Byte) (s0 : BitVec 32) (n : Nat) (handler : List Byte → Nat)
    (r : HalRet × Option (List Byte) × Buffer) : Prop where
  data : ∀ d ∈ r.2.1, d = piece stream n d.length
  inv : Inv stream s0 r.2.2 (n + (r.2.1.map handler).getD 0)

theorem ofNat_add_sub (c : BitVec 32) {a : Nat} (ha : a < 2 ^ 32) :
    (c + ofNat 32 a - c).toNat = a := by
  rw [BitVec.add_comm, BitVec.add_sub_cancel, toNat_ofNat]
  exact Nat.mod_eq_of_lt ha

/-- **A payload behind the current sequence number is stored**, and delivered with what was
stored if the handler was not called yet. -/
theorem Inv.store {a len : Nat} (invoked : Bool) (mem : Nat → Byte)
    (h : Inv stream s0 t n) (hh : ∀ d, handler d ≤ d.length) (ha : a + len < 2 ^ 31)
    (hfit : Fits t (t.curSeq + ofNat 32 (a + len))) :
    ∃ r, store t (t.curSeq + ofNat 32 a) (piece stream (n + a) len) invoked handler mem =
        some r ∧ Delivers stream s0 n handler r ∧ (invoked = true → r.2.1 = none) := by
  have hmax : maxBuffSize = 16384 := rfl
  simp only [TcpBuffer.store, length_piece, add_ofNat]
  cases hr : TcpBuffer.reserve t (t.curSeq + ofNat 32 (a + len)) mem with
  | none => exact ⟨_, rfl, ⟨by simp, by simpa using h⟩, fun _ => rfl⟩
  | some t1 =>
    obtain ⟨h₁, hcur, hroom⟩ := h.reserve hfit hr
    obtain ⟨l, ht, hl, hheld⟩ := h₁.segs
    have hsize := h₁.size_le
    rw [ofNat_add_sub t.curSeq (by omega)] at hroom
    rw [← hcur]
    cases he : enterSegment t1.segments (seg t1.curSeq (a, a + len)) with
    | none =>
      refine ⟨(.oob, none, t1), ?_, ⟨by simp, by simpa using h₁⟩, fun _ => rfl⟩
      simp only [seg] at he
      simp only [he]
    | some segs =>
      rw [ht] at he
      obtain ⟨l', hsegs, hent⟩ := enterSegment_spec (by omega) hl ⟨by simp, hroom⟩ he
      rw [← ht] at he
      simp only [seg] at he
      simp only [he, ofNat_add_sub t1.curSeq (show a < 2 ^ 32 by omega),
        if_neg (Nat.not_lt.2 hroom)]
      set t2 : Buffer := { t1 with
        segments := segs, buff := copyIn t1.buff a (piece stream (n + a) len) }
      have h₂ : Inv stream s0 t2 n :=
        ⟨h₁.curSeq, h₁.size, h₁.size_le, l', hsegs, hent.separated, hheld.copyIn hent⟩
      by_cases hcall : invoked = false ∧ reassembled t2 > reassembled t1
      · rw [if_pos hcall]
        obtain ⟨hdata, hinv⟩ := h₂.deliver hh
        refine ⟨_, rfl, ⟨?_, hinv⟩, fun hi => absurd hcall.1 (by simp [hi])⟩
        rintro d ⟨⟩
        rw [hdata, length_piece]
      · rw [if_neg hcall]
        exact ⟨_, rfl, ⟨by simp, by simpa using h₂⟩, fun _ => rfl⟩

/-! ### Insertion -/

/-- The payload, from the current sequence number on. -/
def fresh (t : Buffer) (seq : BitVec 32) (payload : List Byte) : List Byte :=
  payload.drop (sliced t seq)

/-- The payload bypasses the buffer. -/
def Bypasses (t : Buffer) (seq : BitVec 32) (payload : List Byte) : Prop :=
  bypasses t (seq + ofNat 32 (sliced t seq)) (seq + ofNat 32 payload.length) = true

/-- **When a call is safe**: it is an old duplicate, or nothing is consumed past segments
that are stored, and what is stored fits the buffer as the code sees it. -/
def Safe (t : Buffer) (seq : BitVec 32) (payload : List Byte) (handler : List Byte → Nat) :
    Prop :=
  compareSeqNumbers (seq + ofNat 32 payload.length) t.curSeq ≤ 0 ∨
    (Bypasses t seq payload → t.segments = [] ∨ handler (fresh t seq payload) = 0) ∧
    (Bypasses t seq payload ∧ handler (fresh t seq payload) = (fresh t seq payload).length ∨
      Fits t (seq + ofNat 32 payload.length))

/-- The payload is within 2^31 of the current sequence number. -/
def Near (n p len : Nat) : Prop := n < p + 2 ^ 31 ∧ p + len < n + 2 ^ 31

theorem drop_piece (stream : Nat → Byte) (p len k : Nat) :
    (piece stream p len).drop k = piece stream (p + k) (len - k) := by
  refine ext_getElem (by simp) fun i h₁ h₂ => ?_
  simp [piece, Nat.add_assoc]

/-- Consuming past a buffer without segments. -/
theorem Inv.consume (h : Inv stream s0 t n) (k : Nat) (hk : t.segments = [] ∨ k = 0) :
    Inv stream s0 { t with curSeq := t.curSeq + ofNat 32 k } (n + k) := by
  refine ⟨?_, h.size, h.size_le, ?_⟩
  · show t.curSeq + ofNat 32 k = _
    rw [h.curSeq, add_ofNat]
  · obtain hnil | rfl := hk
    · refine ⟨[], hnil, ⟨.nil, by simp⟩, fun i hi => ?_⟩
      obtain ⟨x, hx, -⟩ := hi
      cases hx
    · simpa using h.segs

/-- **A payload that bypasses the buffer**: the handler is given the payload, and what it
does not consume is stored. -/
theorem Inv.bypass {len : Nat} {mem : Nat → Byte} (h : Inv stream s0 t n)
    (hh : ∀ d, handler d ≤ d.length) (hlen : len < 2 ^ 31)
    (hk : t.segments = [] ∨ handler (piece stream n len) = 0)
    (hfit : handler (piece stream n len) = len ∨ Fits t (t.curSeq + ofNat 32 len)) :
    ∃ r, (if handler (piece stream n len) = len then
        some (.ok, some (piece stream n len),
          { t with curSeq := t.curSeq + ofNat 32 (handler (piece stream n len)) })
      else
        (TcpBuffer.store
            { t with curSeq := t.curSeq + ofNat 32 (handler (piece stream n len)) }
            (t.curSeq + ofNat 32 (handler (piece stream n len)))
            ((piece stream n len).drop (handler (piece stream n len))) true handler mem).map
          fun r => (r.1, some (piece stream n len), r.2.2)) = some r ∧
      Delivers stream s0 n handler r := by
  have hle := hh (piece stream n len)
  have hcons := h.consume _ hk
  have hdata : ∀ d ∈ some (piece stream n len), d = piece stream n d.length := by
    rintro d ⟨⟩
    rw [length_piece]
  generalize hkdef : handler (piece stream n len) = k at *
  rw [length_piece] at hle
  by_cases hall : k = len
  · rw [if_pos hall]
    exact ⟨_, rfl, hdata, by simpa only [Option.map_some, Option.getD_some, hkdef] using hcons⟩
  rw [if_neg hall, drop_piece]
  -- the rest is stored at the new current sequence number
  have hstop : t.curSeq + ofNat 32 k + ofNat 32 (0 + (len - k)) = t.curSeq + ofNat 32 len := by
    rw [add_ofNat]
    congr 2
    omega
  have hfit' : Fits { t with curSeq := t.curSeq + ofNat 32 k }
      (t.curSeq + ofNat 32 k + ofNat 32 (0 + (len - k))) := by
    obtain h0 | hroom | hend := hfit.resolve_left hall
    · exact .inl h0
    · refine .inr (.inl ?_)
      rw [ofNat_add_sub _ (by omega)] at hroom
      show (t.curSeq + ofNat 32 k + _ - (t.curSeq + ofNat 32 k)).toNat ≤ _
      rw [ofNat_add_sub _ (by omega)]
      show 0 + (len - k) ≤ t.buffSize
      omega
    · exact .inr (.inr (hstop ▸ hend))
  obtain ⟨r, hr, hd, hnone⟩ := hcons.store true mem hh (show 0 + (len - k) < 2 ^ 31 by omega) hfit'
  have hzero : t.curSeq + ofNat 32 k + ofNat 32 0 = t.curSeq + ofNat 32 k := BitVec.add_zero _
  simp only [hzero, Nat.add_zero] at hr
  rw [hr]
  have hinv := hd.inv
  rw [hnone rfl, Option.map_none, Option.getD_none, Nat.add_zero] at hinv
  exact ⟨_, rfl, hdata, by simpa only [Option.map_some, Option.getD_some, hkdef] using hinv⟩

/-- **A safe call hands over the stream**, and returns. -/
theorem Inv.insertSegment {p len : Nat} (mem : Nat → Byte) (h : Inv stream s0 t n)
    (hnear : Near n p len) (hh : ∀ d, handler d ≤ d.length)
    (hsafe : Safe t (s0 + ofNat 32 p) (piece stream p len) handler) :
    ∃ r, insertSegment t (s0 + ofNat 32 p) (piece stream p len) handler mem = some r ∧
      Delivers stream s0 n handler r := by
  obtain ⟨hnp, hpn⟩ := hnear
  have hold : compareSeqNumbers (s0 + ofNat 32 (p + len)) t.curSeq ≤ 0 ↔ p + len ≤ n := by
    rw [h.curSeq, compare_nonpos s0 (by omega) (by omega)]
  simp only [Safe, Bypasses, length_piece, add_ofNat s0 p len, hold] at hsafe
  simp only [TcpBuffer.insertSegment, length_piece, add_ofNat s0 p len]
  by_cases hdup : p + len ≤ n
  · rw [if_pos (hold.2 hdup)]
    exact ⟨_, rfl, by simp, by simpa using h⟩
  rw [if_neg fun hc => hdup (hold.1 hc)]
  obtain ⟨hbyp, hfit⟩ := hsafe.resolve_left hdup
  -- the payload is the stream from distance `a` on
  have hslice : sliced t (s0 + ofNat 32 p) = n - p := by
    unfold sliced
    rw [h.curSeq]
    by_cases hlt : p < n
    · rw [if_pos ((compare_neg s0 (by omega) (by omega)).2 hlt), BitVec.toNat_sub,
        toNat_add, toNat_add, toNat_ofNat, toNat_ofNat]
      omega
    · rw [if_neg fun hc => hlt ((compare_neg s0 (by omega) (by omega)).1 hc)]
      omega
  obtain ⟨a, len', hpa, hlen⟩ : ∃ a len', p + (n - p) = n + a ∧ len' = len - (n - p) :=
    ⟨p - n, _, by omega, rfl⟩
  have hfresh : fresh t (s0 + ofNat 32 p) (piece stream p len) = piece stream (n + a) len' := by
    rw [fresh, hslice, drop_piece, hpa, hlen]
  have hseq : s0 + ofNat 32 p + ofNat 32 (n - p) = t.curSeq + ofNat 32 a := by
    rw [h.curSeq, add_ofNat, hpa, add_ofNat]
  have hend : s0 + ofNat 32 (p + len) = t.curSeq + ofNat 32 (a + len') := by
    rw [h.curSeq, add_ofNat]
    congr 2
    omega
  simp only [hslice, hseq, hend, hfresh, length_piece] at hbyp hfit
  rw [fresh, hslice] at hfresh
  simp only [hslice, hseq, hend, hfresh, length_piece]
  by_cases hb : bypasses t (t.curSeq + ofNat 32 a) (t.curSeq + ofNat 32 (a + len')) = true
  · -- the payload starts at the current sequence number
    rw [if_pos hb]
    have ha : a = 0 := by
      have hz : t.curSeq + ofNat 32 a = t.curSeq := by
        simp only [bypasses, Bool.and_eq_true, decide_eq_true_eq] at hb
        exact hb.1
      rw [← ofNat_add_sub t.curSeq (show a < 2 ^ 32 by omega), hz, BitVec.sub_self]
      rfl
    subst ha
    have hzero : t.curSeq + ofNat 32 0 = t.curSeq := BitVec.add_zero _
    rw [Nat.zero_add] at hb hbyp hfit
    simp only [hzero]
    exact h.bypass hh (by omega) (hbyp hb) (hfit.imp_left fun hc => hc.2)
  · rw [if_neg hb]
    obtain ⟨r, hr, hd, -⟩ := h.store false mem hh
      (show a + len' < 2 ^ 31 by omega) (hfit.resolve_left fun hc => hb hc.1)
    exact ⟨r, hr, hd⟩

/-! ### Runs -/

/-- A buffer, and the bytes consumed by the handler so far. -/
structure Run where
  buf : Buffer
  consumed : List Byte

/-- A buffer that was made with a sequence number. -/
def Start (s0 : BitVec 32) (s : Run) : Prop := ∃ mem, s = ⟨factory s0 mem, []⟩

/-- A call of `insert_segment` with a piece of the stream, and a handler that consumes any
number of the bytes it is offered. -/
inductive Step (stream : Nat → Byte) (s0 : BitVec 32) : Run → Run → Prop
  | insert (s : Run) (p len : Nat) {handler : List Byte → Nat} {mem : Nat → Byte}
      {ret : HalRet} {data : Option (List Byte)} {buf : Buffer}
      (hnear : Near s.consumed.length p len) (hh : ∀ d, handler d ≤ d.length)
      (hsafe : Safe s.buf (s0 + ofNat 32 p) (piece stream p len) handler)
      (hr : insertSegment s.buf (s0 + ofNat 32 p) (piece stream p len) handler mem =
        some (ret, data, buf)) :
      Step stream s0 s ⟨buf, s.consumed ++ (data.map fun d => d.take (handler d)).getD []⟩

theorem take_piece (stream : Nat → Byte) (p : Nat) {len k : Nat} (hk : k ≤ len) :
    (piece stream p len).take k = piece stream p k := by
  rw [piece, ← map_take, take_range, Nat.min_eq_left hk]
  rfl

theorem piece_append (stream : Nat → Byte) (p a b : Nat) :
    piece stream p a ++ piece stream (p + a) b = piece stream p (a + b) := by
  simp [piece, range_add, Nat.add_assoc]

/-- What every step keeps. -/
theorem Inv.step {s s' : Run} (h : Inv stream s0 s.buf s.consumed.length ∧
      s.consumed = piece stream 0 s.consumed.length) (hs : Step stream s0 s s') :
    Inv stream s0 s'.buf s'.consumed.length ∧ s'.consumed = piece stream 0 s'.consumed.length := by
  cases hs with
  | @insert p len handler mem ret data buf hnear hh hsafe hr =>
    obtain ⟨r, hr', hd⟩ := h.1.insertSegment mem hnear hh hsafe
    cases hr.symm.trans hr'
    have hinv := hd.inv
    cases data with
    | none => simpa using ⟨hinv, h.2⟩
    | some d =>
      have hdd := hd.data d rfl
      have htake : d.take (handler d) = piece stream s.consumed.length (handler d) := by
        calc d.take (handler d)
            = (piece stream s.consumed.length d.length).take (handler d) := by rw [← hdd]
          _ = piece stream s.consumed.length (handler d) := take_piece stream _ (hh d)
      simp only [Option.map_some, Option.getD_some, htake] at hinv ⊢
      rw [length_append, length_piece]
      have happ := piece_append stream 0 s.consumed.length (handler d)
      rw [Nat.zero_add, ← h.2] at happ
      exact ⟨hinv, happ⟩

theorem Inv.start (s0 : BitVec 32) (mem : Nat → Byte) : Inv stream s0 (factory s0 mem) 0 := by
  refine ⟨(BitVec.add_zero s0).symm, .inl rfl, Nat.zero_le _, [], rfl, ⟨.nil, by simp⟩, ?_⟩
  rintro i ⟨x, hx, -⟩
  cases hx

/-- **Run.** -/
theorem Inv.run {s : Run} (h : Reachable (Start s0) (Step stream s0) s) :
    Inv stream s0 s.buf s.consumed.length ∧ s.consumed = piece stream 0 s.consumed.length := by
  refine h.invariant ?_ fun _ _ hi hs => Inv.step hi hs
  rintro s ⟨mem, rfl⟩
  exact ⟨Inv.start s0 mem, rfl⟩

/-- **Reassembly hands over the stream.**  In every run of safe calls the bytes consumed are
the first bytes of the stream, and whatever is inserted next in a safe call, the call returns
and the handler, if it is called, is given the bytes that follow. -/
theorem handler_given_stream {s : Run} (h : Reachable (Start s0) (Step stream s0) s) :
    s.consumed = piece stream 0 s.consumed.length ∧
      s.buf.curSeq = s0 + ofNat 32 s.consumed.length ∧
      ∀ p len (handler : List Byte → Nat) mem, Near s.consumed.length p len →
        (∀ d, handler d ≤ d.length) →
        Safe s.buf (s0 + ofNat 32 p) (piece stream p len) handler →
        ∃ ret data buf, insertSegment s.buf (s0 + ofNat 32 p) (piece stream p len)
            handler mem = some (ret, data, buf) ∧
          ∀ d ∈ data, d = piece stream s.consumed.length d.length := by
  have hinv := Inv.run h
  refine ⟨hinv.2, hinv.1.curSeq, fun p len handler mem hnear hh hsafe => ?_⟩
  obtain ⟨⟨ret, data, buf⟩, hr, hd⟩ := hinv.1.insertSegment mem hnear hh hsafe
  exact ⟨ret, data, buf, hr, hd.data⟩

/-- A stream of distinct bytes. -/
def countUp : Nat → Byte := fun i => ofNat 8 (i + 1)

/-- Bytes out of order, across the wrap of the sequence numbers: two bytes are stored, and
with the first one the handler is given all three, of which it consumes two. -/
theorem handler_given_stream_reorder :
    ∃ s : Run, Reachable (Start 0xFFFFFFFF) (Step countUp 0xFFFFFFFF) s ∧
      s.consumed = [1, 2] ∧ s.buf.curSeq = 1 := by
  have h₀ : Reachable (Start 0xFFFFFFFF) (Step countUp 0xFFFFFFFF)
      ⟨factory 0xFFFFFFFF fun _ => 0, []⟩ := .start ⟨_, rfl⟩
  have h₁ := h₀.step (.insert _ 1 2 ⟨by decide, by decide⟩ (fun d => Nat.le_refl d.length)
    (.inr ⟨fun _ => .inl rfl, .inr (.inl rfl)⟩)
    (show insertSegment _ _ _ _ (fun _ => 0) = some (_, _, _) from rfl))
  have h₂ := h₁.step (.insert _ 0 1 ⟨by decide, by decide⟩ (fun d => Nat.min_le_right 2 d.length)
    (.inr ⟨fun hb => absurd hb (by unfold Bypasses; decide), .inr (.inr (.inl (by decide)))⟩)
    (show insertSegment _ _ _ _ (fun _ => 0) = some (_, _, _) from rfl))
  exact ⟨_, h₂, (handler_given_stream h₂).1, (handler_given_stream h₂).2.1⟩

/-- **What is stored is of the stream.**  In every run of safe calls the segments are in order,
apart and inside the buffer, and their bytes are those of the stream at their places. -/
theorem stored_of_stream {s : Run} (h : Reachable (Start s0) (Step stream s0) s) :
    s.buf.buffSize ≤ maxBuffSize ∧ ∃ l, s.buf.segments = l.map (seg s.buf.curSeq) ∧
      Separated s.buf.buffSize l ∧ Holds stream s.consumed.length s.buf.buff l := by
  have hinv := (Inv.run h).1
  exact ⟨hinv.size_le, hinv.segs⟩

/-- Bytes 3 and 1 are stored before byte 0 is there. -/
theorem stored_of_stream_gap : ∃ s : Run, s.buf.segments = [⟨1, 2⟩, ⟨3, 4⟩] ∧
    ∃ l, [⟨1, 2⟩, ⟨3, 4⟩] = l.map (seg 0) ∧ Holds countUp 0 s.buf.buff l := by
  have h₀ : Reachable (Start 0) (Step countUp 0) ⟨factory 0 fun _ => 0, []⟩ := .start ⟨_, rfl⟩
  have h₁ := h₀.step (.insert _ 3 1 ⟨by decide, by decide⟩ (fun d => Nat.le_refl d.length)
    (.inr ⟨fun _ => .inl rfl, .inr (.inl rfl)⟩)
    (show insertSegment _ _ _ _ (fun _ => 0) = some (_, _, _) from rfl))
  have h₂ := h₁.step (.insert _ 1 1 ⟨by decide, by decide⟩ (fun d => Nat.le_refl d.length)
    (.inr ⟨fun hb => absurd hb (by unfold Bypasses; decide), .inr (.inr (.inl (by decide)))⟩)
    (show insertSegment _ _ _ _ (fun _ => 0) = some (_, _, _) from rfl))
  obtain ⟨l, hl, -, hholds⟩ := (stored_of_stream h₂).2
  exact ⟨_, rfl, l, hl, hholds⟩

/-- **What is stored is not moved when a payload bypasses the buffer**: byte 2 is stored, byte
0 is consumed, and with byte 1 the handler is given a byte that was never received.  And a
payload across the wrap is written past the end of the buffer. -/
theorem not_handler_given_stream :
    ∃ buf1 buf2 buf3 buf4,
      insertSegment (factory 0 fun _ => 0) 2 (piece countUp 2 1) List.length (fun _ => 0) =
        some (.ok, none, buf1) ∧
      insertSegment buf1 0 (piece countUp 0 1) List.length (fun _ => 0) =
        some (.ok, some (piece countUp 0 1), buf2) ∧
      insertSegment buf2 1 (piece countUp 1 1) List.length (fun _ => 0) =
        some (.ok, some [2, 0], buf3) ∧
      [2, 0] ≠ piece countUp 1 2 ∧
      insertSegment (factory 0xFFFFF000 fun _ => 0) 0xFFFFF00A (piece countUp 10 1) List.length
        (fun _ => 0) = some (.ok, none, buf4) ∧
      insertSegment buf4 0xFFFFFFFF (piece countUp 4095 2) List.length (fun _ => 0) = none :=
  ⟨_, _, _, _, rfl, rfl, rfl, by decide, rfl, rfl⟩

end NicSw.TcpBuffer
