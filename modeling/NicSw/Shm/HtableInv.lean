/-
What a hash table keeps: the chains of the buckets, one entry per key, and
reference counts that count the references handed out plus the link.  A call is
a sequence of a few moves on this invariant: an entry is created, linked,
replaced or unlinked, and references are taken and given back.
-/
import Mathlib.Algebra.GroupWithZero.Nat
import Mathlib.Algebra.Order.BigOperators.Group.Finset
import NicSw.Lib.Chain
import NicSw.Shm.Htable

namespace NicSw.Shm

open Function HTable

/-! ### Buckets -/

/-- The levels of a table fit together. -/
structure HTable.Shape (t : HTable) : Prop where
  pos : 0 < t.numBuckets
  perTablet : t.twoLevel → 0 < t.numBucketsPerTablet
  cover : t.twoLevel → t.numBuckets ≤ t.numTablets * t.numBucketsPerTablet
  tablets : t.twoLevel → ∀ i < t.numTablets, t.buckets i ≠ 0

/-- The bucket that `bucket` finds. -/
def HTable.bkt (t : HTable) (i : Nat) : Bucket :=
  if t.twoLevel then .tablet (i / t.numBucketsPerTablet) (i % t.numBucketsPerTablet)
  else .embedded i

/-- `ht_entry` of bucket `i`. -/
def HTable.head (t : HTable) (i : Nat) : Nat := t.first (t.bkt i)

/-- The link of an entry. -/
def HTable.next (t : HTable) (off : Nat) : Nat := ((t.mem off).map HtEntry.nextEntry).getD 0

variable {t t' : HTable} {i j off curr fuel : Nat} {key : Key} {e : HtEntry}

theorem bucket_eq (h : t.Shape) (hi : i < t.numBuckets) : t.bucket i = some (t.bkt i) := by
  unfold bucket bkt
  cases htwo : t.twoLevel with
  | false => rfl
  | true =>
    have hlt := Nat.div_lt_of_lt_mul (Nat.mul_comm _ _ ▸ Nat.lt_of_lt_of_le hi (h.cover htwo))
    simp [assert_pos hlt, assert_pos (h.tablets htwo _ hlt)]

theorem idx_lt (h : t.Shape) (key : Key) : t.idx key < t.numBuckets := Nat.mod_lt _ h.pos

/-- Writing bucket `i` changes the start of chain `i` only. -/
theorem head_setFirst (t : HTable) (i off : Nat) :
    (t.setFirst (t.bkt i) off).head = update t.head i off := by
  funext j
  unfold head bkt setFirst
  cases htwo : t.twoLevel with
  | false =>
    rcases eq_or_ne j i with rfl | hj
    · simp [first]
    · simp [first, hj]
  | true =>
    simp only [if_true, first]
    rcases eq_or_ne j i with rfl | hj
    · simp
    rw [update_of_ne hj]
    rcases eq_or_ne (j / t.numBucketsPerTablet) (i / t.numBucketsPerTablet) with hdiv | hdiv
    · have hmod : j % t.numBucketsPerTablet ≠ i % t.numBucketsPerTablet := fun hmod =>
        hj (by rw [← Nat.div_add_mod j t.numBucketsPerTablet, hdiv, hmod, Nat.div_add_mod])
      simp [hdiv, hmod]
    · simp [hdiv]

/-- The same buckets, whatever they hold. -/
structure HTable.Same (t t' : HTable) : Prop where
  numBuckets : t'.numBuckets = t.numBuckets
  twoLevel : t'.twoLevel = t.twoLevel
  numTablets : t'.numTablets = t.numTablets
  perTablet : t'.numBucketsPerTablet = t.numBucketsPerTablet
  tablets : t.twoLevel → t'.buckets = t.buckets

theorem HTable.Same.shape (h : t.Same t') (hs : t.Shape) : t'.Shape where
  pos := h.numBuckets ▸ hs.pos
  perTablet := fun htwo => h.perTablet ▸ hs.perTablet (h.twoLevel ▸ htwo)
  cover := fun htwo => by
    rw [h.numBuckets, h.numTablets, h.perTablet]
    exact hs.cover (h.twoLevel ▸ htwo)
  tablets := fun htwo => by
    rw [h.tablets (h.twoLevel ▸ htwo), h.numTablets]
    exact hs.tablets (h.twoLevel ▸ htwo)

theorem HTable.Same.idx (h : t.Same t') (key : Key) : t'.idx key = t.idx key := by
  rw [HTable.idx, HTable.idx, h.numBuckets]

theorem HTable.Same.bkt (h : t.Same t') : t'.bkt = t.bkt := by
  funext i
  rw [HTable.bkt, HTable.bkt, h.twoLevel, h.perTablet]

theorem HTable.Same.trans {t'' : HTable} (h : t.Same t') (h' : t'.Same t'') : t.Same t'' where
  numBuckets := h'.numBuckets.trans h.numBuckets
  twoLevel := h'.twoLevel.trans h.twoLevel
  numTablets := h'.numTablets.trans h.numTablets
  perTablet := h'.perTablet.trans h.perTablet
  tablets := fun htwo => (h'.tablets (h.twoLevel ▸ htwo)).trans (h.tablets htwo)

theorem same_setFirst (t : HTable) (i off : Nat) : t.Same (t.setFirst (t.bkt i) off) := by
  rw [bkt]
  split_ifs with htwo
  · exact ⟨rfl, rfl, rfl, rfl, fun _ => rfl⟩
  · exact ⟨rfl, rfl, rfl, rfl, fun h => absurd h htwo⟩

/-! ### Entries -/

section

variable (t : HTable)

theorem next_setEntry (off : Nat) (e : HtEntry) :
    (t.setEntry off e).next = update t.next off e.nextEntry := by
  funext x
  rcases eq_or_ne x off with rfl | hx
  · simp [next, setEntry]
  · simp [next, setEntry, hx]

@[simp] theorem setEntry_mem_self (off : Nat) (e : HtEntry) :
    (t.setEntry off e).mem off = some e :=
  update_self ..

theorem setEntry_mem_of_ne (e : HtEntry) {x : Nat} (hx : x ≠ off) :
    (t.setEntry off e).mem x = t.mem x :=
  update_of_ne hx ..

@[simp] theorem setFirst_mem (b : Bucket) (off : Nat) :
    (t.setFirst b off).mem = t.mem := by
  cases b <;> rfl

@[simp] theorem setFirst_next (b : Bucket) (off : Nat) :
    (t.setFirst b off).next = t.next := by
  funext x
  rw [next, setFirst_mem, next]

@[simp] theorem setFirst_numEntries (b : Bucket) (off : Nat) :
    (t.setFirst b off).numEntries = t.numEntries := by
  cases b <;> rfl

@[simp] theorem setEntry_head (off : Nat) (e : HtEntry) :
    (t.setEntry off e).head = t.head := rfl

end

theorem modEntry_eq (h : t.mem off = some e) (f : HtEntry → HtEntry) :
    t.modEntry off f = some (t.setEntry off (f e)) := by
  simp [modEntry, h]

/-! ### The invariant -/

/-- The entry is in the chain of a bucket. -/
def Linked (chain : Nat → List Nat) (off : Nat) : Prop := ∃ i, off ∈ chain i

/-- An entry with `refs` references handed out. -/
structure EntryOk (e : HtEntry) (refs : Nat) (linked : Prop) : Prop where
  keyLen : e.keyLen = e.key.length
  pos : 0 < e.key.length
  le : e.key.length ≤ maxKeyLen
  lt : e.refcnt < 2 ^ 31
  counted : linked → e.refcnt = refs + 1
  unlinked : ¬ linked → e.refcnt = refs ∧ 1 ≤ refs ∧ e.nextEntry = 0

/-- **Invariant of a table**: `chain` are the entries of each bucket, `refs` the
references handed out on each entry, `abs` the map the table stands for: where
the entry of a key is, and its value. -/
structure TblInv (t : HTable) (chain : Nat → List Nat) (refs : Nat → Nat)
    (abs : Key → Option (Nat × List UInt8)) : Prop where
  shape : t.Shape
  chains : ∀ i < t.numBuckets, Chain t.next (t.head i) (chain i)
  outside : ∀ i, t.numBuckets ≤ i → chain i = []
  nodup : ∀ i, (chain i).Nodup
  linked : ∀ i, ∀ off ∈ chain i, ∃ e, t.mem off = some e ∧ t.idx e.key = i ∧
    abs e.key = some (off, e.value)
  entry : ∀ off e, t.mem off = some e → off ≠ 0 ∧ EntryOk e (refs off) (Linked chain off)
  complete : ∀ key v, abs key = some v → ∃ off e, Linked chain off ∧ t.mem off = some e ∧
    e.key = key
  dead : ∀ off, t.mem off = none → refs off = 0
  numEntries : t.numEntries = (∑ i ∈ Finset.range t.numBuckets, (chain i).length : Nat)

variable {chain : Nat → List Nat} {refs : Nat → Nat} {abs : Key → Option (Nat × List UInt8)}
variable {l l1 l2 : List Nat}

section

variable (h : TblInv t chain refs abs)
include h

theorem TblInv.bucket_lt (hoff : off ∈ chain i) : i < t.numBuckets := by
  by_contra hge
  rw [h.outside i (Nat.not_lt.mp hge)] at hoff
  exact List.not_mem_nil hoff

theorem TblInv.idx_eq (hi : off ∈ chain i) (he : t.mem off = some e) : t.idx e.key = i := by
  obtain ⟨e', he', hidx, -⟩ := h.linked i off hi
  rwa [Option.some.inj (he.symm.trans he')]

/-- An entry is in one chain. -/
theorem TblInv.chain_unique (hi : off ∈ chain i) (hj : off ∈ chain j) : i = j := by
  obtain ⟨e, he, hidx, -⟩ := h.linked i off hi
  exact hidx.symm.trans (h.idx_eq hj he)

theorem TblInv.abs_eq (hl : Linked chain off)
    (he : t.mem off = some e) : abs e.key = some (off, e.value) := by
  obtain ⟨i, hi⟩ := hl
  obtain ⟨e1, he1, -, habs⟩ := h.linked i off hi
  cases he.symm.trans he1
  exact habs

/-- A key has one entry. -/
theorem TblInv.unique {off' : Nat} {e' : HtEntry}
    (hl : Linked chain off) (hl' : Linked chain off') (he : t.mem off = some e)
    (he' : t.mem off' = some e') (hkey : e.key = e'.key) : off = off' := by
  have habs := h.abs_eq hl he
  rw [hkey, h.abs_eq hl' he'] at habs
  exact (Prod.mk.inj (Option.some.inj habs)).1.symm

theorem TblInv.length_le (i : Nat) : (chain i).length ≤ t.numEntries.toNat := by
  rw [h.numEntries, Int.toNat_natCast]
  rcases Nat.lt_or_ge i t.numBuckets with hi | hi
  · exact Finset.single_le_sum_of_canonicallyOrdered (f := fun i => (chain i).length)
      (Finset.mem_range.mpr hi)
  · rw [h.outside i hi]
    exact Nat.zero_le _

end

/-- The number of entries after one chain changed. -/
theorem sum_length_update (chain : Nat → List Nat) (hi : i < j) (l : List Nat) :
    (∑ k ∈ Finset.range j, (update chain i l k).length) + (chain i).length =
      (∑ k ∈ Finset.range j, (chain k).length) + l.length := by
  have hmem := Finset.mem_range.mpr hi
  rw [← Finset.add_sum_erase _ _ hmem, ← Finset.add_sum_erase _ (fun k => (chain k).length) hmem,
    update_self]
  have hrest : ∑ k ∈ (Finset.range j).erase i, (update chain i l k).length =
      ∑ k ∈ (Finset.range j).erase i, (chain k).length :=
    Finset.sum_congr rfl fun k hk => by rw [update_of_ne (Finset.ne_of_mem_erase hk)]
  omega

/-! ### Walking a chain -/

/-- A lookup compares keys. -/
theorem EntryOk.matches_iff {r : Nat} {p : Prop} (h : EntryOk e r p) :
    e.Matches key ↔ e.key = key := by
  rw [HtEntry.Matches, h.keyLen]
  constructor
  · rintro ⟨hlen, htake⟩
    rw [← Int.ofNat.inj hlen, List.take_length] at htake
    exact htake
  · rintro rfl
    exact ⟨rfl, List.take_length⟩

theorem walk_spec (hchain : Chain t.next off l) (hfuel : l.length < fuel)
    (hlive : ∀ x ∈ l, ∃ e, t.mem x = some e ∧ (e.Matches key ↔ e.key = key)) (prev : Option Nat) :
    (t.walk key fuel prev off = some none ∧ ∀ x ∈ l, ∀ e, t.mem x = some e → e.key ≠ key) ∨
      ∃ l1 x l2 e, l = l1 ++ x :: l2 ∧ t.mem x = some e ∧ e.key = key ∧
        t.walk key fuel prev off = some (some (l1.getLast?.or prev, x)) := by
  induction l generalizing off fuel prev with
  | nil =>
    obtain ⟨fuel, rfl⟩ : ∃ k, fuel = k + 1 := ⟨fuel - 1, by omega⟩
    obtain rfl : off = 0 := hchain
    exact .inl ⟨rfl, fun x hx => absurd hx List.not_mem_nil⟩
  | cons b l ih =>
    obtain ⟨fuel, rfl⟩ : ∃ k, fuel = k + 1 := ⟨fuel - 1, by omega⟩
    obtain ⟨rfl, h0, hrest⟩ := hchain
    obtain ⟨e, he, hmatch⟩ := hlive off List.mem_cons_self
    have hnext : t.next off = e.nextEntry := by simp [next, he]
    rw [hnext] at hrest
    by_cases hkey : e.key = key
    · refine .inr ⟨[], off, l, e, rfl, he, hkey, ?_⟩
      simp [walk, h0, he, hmatch.mpr hkey]
    have hstep : ∀ prev, t.walk key (fuel + 1) prev off =
        t.walk key fuel (some off) e.nextEntry := fun prev => by
      simp [walk, h0, he, hkey, hmatch]
    rw [hstep]
    rcases ih hrest (by simpa using hfuel) (fun x hx => hlive x (List.mem_cons_of_mem off hx))
      (some off) with ⟨hw, hnone⟩ | ⟨l1, x, l2, e', rfl, he', hkey', hw⟩
    · refine .inl ⟨hw, fun x hx e' he' => ?_⟩
      rcases List.mem_cons.mp hx with rfl | hx
      · exact Option.some.inj (he.symm.trans he') ▸ hkey
      · exact hnone x hx e' he'
    refine .inr ⟨off :: l1, x, l2, e', rfl, he', hkey', ?_⟩
    rw [hw]
    rcases List.eq_nil_or_concat' l1 with rfl | ⟨l1, c, rfl⟩
    · simp
    · rw [← List.cons_append, List.getLast?_concat, List.getLast?_concat]
      rfl

section

variable (h : TblInv t chain refs abs)
include h

theorem TblInv.of_abs {v : List UInt8} (habs : abs key = some (off, v)) :
    Linked chain off ∧ ∃ e, t.mem off = some e ∧ e.key = key ∧ e.value = v := by
  obtain ⟨off', e, hl, he, rfl⟩ := h.complete key _ habs
  cases habs.symm.trans (h.abs_eq hl he)
  exact ⟨hl, e, he, rfl, rfl⟩

theorem TblInv.walkBucket (key : Key) :
    (t.walkBucket (t.bkt (t.idx key)) key = some none ∧
        ∀ off e, Linked chain off → t.mem off = some e → e.key ≠ key) ∨
      ∃ l1 x l2 e, chain (t.idx key) = l1 ++ x :: l2 ∧ t.mem x = some e ∧ e.key = key ∧
        t.walkBucket (t.bkt (t.idx key)) key = some (some (l1.getLast?, x)) := by
  have hi := idx_lt h.shape key
  have hlive : ∀ x ∈ chain (t.idx key), ∃ e, t.mem x = some e ∧ (e.Matches key ↔ e.key = key) := by
    intro x hx
    obtain ⟨e, he, -, -⟩ := h.linked _ x hx
    exact ⟨e, he, (h.entry x e he).2.matches_iff⟩
  rcases walk_spec (h.chains _ hi) (Nat.lt_succ_of_le (h.length_le _)) hlive none with
    ⟨hw, hnone⟩ | ⟨l1, x, l2, e, hl, he, hkey, hw⟩
  · refine .inl ⟨hw, fun off e ⟨j, hj⟩ he hkey => ?_⟩
    exact hnone off (by rwa [← hkey, h.idx_eq hj he]) e he hkey
  · exact .inr ⟨l1, x, l2, e, hl, he, hkey, hw.trans (by rw [Option.or_none])⟩

/-- **Lookup of an absent key.** -/
theorem TblInv.walkBucket_none (habs : abs key = none) :
    t.walkBucket (t.bkt (t.idx key)) key = some none := by
  rcases h.walkBucket key with ⟨hw, -⟩ | ⟨l1, x, l2, e, hc, he, rfl, -⟩
  · exact hw
  · have := h.abs_eq ⟨t.idx e.key, hc ▸ by simp⟩ he
    rw [habs] at this
    cases this

/-- **Lookup of a present key.** -/
theorem TblInv.walkBucket_some {v : List UInt8} (habs : abs key = some (off, v)) :
    ∃ l1 l2 e, chain (t.idx key) = l1 ++ off :: l2 ∧ t.mem off = some e ∧ e.key = key ∧
      e.value = v ∧ t.walkBucket (t.bkt (t.idx key)) key = some (some (l1.getLast?, off)) := by
  rcases h.walkBucket key with ⟨-, hnone⟩ | ⟨l1, x, l2, e, hc, he, rfl, hw⟩
  · obtain ⟨hl, e, he, hkey, -⟩ := h.of_abs habs
    exact absurd hkey (hnone off e hl he)
  · have := h.abs_eq ⟨t.idx e.key, hc ▸ by simp⟩ he
    cases habs.symm.trans this
    exact ⟨l1, l2, e, hc, he, rfl, rfl, hw⟩

end

end NicSw.Shm
