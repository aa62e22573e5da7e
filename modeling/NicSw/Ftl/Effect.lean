/-
What a call can do to a flow table, and the invariant it keeps.

The buckets of a table are a hint forest, in which each valid bucket is owned
by the key stored in it.  `FtlTable.Ok` is the invariant: the forest is sound
and no deeper than the code can follow, the hint indexes are accounted for and
the counters add up.

A call that stores a key is `Inserted`, one that deletes a key is `Removed`
and one that changes the data of a key is `Updated`.  Each says all there is to
know about the new table: its forest, the items in its valid buckets, its hint
indexes and its counters.
-/
import NicSw.Ftl.Table

namespace NicSw

open Function Forest

variable {K D : Type*}

/-! ### The invariant -/

/-- The greatest level of a bucket: a context is needed for each level, and
levels stay below `max_recircs`. -/
def FtlProps.maxDepth (P : FtlProps) : Nat := min ftlMaxApiContexts (P.maxRecircs - 1)

/-- The main bucket of a key. -/
def FtlProps.idx (P : FtlProps) (hash : K → BitVec 32) (k : K) : Nat := P.tableIndex (hash k)

/-- The hash that leads a key on from its main bucket. -/
def FtlProps.msb (P : FtlProps) (hash : K → BitVec 32) (k : K) : Nat := P.hashMsbits (hash k)

theorem FtlProps.idx_lt (P : FtlProps) (hash : K → BitVec 32) (k : K) :
    P.idx hash k < P.ptableSize :=
  Nat.mod_lt _ (by have := P.two_le_ptableSize; omega)

namespace FtlTable

/-- The buckets as a hint forest. -/
def forest (T : FtlTable K D) : Forest where
  valid b := (T.bucket b).valid
  link b := (T.bucket b).hw.link

/-- The key and the data in a bucket. -/
def item (T : FtlTable K D) (b : BucketLoc) : K × D := ((T.bucket b).hw.key, (T.bucket b).hw.data)

/-- The key in a bucket. -/
def own (T : FtlTable K D) (b : BucketLoc) : K := (T.item b).1

/-- The table holds data `d` for key `k`. -/
def Stores (T : FtlTable K D) (k : K) (d : D) : Prop :=
  ∃ b, T.forest.valid b = true ∧ T.item b = (k, d)

/-- **The invariant of a flow table.** -/
structure Ok [Zero K] (P : FtlProps) (hash : K → BitVec 32) (T : FtlTable K D) : Prop where
  forest : T.forest.Ok P.numHints P.maxDepth (P.idx hash) (P.msb hash) T.own
  keyNe : ∀ b, T.forest.valid b = true → T.own b ≠ 0
  moreHash : ∀ b, T.forest.valid b = true → (T.forest.link b (P.numHints + 1)).hint ≠ 0 →
    (T.forest.link b (P.numHints + 1)).hash = P.moreHashes 1
  hints : T.hints.Ok P.stableSize fun j => T.forest.valid (.hint j) = true
  entries : ∑ t, (T.tstats t).entries =
    ((T.forest.count .main P.ptableSize + T.forest.count .hint P.stableSize : Nat) : BitVec 64)
  collisions : ∑ t, (T.tstats t).collisions =
    ((T.forest.count .hint P.stableSize : Nat) : BitVec 64)

/-- A main bucket in use is the main bucket of its key. -/
theorem Ok.main_lt [Zero K] {P : FtlProps} {hash : K → BitVec 32} {T : FtlTable K D}
    (hok : Ok P hash T) {i : Nat} (hv : T.forest.valid (.main i) = true) : i < P.ptableSize := by
  obtain ⟨n, -, hp⟩ := hok.forest.path _ hv
  generalize hx : P.idx hash (T.own (.main i)) = x at hp
  cases hp with
  | root => exact hx ▸ P.idx_lt hash _

theorem Ok.hint_lt [Zero K] {P : FtlProps} {hash : K → BitVec 32} {T : FtlTable K D}
    (hok : Ok P hash T) {j : Nat} (hv : T.forest.valid (.hint j) = true) : j < P.stableSize :=
  hok.hints.lt_size (hok.hints.out_used hv)

/-- No more slot has its hash set without leading anywhere. -/
def Live (P : FtlProps) (T : FtlTable K D) : Prop :=
  ∀ b, T.forest.valid b = true → MoreLive P.numHints (T.forest.link b)

/-- The counters of one thread changed by `e` entries and `c` collisions. -/
def bump (f : Fin 8 → FtlStats) (tid : Fin 8) (e c : BitVec 64) : Fin 8 → FtlStats :=
  update f tid ⟨(f tid).entries + e, (f tid).collisions + c⟩

theorem sum_bump (f : Fin 8 → FtlStats) (tid : Fin 8) (e c : BitVec 64) :
    ∑ t, (bump f tid e c t).entries = ∑ t, (f t).entries + e ∧
      ∑ t, (bump f tid e c t).collisions = ∑ t, (f t).collisions + c := by
  have hupd : ∀ (g : FtlStats → BitVec 64) (x : BitVec 64),
      g ⟨(f tid).entries + e, (f tid).collisions + c⟩ = g (f tid) + x →
      ∑ t, g (bump f tid e c t) = ∑ t, g (f t) + x := by
    intro g x hx
    rw [← Finset.add_sum_erase _ _ (Finset.mem_univ tid),
      ← Finset.add_sum_erase _ (fun t => g (f t)) (Finset.mem_univ tid)]
    have hrest : ∑ t ∈ Finset.univ.erase tid, g (bump f tid e c t)
        = ∑ t ∈ Finset.univ.erase tid, g (f t) :=
      Finset.sum_congr rfl fun t ht => by
        rw [bump, update_of_ne (Finset.ne_of_mem_erase ht)]
    rw [hrest, bump, update_self, hx]
    exact add_right_comm _ _ _
  exact ⟨hupd (·.entries) e rfl, hupd (·.collisions) c rfl⟩

/-! ### Storing a key -/

/-- **`T'` is `T` with `k` stored in a bucket that was not in use**: its main
bucket, or a hint bucket linked from the end of its path. -/
inductive Inserted (P : FtlProps) (hash : K → BitVec 32) (T : FtlTable K D) (tid : Fin 8)
    (k : K) (d : D) : BucketLoc → FtlTable K D → Prop
  | main {T' : FtlTable K D} (free : T.forest.valid (.main (P.idx hash k)) = false)
      (forest : T'.forest = T.forest.createRoot (P.idx hash k))
      (item : ∀ b, T'.item b = update T.item (.main (P.idx hash k)) (k, d) b)
      (hints : T'.hints = T.hints) (stats : T'.tstats = bump T.tstats tid 1 0) :
      Inserted P hash T tid k d (.main (P.idx hash k)) T'
  | hint {T' : FtlTable K D} {b : BucketLoc} {s h j n : Nat}
      (can : Forest.CanAttach P.numHints T.forest (P.idx hash) (P.msb hash) k b s h j)
      (path : Forest.OnPath P.numHints T.forest (P.idx hash k) (P.msb hash k) b n)
      (depth : n + 1 ≤ P.maxDepth) (more : s = P.numHints + 1 → h = P.moreHashes 1)
      (forest : T'.forest = T.forest.attach b s h j)
      (item : ∀ b, T'.item b = update T.item (.hint j) (k, d) b)
      (hints : T'.hints.Ok P.stableSize fun x => T.forest.valid (.hint x) = true ∨ x = j)
      (stats : T'.tstats = bump T.tstats tid 1 1) :
      Inserted P hash T tid k d (.hint j) T'

section Inserted

variable {P : FtlProps} {hash : K → BitVec 32} {T T' : FtlTable K D} {tid : Fin 8} {k k' : K}
  {d d' : D} {b c : BucketLoc}

theorem own_eq_of_item {x : K × D} (h : T'.item c = update T.item b x c) :
    T'.own c = update T.own b x.1 c := by
  unfold own
  rw [h]
  exact Function.apply_update (fun _ x => x.1) T.item b x c

section

variable (h : Inserted P hash T tid k d b T')
include h

theorem Inserted.item_eq (c : BucketLoc) : T'.item c = update T.item b (k, d) c := by
  cases h with
  | main _ _ item => exact item c
  | hint _ _ _ _ _ item => exact item c

theorem Inserted.not_valid : T.forest.valid b = false := by
  cases h with
  | main free => exact free
  | hint can => exact can.unused

/-- Only the bucket of the new key is new. -/
theorem Inserted.valid_iff : T'.forest.valid c = true ↔ c = b ∨ T.forest.valid c = true := by
  have hvalid : T'.forest.valid = update T.forest.valid b true := by
    cases h with
    | main _ forest => rw [forest]; rfl
    | hint _ _ _ _ forest => rw [forest]; rfl
  rw [hvalid]
  by_cases hc : c = b
  · subst hc
    simp
  · rw [update_of_ne hc]
    simp [hc]

/-- Storing `k` changes what the table holds for `k` only. -/
theorem Inserted.stores_iff : T'.Stores k' d' ↔ (k' = k ∧ d' = d) ∨ T.Stores k' d' := by
  constructor
  · rintro ⟨c, hv, hi⟩
    rw [h.item_eq c] at hi
    by_cases hc : c = b
    · subst hc
      rw [update_self] at hi
      cases hi
      exact .inl ⟨rfl, rfl⟩
    · rw [update_of_ne hc] at hi
      exact .inr ⟨c, (h.valid_iff.mp hv).resolve_left hc, hi⟩
  · rintro (⟨rfl, rfl⟩ | ⟨c, hv, hi⟩)
    · exact ⟨b, h.valid_iff.mpr (.inl rfl), by rw [h.item_eq b, update_self]⟩
    · have hc : c ≠ b := by
        rintro rfl
        exact absurd (hv.symm.trans h.not_valid) (by simp)
      exact ⟨c, h.valid_iff.mpr (.inr hv), by rw [h.item_eq c, update_of_ne hc, hi]⟩

/-- The more slot of a bucket is what it was, empty, or the link to the new
bucket. -/
theorem Inserted.more_cases
    (hv : T'.forest.valid c = true) :
    (T.forest.valid c = true ∧
        T'.forest.link c (P.numHints + 1) = T.forest.link c (P.numHints + 1)) ∨
      T'.forest.link c (P.numHints + 1) = HintLink.none ∨
      ((T'.forest.link c (P.numHints + 1)).hint ≠ 0 ∧
        (T'.forest.link c (P.numHints + 1)).hash = P.moreHashes 1) := by
  have hold := fun hne => (h.valid_iff.mp hv).resolve_left hne
  cases h with
  | main _ forest =>
    rw [forest]
    by_cases hc : c = .main (P.idx hash k)
    · subst hc
      rw [createRoot_link_self]
      exact .inr (.inl rfl)
    · rw [createRoot_link_of_ne hc]
      exact .inl ⟨hold hc, rfl⟩
  | @hint _ p s _ j _ can _ _ more forest =>
    rw [forest]
    by_cases hcj : c = .hint j
    · subst hcj
      rw [attach_link_self can.loc_ne]
      exact .inr (.inl rfl)
    by_cases hcp : c = p
    · subst hcp
      rw [attach_link_parent]
      by_cases hs : P.numHints + 1 = s
      · subst hs
        rw [update_self]
        exact .inr (.inr ⟨can.ne, more rfl⟩)
      · rw [update_of_ne hs]
        exact .inl ⟨hold hcj, rfl⟩
    · rw [attach_link_of_ne hcp hcj]
      exact .inl ⟨hold hcj, rfl⟩

/-- Storing a key leaves no more slot without a bucket. -/
theorem Inserted.live (hl : T.Live P) : T'.Live P := by
  intro c hv hne
  rcases h.more_cases hv with ⟨hvc, hold⟩ | hnone | ⟨hj, -⟩
  · rw [hold] at hne ⊢
    exact hl c hvc hne
  · rw [hnone] at hne
    exact absurd rfl hne
  · exact hj

/-- **Storing a key that the table does not hold keeps the invariant.** -/
theorem Inserted.ok [Zero K] (hok : Ok P hash T)
    (hk : k ≠ 0) (hfresh : ∀ b, T.forest.valid b = true → T.own b ≠ k) : Ok P hash T' := by
  have hkey : ∀ c, T'.forest.valid c = true → T'.own c ≠ 0 := by
    intro c hv
    rw [own_eq_of_item (h.item_eq c)]
    by_cases hc : c = b
    · subst hc
      rwa [update_self]
    · rw [update_of_ne hc]
      exact hok.keyNe c ((h.valid_iff.mp hv).resolve_left hc)
  have hmore : ∀ c, T'.forest.valid c = true →
      (T'.forest.link c (P.numHints + 1)).hint ≠ 0 →
      (T'.forest.link c (P.numHints + 1)).hash = P.moreHashes 1 := by
    intro c hv hne
    rcases h.more_cases hv with ⟨hvc, hold⟩ | hnone | ⟨-, hh⟩
    · rw [hold] at hne ⊢
      exact hok.moreHash c hvc hne
    · rw [hnone] at hne
      exact absurd rfl hne
    · exact hh
  cases h with
  | main free forest item hints stats =>
    obtain ⟨hm, hh⟩ := count_createRoot (P.idx_lt hash k) free
    obtain ⟨hse, hsc⟩ := sum_bump T.tstats tid 1 0
    refine ⟨?_, hkey, hmore, ?_, ?_, ?_⟩
    · rw [forest]
      exact (hok.forest.createRoot free rfl hfresh).congr_own fun c _ => own_eq_of_item (item c)
    · rw [hints]
      refine hok.hints.congr fun j => ?_
      rw [forest, createRoot_valid_of_ne (by simp)]
    · rw [stats, hse, forest, hm, hh, hok.entries, add_right_comm, Nat.cast_succ]
    · rw [stats, hsc, forest, hh, hok.collisions, add_zero]
  | @hint _ p s h j n can path depth more forest item hints stats =>
    have hj : j < P.stableSize := hints.lt_size (hints.out_used (.inr rfl))
    obtain ⟨hh, hm⟩ : (T.forest.attach p s h j).count .hint P.stableSize
        = T.forest.count .hint P.stableSize + 1 ∧ ∀ m,
          (T.forest.attach p s h j).count .main m = T.forest.count .main m :=
      count_attach hj can.unused
    obtain ⟨hse, hsc⟩ := sum_bump T.tstats tid 1 1
    refine ⟨?_, hkey, hmore, ?_, ?_, ?_⟩
    · rw [forest]
      exact (hok.forest.attach can path depth hfresh).congr_own fun c _ =>
        own_eq_of_item (item c)
    · refine hints.congr fun x => ?_
      rw [forest]
      by_cases hx : x = j
      · subst hx
        simp
      · rw [attach_valid_of_ne (by simpa using hx)]
        simp [hx]
    · rw [stats, hse, forest, hm, hh, hok.entries, ← add_assoc, Nat.cast_succ]
    · rw [stats, hsc, forest, hh, hok.collisions, Nat.cast_succ]

end

end Inserted

/-! ### Deleting a key -/

/-- **`T'` is `T` with the key of bucket `e` deleted**: `e` is a main bucket
without links and is given up, or the item of a hint bucket `j` below `e` is
moved to `e` and `j` is given up (`j` may be `e` itself).  The last bucket
is the one given up. -/
inductive Removed (P : FtlProps) (T : FtlTable K D) (tid : Fin 8) (e : BucketLoc) :
    BucketLoc → FtlTable K D → Prop
  | main {T' : FtlTable K D} {i : Nat} (loc : e = .main i) (valid : T.forest.valid e = true)
      (leaf : T.forest.IsLeaf P.numHints e) (forest : T'.forest = T.forest.dropRoot i)
      (item : ∀ b, T'.forest.valid b = true → T'.item b = T.item b)
      (hints : T'.hints = T.hints) (stats : T'.tstats = bump T.tstats tid (-1) 0) :
      Removed P T tid e e T'
  | tail {T' : FtlTable K D} {p : BucketLoc} {s c j : Nat} (valid : T.forest.valid e = true)
      (link : T.forest.IsLink P.numHints p s j) (leaf : T.forest.IsLeaf P.numHints (.hint j))
      (below : Forest.Ok.Below P.numHints T.forest e (.hint j))
      (clear : c = 0 ∨ c = P.moreHashes 0)
      (forest : T'.forest = T.forest.detach p s c j)
      (item : ∀ b, T'.forest.valid b = true →
        T'.item b = update T.item e (T.item (.hint j)) b)
      (hints : T'.hints.Ok P.stableSize fun x => T.forest.valid (.hint x) = true ∧ x ≠ j)
      (stats : T'.tstats = bump T.tstats tid (-1) (-1)) :
      Removed P T tid e (.hint j) T'

section Removed

variable {P : FtlProps} {hash : K → BitVec 32} {T T' : FtlTable K D} {tid : Fin 8} {k : K} {d : D}
  {e src c : BucketLoc}

section

variable (h : Removed P T tid e src T')
include h

theorem Removed.valid : T.forest.valid e = true := by
  cases h with
  | main _ valid => exact valid
  | tail valid => exact valid

/-- Only the bucket whose item moved is given up. -/
theorem Removed.valid_iff : T'.forest.valid c = true ↔ T.forest.valid c = true ∧ c ≠ src := by
  have hvalid : T'.forest.valid = update T.forest.valid src false := by
    cases h with
    | main loc _ _ forest => rw [forest, loc]; rfl
    | tail _ _ _ _ _ forest => rw [forest]; rfl
  rw [hvalid]
  by_cases hc : c = src
  · subst hc
    simp
  · rw [update_of_ne hc]
    simp [hc]

theorem Removed.item_eq (hv : T'.forest.valid c = true) :
    T'.item c = update T.item e (T.item src) c := by
  cases h with
  | main loc valid leaf forest item => rw [item c hv, update_eq_self]
  | tail _ _ _ _ _ _ item => exact item c hv

/-- The bucket given up was in use. -/
theorem Removed.src_valid [Zero K] (hok : Ok P hash T) : T.forest.valid src = true := by
  cases h with
  | main _ valid => exact valid
  | tail _ link => exact hok.forest.linkValid link

/-- **Deleting the key of a bucket** deletes what the table holds for that key
and nothing else. -/
theorem Removed.stores_iff [Zero K] (hok : Ok P hash T) :
    T'.Stores k d ↔ T.Stores k d ∧ k ≠ T.own e := by
  constructor
  · rintro ⟨c, hv, hi⟩
    obtain ⟨hvc, hcs⟩ := h.valid_iff.mp hv
    rw [h.item_eq hv] at hi
    by_cases hc : c = e
    · subst hc
      rw [update_self] at hi
      refine ⟨⟨src, h.src_valid hok, hi⟩, fun hk => hcs ?_⟩
      -- the moved item has another key than the deleted one
      refine hok.forest.ownInj hvc (h.src_valid hok) ?_
      rw [← hk]
      exact (congrArg Prod.fst hi).symm
    · rw [update_of_ne hc] at hi
      refine ⟨⟨c, hvc, hi⟩, fun hk => hc (hok.forest.ownInj hvc h.valid ?_)⟩
      rw [← hk]
      exact congrArg Prod.fst hi
  · rintro ⟨⟨c, hvc, hi⟩, hk⟩
    have hce : c ≠ e := by
      rintro rfl
      exact hk (congrArg Prod.fst hi).symm
    by_cases hcs : c = src
    · subst hcs
      have hve : T'.forest.valid e = true := h.valid_iff.mpr ⟨h.valid, hce.symm⟩
      exact ⟨e, hve, by rw [h.item_eq hve, update_self, hi]⟩
    · have hvc' : T'.forest.valid c = true := h.valid_iff.mpr ⟨hvc, hcs⟩
      exact ⟨c, hvc', by rw [h.item_eq hvc', update_of_ne hce, hi]⟩

/-- The more slot of a bucket is what it was, or emptied. -/
theorem Removed.more_cases :
    T'.forest.link c (P.numHints + 1) = T.forest.link c (P.numHints + 1) ∨
      ((T'.forest.link c (P.numHints + 1)).hint = 0 ∧
        ((T'.forest.link c (P.numHints + 1)).hash = 0 ∨
          (T'.forest.link c (P.numHints + 1)).hash = P.moreHashes 0)) := by
  cases h with
  | main _ _ _ forest =>
    rw [forest]
    exact .inl rfl
  | @tail _ p s _ _ _ _ _ _ clear forest =>
    rw [forest]
    by_cases hc : c = p
    · subst hc
      rw [detach_link_parent]
      by_cases hs : P.numHints + 1 = s
      · subst hs
        rw [update_self]
        exact .inr ⟨rfl, clear⟩
      · exact .inl (update_of_ne hs _ _)
    · rw [detach_link_of_ne hc]
      exact .inl rfl

/-- Deleting a key leaves no more slot without a bucket, where clearing the
more slot clears its hash. -/
theorem Removed.live (hclear : P.moreHashes 0 = 0) (hl : T.Live P) : T'.Live P := by
  intro c hv hne
  rcases h.more_cases with hold | ⟨-, hz | hz⟩
  · rw [hold] at hne ⊢
    exact hl c (h.valid_iff.mp hv).1 hne
  · exact absurd hz hne
  · exact absurd (hz.trans hclear) hne

/-- **Deleting a key keeps the invariant.** -/
theorem Removed.ok [Zero K] (hok : Ok P hash T) : Ok P hash T' := by
  have hkey : ∀ c, T'.forest.valid c = true → T'.own c ≠ 0 := by
    intro c hv
    rw [own_eq_of_item (h.item_eq hv)]
    by_cases hc : c = e
    · subst hc
      rw [update_self]
      exact hok.keyNe src (h.src_valid hok)
    · rw [update_of_ne hc]
      exact hok.keyNe c (h.valid_iff.mp hv).1
  have hmore : ∀ c, T'.forest.valid c = true →
      (T'.forest.link c (P.numHints + 1)).hint ≠ 0 →
      (T'.forest.link c (P.numHints + 1)).hash = P.moreHashes 1 := by
    intro c hv hne
    rcases h.more_cases with hold | ⟨hz, -⟩
    · rw [hold] at hne ⊢
      exact hok.moreHash c (h.valid_iff.mp hv).1 hne
    · exact absurd hz hne
  cases h with
  | @main _ i loc valid leaf forest item hints stats =>
    subst loc
    obtain ⟨hm, hh⟩ := count_dropRoot (hok.main_lt valid) valid
    obtain ⟨hse, hsc⟩ := sum_bump T.tstats tid (-1) 0
    refine ⟨?_, hkey, hmore, ?_, ?_, ?_⟩
    · have hown : ∀ c, (T.forest.dropRoot i).valid c = true → T'.own c = T.own c := by
        intro c hv
        exact congrArg Prod.fst (item c (forest ▸ hv))
      rw [forest]
      exact (hok.forest.dropRoot leaf).congr_own hown
    · rw [hints]
      refine hok.hints.congr fun j => ?_
      rw [forest, dropRoot_valid_of_ne (by simp)]
    · rw [stats, hse, forest, hh, hok.entries, ← hm, add_right_comm, Nat.cast_succ,
        add_neg_cancel_right]
    · rw [stats, hsc, forest, hh, hok.collisions, add_zero]
  | @tail _ p s x j valid link leaf below clear forest item hints stats =>
    have hvj := hok.forest.linkValid link
    obtain ⟨hh, hm⟩ : (T.forest.detach p s x j).count .hint P.stableSize + 1
        = T.forest.count .hint P.stableSize ∧ ∀ m,
          (T.forest.detach p s x j).count .main m = T.forest.count .main m :=
      count_detach (hok.hint_lt hvj) hvj
    obtain ⟨hse, hsc⟩ := sum_bump T.tstats tid (-1) (-1)
    refine ⟨?_, hkey, hmore, ?_, ?_, ?_⟩
    · rw [forest]
      refine (hok.forest.detach link leaf below).congr_own fun c hv => ?_
      exact own_eq_of_item (item c (forest ▸ hv))
    · refine hints.congr fun y => ?_
      rw [forest]
      by_cases hy : y = j
      · subst hy
        simp [detach]
      · rw [detach_valid_of_ne (by simpa using hy)]
        simp [hy]
    · rw [stats, hse, forest, hm, hok.entries, ← hh, ← add_assoc, Nat.cast_succ,
        add_neg_cancel_right]
    · rw [stats, hsc, forest, hok.collisions, ← hh, Nat.cast_succ, add_neg_cancel_right]

end

end Removed

/-! ### Changing the data of a key -/

/-- **`T'` is `T` with the data in bucket `b` changed to `d`.** -/
structure Updated (T : FtlTable K D) (b : BucketLoc) (d : D) (T' : FtlTable K D) : Prop where
  valid : T.forest.valid b = true
  forest : T'.forest = T.forest
  item : T'.item = update T.item b (T.own b, d)
  hints : T'.hints = T.hints
  stats : T'.tstats = T.tstats

section Updated

variable {P : FtlProps} {hash : K → BitVec 32} {T T' : FtlTable K D} {k : K} {d d' : D}
  {b : BucketLoc}

theorem Updated.own (h : Updated T b d T') : T'.own = T.own := by
  funext c
  rw [own_eq_of_item (congrFun h.item c), update_eq_self]

/-- Changing the data of a key changes what the table holds for that key only. -/
theorem Updated.stores_iff [Zero K] (h : Updated T b d T') (hok : Ok P hash T) :
    T'.Stores k d' ↔ (k = T.own b ∧ d' = d) ∨ (T.Stores k d' ∧ k ≠ T.own b) := by
  constructor
  · rintro ⟨c, hv, hi⟩
    rw [h.forest] at hv
    rw [h.item] at hi
    by_cases hc : c = b
    · subst hc
      rw [update_self] at hi
      cases hi
      exact .inl ⟨rfl, rfl⟩
    · rw [update_of_ne hc] at hi
      refine .inr ⟨⟨c, hv, hi⟩, fun hk => hc (hok.forest.ownInj hv h.valid ?_)⟩
      rw [← hk]
      exact congrArg Prod.fst hi
  · rintro (⟨rfl, rfl⟩ | ⟨⟨c, hv, hi⟩, hk⟩)
    · exact ⟨b, h.forest ▸ h.valid, by rw [h.item, update_self]⟩
    · have hc : c ≠ b := by
        rintro rfl
        exact hk (congrArg Prod.fst hi).symm
      exact ⟨c, h.forest ▸ hv, by rw [h.item, update_of_ne hc, hi]⟩

theorem Updated.live (h : Updated T b d T') (hl : T.Live P) : T'.Live P := by
  unfold Live
  rw [h.forest]
  exact hl

/-- **Changing the data of a key keeps the invariant.** -/
theorem Updated.ok [Zero K] (h : Updated T b d T') (hok : Ok P hash T) : Ok P hash T' := by
  refine ⟨?_, ?_, ?_, ?_, ?_, ?_⟩
  · rw [h.forest, h.own]
    exact hok.forest
  · rw [h.forest, h.own]
    exact hok.keyNe
  · rw [h.forest]
    exact hok.moreHash
  · rw [h.forest, h.hints]
    exact hok.hints
  · rw [h.forest, h.stats]
    exact hok.entries
  · rw [h.forest, h.stats]
    exact hok.collisions

end Updated

end FtlTable

end NicSw
