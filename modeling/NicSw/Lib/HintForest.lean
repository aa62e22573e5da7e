/-
Hash tables with hint chains.

A table has main buckets, found by a key's index, and hint buckets, found
by following links.  A bucket has `N` hint slots and one more slot (slot
`N + 1`).  A hint slot carries a hash and leads the keys of that hash on; the
more slot leads all the others on.  So each main bucket is the root of a
tree of buckets, and a key takes one path through it (`route`, `OnPath`).

`Forest.Ok` says that the links form a forest of valid buckets and that each
valid bucket lies on the path of the key that owns it.  The owner need not be
stored in the bucket: a bucket may be held for a key.

The operations are those of any table of this kind: take a main bucket
(`createRoot`), link a fresh bucket behind the end of a path (`attach`),
give up a main bucket without links (`dropRoot`), and unlink a bucket
without links (`detach`), which may first hand its owner to a bucket above.
Each keeps `Forest.Ok`.
-/
import Mathlib.Data.Set.Card
import Mathlib.Order.Lattice.Nat

namespace NicSw

open Function Finset

/-! ### Buckets and routes -/

/-- A bucket, by its table and its index. -/
inductive BucketLoc
  | main (i : Nat)
  | hint (j : Nat)
  deriving DecidableEq, Repr

/-- A slot: the hint bucket it leads to (`0` for none) and its hash. -/
structure HintLink where
  hint : Nat
  hash : Nat
  deriving DecidableEq, Repr, Inhabited

/-- An empty slot. -/
def HintLink.none : HintLink := ⟨0, 0⟩

/-- The slot whose hash is `h`, among the slots `1 .. N`. -/
def matchSlot (N : Nat) (link : Nat → HintLink) (h : Nat) : Option Nat :=
  (List.range' 1 N).find? fun i => (link i).hash = h ∧ (link i).hint ≠ 0

/-- The slot that a key with hash `h` takes: a matching hint slot, or else the
more slot when it is set. -/
def route (N : Nat) (link : Nat → HintLink) (h : Nat) : Option Nat :=
  match matchSlot N link h with
  | some i => some i
  | none => if (link (N + 1)).hash ≠ 0 then some (N + 1) else none

variable {N : Nat} {link : Nat → HintLink} {h h' s s' : Nat}

theorem matchSlot_eq_some :
    matchSlot N link h = some s ↔ (1 ≤ s ∧ s ≤ N) ∧ ((link s).hash = h ∧ (link s).hint ≠ 0) ∧
      ∀ i, 1 ≤ i → i < s → ¬ ((link i).hash = h ∧ (link i).hint ≠ 0) := by
  unfold matchSlot
  rw [List.find?_range'_eq_some]
  simp only [decide_eq_true_eq, List.mem_range'_1, Bool.not_eq_true', decide_eq_false_iff_not]
  constructor
  · rintro ⟨h1, ⟨h2, h3⟩, h4⟩
    exact ⟨⟨h2, by omega⟩, h1, h4⟩
  · rintro ⟨⟨h1, h2⟩, h3, h4⟩
    exact ⟨h3, ⟨h1, by omega⟩, h4⟩

theorem matchSlot_eq_none :
    matchSlot N link h = none ↔ ∀ i, 1 ≤ i → i ≤ N → ¬ ((link i).hash = h ∧ (link i).hint ≠ 0) := by
  unfold matchSlot
  rw [List.find?_eq_none]
  simp only [decide_eq_true_eq, List.mem_range'_1]
  exact ⟨fun hn i h1 h2 => hn i ⟨h1, by omega⟩, fun hn i hi => hn i hi.1 (by omega)⟩

/-- A route is a matching slot, or the more slot when no slot matches. -/
theorem route_eq_some :
    route N link h = some s ↔ matchSlot N link h = some s ∨
      (matchSlot N link h = none ∧ s = N + 1 ∧ (link (N + 1)).hash ≠ 0) := by
  unfold route
  cases hm : matchSlot N link h with
  | some i => simp
  | none =>
    by_cases hz : (link (N + 1)).hash = 0
    · simp [hz]
    · simp [hz, eq_comm]

theorem route_eq_none :
    route N link h = none ↔ matchSlot N link h = none ∧ (link (N + 1)).hash = 0 := by
  unfold route
  cases hm : matchSlot N link h with
  | some i => simp
  | none => simp

theorem route_bounds (hr : route N link h = some s) : 1 ≤ s ∧ s ≤ N + 1 := by
  rcases route_eq_some.mp hr with hm | ⟨-, rfl, -⟩
  · have := (matchSlot_eq_some.mp hm).1
    omega
  · omega

variable {c j hash s' j' : Nat}

/-- Emptying a slot, whatever hash is left in it, does not disturb the routes
through the others. -/
theorem route_clear (hr : route N link h = some s') (hne : s' ≠ s) :
    route N (update link s ⟨0, c⟩) h = some s' := by
  have hkeep : ∀ i, (update link s ⟨0, c⟩ i).hash = h ∧
      (update link s ⟨0, c⟩ i).hint ≠ 0 →
      (link i).hash = h ∧ (link i).hint ≠ 0 := by
    intro i hi
    by_cases his : i = s
    · rw [his, update_self] at hi
      exact absurd rfl hi.2
    · rwa [update_of_ne his] at hi
  rcases route_eq_some.mp hr with hm | ⟨hm, rfl, hz⟩
  · obtain ⟨hb, hs, hfirst⟩ := matchSlot_eq_some.mp hm
    refine route_eq_some.mpr (.inl (matchSlot_eq_some.mpr ⟨hb, ?_, ?_⟩))
    · rwa [update_of_ne hne]
    · exact fun i h1 h2 hi => hfirst i h1 h2 (hkeep i hi)
  · refine route_eq_some.mpr (.inr ⟨?_, rfl, ?_⟩)
    · exact matchSlot_eq_none.mpr fun i h1 h2 hi => matchSlot_eq_none.mp hm i h1 h2 (hkeep i hi)
    · rwa [update_of_ne hne]

/-- Keys of hash `h` go no further from here: they have no route, or their
route is a more slot whose hash is set but which leads nowhere. -/
def DeadEnd (N : Nat) (link : Nat → HintLink) (h : Nat) : Prop :=
  ∀ s, route N link h = some s → (link s).hint = 0

theorem deadEnd_of_route (hr : route N link h = some s) (hz : (link s).hint = 0) :
    DeadEnd N link h := by
  intro s' hs'
  rw [hr] at hs'
  rwa [← Option.some.inj hs']

theorem deadEnd_of_no_route (hr : route N link h = none) : DeadEnd N link h := by
  intro s' hs'
  rw [hr] at hs'
  cases hs'

theorem DeadEnd.matchSlot_eq_none (hd : DeadEnd N link h) : matchSlot N link h = none := by
  cases hm : matchSlot N link h with
  | none => rfl
  | some s =>
    exact absurd (hd s (route_eq_some.mpr (.inl hm))) (matchSlot_eq_some.mp hm).2.1.2

/-- What may be put in a free slot for the keys of hash `h`: a hint slot with
that hash, or the more slot. -/
def SlotFor (N : Nat) (h s hash : Nat) : Prop :=
  (1 ≤ s ∧ s ≤ N ∧ hash = h) ∨ (s = N + 1 ∧ hash ≠ 0)

/-- A new link for keys at a dead end does not disturb the routes that lead
somewhere. -/
theorem route_set_of_some (hd : DeadEnd N link h) (hslot : SlotFor N h s hash)
    (hfree : (link s).hint = 0) (hr : route N link h' = some s') (hs' : (link s').hint ≠ 0) :
    route N (update link s ⟨j, hash⟩) h' = some s' ∧ s' ≠ s := by
  have hh : h' ≠ h := by
    rintro rfl
    exact hs' (hd s' hr)
  have hne : s' ≠ s := by
    rintro rfl
    exact hs' hfree
  refine ⟨?_, hne⟩
  rcases route_eq_some.mp hr with hm | ⟨-, rfl, hz⟩
  · obtain ⟨hb, hs, hfirst⟩ := matchSlot_eq_some.mp hm
    refine route_eq_some.mpr (.inl (matchSlot_eq_some.mpr ⟨hb, ?_, fun i h1 h2 hi => ?_⟩))
    · rwa [update_of_ne hne]
    · by_cases his : i = s
      · subst his
        rw [update_self] at hi
        rcases hslot with ⟨-, -, rfl⟩ | ⟨rfl, -⟩
        · exact hh hi.1.symm
        · omega
      · rw [update_of_ne his] at hi
        exact hfirst i h1 h2 hi
  · -- the more slot would lead the keys at the dead end on as well
    exact absurd (hd _ (route_eq_some.mpr (.inr ⟨hd.matchSlot_eq_none, rfl, hz⟩))) hs'

/-- A new link is the route of the keys it was made for. -/
theorem route_set_self (hd : DeadEnd N link h) (hslot : SlotFor N h s hash) (hj : j ≠ 0) :
    route N (update link s ⟨j, hash⟩) h = some s := by
  have hother : ∀ i, i ≠ s → 1 ≤ i → i ≤ N →
      ¬ ((update link s ⟨j, hash⟩ i).hash = h ∧ (update link s ⟨j, hash⟩ i).hint ≠ 0) := by
    intro i his h1 h2
    rw [update_of_ne his]
    exact matchSlot_eq_none.mp hd.matchSlot_eq_none i h1 h2
  rcases hslot with ⟨h1, h2, rfl⟩ | ⟨rfl, hz⟩
  · refine route_eq_some.mpr (.inl (matchSlot_eq_some.mpr ⟨⟨h1, h2⟩, ?_, ?_⟩))
    · rw [update_self]
      exact ⟨rfl, hj⟩
    · exact fun i h3 h4 => hother i (by omega) h3 (by omega)
  · refine route_eq_some.mpr (.inr ⟨?_, rfl, ?_⟩)
    · exact matchSlot_eq_none.mpr fun i h1 h2 => hother i (by omega) h1 h2
    · rwa [update_self]

/-- A more slot that leads somewhere has its hash set. -/
def MoreOk (N : Nat) (link : Nat → HintLink) : Prop :=
  (link (N + 1)).hint ≠ 0 → (link (N + 1)).hash ≠ 0

theorem moreOk_none : MoreOk N fun _ => HintLink.none := fun hne => absurd rfl hne

theorem MoreOk.clear (hm : MoreOk N link) (s c : Nat) : MoreOk N (update link s ⟨0, c⟩) := by
  unfold MoreOk
  by_cases hs : N + 1 = s
  · subst hs
    simp
  · rw [update_of_ne hs]
    exact hm

theorem MoreOk.set (hm : MoreOk N link) (hslot : SlotFor N h s hash) :
    MoreOk N (update link s ⟨j, hash⟩) := by
  unfold MoreOk
  by_cases hs : N + 1 = s
  · subst hs
    rw [update_self]
    rcases hslot with ⟨-, h2, -⟩ | ⟨-, hz⟩
    · omega
    · exact fun _ => hz
  · rw [update_of_ne hs]
    exact hm

/-- A more slot whose hash is set leads somewhere. -/
def MoreLive (N : Nat) (link : Nat → HintLink) : Prop :=
  (link (N + 1)).hash ≠ 0 → (link (N + 1)).hint ≠ 0

/-- Where the more slot is live, every route leads to a bucket. -/
theorem MoreLive.hint_ne_zero (hm : MoreLive N link) (hr : route N link h = some s) :
    (link s).hint ≠ 0 := by
  rcases route_eq_some.mp hr with hs | ⟨-, rfl, hz⟩
  · exact (matchSlot_eq_some.mp hs).2.1.2
  · exact hm hz

/-! ### The slots an insert and a remove work on -/

/-- The first free hint slot, or else the more slot when it is not set. -/
def freeSlot (N : Nat) (link : Nat → HintLink) : Option Nat :=
  match (List.range' 1 N).find? fun i => (link i).hint = 0 with
  | some i => some i
  | none => if (link (N + 1)).hash = 0 then some (N + 1) else none

/-- The last slot in use, the more slot being behind the hint slots. -/
def lastSlot (N : Nat) (link : Nat → HintLink) : Option Nat :=
  if (link (N + 1)).hint ≠ 0 ∧ (link (N + 1)).hash ≠ 0 then some (N + 1)
  else (List.range' 1 N).reverse.find? fun i => (link i).hint ≠ 0

/-- Where there is no route there is a free slot. -/
theorem freeSlot_of_route_none (hc : c ≠ 0) (hm : MoreOk N link) (hr : route N link h = none) :
    ∃ s, freeSlot N link = some s ∧ (link s).hint = 0 ∧
      SlotFor N h s (if s = N + 1 then c else h) := by
  obtain ⟨-, hz⟩ := route_eq_none.mp hr
  unfold freeSlot
  cases hf : (List.range' 1 N).find? fun i => (link i).hint = 0 with
  | some i =>
    have hi := List.mem_range'_1.mp (List.mem_of_find?_eq_some hf)
    refine ⟨i, rfl, by simpa using List.find?_some hf, .inl ⟨hi.1, by omega, ?_⟩⟩
    rw [if_neg (by omega)]
  | none =>
    refine ⟨N + 1, by simp [hz], ?_, .inr ⟨rfl, by simpa using hc⟩⟩
    by_contra hne
    exact hm hne hz

theorem lastSlot_eq_some (hl : lastSlot N link = some s) :
    1 ≤ s ∧ s ≤ N + 1 ∧ (link s).hint ≠ 0 := by
  unfold lastSlot at hl
  split at hl
  · rename_i hmore
    cases hl
    exact ⟨by omega, le_refl _, hmore.1⟩
  · have hi := List.mem_range'_1.mp (List.mem_reverse.mp (List.mem_of_find?_eq_some hl))
    exact ⟨hi.1, by omega, by simpa using List.find?_some hl⟩

theorem lastSlot_eq_none (hm : MoreOk N link) (hl : lastSlot N link = none) (h1 : 1 ≤ s)
    (h2 : s ≤ N + 1) : (link s).hint = 0 := by
  unfold lastSlot at hl
  split at hl
  · cases hl
  rename_i hmore
  rcases Nat.eq_or_lt_of_le h2 with rfl | hlt
  · by_contra hne
    exact hmore ⟨hne, hm hne⟩
  · have := List.find?_eq_none.mp hl s
      (List.mem_reverse.mpr (List.mem_range'_1.mpr ⟨h1, by omega⟩))
    simpa using this

/-! ### Forests -/

/-- The validity and the slots of all buckets. -/
@[ext] structure Forest where
  valid : BucketLoc → Bool
  link : BucketLoc → Nat → HintLink

variable {b : BucketLoc}

namespace Forest

/-- Slot `s` of the valid bucket `b` leads to hint bucket `j`. -/
structure IsLink (N : Nat) (F : Forest) (b : BucketLoc) (s j : Nat) : Prop where
  valid : F.valid b = true
  pos : 1 ≤ s
  le : s ≤ N + 1
  hint : (F.link b s).hint = j
  ne : j ≠ 0

instance {N : Nat} {F : Forest} {b : BucketLoc} {s j : Nat} : Decidable (IsLink N F b s j) :=
  decidable_of_iff (F.valid b = true ∧ 1 ≤ s ∧ s ≤ N + 1 ∧ (F.link b s).hint = j ∧ j ≠ 0)
    ⟨fun h => ⟨h.1, h.2.1, h.2.2.1, h.2.2.2.1, h.2.2.2.2⟩,
      fun h => ⟨h.valid, h.pos, h.le, h.hint, h.ne⟩⟩

/-- Bucket `b` is at place `n` of the path that keys with index `i` and hash
`h` take. -/
inductive OnPath (N : Nat) (F : Forest) (i h : Nat) : BucketLoc → Nat → Prop
  | root : OnPath N F i h (.main i) 0
  | step {b n s j} : OnPath N F i h b n → F.valid b = true →
      route N (F.link b) h = some s → (F.link b s).hint = j → j ≠ 0 →
      OnPath N F i h (.hint j) (n + 1)

variable {K : Type*} {idx msb : K → Nat} {own : BucketLoc → K} {F : Forest} {B : Nat}

/-- **The invariant.**  Links lead to valid buckets and each bucket has at most
one link to it; each valid bucket is on the path of its owner, at most `B`
links from its root, and no key owns two buckets. -/
structure Ok (N B : Nat) (F : Forest) (idx msb : K → Nat) (own : BucketLoc → K) : Prop where
  path : ∀ b, F.valid b = true → ∃ n ≤ B, OnPath N F (idx (own b)) (msb (own b)) b n
  linkValid : ∀ {b s j}, IsLink N F b s j → F.valid (.hint j) = true
  linkInj : ∀ {b b' s s' j}, IsLink N F b s j → IsLink N F b' s' j → b = b' ∧ s = s'
  ownInj : ∀ {b b'}, F.valid b = true → F.valid b' = true → own b = own b' → b = b'
  more : ∀ b, F.valid b = true → MoreOk N (F.link b)

variable {h s i n : Nat}

theorem isLink_of_route (hv : F.valid b = true) (hr : route N (F.link b) h = some s)
    (hj : (F.link b s).hint = j) (hne : j ≠ 0) : IsLink N F b s j :=
  ⟨hv, (route_bounds hr).1, (route_bounds hr).2, hj, hne⟩

/-- The path of a key is one sequence of buckets. -/
theorem OnPath.det {b' : BucketLoc} (hp : OnPath N F i h b n) (hp' : OnPath N F i h b' n) : b = b' := by
  induction hp generalizing b' with
  | root =>
    cases hp' with
    | root => rfl
  | step _ _ hr hj _ ih =>
    cases hp' with
    | step hb' _ hr' hj' _ =>
      obtain rfl := ih hb'
      rw [hr] at hr'
      cases hr'
      rw [← hj, ← hj']

/-- A place other than the first is that of a hint bucket. -/
theorem OnPath.eq_hint (hp : OnPath N F i h b n) :
    (n = 0 ∧ b = .main i) ∨ (n ≠ 0 ∧ ∃ j, j ≠ 0 ∧ b = .hint j) := by
  cases hp with
  | root => exact .inl ⟨rfl, rfl⟩
  | step _ _ _ _ hne => exact .inr ⟨Nat.succ_ne_zero _, _, hne, rfl⟩

namespace Ok

variable {i h i' h' n n' s j : Nat} {b b' e t : BucketLoc}

section

variable (hok : Ok N B F idx msb own)
include hok

/-- A path comes to a linked bucket through its link. -/
theorem parent (hp : OnPath N F i h (.hint j) n) (hl : IsLink N F b s j) :
    ∃ m, n = m + 1 ∧ OnPath N F i h b m ∧ route N (F.link b) h = some s := by
  cases hp with
  | step hb hv hr hj hne =>
    obtain ⟨rfl, rfl⟩ := hok.linkInj (isLink_of_route hv hr hj hne) hl
    exact ⟨_, rfl, hb, hr⟩

/-- A bucket is in one tree, at one depth. -/
theorem path_unique (hp : OnPath N F i h b n) (hp' : OnPath N F i' h' b n') : i = i' ∧ n = n' := by
  induction hp generalizing n' with
  | root =>
    cases hp' with
    | root => exact ⟨rfl, rfl⟩
  | step _ hv hr hj hne ih =>
    obtain ⟨m, rfl, hm, -⟩ := hok.parent hp' (isLink_of_route hv hr hj hne)
    obtain ⟨rfl, rfl⟩ := ih hm
    exact ⟨rfl, rfl⟩

/-- A path to a bucket in use is no longer than the bound. -/
theorem depth_le (hv : F.valid b = true) (hp : OnPath N F i h b n) : n ≤ B := by
  obtain ⟨m, hm, hpm⟩ := hok.path b hv
  rw [(hok.path_unique hp hpm).2]
  exact hm

/-- What a link leads to is one link further from the root. -/
theorem path_link (hp : OnPath N F i h b n) (hl : IsLink N F b s j) :
    ∃ i' h', OnPath N F i' h' (.hint j) (n + 1) := by
  obtain ⟨m, -, hpm⟩ := hok.path _ (hok.linkValid hl)
  obtain ⟨m', rfl, hm', -⟩ := hok.parent hpm hl
  rw [(hok.path_unique hp hm').2]
  exact ⟨_, _, hpm⟩

end

/-- Below `e` there is `t`, some links down. -/
def Below (N : Nat) (F : Forest) : BucketLoc → BucketLoc → Prop :=
  Relation.ReflTransGen fun b c => ∃ s j, IsLink N F b s j ∧ c = .hint j

/-- A path to a bucket passes the buckets above it. -/
theorem path_above (hok : Ok N B F idx msb own) (hbel : Below N F e t)
    (hp : OnPath N F i h t n) : ∃ m ≤ n, OnPath N F i h e m := by
  induction hbel generalizing n with
  | refl => exact ⟨n, le_refl n, hp⟩
  | tail _ hstep ih =>
    obtain ⟨s, j, hl, rfl⟩ := hstep
    obtain ⟨m, rfl, hm, -⟩ := hok.parent hp hl
    obtain ⟨m', hle, hm'⟩ := ih hm
    exact ⟨m', by omega, hm'⟩

/-- The owner of a bucket that is not valid does not matter. -/
theorem congr_own (hok : Ok N B F idx msb own) {own' : BucketLoc → K}
    (h : ∀ b, F.valid b = true → own' b = own b) : Ok N B F idx msb own' := by
  refine ⟨fun b hv => ?_, hok.linkValid, hok.linkInj, fun hv hv' ho => ?_, hok.more⟩
  · rw [h b hv]
    exact hok.path b hv
  · rw [h _ hv, h _ hv'] at ho
    exact hok.ownInj hv hv' ho

/-- A valid hint bucket has a link to it. -/
theorem linked (hok : Ok N B F idx msb own) (hv : F.valid (.hint j) = true) :
    j ≠ 0 ∧ ∃ b s, IsLink N F b s j := by
  obtain ⟨n, -, hp⟩ := hok.path _ hv
  cases hp with
  | step hb hvb hr hj hne => exact ⟨hne, _, _, isLink_of_route hvb hr hj hne⟩

end Ok

/-- The number of links from its root to a bucket. -/
noncomputable def depth (N : Nat) (F : Forest) (b : BucketLoc) : Nat :=
  sInf {n | ∃ i h, OnPath N F i h b n}

theorem depth_main (i : Nat) : depth N F (.main i) = 0 :=
  Nat.sInf_eq_zero.mpr (.inl ⟨i, 0, .root⟩)

theorem Ok.depth_eq (hok : Ok N B F idx msb own) (hp : OnPath N F i h b n) : depth N F b = n := by
  have hset : {n | ∃ i h, OnPath N F i h b n} = {n} := by
    ext m
    constructor
    · rintro ⟨i', h', hp'⟩
      exact (hok.path_unique hp' hp).2
    · rintro rfl
      exact ⟨i, h, hp⟩
  rw [depth, hset, csInf_singleton]

/-- **Links go down one level**, and no bucket is deeper than `B`. -/
theorem Ok.depth_link (hok : Ok N B F idx msb own) (hl : IsLink N F b s j) :
    depth N F (.hint j) = depth N F b + 1 ∧ depth N F (.hint j) ≤ B := by
  obtain ⟨n, -, hp⟩ := hok.path b hl.valid
  obtain ⟨i', h', hp'⟩ := hok.path_link hp hl
  rw [hok.depth_eq hp', hok.depth_eq hp]
  exact ⟨rfl, hok.depth_le (hok.linkValid hl) hp'⟩

/-! ### Looking for a key -/

/-- The search for `k` has come to bucket `b`, at place `n` of the path of `k`,
and neither `b` nor a bucket before it is owned by `k`. -/
structure Searched (N : Nat) (F : Forest) (idx msb : K → Nat) (own : BucketLoc → K) (k : K)
    (b : BucketLoc) (n : Nat) : Prop where
  valid : F.valid b = true
  path : OnPath N F (idx k) (msb k) b n
  before : ∀ b' m, m ≤ n → OnPath N F (idx k) (msb k) b' m → own b' ≠ k

section Searched

variable {k : K} {b : BucketLoc} {n s : Nat}

theorem Searched.root (hv : F.valid (.main (idx k)) = true) (hne : own (.main (idx k)) ≠ k) :
    Searched N F idx msb own k (.main (idx k)) 0 := by
  refine ⟨hv, .root, fun b' m hm hp => ?_⟩
  obtain rfl : m = 0 := by omega
  rwa [hp.det .root]

/-- One step of the search, through the route of `k`. -/
theorem Searched.step (hs : Searched N F idx msb own k b n)
    (hr : route N (F.link b) (msb k) = some s) (hj : (F.link b s).hint = j) (hj0 : j ≠ 0)
    (hv : F.valid (.hint j) = true) (hne : own (.hint j) ≠ k) :
    Searched N F idx msb own k (.hint j) (n + 1) := by
  have hp := hs.path.step hs.valid hr hj hj0
  refine ⟨hv, hp, fun b' m hm hp' => ?_⟩
  rcases Nat.lt_or_ge m (n + 1) with hlt | hge
  · exact hs.before b' m (by omega) hp'
  · obtain rfl : m = n + 1 := by omega
    rwa [hp'.det hp]

/-- A search that comes to a dead end shows that `k` owns no bucket. -/
theorem Searched.not_owned (hs : Searched N F idx msb own k b n) (hok : Ok N B F idx msb own)
    (hd : DeadEnd N (F.link b) (msb k)) : ∀ c, F.valid c = true → own c ≠ k := by
  -- a path of `k` beyond `b` would leave `b` through its route
  have hend : ∀ {c m}, OnPath N F (idx k) (msb k) c m → m ≤ n := by
    intro c m hp
    induction hp with
    | root => exact Nat.zero_le n
    | step hq hv hr hj hne ih =>
      rcases Nat.eq_or_lt_of_le ih with rfl | hlt
      · obtain rfl := hq.det hs.path
        exact absurd (hj ▸ hd _ hr) hne
      · exact hlt
  rintro c hv rfl
  obtain ⟨m, -, hp⟩ := hok.path c hv
  exact hs.before c m (hend hp) hp rfl

/-- A key whose main bucket is not in use owns no bucket. -/
theorem Ok.not_owned_of_root (hok : Ok N B F idx msb own)
    (hv : F.valid (.main (idx k)) = false) : ∀ c, F.valid c = true → own c ≠ k := by
  -- a path starts at the main bucket and leaves valid buckets only
  have hroot : ∀ {c m}, OnPath N F (idx k) (msb k) c m → c = .main (idx k) := by
    intro c m hp
    induction hp with
    | root => rfl
    | step _ hvb _ _ _ ih =>
      rw [ih, hv] at hvb
      cases hvb
  rintro c hvc rfl
  obtain ⟨m, -, hp⟩ := hok.path c hvc
  rw [hroot hp, hv] at hvc
  cases hvc

end Searched

/-! ### Taking and giving up a main bucket -/

/-- Take main bucket `i`, with empty slots. -/
def createRoot (F : Forest) (i : Nat) : Forest where
  valid := update F.valid (.main i) true
  link := update F.link (.main i) fun _ => HintLink.none

/-- Give up main bucket `i`. -/
def dropRoot (F : Forest) (i : Nat) : Forest :=
  { F with valid := update F.valid (.main i) false }

/-- `b` has no links. -/
def IsLeaf (N : Nat) (F : Forest) (b : BucketLoc) : Prop :=
  ∀ s, 1 ≤ s → s ≤ N + 1 → (F.link b s).hint = 0

theorem IsLeaf.not_isLink (hl : IsLeaf N F b) : ¬ IsLink N F b s j :=
  fun h => h.ne (h.hint ▸ hl s h.pos h.le)

section Root

variable {i i' h n : Nat} {b : BucketLoc} {k : K}

@[simp] theorem createRoot_link_self : (F.createRoot i).link (.main i) = fun _ => HintLink.none :=
  update_self _ _ _

theorem createRoot_link_of_ne (hb : b ≠ .main i) : (F.createRoot i).link b = F.link b :=
  update_of_ne hb _ _

theorem createRoot_valid_of_ne (hb : b ≠ .main i) : (F.createRoot i).valid b = F.valid b :=
  update_of_ne hb _ _

theorem OnPath.createRoot (hfree : F.valid (.main i) = false) (hp : OnPath N F i' h b n) :
    OnPath N (F.createRoot i) i' h b n := by
  induction hp with
  | root => exact .root
  | @step b _ _ _ _ hv hr hj hne ih =>
    have hb : b ≠ .main i := by
      rintro rfl
      rw [hfree] at hv
      cases hv
    rw [← createRoot_link_of_ne hb] at hr hj
    exact .step ih ((createRoot_valid_of_ne hb).trans hv) hr hj hne

theorem isLink_createRoot : IsLink N (F.createRoot i) b s j → IsLink N F b s j ∧ b ≠ .main i := by
  rintro ⟨hv, h1, h2, h3, h4⟩
  by_cases hb : b = .main i
  · subst hb
    rw [createRoot_link_self] at h3
    exact absurd h3.symm h4
  · rw [createRoot_valid_of_ne hb] at hv
    rw [createRoot_link_of_ne hb] at h3
    exact ⟨⟨hv, h1, h2, h3, h4⟩, hb⟩

theorem Ok.createRoot (hok : Ok N B F idx msb own) (hfree : F.valid (.main i) = false)
    (hidx : idx k = i) (hfresh : ∀ b, F.valid b = true → own b ≠ k) :
    Ok N B (F.createRoot i) idx msb (update own (.main i) k) := by
  have hvalid : ∀ {b}, b ≠ .main i → (F.createRoot i).valid b = true → F.valid b = true :=
    fun hb hv => (createRoot_valid_of_ne hb).symm.trans hv
  refine ⟨fun b hv => ?_, fun hl => ?_, fun hl hl' => ?_, fun {b b'} hv hv' ho => ?_,
    fun b hv => ?_⟩
  · by_cases hb : b = .main i
    · subst hb
      rw [update_self, hidx]
      exact ⟨0, Nat.zero_le B, .root⟩
    · rw [update_of_ne hb]
      obtain ⟨n, hn, hp⟩ := hok.path b (hvalid hb hv)
      exact ⟨n, hn, hp.createRoot hfree⟩
  · rw [createRoot_valid_of_ne (by simp)]
    exact hok.linkValid (isLink_createRoot hl).1
  · exact hok.linkInj (isLink_createRoot hl).1 (isLink_createRoot hl').1
  · by_cases hb : b = .main i <;> by_cases hb' : b' = .main i
    · rw [hb, hb']
    · subst hb
      rw [update_self, update_of_ne hb'] at ho
      exact absurd ho.symm (hfresh b' (hvalid hb' hv'))
    · subst hb'
      rw [update_self, update_of_ne hb] at ho
      exact absurd ho (hfresh b (hvalid hb hv))
    · rw [update_of_ne hb, update_of_ne hb'] at ho
      exact hok.ownInj (hvalid hb hv) (hvalid hb' hv') ho
  · by_cases hb : b = .main i
    · subst hb
      rw [createRoot_link_self]
      exact moreOk_none
    · rw [createRoot_link_of_ne hb]
      exact hok.more b (hvalid hb hv)

theorem dropRoot_valid_of_ne (hb : b ≠ .main i) : (F.dropRoot i).valid b = F.valid b :=
  update_of_ne hb _ _

theorem OnPath.dropRoot (hleaf : IsLeaf N F (.main i)) (hp : OnPath N F i' h b n) :
    OnPath N (F.dropRoot i) i' h b n := by
  induction hp with
  | root => exact .root
  | @step b _ _ _ _ hv hr hj hne ih =>
    have hb : b ≠ .main i := by
      rintro rfl
      exact hleaf.not_isLink (isLink_of_route hv hr hj hne)
    exact .step ih ((dropRoot_valid_of_ne hb).trans hv) hr hj hne

theorem valid_of_dropRoot (hv : (F.dropRoot i).valid b = true) :
    F.valid b = true ∧ b ≠ .main i := by
  by_cases hb : b = .main i
  · subst hb
    exact absurd (hv.symm.trans (update_self _ _ _)) (by simp)
  · exact ⟨(update_of_ne hb _ _).symm.trans hv, hb⟩

theorem Ok.dropRoot (hok : Ok N B F idx msb own) (hleaf : IsLeaf N F (.main i)) :
    Ok N B (F.dropRoot i) idx msb own := by
  have hlink : ∀ {b s j}, IsLink N (F.dropRoot i) b s j → IsLink N F b s j :=
    fun hl => ⟨(valid_of_dropRoot hl.valid).1, hl.pos, hl.le, hl.hint, hl.ne⟩
  refine ⟨fun b hv => ?_, fun hl => ?_, fun hl hl' => ?_, fun hv hv' ho => ?_, fun b hv => ?_⟩
  · obtain ⟨n, hn, hp⟩ := hok.path b (valid_of_dropRoot hv).1
    exact ⟨n, hn, hp.dropRoot hleaf⟩
  · exact (dropRoot_valid_of_ne (by simp)).trans (hok.linkValid (hlink hl))
  · exact hok.linkInj (hlink hl) (hlink hl')
  · exact hok.ownInj (valid_of_dropRoot hv).1 (valid_of_dropRoot hv').1 ho
  · exact hok.more b (valid_of_dropRoot hv).1

end Root

/-! ### Linking a fresh bucket -/

/-- Take hint bucket `j`, with empty slots, and link it from slot `s` of `b`. -/
def attach (F : Forest) (b : BucketLoc) (s hash j : Nat) : Forest where
  valid := update F.valid (.hint j) true
  link := update (update F.link (.hint j) fun _ => HintLink.none) b
    (update (F.link b) s ⟨j, hash⟩)

section Attach

variable {i h n s hash j : Nat} {b b' : BucketLoc} {k : K}

theorem attach_valid_of_ne (hb : b' ≠ .hint j) : (F.attach b s hash j).valid b' = F.valid b' :=
  update_of_ne hb _ _

@[simp] theorem attach_valid_self : (F.attach b s hash j).valid (.hint j) = true :=
  update_self _ _ _

@[simp] theorem attach_link_parent : (F.attach b s hash j).link b = update (F.link b) s ⟨j, hash⟩ :=
  update_self _ _ _

theorem attach_link_self (hb : b ≠ .hint j) :
    (F.attach b s hash j).link (.hint j) = fun _ => HintLink.none :=
  (update_of_ne hb.symm _ _).trans (update_self _ _ _)

theorem attach_link_of_ne (hb : b' ≠ b) (hj : b' ≠ .hint j) :
    (F.attach b s hash j).link b' = F.link b' :=
  (update_of_ne hb _ _).trans (update_of_ne hj _ _)

/-- What a key `k` needs to get a bucket linked at slot `s` of `b`: `b` is the
end of its path and the slot is free, and `j` is a bucket not in use. -/
structure CanAttach (N : Nat) (F : Forest) (idx msb : K → Nat) (k : K) (b : BucketLoc)
    (s hash j : Nat) : Prop where
  valid : F.valid b = true
  deadEnd : DeadEnd N (F.link b) (msb k)
  slot : SlotFor N (msb k) s hash
  free : (F.link b s).hint = 0
  unused : F.valid (.hint j) = false
  ne : j ≠ 0

section

variable (ha : CanAttach N F idx msb k b s hash j)
include ha

theorem CanAttach.loc_ne : b ≠ .hint j := by
  rintro rfl
  exact absurd (ha.valid.symm.trans ha.unused) (by simp)

theorem OnPath.attach (hp : OnPath N F i h b' n) : OnPath N (F.attach b s hash j) i h b' n := by
  induction hp with
  | root => exact .root
  | @step c _ _ _ _ hv hr hj hne ih =>
    have hc : c ≠ .hint j := by
      rintro rfl
      exact absurd (hv.symm.trans ha.unused) (by simp)
    have hv' : (F.attach b s hash j).valid c = true := (attach_valid_of_ne hc).trans hv
    by_cases hcb : c = b
    · subst hcb
      obtain ⟨hr', hs⟩ := route_set_of_some (j := j) ha.deadEnd ha.slot ha.free hr (hj ▸ hne)
      refine .step ih hv' (by rwa [attach_link_parent]) ?_ hne
      rw [attach_link_parent, update_of_ne hs, hj]
    · have hlink : (F.attach b s hash j).link c = F.link c := attach_link_of_ne hcb hc
      rw [← hlink] at hr hj
      exact .step ih hv' hr hj hne

/-- The new bucket is the next one on the path of its key. -/
theorem OnPath.attach_new
    (hp : OnPath N F (idx k) (msb k) b n) :
    OnPath N (F.attach b s hash j) (idx k) (msb k) (.hint j) (n + 1) := by
  refine .step (hp.attach ha) ((attach_valid_of_ne ha.loc_ne).trans ha.valid) (s := s) ?_ ?_ ha.ne
  · rw [attach_link_parent]
    exact route_set_self ha.deadEnd ha.slot ha.ne
  · rw [attach_link_parent, update_self]

theorem isLink_attach {b' : BucketLoc} (hl : IsLink N (F.attach b s hash j) b' s' j') :
    (b' = b ∧ s' = s ∧ j' = j) ∨ IsLink N F b' s' j' := by
  obtain ⟨hv, h1, h2, h3, h4⟩ := hl
  by_cases hj : b' = .hint j
  · subst hj
    rw [attach_link_self ha.loc_ne] at h3
    exact absurd h3.symm h4
  rw [attach_valid_of_ne hj] at hv
  by_cases hb : b' = b
  · subst hb
    rw [attach_link_parent] at h3
    by_cases hs : s' = s
    · subst hs
      rw [update_self] at h3
      exact .inl ⟨rfl, rfl, h3.symm⟩
    · rw [update_of_ne hs] at h3
      exact .inr ⟨hv, h1, h2, h3, h4⟩
  · rw [attach_link_of_ne hb hj] at h3
    exact .inr ⟨hv, h1, h2, h3, h4⟩

end

theorem Ok.attach (hok : Ok N B F idx msb own) (ha : CanAttach N F idx msb k b s hash j)
    (hp : OnPath N F (idx k) (msb k) b n) (hn : n + 1 ≤ B)
    (hfresh : ∀ b, F.valid b = true → own b ≠ k) :
    Ok N B (F.attach b s hash j) idx msb (update own (.hint j) k) := by
  have hold : ∀ {b'}, b' ≠ .hint j → (F.attach b s hash j).valid b' = true →
      F.valid b' = true := fun hb hv => (attach_valid_of_ne hb).symm.trans hv
  -- nothing led to a bucket that was not in use
  have hnew : ∀ {b' s' j'}, IsLink N F b' s' j' → j' ≠ j := by
    rintro b' s' j' hl rfl
    exact absurd ((hok.linkValid hl).symm.trans ha.unused) (by simp)
  refine ⟨fun b' hv => ?_, fun hl => ?_, fun hl hl' => ?_, fun {b1 b2} hv hv' ho => ?_,
    fun b' hv => ?_⟩
  · by_cases hj : b' = .hint j
    · subst hj
      rw [update_self]
      exact ⟨_, hn, hp.attach_new ha⟩
    · rw [update_of_ne hj]
      obtain ⟨n', hn', hp'⟩ := hok.path b' (hold hj hv)
      exact ⟨n', hn', hp'.attach ha⟩
  · rcases isLink_attach ha hl with ⟨-, -, rfl⟩ | hl
    · exact attach_valid_self
    · rw [attach_valid_of_ne (by simpa using hnew hl)]
      exact hok.linkValid hl
  · rcases isLink_attach ha hl with ⟨hb1, hs1, hj1⟩ | hold1 <;>
      rcases isLink_attach ha hl' with ⟨hb2, hs2, hj2⟩ | hold2
    · exact ⟨hb1.trans hb2.symm, hs1.trans hs2.symm⟩
    · exact absurd hj1 (hnew hold2)
    · exact absurd hj2 (hnew hold1)
    · exact hok.linkInj hold1 hold2
  · by_cases h₁ : b1 = .hint j <;> by_cases h₂ : b2 = .hint j
    · rw [h₁, h₂]
    · subst h₁
      rw [update_self, update_of_ne h₂] at ho
      exact absurd ho.symm (hfresh b2 (hold h₂ hv'))
    · subst h₂
      rw [update_self, update_of_ne h₁] at ho
      exact absurd ho (hfresh b1 (hold h₁ hv))
    · rw [update_of_ne h₁, update_of_ne h₂] at ho
      exact hok.ownInj (hold h₁ hv) (hold h₂ hv') ho
  · by_cases hj : b' = .hint j
    · subst hj
      rw [attach_link_self ha.loc_ne]
      exact moreOk_none
    by_cases hb : b' = b
    · subst hb
      rw [attach_link_parent]
      exact (hok.more b' ha.valid).set ha.slot
    · rw [attach_link_of_ne hb hj]
      exact hok.more b' (hold hj hv)

end Attach

/-! ### Unlinking a bucket -/

/-- Give up hint bucket `j` and empty slot `s` of `p`, leaving the hash `c` there. -/
def detach (F : Forest) (p : BucketLoc) (s c j : Nat) : Forest where
  valid := update F.valid (.hint j) false
  link := update F.link p (update (F.link p) s ⟨0, c⟩)

section Detach

variable {i h n s c j : Nat} {p b e : BucketLoc}

theorem valid_of_detach (hv : (F.detach p s c j).valid b = true) :
    F.valid b = true ∧ b ≠ .hint j := by
  by_cases hb : b = .hint j
  · subst hb
    exact absurd (hv.symm.trans (update_self _ _ _)) (by simp)
  · exact ⟨(update_of_ne hb _ _).symm.trans hv, hb⟩

theorem detach_valid_of_ne (hb : b ≠ .hint j) : (F.detach p s c j).valid b = F.valid b :=
  update_of_ne hb _ _

@[simp] theorem detach_link_parent : (F.detach p s c j).link p = update (F.link p) s ⟨0, c⟩ :=
  update_self _ _ _

theorem detach_link_of_ne (hb : b ≠ p) : (F.detach p s c j).link b = F.link b := update_of_ne hb _ _

/-- Unlinking a leaf disturbs no path but its own. -/
theorem OnPath.detach (hl : IsLink N F p s j) (hleaf : IsLeaf N F (.hint j))
    (hp : OnPath N F i h b n) (hb : b ≠ .hint j) : OnPath N (F.detach p s c j) i h b n := by
  induction hp with
  | root => exact .root
  | @step q _ s' _ _ hv hr hj hne ih =>
    have hq : q ≠ .hint j := by
      rintro rfl
      exact hleaf.not_isLink (isLink_of_route hv hr hj hne)
    have hv' : (F.detach p s c j).valid q = true := (detach_valid_of_ne hq).trans hv
    by_cases hqp : q = p
    · subst hqp
      have hs : s' ≠ s := by
        rintro rfl
        exact hb (by rw [← hj, hl.hint])
      refine .step (ih hq) hv' ?_ ?_ hne (s := s')
      · rw [detach_link_parent]
        exact route_clear hr hs
      · rw [detach_link_parent, update_of_ne hs, hj]
    · rw [← detach_link_of_ne (s := s) (c := c) (j := j) hqp] at hr hj
      exact .step (ih hq) hv' hr hj hne

theorem isLink_detach (hl : IsLink N (F.detach p s c j) b s' j') :
    IsLink N F b s' j' ∧ ¬ (b = p ∧ s' = s) := by
  obtain ⟨hvd, h1, h2, h3, h4⟩ := hl
  have hv := (valid_of_detach hvd).1
  by_cases hb : b = p
  · subst hb
    rw [detach_link_parent] at h3
    by_cases hs : s' = s
    · subst hs
      rw [update_self] at h3
      exact absurd h3.symm h4
    · rw [update_of_ne hs] at h3
      exact ⟨⟨hv, h1, h2, h3, h4⟩, fun h => hs h.2⟩
  · rw [detach_link_of_ne hb] at h3
    exact ⟨⟨hv, h1, h2, h3, h4⟩, fun h => hb h.1⟩

/-- **Unlinking a leaf**, after its owner has moved to `e`, a bucket above it
(or the leaf itself: then the owner is gone with it). -/
theorem Ok.detach (hok : Ok N B F idx msb own) (hl : IsLink N F p s j)
    (hleaf : IsLeaf N F (.hint j)) (hbel : Ok.Below N F e (.hint j)) :
    Ok N B (F.detach p s c j) idx msb (update own e (own (.hint j))) := by
  have hvj := hok.linkValid hl
  refine ⟨fun b hv => ?_, fun hl' => ?_, fun hl1 hl2 => ?_, fun {b1 b2} hv1 hv2 ho => ?_,
    fun b hv => ?_⟩
  · obtain ⟨hv, hbj⟩ := valid_of_detach hv
    by_cases hbe : b = e
    · subst hbe
      rw [update_self]
      obtain ⟨n, hn, hp⟩ := hok.path _ hvj
      obtain ⟨m, hm, hpm⟩ := hok.path_above hbel hp
      exact ⟨m, hm.trans hn, hpm.detach hl hleaf hbj⟩
    · rw [update_of_ne hbe]
      obtain ⟨n, hn, hp⟩ := hok.path b hv
      exact ⟨n, hn, hp.detach hl hleaf hbj⟩
  · obtain ⟨hold, hne⟩ := isLink_detach hl'
    rw [detach_valid_of_ne]
    · exact hok.linkValid hold
    · intro hjj
      rw [BucketLoc.hint.inj hjj] at hold
      exact hne (hok.linkInj hold hl)
  · exact hok.linkInj (isLink_detach hl1).1 (isLink_detach hl2).1
  · obtain ⟨hv1, hj1⟩ := valid_of_detach hv1
    obtain ⟨hv2, hj2⟩ := valid_of_detach hv2
    by_cases h₁ : b1 = e <;> by_cases h₂ : b2 = e
    · rw [h₁, h₂]
    · subst h₁
      rw [update_self, update_of_ne h₂] at ho
      exact absurd (hok.ownInj hvj hv2 ho).symm hj2
    · subst h₂
      rw [update_self, update_of_ne h₁] at ho
      exact absurd (hok.ownInj hv1 hvj ho) hj1
    · rw [update_of_ne h₁, update_of_ne h₂] at ho
      exact hok.ownInj hv1 hv2 ho
  · have hvb := (valid_of_detach hv).1
    by_cases hb : b = p
    · subst hb
      rw [detach_link_parent]
      exact (hok.more b hvb).clear s c
    · rw [detach_link_of_ne hb]
      exact hok.more b hvb

end Detach

/-! ### Numbers of buckets in use -/

/-- The number of valid buckets among `f 0 .. f (n - 1)`. -/
def count (F : Forest) (f : Nat → BucketLoc) (n : Nat) : Nat :=
  ((range n).filter fun i => F.valid (f i) = true).card

section Count

variable {i n s c hash j : Nat} {p b : BucketLoc} {f : Nat → BucketLoc} {F' : Forest}

theorem count_congr (h : ∀ i, F'.valid (f i) = F.valid (f i)) : F'.count f n = F.count f n := by
  unfold count
  simp only [h]

/-- Taking one bucket adds one. -/
theorem count_take (hi : i < n) (hfree : F.valid (f i) = false) (htake : F'.valid (f i) = true)
    (h : ∀ i', i' ≠ i → F'.valid (f i') = F.valid (f i')) : F'.count f n = F.count f n + 1 := by
  have hset : ((range n).filter fun i => F'.valid (f i) = true)
      = insert i ((range n).filter fun i => F.valid (f i) = true) := by
    ext x
    by_cases hx : x = i
    · subst hx
      simp [hi, htake]
    · simp [hx, h x hx]
  unfold count
  rw [hset, card_insert_of_notMem]
  simp [hfree]

/-- Giving up one bucket takes one away. -/
theorem count_drop (hi : i < n) (huse : F.valid (f i) = true) (hdrop : F'.valid (f i) = false)
    (h : ∀ i', i' ≠ i → F'.valid (f i') = F.valid (f i')) : F'.count f n + 1 = F.count f n :=
  (count_take hi hdrop huse fun i' hne => (h i' hne).symm).symm

theorem count_createRoot (hi : i < n) (hfree : F.valid (.main i) = false) :
    (F.createRoot i).count .main n = F.count .main n + 1 ∧
      ∀ m, (F.createRoot i).count .hint m = F.count .hint m := by
  refine ⟨count_take hi hfree (update_self _ _ _) fun i' hne => ?_,
    fun m => count_congr fun j => createRoot_valid_of_ne (by simp)⟩
  exact createRoot_valid_of_ne (by simpa using hne)

theorem count_dropRoot (hi : i < n) (huse : F.valid (.main i) = true) :
    (F.dropRoot i).count .main n + 1 = F.count .main n ∧
      ∀ m, (F.dropRoot i).count .hint m = F.count .hint m := by
  refine ⟨count_drop hi huse (update_self _ _ _) fun i' hne => ?_,
    fun m => count_congr fun j => dropRoot_valid_of_ne (by simp)⟩
  exact dropRoot_valid_of_ne (by simpa using hne)

theorem count_attach (hj : j < n) (hfree : F.valid (.hint j) = false) :
    (F.attach b s hash j).count .hint n = F.count .hint n + 1 ∧
      ∀ m, (F.attach b s hash j).count .main m = F.count .main m := by
  refine ⟨count_take hj hfree attach_valid_self fun j' hne => ?_,
    fun m => count_congr fun i => attach_valid_of_ne (by simp)⟩
  exact attach_valid_of_ne (by simpa using hne)

theorem count_detach (hj : j < n) (huse : F.valid (.hint j) = true) :
    (F.detach p s c j).count .hint n + 1 = F.count .hint n ∧
      ∀ m, (F.detach p s c j).count .main m = F.count .main m := by
  refine ⟨count_drop hj huse (update_self _ _ _) fun j' hne => ?_,
    fun m => count_congr fun i => detach_valid_of_ne (by simp)⟩
  exact detach_valid_of_ne (by simpa using hne)

/-- All valid buckets, counted. -/
theorem ncard_valid {m : Nat} (hmain : ∀ i, F.valid (.main i) = true → i < n)
    (hhint : ∀ j, F.valid (.hint j) = true → j < m) :
    {b | F.valid b = true}.ncard = F.count .main n + F.count .hint m := by
  have hset : {b | F.valid b = true} =
      (((range n).filter fun i => F.valid (.main i) = true).image BucketLoc.main ∪
        ((range m).filter fun j => F.valid (.hint j) = true).image BucketLoc.hint :
        Finset BucketLoc) := by
    ext b
    cases b with
    | main i => simpa using fun hv => hmain i hv
    | hint j => simpa using fun hv => hhint j hv
  have hdisj : Disjoint
      (((range n).filter fun i => F.valid (.main i) = true).image BucketLoc.main)
      (((range m).filter fun j => F.valid (.hint j) = true).image BucketLoc.hint) := by
    rw [disjoint_left]
    simp only [mem_image]
    rintro b ⟨i, -, rfl⟩ ⟨j, -, hj⟩
    cases hj
  rw [hset, Set.ncard_coe_finset, card_union_of_disjoint hdisj,
    card_image_of_injective _ fun _ _ h => BucketLoc.main.inj h,
    card_image_of_injective _ fun _ _ h => BucketLoc.hint.inj h]
  rfl

theorem ncard_valid_hint {m : Nat} (hhint : ∀ j, F.valid (.hint j) = true → j < m) :
    {j | F.valid (.hint j) = true}.ncard = F.count .hint m := by
  have hset : {j | F.valid (.hint j) = true} =
      ((range m).filter fun j => F.valid (.hint j) = true : Finset Nat) := by
    ext j
    simpa using fun hv => hhint j hv
  rw [hset, Set.ncard_coe_finset]
  rfl

end Count

end Forest

end NicSw
