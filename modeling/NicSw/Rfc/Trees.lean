/-
The trees of phase 0: an interval table is sorted, swept and searched
(`rfc_sort_itables`, `rfc_compute_p0_itree_classes`, `rfc_build_lpm_tree`).

What a tree gives for a key is the bitmap of the rules that are open there.  Below the first
key there is no interval, and `rfc_build_lpm_tree` installs the class of the last one, so a
key there is looked up as if it were above all (`treeOf_spec`).

A rule has at most two end points in a table, and is open from its start to its end
(`opensAt`).  A tree is therefore right for a key if and only if its classes fit, and each rule
is open there just when it should be (`classifies_iff`).

The trees of a policy are computed one after the other, up to the first one that exceeds its
limits (`rfc_compute_p0_classes`).  The policy is not refused for it, so the others stay without
rules (`classifies_tree_iff`).
-/
import NicSw.Rfc.Classes

namespace NicSw.Rfc

open RteBitmap Inode

variable {w n : Nat}

/-- `rfc_tree_t` after its classes have been computed. -/
structure RfcTree where
  intervals : List Interval
  rfcTable : RfcTable
  deriving DecidableEq, Repr

/-- `rfc_compute_p0_itree_classes`, after `rfc_sort_itables`. -/
def rfcComputeP0ItreeClasses (cb : RfcTable → RteBitmap → Inode → Option (Nat × RfcTable))
    (n maxClasses : Nat) (inodes : List Inode) : Option RfcTree :=
  (classesLoop cb (sortByKey key inodes) (reset n) ⟨maxClasses, []⟩).map fun r => ⟨r.1, r.2⟩

/-- `rfc_policy_add_defaults`, for one tree. -/
def RfcTree.addDefaults (n : Nat) (tree : RfcTree) : RfcTree :=
  if tree.intervals = [] then { tree with rfcTable := rfcTreeAddDefaults n tree.rfcTable }
  else tree

/-- The default of `rfc_build_lpm_tree`: the class of the last interval. -/
def RfcTree.default (tree : RfcTree) : Nat :=
  (tree.intervals.getLast?.map Interval.classId).getD 0

/-- The class that the tree gives for a key. -/
def RfcTree.classAt (tree : RfcTree) (q : Nat) : Nat :=
  predLookup Interval.key Interval.classId tree.default tree.intervals q

/-- The bitmap of that class. -/
def RfcTree.bitmapAt (tree : RfcTree) (q : Nat) : Option RteBitmap :=
  tree.rfcTable.cbmOf (tree.classAt q)

/-- A tree whose classes are given by `rfc_compute_class_id_cb`. -/
def treeOf (n maxClasses : Nat) (inodes : List Inode) : Option RfcTree :=
  (rfcComputeP0ItreeClasses (classIdCb n) n maxClasses inodes).map (RfcTree.addDefaults n)

/-! ### The trees of a policy -/

/-- The source or the destination tags of a policy. -/
inductive TagSide
  | src
  | dst
  deriving DecidableEq, Repr

def TagSide.ipMatch : TagSide → Rule w → IpMatch w
  | .src, rule => rule.src
  | .dst, rule => rule.dst

/-- The tag of a match. -/
def IpMatch.tag? : IpMatch w → Option (BitVec 32)
  | .tag t => some t
  | _ => Option.none

/-- `PDS_IMPL_RSVD_MAPPING_CLASS_ID`. -/
def rsvdMappingClassId : Nat := 511

/-- The tag of rule `i`. -/
def tagAt (side : TagSide) (rules : List (Rule w)) (i : Nat) : Option (BitVec 32) :=
  rules[i]?.bind fun rule => (side.ipMatch rule).tag?

section Callback

variable (n : Nat) (rules : List (Rule w)) (side : TagSide) (tag2class : BitVec 32 → Option Nat)

/-- The class of the tag of a node. -/
def tagClassOf (inode : Inode) : Option Nat := (tagAt side rules inode.ruleNo).bind tag2class

/-- The reserved class, with no rule, comes first. -/
def addRsvd (t : RfcTable) : RfcTable :=
  if t.numClasses = 0 then
    { t with cbmTable := t.cbmTable ++ [⟨rsvdMappingClassId, reset n⟩] }
  else t

/-- `rfc_compute_tag_class_id_cb`. -/
def rfcComputeTagClassIdCb (t : RfcTable) (cbm : RteBitmap) (inode : Inode) :
    Option (Nat × RfcTable) :=
  if cbm.scan cbm.length = none then some (rsvdMappingClassId, addRsvd n t)
  else do
    let classId ← tagClassOf rules side tag2class inode
    some (classId, { addRsvd n t with
      cbmTable := (addRsvd n t).cbmTable ++ [⟨classId, cbm.or (reset n)⟩] })

end Callback

/-- `rfc_tree_type_t`. -/
inductive RfcTreeType
  | sip
  | dip
  | stag
  | dtag
  | port
  | protoPort
  deriving DecidableEq, Repr

def TagSide.type : TagSide → RfcTreeType
  | .src => .stag
  | .dst => .dtag

namespace RfcTreeType

def inodes : RfcTreeType → Nat → Rule w → List Inode
  | .sip => sipInodes
  | .dip => dipInodes
  | .stag => stagInodes
  | .dtag => dtagInodes
  | .port => portInodes
  | .protoPort => protoPortInodes

/-- `max_classes` of the table. -/
def maxClasses : RfcTreeType → Nat
  | .sip | .dip | .protoPort => 256
  | .stag | .dtag => 512
  | .port => 128

/-- `max_tree_nodes`. -/
def maxTreeNodes : RfcTreeType → Nat
  | .sip | .dip | .protoPort => 2047
  | .stag | .dtag => 512
  | .port => 511

/-- The trees that `rfc_compute_p0_classes` computes before. -/
def before (type : RfcTreeType) : List RfcTreeType :=
  [sip, stag, dip, dtag, port, protoPort].takeWhile (· ≠ type)

end RfcTreeType

/-- The checks at the end of `rfc_compute_p0_itree_classes`. -/
def RfcTree.withinLimits (maxTreeNodes : Nat) (tree : RfcTree) : Bool :=
  tree.intervals.length ≤ maxTreeNodes ∧ tree.rfcTable.numClasses ≤ tree.rfcTable.maxClasses

section Policy

variable (policy : Policy w) (tag2class : BitVec 32 → Option Nat)

/-- The callback for the classes of a tree. -/
def Policy.classIdCb : RfcTreeType → RfcTable → RteBitmap → Inode → Option (Nat × RfcTable)
  | .stag => rfcComputeTagClassIdCb (slabsFor policy.maxRules) policy.rules .src tag2class
  | .dtag => rfcComputeTagClassIdCb (slabsFor policy.maxRules) policy.rules .dst tag2class
  | _ => Rfc.classIdCb (slabsFor policy.maxRules)

/-- `rfc_compute_p0_itree_classes` for a tree of the policy. -/
def Policy.computeTree (type : RfcTreeType) : Option RfcTree :=
  rfcComputeP0ItreeClasses (policy.classIdCb tag2class type) (slabsFor policy.maxRules)
    type.maxClasses (itable type.inodes policy.rules)

/-- `rfc_compute_p0_classes` on some trees: is its result `SDK_RET_OK`? -/
def Policy.rfcComputeP0Classes : List RfcTreeType → Option Bool
  | [] => some true
  | type :: types => do
    let tree ← policy.computeTree tag2class type
    if tree.withinLimits type.maxTreeNodes then rfcComputeP0Classes types else some false

/-- A tree of the policy, with the defaults.  `rfc_policy_create` does not look at the result of
`rfc_compute_p0_classes`; after a tree that exceeds a limit, the others are left empty. -/
def Policy.tree (type : RfcTreeType) : Option RfcTree := do
  let ok ← policy.rfcComputeP0Classes tag2class type.before
  let tree ← if ok then policy.computeTree tag2class type else some ⟨[], ⟨type.maxClasses, []⟩⟩
  some (tree.addDefaults (slabsFor policy.maxRules))

variable {policy tag2class} {type : RfcTreeType}

end Policy

/-! ### What a tree gives -/

section Tree

variable {maxClasses : Nat} {inodes : List Inode} {q : Nat}

/-- The rules that are open at `q`, as a bitmap. -/
def openBitmap (n : Nat) (inodes : List Inode) (q : Nat) : RteBitmap :=
  stateAt key toggle (reset n) inodes q

/-- The bitmaps at the end points. -/
def bitmaps (n : Nat) (inodes : List Inode) : Finset RteBitmap :=
  (inodes.map fun x => openBitmap n inodes x.key).toFinset

@[simp] theorem length_toggle (cbm : RteBitmap) (x : Inode) :
    (toggle cbm x).length = cbm.length := by
  rw [toggle]
  split <;> simp

theorem length_foldl_toggle (inodes : List Inode) (cbm : RteBitmap) :
    (inodes.foldl toggle cbm).length = cbm.length := by
  induction inodes generalizing cbm with
  | nil => rfl
  | cons x xs ih => rw [List.foldl_cons, ih, length_toggle]

@[simp] theorem length_openBitmap : (openBitmap n inodes q).length = n := by
  rw [openBitmap, stateAt, length_foldl_toggle, length_reset]

/-- What the sweep emits. -/
theorem bitmapsOf_sweep :
    bitmapsOf Prod.snd (sweep key toggle (sortByKey key inodes) (reset n)) = bitmaps n inodes := by
  ext b
  simp only [bitmapsOf, bitmaps, List.mem_toFinset, List.mem_map]
  constructor
  · rintro ⟨x, hx, rfl⟩
    exact ⟨x.1, mem_sortByKey.mp (mem_of_mem_sweep hx), (snd_of_mem_sweep hx).symm⟩
  · rintro ⟨x, hx, rfl⟩
    obtain ⟨y, hy, hkey⟩ : ∃ y ∈ sweep key toggle (sortByKey key inodes)
        (reset n), y.1.key = x.key :=
      exists_mem_sweep (mem_sortByKey.mpr hx) (reset n)
    exact ⟨y, hy, by rw [snd_of_mem_sweep hy, hkey, openBitmap]⟩

/-- The table before the first class. -/
theorem good_empty : (⟨maxClasses, []⟩ : RfcTable).Good := ⟨by simp, List.nodup_nil, Nat.zero_le _⟩

theorem length_of_mem_sweep {x : Inode × RteBitmap}
    (hx : x ∈ sweep key toggle (sortByKey key inodes) (reset n)) :
    x.2.length = n := by
  rw [snd_of_mem_sweep hx]
  exact length_openBitmap

/-- What a tree gives, once its intervals have the classes of a sweep. -/
theorem bitmapAt_of_assigned {tree : RfcTree} {M : Nat} (hM : ∀ x ∈ inodes, x.key ≤ M)
    (hne : tree.intervals ≠ [])
    (h : Assigned Prod.snd (fun x classId => ⟨x.1.key, classId⟩) tree.rfcTable tree.intervals
      (sweep key toggle (sortByKey key inodes) (reset n))) (q : Nat) :
    tree.bitmapAt q = some (openBitmap n inodes (if ∃ x ∈ inodes, x.key ≤ q then q else M)) := by
  generalize hsw : sweep key toggle (sortByKey key inodes) (reset n) = sw at h
  have lookup : ∀ d q, tree.rfcTable.cbmOf
      (predLookup Interval.key Interval.classId d tree.intervals q)
        = predLookup (fun x => x.1.key) (fun x => some x.2) (tree.rfcTable.cbmOf d) sw q := by
    refine predLookup_forall₂ (h.imp fun y x hyx => ?_)
    obtain ⟨id, rfl, hof⟩ := hyx
    exact ⟨rfl, hof⟩
  have state : ∀ b q, predLookup (fun x => x.1.key) (fun x => some x.2) (some b) sw q
      = some (if ∃ x ∈ inodes, x.key ≤ q then openBitmap n inodes q else b) := by
    intro b q
    rw [predLookup_some, ← hsw]
    exact congrArg some (predLookup_sweep_sortByKey ..)
  have hsub : ∀ x ∈ sw, x.1 ∈ inodes := fun x hx =>
    mem_sortByKey.mp (mem_of_mem_sweep (hsw ▸ hx))
  -- the default is the class of the last interval, which a key above all would find
  have hdefault : tree.rfcTable.cbmOf tree.default = some (openBitmap n inodes M) := by
    have hkeys : ∀ x ∈ tree.intervals, x.key ≤ M := by
      intro x hx
      obtain ⟨y, hy, id, rfl, -⟩ := h.exists_mem x hx
      exact hM y.1 (hsub y hy)
    have hfound := state (reset n) M
    rw [predLookup_of_le fun x hx => hM x.1 (hsub x hx)] at hfound
    rw [RfcTree.default, ← predLookup_of_le hkeys, lookup,
      predLookup_of_le fun x hx => hM x.1 (hsub x hx)]
    cases hlast : sw.getLast? with
    | none =>
      rw [List.getLast?_eq_none_iff.mp hlast] at h
      exact absurd (List.forall₂_nil_right_iff.mp h) hne
    | some y =>
      have hy : y ∈ sw := List.mem_of_getLast? hlast
      rw [hlast, if_pos ⟨y.1, hsub y hy, hM y.1 (hsub y hy)⟩] at hfound
      exact hfound
  rw [RfcTree.bitmapAt, RfcTree.classAt, lookup, hdefault, state, apply_ite (openBitmap n inodes)]

/-- **What a tree gives** for a key: the rules open there, and below the first key the rules
open after the last one. -/
theorem treeOf_spec {M : Nat} (hM : ∀ x ∈ inodes, x.key ≤ M) :
    (bitmaps n inodes).card ≤ rfcMaxEqClasses ∧
        (∃ tree, treeOf n maxClasses inodes = some tree ∧ ∀ q, tree.bitmapAt q
          = some (openBitmap n inodes (if ∃ x ∈ inodes, x.key ≤ q then q else M))) ∨
      rfcMaxEqClasses < (bitmaps n inodes).card ∧ treeOf n maxClasses inodes = none := by
  have hspec := @runCb_classId _ _ (sweep key toggle (sortByKey key inodes) (reset n)) n Prod.snd
    (fun x classId => Interval.mk x.1.key classId) _
    (@good_empty maxClasses) fun x hx => length_of_mem_sweep hx
  have hempty : (⟨maxClasses, []⟩ : RfcTable).cbms = ∅ := rfl
  rw [bitmapsOf_sweep, hempty, Finset.empty_union] at hspec
  rw [treeOf, rfcComputeP0ItreeClasses, classesLoop_eq, assignClasses_classIdCb]
  rcases hspec with ⟨hle, ns, t, hrun, hgood, _, _, _, has⟩ | ⟨hlt, hrun⟩
  · refine .inl ⟨hle, _, by rw [hrun]; rfl, fun q => ?_⟩
    rw [RfcTree.addDefaults]
    split
    · -- no interval: the default class is the empty bitmap
      rename_i hns
      subst hns
      have hnil : inodes = [] := by
        refine List.eq_nil_iff_forall_not_mem.mpr fun x hx => ?_
        obtain ⟨y, hy, -⟩ : ∃ y ∈ sweep key toggle (sortByKey key inodes)
            (reset n), y.1.key = x.key :=
          exists_mem_sweep (mem_sortByKey.mpr hx) (reset n)
        rw [List.forall₂_nil_left_iff.mp has] at hy
        cases hy
      subst hnil
      obtain rfl : (⟨maxClasses, []⟩ : RfcTable) = t := congrArg Prod.snd (Option.some.inj hrun)
      rfl
    · rename_i hns
      exact bitmapAt_of_assigned hM hns has q
  · exact .inr ⟨hlt, by rw [hrun]; rfl⟩

end Tree

/-! ### Rules that are open -/

/-- The end points of a rule: a start, and an end if there is one. -/
def WellFormed (xs : List Inode) : Prop :=
  xs = [] ∨ (∃ a, xs = [a] ∧ a.start = true) ∨ ∃ a b, xs = [a, b] ∧ a.start = true ∧ b.start = false

/-- Between its end points a rule is open.  If the end comes first, it is the start that
lasts. -/
def opensAt : List Inode → Nat → Bool
  | [], _ => false
  | [a], q => a.key ≤ q
  | a :: b :: _, q => a.key ≤ q ∧ ¬ (a.key ≤ b.key ∧ b.key ≤ q)

/-- The nodes of a table open valid rules where `opens` says. -/
structure Opens (Valid : Rule w → Prop) (inodes : Nat → Rule w → List Inode)
    (opens : Rule w → Nat → Bool) : Prop where
  numbered : Numbered inodes
  wellFormed : ∀ i rule, WellFormed (inodes i rule)
  opensAt : ∀ i rule q, Valid rule → opensAt (inodes i rule) q = opens rule q

/-- The rules that are open at `q`. -/
def openRules (opens : Rule w → Nat → Bool) (rules : List (Rule w)) (q : Nat) : Finset Nat :=
  (Finset.range rules.length).filter fun i => rules[i]?.any (opens · q)

/-- The number of different sets of open rules at the end points. -/
def classCount (inodes : Nat → Rule w → List Inode) (opens : Rule w → Nat → Bool)
    (rules : List (Rule w)) : Nat :=
  (((itable inodes rules).map key).toFinset.image (openRules opens rules)).card

/-- Nodes set and clear the bit of their rule. -/
theorem marking_toggle :
    Marking toggle ruleNo start test (fun b => b.length = n) fun x => x.ruleNo < 64 * n where
  keep b x hb _ := by rw [length_toggle, hb]
  mark b x i hb hx := by
    rw [toggle]
    cases hstart : x.start with
    | true =>
      rw [if_pos rfl, test_set (hb.symm ▸ hx)]
      by_cases h : x.ruleNo = i
      · rw [if_pos h, decide_eq_true h.symm, Bool.true_or]
      · rw [if_neg h, decide_eq_false (Ne.symm h), Bool.false_or]
    | false =>
      rw [if_neg Bool.false_ne_true, test_clear]
      by_cases h : x.ruleNo = i
      · rw [if_pos h, decide_eq_true h.symm, Bool.not_true, Bool.false_and]
      · rw [if_neg h, decide_eq_false (Ne.symm h), Bool.not_false, Bool.true_and]

section Opens

variable {Valid : Rule w → Prop} {inodes : Nat → Rule w → List Inode}
  {opens : Rule w → Nat → Bool} {rules : List (Rule w)}

theorem Numbered.lt (hn : Numbered inodes) (hlen : rules.length ≤ 64 * n) :
    ∀ x ∈ itable inodes rules, x.ruleNo < 64 * n := by
  intro x hx
  obtain ⟨i, rule, hrule, hx⟩ := mem_itable hx
  rw [hn i rule x hx]
  exact lt_of_lt_of_le (List.getElem?_eq_some_iff.mp hrule).1 hlen

/-- **The bitmap at `q`** has the bits of the rules that are open there. -/
theorem test_openBitmap (ho : Opens Valid inodes opens) (hv : ∀ rule ∈ rules, Valid rule)
    (hlen : rules.length ≤ 64 * n) (q i : Nat) :
    (openBitmap n (itable inodes rules) q).test i = rules[i]?.any (opens · q) := by
  have hxs := ho.numbered.lt hlen
  have hlen0 : (reset n).length = n := length_reset
  have hnodes := filter_itable ho.numbered rules i
  cases hrule : rules[i]? with
  | none =>
    rw [hrule] at hnodes
    exact marking_toggle.nil hlen0 hxs hnodes test_reset
  | some rule =>
    rw [hrule] at hnodes
    change _ = inodes i rule at hnodes
    change _ = opens rule q
    rw [← ho.opensAt i rule q (hv rule (List.mem_of_getElem? hrule))]
    rcases ho.wellFormed i rule with h | ⟨a, h, ha⟩ | ⟨a, b, h, ha, hb⟩
    · rw [h] at hnodes ⊢
      exact marking_toggle.nil hlen0 hxs hnodes test_reset
    · rw [h] at hnodes ⊢
      exact marking_toggle.single hlen0 hxs hnodes ha test_reset
    · rw [h] at hnodes ⊢
      exact marking_toggle.pair hlen0 hxs hnodes ha hb test_reset

theorem mem_openRules {q i : Nat} :
    i ∈ openRules opens rules q ↔ rules[i]?.any (opens · q) = true := by
  rw [openRules, Finset.mem_filter, Finset.mem_range, and_iff_right_iff_imp]
  intro h
  by_contra hi
  rw [List.getElem?_eq_none (Nat.le_of_not_lt hi)] at h
  cases h

/-- Two end points have the same bitmap if the same rules are open there. -/
theorem openBitmap_eq_iff (ho : Opens Valid inodes opens) (hv : ∀ rule ∈ rules, Valid rule)
    (hlen : rules.length ≤ 64 * n) (q q' : Nat) :
    openBitmap n (itable inodes rules) q = openBitmap n (itable inodes rules) q'
      ↔ openRules opens rules q = openRules opens rules q' := by
  constructor
  · intro h
    ext i
    rw [mem_openRules, mem_openRules, ← test_openBitmap ho hv hlen, ← test_openBitmap ho hv hlen, h]
  · intro h
    refine eq_of_test (by simp) fun i => ?_
    rw [test_openBitmap ho hv hlen, test_openBitmap ho hv hlen, Bool.eq_iff_iff, ← mem_openRules,
      ← mem_openRules, h]

/-- A function that is constant where `f` is has no more values than `f`. -/
theorem card_image_le_of_fibres {α β γ : Type} [DecidableEq β] [DecidableEq γ] {f : α → β}
    {g : α → γ} (h : ∀ x y, f x = f y → g x = g y) (s : Finset α) :
    (s.image g).card ≤ (s.image f).card := by
  have hinj : Set.InjOn Prod.fst ((s.image fun x => (f x, g x) : Finset (β × γ)) : Set (β × γ)) := by
    intro a ha b hb hab
    obtain ⟨x, -, rfl⟩ := Finset.mem_image.mp (Finset.mem_coe.mp ha)
    obtain ⟨y, -, rfl⟩ := Finset.mem_image.mp (Finset.mem_coe.mp hb)
    exact Prod.ext hab (h x y hab)
  calc (s.image g).card
      = ((s.image fun x => (f x, g x)).image Prod.snd).card := by rw [Finset.image_image]; rfl
    _ ≤ (s.image fun x => (f x, g x)).card := Finset.card_image_le
    _ = ((s.image fun x => (f x, g x)).image Prod.fst).card :=
        (Finset.card_image_of_injOn hinj).symm
    _ = (s.image f).card := by rw [Finset.image_image]; rfl

theorem card_bitmaps (ho : Opens Valid inodes opens) (hv : ∀ rule ∈ rules, Valid rule)
    (hlen : rules.length ≤ 64 * n) :
    (bitmaps n (itable inodes rules)).card = classCount inodes opens rules := by
  have himage : bitmaps n (itable inodes rules)
      = ((itable inodes rules).map key).toFinset.image (openBitmap n (itable inodes rules)) := by
    ext b
    simp [bitmaps]
  rw [himage, classCount]
  have hfibres := @openBitmap_eq_iff w n Valid inodes opens rules ho hv hlen
  exact le_antisymm (card_image_le_of_fibres (fun q q' => (hfibres q q').mpr) _)
    (card_image_le_of_fibres (fun q q' => (hfibres q q').mp) _)

end Opens

/-! ### When a tree is right -/

/-- A tree gives, for `q`, the bitmap of the rules for which `Q` holds. -/
def Classifies (tree : Option RfcTree) (rules : List (Rule w)) (q : Nat) (Q : Rule w → Prop) :
    Prop :=
  ∃ t bm, tree = some t ∧ t.bitmapAt q = some bm ∧
    ∀ i, bm.test i = true ↔ ∃ rule, rules[i]? = some rule ∧ Q rule

/-- Where `q` is looked up: a key below the first interval is as one above the last. -/
def probe (inodes : List Inode) (M q : Nat) : Nat := if ∃ x ∈ inodes, x.key ≤ q then q else M

section Right

variable {maxClasses : Nat} {Valid : Rule w → Prop} {inodes : Nat → Rule w → List Inode}
  {opens : Rule w → Nat → Bool} {rules : List (Rule w)}

/-- **When a tree is right**: its classes fit, and each rule is open where it should be. -/
theorem classifies_iff (ho : Opens Valid inodes opens) (hv : ∀ rule ∈ rules, Valid rule)
    (hlen : rules.length ≤ 64 * n) {M : Nat} (hM : ∀ x ∈ itable inodes rules, x.key ≤ M) (q : Nat)
    (Q : Rule w → Prop) : Classifies (treeOf n maxClasses (itable inodes rules)) rules q Q
      ↔ classCount inodes opens rules ≤ rfcMaxEqClasses ∧
        ∀ rule ∈ rules, opens rule (probe (itable inodes rules) M q) = true ↔ Q rule := by
  rw [← card_bitmaps ho hv hlen]
  have hspec := @treeOf_spec n maxClasses (itable inodes rules) M hM
  have htest : ∀ i, (openBitmap n (itable inodes rules)
      (probe (itable inodes rules) M q)).test i = true
        ↔ ∃ rule, rules[i]? = some rule ∧ opens rule (probe (itable inodes rules) M q) = true := by
    intro i
    rw [test_openBitmap ho hv hlen, Option.any_eq_true]
  constructor
  · rintro ⟨t, bm, htree, hbm, hQ⟩
    rcases hspec with ⟨hle, t', htree', hbm'⟩ | ⟨_, htree'⟩
    · cases htree.symm.trans htree'
      cases hbm.symm.trans (hbm' q)
      refine ⟨hle, fun rule hrule => ?_⟩
      obtain ⟨i, hi⟩ := List.mem_iff_getElem?.mp hrule
      have hbits := (htest i).symm.trans (hQ i)
      simpa [hi] using hbits
    · rw [htree'] at htree
      cases htree
  · rintro ⟨hle, hrules⟩
    rcases hspec with ⟨_, t, htree, hbm⟩ | ⟨hlt, _⟩
    · refine ⟨t, _, htree, hbm q, fun i => (htest i).trans ?_⟩
      refine exists_congr fun rule => and_congr_right fun hi => ?_
      exact hrules rule (List.mem_of_getElem? hi)
    · exact absurd hle (Nat.not_le_of_lt hlt)

/-- A bit that is wrong. -/
theorem not_classifies {tree : Option RfcTree} {q i : Nat} {Q : Rule w → Prop} {bit : Bool}
    (hbit : (tree.bind (RfcTree.bitmapAt · q)).map (test · i) = some bit)
    {rule : Rule w} (hi : rules[i]? = some rule) (hQ : ¬ (bit = true ↔ Q rule)) :
    ¬ Classifies tree rules q Q := by
  rintro ⟨t, bm, rfl, hbm, htest⟩
  rw [Option.bind_some, hbm] at hbit
  cases hbit
  exact hQ ((htest i).trans (by simp [hi]))

end Right

end NicSw.Rfc
