/-
The tree for source addresses.

The end point of a rule is the first address after it, except in two cases.  A prefix that
reaches the last address ends at that address, which has no successor.  A range ends at its
own last address.  At these addresses the rule is closed, though it contains them
(`sip_classifies_iff`).

The agent does not compare the ends of a range.  If they are the wrong way round, the rule
contains nothing, but it is open from its start on.
-/
import NicSw.Rfc.Ports

namespace NicSw

variable {w : Nat}

/-- A prefix that is too long has the mask of the shortest one. -/
theorem IpPrefix.exists_len_le (p : IpPrefix w) :
    ∃ p' : IpPrefix w, p'.len ≤ w ∧ p'.ipLow = p.ipLow ∧ p'.ipNext = p.ipNext ∧
      ∀ a, p'.contains a ↔ p.contains a := by
  by_cases h : p.len ≤ w
  · exact ⟨p, h, rfl, rfl, fun _ => Iff.rfl⟩
  have hmask : ipPrefixLenToMask w p.len = ipPrefixLenToMask w 0 := by
    rw [ipPrefixLenToMask, if_pos (Nat.lt_of_not_le h), ipPrefixLenToMask,
      if_neg (Nat.not_lt_zero w), if_pos rfl]
  have hhigh : ipHigh ⟨p.addr, 0⟩ = p.ipHigh := by rw [ipHigh, ipHigh, hmask]
  refine ⟨⟨p.addr, 0⟩, Nat.zero_le w, ?_, ?_, fun a => ?_⟩
  · rw [ipLow, ipLow, hmask]
  · rw [ipNext, ipNext, hhigh]
  · rw [contains, contains, hmask]

/-- The end points of a prefix, and what it contains. -/
theorem IpPrefix.contains_iff_lt (p : IpPrefix w) (a : BitVec w) :
    (p.contains a ↔ p.ipLow.toNat ≤ a.toNat ∧ a.toNat < p.ipNext.toNat)
      ↔ ¬ (a = BitVec.allOnes w ∧ p.contains a) := by
  obtain ⟨p', hlen, hlow, hnext, hcontains⟩ := p.exists_len_le
  have hones : a = BitVec.allOnes w ↔ a.toNat = 2 ^ w - 1 := by
    rw [← BitVec.toNat_inj, BitVec.toNat_allOnes]
  rw [← hlow, ← hnext, ← hcontains, hones, IpPrefix.contains_iff hlen, ipNext_toNat hlen]
  omega

end NicSw

namespace NicSw.Rfc

variable {w : Nat}

/-- The addresses of a match, both ends of a range included. -/
def IpMatch.contains (m : IpMatch w) (a : BitVec w) : Bool :=
  match m with
  | .none => true
  | .pfx p => p.contains a
  | .range lo hi => lo ≤ a ∧ a ≤ hi
  | .tag _ => false

def Policy.sipTree (policy : Policy w) : Option RfcTree :=
  treeOf (slabsFor policy.maxRules) 256 (itable sipInodes policy.rules)

/-- Where a rule is open. -/
def sipOpens (rule : Rule w) (q : Nat) : Bool :=
  match rule.src with
  | .none => q < 2 ^ w - 1
  | .pfx p => p.ipLow.toNat ≤ q ∧ q < p.ipNext.toNat
  | .range lo hi => lo.toNat ≤ q ∧ (lo ≤ hi → q < hi.toNat)
  | .tag _ => false

theorem wellFormed_ipInodes (i : Nat) (m : IpMatch w) : WellFormed (ipInodes i m) := by
  cases m with
  | tag t => exact .inl rfl
  | none | pfx p | range lo hi => exact .inr (.inr ⟨_, _, rfl, rfl, rfl⟩)

theorem ipLow_le_ipNext (p : IpPrefix w) : p.ipLow.toNat ≤ p.ipNext.toNat := by
  obtain ⟨p', hlen, hlow, hnext, -⟩ := p.exists_len_le
  rw [← hlow, ← hnext, IpPrefix.ipNext_toNat hlen]
  omega

/-- The prefix of a rule without a match. -/
theorem ipLow_zero : (⟨0, 0⟩ : IpPrefix w).ipLow.toNat = 0 := by
  rw [IpPrefix.ipLow_toNat (Nat.zero_le w)]
  simp

theorem ipNext_zero : (⟨0, 0⟩ : IpPrefix w).ipNext.toNat = 2 ^ w - 1 := by
  rw [IpPrefix.ipNext_toNat (Nat.zero_le w), ipLow_zero, IpPrefix.size]
  simp

theorem opens_sip : Opens (fun _ : Rule w => True) sipInodes sipOpens where
  numbered := numbered_sip
  wellFormed i rule := wellFormed_ipInodes i rule.src
  opensAt i rule q _ := by
    rw [sipInodes, sipOpens]
    cases rule.src with
    | tag t => rfl
    | none =>
      refine decide_eq_decide.mpr ?_
      rw [ipLow_zero, ipNext_zero]
      dsimp only
      omega
    | pfx p =>
      have hle := ipLow_le_ipNext p
      refine decide_eq_decide.mpr ?_
      dsimp only
      omega
    | range lo hi =>
      refine decide_eq_decide.mpr ?_
      rw [BitVec.le_def]
      dsimp only
      omega

/-- The address `a` is classified as it should be by a rule with the match `m`. -/
def SrcRight (rules : List (Rule w)) (a : BitVec w) (m : IpMatch w) : Prop :=
  match m with
  | .none => a ≠ BitVec.allOnes w
  | .pfx p => ¬ (a = BitVec.allOnes w ∧ p.contains a)
  | .range lo hi =>
    if lo ≤ hi then a ≠ hi
    else a < lo ∧ ∃ x ∈ itable sipInodes rules, x.key ≤ a.toNat
  | .tag _ => True

instance (rules : List (Rule w)) (a : BitVec w) : (m : IpMatch w) → Decidable (SrcRight rules a m)
  | .none => inferInstanceAs (Decidable (_ ≠ _))
  | .pfx _ => inferInstanceAs (Decidable (¬ (_ ∧ _)))
  | .range lo hi => inferInstanceAs (Decidable
      (if lo ≤ hi then a ≠ hi else a < lo ∧ ∃ x ∈ itable sipInodes rules, x.key ≤ a.toNat))
  | .tag _ => inferInstanceAs (Decidable True)

theorem key_ipInodes_lt {i : Nat} {m : IpMatch w} {x : Inode} (h : x ∈ ipInodes i m) :
    x.key < 2 ^ w := by
  cases m with
  | tag t => cases h
  | none | pfx p | range lo hi =>
    rcases List.mem_cons.mp h with rfl | h
    · exact BitVec.isLt _
    · rw [List.mem_singleton.mp h]
      exact BitVec.isLt _

/-- Where an interval is found. -/
theorem sipOpens_found {rules : List (Rule w)} {rule : Rule w} {a : BitVec w}
    (hfound : ∃ x ∈ itable sipInodes rules, x.key ≤ a.toNat) :
    (sipOpens rule a.toNat = true ↔ rule.src.contains a = true) ↔ SrcRight rules a rule.src := by
  rw [sipOpens]
  cases rule.src with
  | tag t => exact iff_of_true Iff.rfl trivial
  | none =>
    have hones : a = BitVec.allOnes w ↔ a.toNat = 2 ^ w - 1 := by
      rw [← BitVec.toNat_inj, BitVec.toNat_allOnes]
    rw [decide_eq_true_iff, SrcRight, ne_eq, hones]
    refine ⟨fun h => ?_, fun h => iff_of_true ?_ rfl⟩
    · have := h.mpr rfl
      omega
    · omega
  | pfx p =>
    dsimp only [IpMatch.contains]
    rw [decide_eq_true_iff, decide_eq_true_iff, iff_comm (a := _ ∧ _)]
    exact p.contains_iff_lt a
  | range lo hi =>
    dsimp only [IpMatch.contains, SrcRight]
    rw [decide_eq_true_iff, decide_eq_true_iff]
    split
    · rename_i hle
      simp only [BitVec.le_def, ne_eq, ← BitVec.toNat_inj] at hle ⊢
      omega
    · rename_i hle
      simp only [and_iff_left hfound, BitVec.le_def, BitVec.lt_def] at hle ⊢
      omega

/-- The default: below all end points, a rule is open only if it is the wrong way round. -/
theorem sipOpens_default {rules : List (Rule w)} {rule : Rule w} (hrule : rule ∈ rules)
    {a : BitVec w} (hfound : ¬ ∃ x ∈ itable sipInodes rules, x.key ≤ a.toNat) :
    (sipOpens rule (2 ^ w - 1) = true ↔ rule.src.contains a = true)
      ↔ SrcRight rules a rule.src := by
  obtain ⟨i, hi⟩ := List.mem_iff_getElem?.mp hrule
  have hkeys : ∀ x ∈ ipInodes i rule.src, a.toNat < x.key := by
    intro x hx
    by_contra h
    exact hfound ⟨x, mem_itable_of hi hx, Nat.le_of_not_lt h⟩
  rw [sipOpens]
  cases hsrc : rule.src with
  | tag t => exact iff_of_true Iff.rfl trivial
  | none =>
    rw [hsrc] at hkeys
    have h := hkeys _ List.mem_cons_self
    rw [ipLow_zero] at h
    cases h
  | pfx p =>
    rw [hsrc] at hkeys
    have hlow : a.toNat < p.ipLow.toNat := hkeys _ List.mem_cons_self
    have hnot : ¬ p.contains a := by
      obtain ⟨p', hlen, hlow', -, hcontains⟩ := p.exists_len_le
      rw [← hcontains, IpPrefix.contains_iff hlen, hlow']
      omega
    dsimp only [IpMatch.contains]
    rw [decide_eq_true_iff, decide_eq_true_iff]
    refine iff_of_true (iff_of_false (by omega) hnot) fun h => hnot h.2
  | range lo hi =>
    rw [hsrc] at hkeys
    have hlo : a.toNat < lo.toNat := hkeys _ List.mem_cons_self
    dsimp only [IpMatch.contains, SrcRight]
    rw [decide_eq_true_iff, decide_eq_true_iff]
    split
    · rename_i hle
      simp only [BitVec.le_def, ne_eq, ← BitVec.toNat_inj] at hle ⊢
      omega
    · rename_i hle
      refine iff_of_false ?_ fun h => hfound h.2
      simp only [BitVec.le_def] at hle ⊢
      omega

/-- **Source addresses.**  An address is classified by the rules that contain it if and only if
the classes fit, it is not the last address of a range, nor the last one of all if a prefix
contains that, and no range is the wrong way round. -/
theorem sip_classifies_iff {policy : Policy w} (hlen : policy.rules.length ≤ policy.maxRules)
    (a : BitVec w) :
    Classifies policy.sipTree policy.rules a.toNat (fun rule => rule.src.contains a = true)
      ↔ classCount sipInodes sipOpens policy.rules ≤ rfcMaxEqClasses ∧
        ∀ rule ∈ policy.rules, SrcRight policy.rules a rule.src := by
  have hM : ∀ x ∈ itable sipInodes policy.rules, x.key ≤ 2 ^ w - 1 := by
    intro x hx
    obtain ⟨i, rule, -, hx⟩ := mem_itable hx
    exact Nat.le_sub_one_of_lt (key_ipInodes_lt hx)
  rw [Policy.sipTree, classifies_iff opens_sip (fun _ _ => trivial)
    (hlen.trans (le_slabsFor _)) hM, probe]
  refine and_congr_right fun _ => forall₂_congr fun rule hrule => ?_
  split
  · rename_i hfound
    exact sipOpens_found hfound
  · rename_i hfound
    exact sipOpens_default hrule hfound

/-- A policy of one rule, with its source. -/
def sipPolicy (src : IpMatch 32) : Policy 32 where
  maxRules := maxRulesV4
  defaultAction := .deny
  rules := [{ ipProto := none, src := src, dst := .none, l4Match := itableUpdateL4Any,
              priority := 0, action := .deny }]

theorem sip_classifies_inRange :
    Classifies (sipPolicy (.range 0x0a000001 0x0a000005)).sipTree
      (sipPolicy (.range 0x0a000001 0x0a000005)).rules 0x0a000004
      fun rule => rule.src.contains 0x0a000004 = true :=
  (sip_classifies_iff (by decide) 0x0a000004).mpr
    ⟨by decide, fun rule hrule => by rw [List.mem_singleton.mp hrule]; decide⟩

/-- Address 10.0.0.5 does not get the rule for 10.0.0.1 to 10.0.0.5. -/
theorem not_sip_classifies_lastInRange :
    ¬ Classifies (sipPolicy (.range 0x0a000001 0x0a000005)).sipTree
      (sipPolicy (.range 0x0a000001 0x0a000005)).rules 0x0a000005
      fun rule => rule.src.contains 0x0a000005 = true := by
  exact @not_classifies 32 _ _ 0x0a000005 0 _ false (by decide) _ rfl (by decide)

end NicSw.Rfc
