/-
The security groups of a flow.

For endpoints with groups the check asks the classifier about one key for each pair of
positions, but takes both groups from the first of them: the destination's group is the one
in the source's place.  And the fields of the groups are ranges that end at the highest
number, so that a rule for a group is hit by all higher ones as well (`Reads`).
-/
import NicSw.Sfw.Policy

namespace NicSw.Sfw

open NicSw.Acl List

/-! ### The check -/

/-- The groups of an endpoint; beyond the count stands what the array was left with. -/
structure Sgs where
  sgIdCnt : Nat
  arrSgId : Nat → BitVec 32

/-- The key of a flow, with its groups. -/
def Ipv4Tuple.withSgs (t : Ipv4Tuple) (src dst : BitVec 32) : Ipv4Tuple :=
  { t with srcSg := src, dstSg := dst }

/-- The classifier with the rules of a policy, each with its priority. -/
def ruleDb (policy : List (RuleMatch × Nat)) : Ctx ipAclConfig :=
  (processRules Ctx.create (policy.flatMap fun e => expand e.1 e.2 e.2)).2

/-- `net_sfw_check_security_policy` up to `end_match`: the rule that is found for a flow, whose
key is `t` but for the groups. -/
def checkSecurityPolicy (policy : List (RuleMatch × Nat)) (t : Ipv4Tuple) :
    Option Sgs → Option Sgs → Option (Rule ipAclConfig)
  | some sep, some dep =>
    if sep.sgIdCnt = 0 ∧ dep.sgIdCnt = 0 then (ruleDb policy).classify (t.withSgs 0 0).key
    else
      (List.range sep.sgIdCnt).findSome? fun i => (List.range dep.sgIdCnt).findSome? fun _ =>
        -- the group of the destination is not the one at `j`
        (ruleDb policy).classify (t.withSgs (sep.arrSgId i) (dep.arrSgId i)).key
  | _, _ => (ruleDb policy).classify (t.withSgs 0 0).key

/-! ### What a rule means -/

/-- The conditions of a rule other than those on groups hold. -/
def RuleMatch.Others (m : RuleMatch) (t : Ipv4Tuple) : Prop :=
  ∃ r ∈ expand { m with srcSgList := [], dstSgList := [] } 0 0, ruleMatch ipAclConfig r t.key = true

/-- A rule names a group, or leaves it open. -/
def Names (l : List (BitVec 32)) (g : BitVec 32) : Prop := l = [] ∨ 0 ∈ l ∨ g ∈ l

/-- What the classifier takes for it. -/
def Reads (l : List (BitVec 32)) (g : BitVec 32) : Prop := l = [] ∨ ∃ x ∈ l, x ≤ g

/-- A rule whose other conditions hold names a group of each endpoint. -/
def Named (policy : List (RuleMatch × Nat)) (t : Ipv4Tuple) (sep dep : Sgs) : Prop :=
  ∃ e ∈ policy, e.1.Others t ∧ (∃ i < sep.sgIdCnt, Names e.1.srcSgList (sep.arrSgId i)) ∧
    ∃ j < dep.sgIdCnt, Names e.1.dstSgList (dep.arrSgId j)

/-- A rule whose other conditions hold has, for a position, no group above those that the two
endpoints have there. -/
def ReadAtPlace (policy : List (RuleMatch × Nat)) (t : Ipv4Tuple) (sep dep : Sgs) : Prop :=
  ∃ e ∈ policy, e.1.Others t ∧ ∃ i < sep.sgIdCnt,
    Reads e.1.srcSgList (sep.arrSgId i) ∧ Reads e.1.dstSgList (dep.arrSgId i)

/-! ### Which keys hit a rule -/

theorem fieldOk_idField (o : Nat) (g x : BitVec 32) :
    fieldOk ⟨.range, .u32, o⟩ g.toNat (idField (some x)) = true ↔ x ≤ g := by
  by_cases hx : x = 0
  · subst hx
    exact iff_of_true rfl (Nat.zero_le _)
  have hmax : g ≤ 0xFFFFFFFF#32 := by
    rw [BitVec.le_def, BitVec.toNat_ofNat]
    omega
  have hfield : idField (some x) = ⟨⟨x⟩, ⟨0xFFFFFFFF⟩, false⟩ := by
    rw [idField, if_pos hx, exactField, BitVec.setWidth_eq]
  rw [hfield, fieldOk_range]
  simp [hmax]

theorem exists_le {l : List (BitVec 32)} {g : BitVec 32} :
    (∃ x ∈ orDummy 0 l, x ≤ g) ↔ Reads l g := by
  have hzero : (0 : BitVec 32) ≤ g := Nat.zero_le _
  rw [exists_orDummy, and_iff_left hzero, Reads]

section Expand

variable {t : Ipv4Tuple} {g g' : BitVec 32}

/-- The groups of a combination are independent of the rest. -/
theorem combine_sgs (m : RuleMatch) (srcSg dstSg : BitVec 32) (macSa macDa : BitVec 64)
    (sa da : AddrElem) (priority userdata : Nat) :
    (∃ r ∈ combine m srcSg dstSg macSa macDa sa da priority userdata,
      ruleMatch ipAclConfig r (t.withSgs g g').key = true) ↔
    (∃ r ∈ combine m 0 0 macSa macDa sa da 0 0, ruleMatch ipAclConfig r t.key = true) ∧
      srcSg ≤ g ∧ dstSg ≤ g' := by
  have hone : ∀ sp dp proto type code spi,
      ruleMatch ipAclConfig (constructRuleFields (some sa) (some da) (some macSa) (some macDa) sp dp
        (some srcSg) (some dstSg) proto type code spi m.ethertype priority userdata)
        (t.withSgs g g').key = true ↔
      ruleMatch ipAclConfig (constructRuleFields (some sa) (some da) (some macSa) (some macDa) sp dp
        (some 0) (some 0) proto type code spi m.ethertype 0 0) t.key = true ∧
        srcSg ≤ g ∧ dstSg ≤ g' := by
    intro sp dp proto type code spi
    rw [ruleMatch_key, ruleMatch_key, ← fieldOk_idField 32, ← fieldOk_idField 36]
    simp only [Fin.forall_fin_succ, constructRuleFields, ipAclConfig, Ipv4Tuple.value,
      Ipv4Tuple.withSgs]
    simp
    tauto
  unfold combine
  split_ifs
  · constructor
    · rintro ⟨r, hr, hm⟩
      obtain ⟨sp, hsp, hr⟩ := mem_flatMap.1 hr
      obtain ⟨dp, hdp, rfl⟩ := mem_map.1 hr
      obtain ⟨hm, hg⟩ := (hone ..).1 hm
      exact ⟨⟨_, mem_flatMap.2 ⟨sp, hsp, mem_map.2 ⟨dp, hdp, rfl⟩⟩, hm⟩, hg⟩
    · rintro ⟨⟨r, hr, hm⟩, hg⟩
      obtain ⟨sp, hsp, hr⟩ := mem_flatMap.1 hr
      obtain ⟨dp, hdp, rfl⟩ := mem_map.1 hr
      exact ⟨_, mem_flatMap.2 ⟨sp, hsp, mem_map.2 ⟨dp, hdp, rfl⟩⟩, (hone ..).2 ⟨hm, hg⟩⟩
  · simp only [mem_singleton, exists_eq_left]
    exact hone ..
  · simp only [mem_singleton, exists_eq_left]
    exact hone ..
  · simp only [mem_singleton, exists_eq_left]
    exact hone ..
  · simp

/-- **A flow hits the expansion of a rule** if the other conditions hold and the rule has no
higher groups only. -/
theorem expand_sgs (m : RuleMatch) (priority userdata : Nat) :
    (∃ r ∈ expand m priority userdata, ruleMatch ipAclConfig r (t.withSgs g g').key = true) ↔
      m.Others t ∧ Reads m.srcSgList g ∧ Reads m.dstSgList g' := by
  simp only [← exists_le, RuleMatch.Others, expand, mem_flatMap]
  constructor
  · rintro ⟨r, ⟨s, hs, d, hd, a, ha, b, hb, sa, hsa, da, hda, hr⟩, hm⟩
    obtain ⟨⟨r', hr', hm'⟩, hgs, hgd⟩ := (combine_sgs ..).1 ⟨r, hr, hm⟩
    exact ⟨⟨r', ⟨0, by simp [orDummy], 0, by simp [orDummy], a, ha, b, hb, sa, hsa, da, hda, hr'⟩,
      hm'⟩, ⟨s, hs, hgs⟩, d, hd, hgd⟩
  · rintro ⟨⟨r, ⟨s0, hs0, d0, hd0, a, ha, b, hb, sa, hsa, da, hda, hr⟩, hm⟩, ⟨s, hs, hgs⟩, d, hd,
      hgd⟩
    obtain rfl : s0 = 0 := by simpa [orDummy] using hs0
    obtain rfl : d0 = 0 := by simpa [orDummy] using hd0
    obtain ⟨r', hr', hm'⟩ := (combine_sgs m s d a b sa da priority userdata).2 ⟨⟨r, hr, hm⟩, hgs, hgd⟩
    exact ⟨r', ⟨s, hs, d, hd, a, ha, b, hb, sa, hsa, da, hda, hr'⟩, hm'⟩

end Expand

/-- The classifier finds no rule exactly if no rule of the policy is hit. -/
theorem classify_ruleDb (policy : List (RuleMatch × Nat)) (key : Key) :
    (ruleDb policy).classify key = none ↔ ¬ ∃ e ∈ policy, ∃ r ∈ expand e.1 e.2 e.2,
      ruleMatch ipAclConfig r key = true := by
  obtain ⟨c, hc, hf, hr⟩ := processRules_spec (Filed.create : Filed (Ctx.create : Ctx ipAclConfig))
    (policy.flatMap fun e => expand e.1 e.2 e.2)
  have hb := (hf.classify_isBest key).of_perm hr
  rw [Ctx.rules_create, append_nil] at hb
  rw [ruleDb, hc]
  cases hk : c.classify key with
  | none =>
    rw [hk] at hb
    refine iff_of_true rfl ?_
    rintro ⟨e, he, r, hr, hm⟩
    rw [hb r (mem_flatMap.2 ⟨e, he, hr⟩)] at hm
    cases hm
  | some b =>
    rw [hk] at hb
    obtain ⟨e, he, hbe⟩ := mem_flatMap.1 hb.1
    exact iff_of_false nofun fun h => h ⟨e, he, b, hbe, hb.2.1⟩

/-- **What the check reports.** -/
theorem checkSecurityPolicy_eq_none (policy : List (RuleMatch × Nat)) (t : Ipv4Tuple) {sep dep : Sgs}
    (hs : 0 < sep.sgIdCnt) (hd : 0 < dep.sgIdCnt) :
    checkSecurityPolicy policy t (some sep) (some dep) = none ↔ ¬ ReadAtPlace policy t sep dep := by
  rw [checkSecurityPolicy, if_neg fun h => hs.ne' h.1]
  simp only [findSome?_eq_none_iff, mem_range, classify_ruleDb, expand_sgs]
  constructor
  · rintro h ⟨e, he, ho, i, hi, hr⟩
    exact h i hi 0 hd ⟨e, he, ho, hr⟩
  · rintro h i hi - - ⟨e, he, ho, hr⟩
    exact h ⟨e, he, ho, i, hi, hr⟩

theorem reads_iff_names {l : List (BitVec 32)} {g : BitVec 32} (h : ∀ x ∈ l, x = 0 ∨ g ≤ x) :
    Reads l g ↔ Names l g := by
  refine or_congr_right ⟨?_, ?_⟩
  · rintro ⟨x, hx, hle⟩
    rcases h x hx with rfl | hge
    · exact .inl hx
    · exact .inr (BitVec.le_antisymm hge hle ▸ hx)
  · rintro (h0 | hg)
    · exact ⟨0, h0, Nat.zero_le _⟩
    · exact ⟨g, hg, BitVec.le_refl g⟩

/-- **The check is right** for endpoints with one group each, if no rule names a lower group. -/
theorem groups_considered_of_single (policy : List (RuleMatch × Nat)) (t : Ipv4Tuple) {sep dep : Sgs}
    (hs : sep.sgIdCnt = 1) (hd : dep.sgIdCnt = 1)
    (hlow : ∀ e ∈ policy, (∀ x ∈ e.1.srcSgList, x = 0 ∨ sep.arrSgId 0 ≤ x) ∧
      ∀ x ∈ e.1.dstSgList, x = 0 ∨ dep.arrSgId 0 ≤ x) :
    checkSecurityPolicy policy t (some sep) (some dep) = none ↔ ¬ Named policy t sep dep := by
  rw [checkSecurityPolicy_eq_none policy t (by omega) (by omega), ReadAtPlace, Named, hs, hd]
  simp only [Nat.lt_one_iff, exists_eq_left]
  refine not_congr (exists_congr fun e => and_congr_right fun he => and_congr_right fun _ => ?_)
  rw [reads_iff_names (hlow e he).1, reads_iff_names (hlow e he).2]

/-- **When the check considers the right groups**: a rule names a group of each endpoint
exactly if a rule has no higher groups at some place. -/
theorem groups_considered_iff (policy : List (RuleMatch × Nat)) (t : Ipv4Tuple) (sep dep : Sgs)
    (hs : 0 < sep.sgIdCnt) (hd : 0 < dep.sgIdCnt) :
    (checkSecurityPolicy policy t (some sep) (some dep) = none ↔ ¬ Named policy t sep dep) ↔
      (Named policy t sep dep → ReadAtPlace policy t sep dep) ∧
      (ReadAtPlace policy t sep dep → Named policy t sep dep) := by
  rw [checkSecurityPolicy_eq_none policy t hs hd]
  tauto

/-- A rule with conditions on groups only. -/
def sgRule (src dst : List (BitVec 32)) : RuleMatch :=
  ⟨[], [], src, dst, [], [], 0, ipprotoNone, [], [], 0, 0, 0⟩

theorem others_sgRule (src dst : List (BitVec 32)) (t : Ipv4Tuple) : (sgRule src dst).Others t := by
  refine ⟨_, mem_singleton_self _, (ruleMatch_key _ t).2 ?_⟩
  simp [Fin.forall_fin_succ, constructRuleFields, ipAclConfig, idField, addrField, portField, sgRule,
    isTcpUdp, isIcmp, ipprotoNone, ipprotoTcp, ipprotoUdp, ipprotoIcmp, ipprotoIcmpv6, ipprotoEsp,
    fieldOk_emptyField, fieldOk_zeroField]

/-- The groups of a list. -/
def sgsOf (l : List (BitVec 32)) : Sgs := ⟨l.length, fun i => l.getD i 0⟩

/-- The key of a TCP flow. -/
def tcpKey : Ipv4Tuple := (flowOf 6 0).aclKey

/-- The second rule names the second group of each endpoint. -/
theorem groups_considered_same :
    checkSecurityPolicy [(sgRule [7] [], 0), (sgRule [3] [6, 4], 1)] tcpKey
      (some (sgsOf [1, 3])) (some (sgsOf [2, 4])) ≠ none := by
  have hrule : (sgRule [3] [6, 4], 1) ∈ [(sgRule [7] [], 0), (sgRule [3] [6, 4], 1)] :=
    mem_cons_of_mem _ (mem_singleton_self _)
  have hnamed : Named [(sgRule [7] [], 0), (sgRule [3] [6, 4], 1)] tcpKey (sgsOf [1, 3])
      (sgsOf [2, 4]) :=
    ⟨_, hrule, others_sgRule .., ⟨1, by decide, .inr (.inr (by decide))⟩,
      1, by decide, .inr (.inr (by decide))⟩
  have hread : ReadAtPlace [(sgRule [7] [], 0), (sgRule [3] [6, 4], 1)] tcpKey (sgsOf [1, 3])
      (sgsOf [2, 4]) :=
    ⟨_, hrule, others_sgRule .., 1, by decide, .inr ⟨3, by decide, by decide⟩,
      .inr ⟨4, by decide, by decide⟩⟩
  have h := (groups_considered_iff _ tcpKey _ _ (by decide) (by decide)).2
    ⟨fun _ => hread, fun _ => hnamed⟩
  exact fun hn => h.1 hn hnamed

/-- The rule names the second group of the destination, which the check does not look at;
and a rule for group 1 is hit by group 3. -/
theorem not_groups_considered :
    (checkSecurityPolicy [(sgRule [1] [2], 0)] tcpKey (some (sgsOf [1])) (some (sgsOf [1, 2])) = none ∧
      Named [(sgRule [1] [2], 0)] tcpKey (sgsOf [1]) (sgsOf [1, 2])) ∧
    checkSecurityPolicy [(sgRule [1] [1], 0)] tcpKey (some (sgsOf [3])) (some (sgsOf [3])) ≠ none ∧
      ¬ Named [(sgRule [1] [1], 0)] tcpKey (sgsOf [3]) (sgsOf [3]) := by
  rw [checkSecurityPolicy_eq_none _ _ (by decide) (by decide), ne_eq,
    checkSecurityPolicy_eq_none _ _ (by decide) (by decide), not_not]
  refine ⟨⟨?_, ?_⟩, ?_, ?_⟩
  · rintro ⟨e, he, -, i, hi, -, hd⟩
    obtain rfl := mem_singleton.1 he
    obtain rfl : i = 0 := Nat.lt_one_iff.1 hi
    simp [Reads, sgRule, sgsOf] at hd
  · exact ⟨_, mem_singleton_self _, others_sgRule .., ⟨0, by decide, .inr (.inr (by decide))⟩,
      1, by decide, .inr (.inr (by decide))⟩
  · exact ⟨_, mem_singleton_self _, others_sgRule .., 0, by decide,
      .inr ⟨1, by decide, by decide⟩, .inr ⟨1, by decide, by decide⟩⟩
  · rintro ⟨e, he, -, ⟨i, hi, hs⟩, -⟩
    obtain rfl := mem_singleton.1 he
    obtain rfl : i = 0 := Nat.lt_one_iff.1 hi
    simp [Names, sgRule, sgsOf] at hs

end NicSw.Sfw
