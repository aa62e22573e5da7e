/-
The check of a flow against a security policy.

A policy is an ordered list of rules.  The place of a rule is its priority; the rules are
kept in a hash table by their id and put into the classifier in the order of its walk.  The
check gives the first rule that the flow hits.  That is the first rule whose conditions the
flow satisfies unless a rule is misread before it: a rule for a protocol that the expansion
does not know is never hit, the SPI of an ESP rule is not compared, and a port range that
looks like the mark for any is taken for it.
-/
import NicSw.Acl.Ctx
import NicSw.Sfw.RuleMatch

namespace NicSw.Sfw

open NicSw.Acl List

/-! ### Policies and the check -/

/-- `SecurityAction`. -/
inductive SecurityAction
  | none
  | allow
  | deny
  | reject
  | implicitDeny
  deriving DecidableEq, Repr

/-- `FlowAction`. -/
inductive FlowAction
  | none
  | allow
  | drop
  deriving DecidableEq, Repr

/-- `nwsec_rule_t` with its action; the options of the ALG are left out. -/
structure FwRule where
  ruleId : Nat
  spec : RuleSpec
  secAction : SecurityAction
  logAction : Nat
  alg : Nat
  idleTimeout : Nat
  deriving DecidableEq, Repr

/-- `net_sfw_match_result_t`. -/
structure MatchResult where
  valid : Bool
  action : FlowAction
  alg : Nat
  log : Nat
  sfwAction : SecurityAction
  ruleId : Nat
  idleTimeout : Nat
  deriving DecidableEq, Repr

/-- The result before the check. -/
def initResult : MatchResult := ⟨false, .none, 0, 0, .none, 0, 0⟩

/-- `rule_match_process_rule` adds the rules of an expansion one by one. -/
def processRules {cfg : Config} (c : Ctx cfg) : List (Rule cfg) → HalRet × Ctx cfg
  | [] => (.ok, c)
  | r :: rs =>
    match c.addRule r with
    | (.ok, c') => processRules c' rs
    | (ret, c') => (ret, c')

/-- `security_policy_add_to_ruledb`: the rules with their priorities in the order in which
the hash table is walked.  The user data leads back to the rule. -/
def addToRuledb (c : Ctx ipAclConfig) : List (FwRule × Nat) → HalRet × Ctx ipAclConfig
  | [] => (.ok, c)
  | (r, i) :: walk =>
    match processRules c (expand r.spec.extract i i) with
    | (.ok, c') => addToRuledb c' walk
    | (ret, c') => (ret, c')

/-- What a match gives. -/
def ruleResult (r : FwRule) : MatchResult where
  valid := true
  action := if r.secAction = .allow then .allow else .drop
  alg := r.alg
  log := r.logAction
  sfwAction := r.secAction
  ruleId := r.ruleId
  idleTimeout := r.idleTimeout

/-- `net_sfw_pol_check_sg_policy` when no rule matches, on the result `init`. -/
def noMatchResult (init : MatchResult) : MatchResult :=
  { init with valid := true, action := .drop, sfwAction := .implicitDeny }

/-- `net_sfw_check_security_policy` and its caller, for endpoints without groups: `rules` are
the rules of the policy, and `walk` is the order in which they were added. -/
def checkPolicy (rules : List FwRule) (walk : List (FwRule × Nat)) (f : FlowKey)
    (init : MatchResult) : MatchResult :=
  match (addToRuledb Ctx.create walk).2.classify f.aclKey.key with
  | some b =>
    match rules[b.userdata]? with
    | some r => ruleResult r
    | none => init
  | none => noMatchResult init

/-! ### What is in the classifier -/

/-- Adding a rule succeeds and adds just this rule. -/
theorem addRule_spec {cfg : Config} {c : Ctx cfg} (h : Filed c) (rule : Rule cfg) :
    ∃ c', c.addRule rule = (.ok, c') ∧ Filed c' ∧ c'.rules.Perm (rule :: c.rules) := by
  have hok : (c.addRule rule).1 = .ok := by
    unfold Ctx.addRule
    split
    · next fid hfid =>
        obtain ⟨-, low, high, hi⟩ := Ctx.cheapest_field hfid
        simp only [aclItreeAddRule, hi]
    · rfl
  exact ⟨_, Prod.ext hok rfl, h.addRule rule, Ctx.rules_addRule c rule⟩

theorem processRules_spec {cfg : Config} {c : Ctx cfg} (h : Filed c) (rs : List (Rule cfg)) :
    ∃ c', processRules c rs = (.ok, c') ∧ Filed c' ∧ c'.rules.Perm (rs ++ c.rules) := by
  induction rs generalizing c with
  | nil => exact ⟨c, rfl, h, by rw [nil_append]⟩
  | cons r rs ih =>
    obtain ⟨c1, hadd, hf1, hr1⟩ := addRule_spec h r
    obtain ⟨c', hp, hf, hr⟩ := ih hf1
    refine ⟨c', ?_, hf, ?_⟩
    · rw [processRules, hadd]
      exact hp
    · exact (hr.trans (hr1.append_left rs)).trans perm_middle

theorem addToRuledb_spec {c : Ctx ipAclConfig} (h : Filed c) (walk : List (FwRule × Nat)) :
    ∃ c', addToRuledb c walk = (.ok, c') ∧ Filed c' ∧
      c'.rules.Perm ((walk.flatMap fun e => expand e.1.spec.extract e.2 e.2) ++ c.rules) := by
  induction walk generalizing c with
  | nil => exact ⟨c, rfl, h, by rw [flatMap_nil, nil_append]⟩
  | cons e walk ih =>
    obtain ⟨c1, hp, hf1, hr1⟩ := processRules_spec h (expand e.1.spec.extract e.2 e.2)
    obtain ⟨c', ha, hf, hr⟩ := ih hf1
    refine ⟨c', ?_, hf, ?_⟩
    · rw [addToRuledb, hp]
      exact ha
    · refine hr.trans ?_
      rw [flatMap_cons, append_assoc]
      refine (hr1.append_left _).trans ?_
      rw [← append_assoc, ← append_assoc]
      exact perm_append_comm.append_right _

theorem mem_expand {m : RuleMatch} {i u : Nat} {b : Rule ipAclConfig} (h : b ∈ expand m i u) :
    b.priority = i ∧ b.userdata = u := by
  simp only [expand, mem_flatMap] at h
  obtain ⟨_, -, _, -, _, -, _, -, sa, -, da, -, h⟩ := h
  unfold combine at h
  split at h
  · obtain ⟨sp, -, h⟩ := mem_flatMap.1 h
    obtain ⟨dp, -, rfl⟩ := mem_map.1 h
    exact ⟨rfl, rfl⟩
  split at h
  · rw [mem_singleton.1 h]
    exact ⟨rfl, rfl⟩
  split at h
  · rw [mem_singleton.1 h]
    exact ⟨rfl, rfl⟩
  · cases h

/-- **The check gives the first rule that is hit.** -/
theorem checkPolicy_eq (rules : List FwRule) (walk : List (FwRule × Nat))
    (hw : walk.Perm rules.zipIdx) (f : FlowKey) (init : MatchResult) :
    checkPolicy rules walk f init =
      ((rules.find? fun r => r.spec.hits f).map ruleResult).getD (noMatchResult init) := by
  obtain ⟨c, ha, hf, hr⟩ :=
    addToRuledb_spec (Filed.create : Filed (Ctx.create : Ctx ipAclConfig)) walk
  have hmem : ∀ b, b ∈ c.rules ↔ ∃ r i, rules[i]? = some r ∧ b ∈ expand r.spec.extract i i := by
    intro b
    rw [hr.mem_iff, Ctx.rules_create, append_nil, (hw.flatMap_right _).mem_iff, mem_flatMap]
    simp [mem_zipIdx_iff_getElem?]
  have hb := hf.classify_isBest f.aclKey.key
  rw [checkPolicy, ha]
  cases hc : c.classify f.aclKey.key with
  | none =>
    rw [hc] at hb
    have hnone : rules.find? (fun r => r.spec.hits f) = none := by
      refine find?_eq_none.2 fun r hr hh => ?_
      obtain ⟨i, hi, rfl⟩ := mem_iff_getElem.1 hr
      obtain ⟨b, hbe, hm⟩ := (expand_hits _ f i i).2 hh
      rw [hb b ((hmem b).2 ⟨_, i, getElem?_eq_getElem hi, hbe⟩)] at hm
      cases hm
    simp [hnone]
  | some b =>
    rw [hc] at hb
    obtain ⟨hbc, hm, hmin⟩ := hb
    obtain ⟨r, i, hri, hbe⟩ := (hmem b).1 hbc
    obtain ⟨hprio, hdata⟩ := mem_expand hbe
    obtain ⟨hi, rfl⟩ := List.getElem?_eq_some_iff.1 hri
    have hfind : rules.find? (fun r => r.spec.hits f) = some rules[i] := by
      refine find?_eq_some_iff_getElem.2 ⟨(expand_hits _ f i i).1 ⟨b, hbe, hm⟩, i, hi, rfl, ?_⟩
      intro j hj
      rw [Bool.not_eq_true', Bool.eq_false_iff]
      intro hh
      obtain ⟨b', hbe', hm'⟩ := (expand_hits _ f j j).2 hh
      have hle := hmin b' ((hmem b').2 ⟨_, j, getElem?_eq_getElem _, hbe'⟩) hm'
      rw [hprio, (mem_expand hbe').1] at hle
      omega
    simp only [hdata, hri, hfind]
    rfl

/-! ### Rules that are misread -/

/-- The protocols that the expansion makes rules for. -/
def Supported (proto : BitVec 16) : Prop :=
  isTcpUdp proto = true ∨ isIcmp proto = true ∨ proto = ipprotoEsp ∨ proto = ipprotoNone

/-- The rule is for a protocol that is not supported, or its SPI is another one, or its ports
are other ones but one of its ranges is the mark for any. -/
def RuleSpec.MisreadApp (s : RuleSpec) (f : FlowKey) : Prop :=
  ¬Supported s.ipproto ∨
    (s.ipproto = ipprotoEsp ∧ s.espSpi ≠ 0 ∧ s.espSpi ≠ f.spi) ∨
    (isTcpUdp s.ipproto = true ∧
      (hitsPorts s.srcPorts f.sport && hitsPorts s.dstPorts f.dport) = true ∧
      (inPorts s.srcPorts f.sport && inPorts s.dstPorts f.dport) = false)

/-- The flow has the addresses and the protocol of the rule, and the rest is misread. -/
def RuleSpec.Misread (s : RuleSpec) (f : FlowKey) : Prop :=
  inAddresses s.srcAddress f.sip = true ∧ inAddresses s.dstAddress f.dip = true ∧
    s.ipproto = f.ipproto ∧ s.MisreadApp f

theorem hitsPorts_of_inPorts {l : List PortRange} {p : BitVec 16} (h : inPorts l p = true) :
    hitsPorts l p = true := by
  simp only [inPorts, hitsPorts, Bool.or_eq_true, any_eq_true] at h ⊢
  rcases h with h | ⟨r, hr, hp⟩
  · exact .inl h
  · exact .inr ⟨r, hr, .inr hp⟩

/-- Hits in terms of the protocol that the rule is for. -/
theorem RuleSpec.hitsApp_eq (s : RuleSpec) (f : FlowKey) :
    s.hitsApp f =
      if isTcpUdp s.ipproto then
        s.ipproto == f.ipproto && (hitsPorts s.srcPorts f.sport && hitsPorts s.dstPorts f.dport)
      else if isIcmp s.ipproto then s.ipproto == f.ipproto && s.appSatisfied f
      else if s.ipproto = ipprotoEsp ∨ s.ipproto = ipprotoNone then
        s.ipproto == ipprotoNone || s.ipproto == f.ipproto
      else false := by
  by_cases hp : s.protocol = ipprotoNone ∧ s.espSpi ≠ 0
  · have hq : s.ipproto = ipprotoEsp := if_pos hp
    have hn : isTcpUdp ipprotoNone = false ∧ isIcmp ipprotoNone = false := by decide
    have he : isTcpUdp ipprotoEsp = false ∧ isIcmp ipprotoEsp = false := by decide
    simp [hitsApp, hp.1, hn, hq, he]
  have hq : s.ipproto = s.protocol := if_neg hp
  by_cases htu : isTcpUdp s.protocol
  · simp [hitsApp, hq, htu]
  by_cases hic : isIcmp s.protocol
  · simp [hitsApp, appSatisfied, hq, htu, hic]
  · simp [hitsApp, hq, htu, hic]

section HitsApp

variable {s : RuleSpec} {f : FlowKey}

theorem hitsApp_iff_tcpUdp (htu : isTcpUdp s.ipproto = true) :
    s.hitsApp f = true ↔ s.ipproto = f.ipproto ∧ ¬(s.appSatisfied f = true ↔ s.MisreadApp f) := by
  have hq : s.ipproto ≠ ipprotoEsp := by
    obtain h | h := isTcpUdp_iff.1 htu <;> rw [h] <;> decide
  have hports : (inPorts s.srcPorts f.sport && inPorts s.dstPorts f.dport) = true →
      (hitsPorts s.srcPorts f.sport && hitsPorts s.dstPorts f.dport) = true := by
    rw [Bool.and_eq_true, Bool.and_eq_true]
    exact And.imp hitsPorts_of_inPorts hitsPorts_of_inPorts
  have hmis : s.MisreadApp f ↔
      (hitsPorts s.srcPorts f.sport && hitsPorts s.dstPorts f.dport) = true ∧
      (inPorts s.srcPorts f.sport && inPorts s.dstPorts f.dport) = false := by
    simp [RuleSpec.MisreadApp, Supported, htu, hq]
  rw [RuleSpec.hitsApp_eq, if_pos htu, Bool.and_eq_true, beq_iff_eq, RuleSpec.appSatisfied,
    if_pos htu, hmis]
  cases hP : inPorts s.srcPorts f.sport && inPorts s.dstPorts f.dport with
  | true => simp [hports hP]
  | false => simp

theorem hitsApp_iff_icmp (hic : isIcmp s.ipproto = true) :
    s.hitsApp f = true ↔ s.ipproto = f.ipproto ∧ ¬(s.appSatisfied f = true ↔ s.MisreadApp f) := by
  have hq : isTcpUdp s.ipproto = false ∧ s.ipproto ≠ ipprotoEsp := by
    obtain h | h := isIcmp_iff.1 hic <;> rw [h] <;> decide
  have hmis : ¬s.MisreadApp f := by
    simp [RuleSpec.MisreadApp, Supported, hic, hq]
  rw [RuleSpec.hitsApp_eq, hq.1, if_neg Bool.false_ne_true, if_pos hic, Bool.and_eq_true,
    beq_iff_eq]
  simp [hmis]

theorem hitsApp_iff_esp (hesp : s.ipproto = ipprotoEsp) :
    s.hitsApp f = true ↔ s.ipproto = f.ipproto ∧ ¬(s.appSatisfied f = true ↔ s.MisreadApp f) := by
  have hq : isTcpUdp ipprotoEsp = false ∧ isIcmp ipprotoEsp = false ∧
      (ipprotoEsp == ipprotoNone) = false := by decide
  have hmis : s.MisreadApp f ↔ s.espSpi ≠ 0 ∧ s.espSpi ≠ f.spi := by
    simp [RuleSpec.MisreadApp, Supported, hesp, hq]
  have hsat : s.appSatisfied f = true ↔ s.espSpi = 0 ∨ s.espSpi = f.spi := by
    rw [RuleSpec.appSatisfied, hesp, hq.1, hq.2.1]
    simp
  have hhit : s.hitsApp f = (ipprotoEsp == f.ipproto) := by
    rw [RuleSpec.hitsApp_eq, hesp, hq.1, hq.2.1, hq.2.2]
    simp
  rw [hhit, hmis, hsat, hesp, beq_iff_eq]
  tauto

theorem hitsApp_iff_other (h : ¬Supported s.ipproto) :
    s.hitsApp f = true ↔ s.ipproto = f.ipproto ∧ ¬(s.appSatisfied f = true ↔ s.MisreadApp f) := by
  have hmis : s.MisreadApp f := .inl h
  obtain ⟨htu, hic, hesp, hnone⟩ : isTcpUdp s.ipproto = false ∧ isIcmp s.ipproto = false ∧
      s.ipproto ≠ ipprotoEsp ∧ s.ipproto ≠ ipprotoNone := by
    simpa [Supported] using h
  have hsat : s.appSatisfied f = true := by
    rw [RuleSpec.appSatisfied, htu, hic]
    simp [hesp]
  have hhit : s.hitsApp f = false := by
    rw [RuleSpec.hitsApp_eq, htu, hic]
    simp [hesp, hnone]
  simp [hhit, hmis, hsat]

end HitsApp

/-- **A rule is hit exactly if it is satisfied or misread, but not both.** -/
theorem RuleSpec.hits_iff (s : RuleSpec) (f : FlowKey) :
    s.hits f = true ↔ ¬(s.satisfied f = true ↔ s.Misread f) := by
  have happ : s.hitsApp f = true ↔ ¬((s.ipproto = ipprotoNone ∨ s.ipproto = f.ipproto) ∧
      s.appSatisfied f = true ↔ s.ipproto = f.ipproto ∧ s.MisreadApp f) := by
    by_cases hnone : s.ipproto = ipprotoNone
    · have hq : isTcpUdp ipprotoNone = false ∧ isIcmp ipprotoNone = false ∧
          ipprotoNone ≠ ipprotoEsp := by decide
      have hhit : s.hitsApp f = true := by
        rw [hitsApp_eq, hnone, hq.1, hq.2.1]
        simp
      have hsat : s.appSatisfied f = true := by
        rw [appSatisfied, hnone, hq.1, hq.2.1]
        simp [hq]
      have hmis : ¬s.MisreadApp f := by
        simp [MisreadApp, Supported, hnone, hq]
      simp [hhit, hsat, hmis, hnone]
    · have hcase : s.hitsApp f = true ↔
          s.ipproto = f.ipproto ∧ ¬(s.appSatisfied f = true ↔ s.MisreadApp f) := by
        by_cases hsup : Supported s.ipproto
        · obtain h | h | h | h := hsup
          · exact hitsApp_iff_tcpUdp h
          · exact hitsApp_iff_icmp h
          · exact hitsApp_iff_esp h
          · exact absurd h hnone
        · exact hitsApp_iff_other hsup
      tauto
  have haddr : s.Misread f ↔ (inAddresses s.srcAddress f.sip && inAddresses s.dstAddress f.dip) =
      true ∧ s.ipproto = f.ipproto ∧ s.MisreadApp f := by
    rw [Misread, Bool.and_eq_true, and_assoc]
  rw [hits, satisfied, haddr]
  cases inAddresses s.srcAddress f.sip && inAddresses s.dstAddress f.dip with
  | false => simp
  | true => simp only [Bool.true_and, true_and, Bool.and_eq_true, Bool.or_eq_true, beq_iff_eq, happ]

/-! ### First match -/

/-- The action of a rule, or implicit deny. -/
def actionOf (r : Option FwRule) : SecurityAction :=
  match r with
  | some r => r.secAction
  | none => .implicitDeny

/-- Every rule that is misread stands behind one that the flow satisfies. -/
def Shielded (f : FlowKey) : List RuleSpec → Prop
  | [] => True
  | s :: ss => ¬s.Misread f ∧ (s.satisfied f = true ∨ Shielded f ss)

theorem find?_hits {f : FlowKey} {rules : List FwRule} (h : Shielded f (rules.map FwRule.spec)) :
    (rules.find? fun r => r.spec.hits f) = rules.find? fun r => r.spec.satisfied f := by
  induction rules with
  | nil => rfl
  | cons r rules ih =>
    obtain ⟨hm, hs⟩ := h
    have hhit : r.spec.hits f = r.spec.satisfied f := by
      rw [Bool.eq_iff_iff, RuleSpec.hits_iff]
      tauto
    rw [find?_cons, find?_cons, hhit]
    cases hsat : r.spec.satisfied f with
    | true => rfl
    | false => exact ih (hs.resolve_left (by simp [hsat]))

/-- Rules with given match conditions. -/
def rulesOf (a : SecurityAction) (specs : List RuleSpec) : List FwRule :=
  specs.map fun s => ⟨0, s, a, 0, 0, 0⟩

theorem map_spec_rulesOf (a : SecurityAction) (specs : List RuleSpec) :
    (rulesOf a specs).map FwRule.spec = specs := by
  rw [rulesOf, map_map]
  exact map_id specs

theorem actionOf_rulesOf (a : SecurityAction) (specs : List RuleSpec) (p : FwRule → Bool) :
    actionOf ((rulesOf a specs).find? p) = a ∨
      actionOf ((rulesOf a specs).find? p) = .implicitDeny := by
  cases h : (rulesOf a specs).find? p with
  | none => exact .inr rfl
  | some r =>
    obtain ⟨s, -, rfl⟩ := mem_map.1 (mem_of_find?_eq_some h)
    exact .inl rfl

/-- A rule that is misread and not shielded changes the outcome for some actions. -/
theorem shielded_of_actions {f : FlowKey} {specs : List RuleSpec}
    (h : ∀ rules : List FwRule, rules.map FwRule.spec = specs →
      actionOf (rules.find? fun r => r.spec.hits f) =
        actionOf (rules.find? fun r => r.spec.satisfied f)) :
    Shielded f specs := by
  induction specs with
  | nil => trivial
  | cons s ss ih =>
    have hhit := s.hits_iff f
    have hm : ¬s.Misread f := by
      -- this rule allows, those behind it deny
      intro hm
      have hact := h (⟨0, s, .allow, 0, 0, 0⟩ :: rulesOf .deny ss) (by simp [map_spec_rulesOf])
      rw [find?_cons, find?_cons] at hact
      have hone := actionOf_rulesOf .deny ss
      cases hsat : s.satisfied f with
      | true =>
        have hno : s.hits f = false := by simpa [hsat, hm] using hhit
        simp only [hno, hsat] at hact
        obtain he | he := hone fun r => r.spec.hits f <;> rw [he] at hact <;> cases hact
      | false =>
        have hyes : s.hits f = true := by simpa [hsat, hm] using hhit
        simp only [hyes, hsat] at hact
        obtain he | he := hone fun r => r.spec.satisfied f <;> rw [he] at hact <;> cases hact
    refine ⟨hm, ?_⟩
    cases hsat : s.satisfied f with
    | true => exact .inl rfl
    | false =>
      refine .inr (ih fun rules hrules => ?_)
      have hno : s.hits f = false := by simpa [hsat, hm] using hhit
      have hact := h (⟨0, s, .allow, 0, 0, 0⟩ :: rules) (by simp [hrules])
      simpa [find?_cons, hno, hsat] using hact

/-- **When the policy check is first match.**  Whatever the actions of the rules, and in
whatever order they were added, the check yields the action of the first rule that the flow
satisfies, or implicit deny, exactly if every rule that is misread stands behind a rule that
the flow satisfies. -/
theorem first_match_iff (specs : List RuleSpec) (f : FlowKey) :
    (∀ rules : List FwRule, rules.map FwRule.spec = specs →
      ∀ walk : List (FwRule × Nat), walk.Perm rules.zipIdx → ∀ init : MatchResult,
        (checkPolicy rules walk f init).sfwAction =
          actionOf (rules.find? fun r => r.spec.satisfied f)) ↔
      Shielded f specs := by
  have hcheck : ∀ (rules : List FwRule) walk, walk.Perm rules.zipIdx → ∀ init,
      (checkPolicy rules walk f init).sfwAction =
        actionOf (rules.find? fun r => r.spec.hits f) := by
    intro rules walk hw init
    rw [checkPolicy_eq rules walk hw]
    cases rules.find? fun r => r.spec.hits f <;> rfl
  constructor
  · intro h
    refine shielded_of_actions fun rules hr => ?_
    rw [← hcheck rules _ (.refl _) initResult]
    exact h rules hr _ (.refl _) initResult
  · rintro hs rules rfl walk hw init
    rw [hcheck rules walk hw, find?_hits hs]

/-- A policy that denies what matches `s` and allows all other flows. -/
def denyPolicy (s : RuleSpec) : List FwRule :=
  [⟨1, s, .deny, 0, 0, 0⟩, ⟨2, ⟨ipprotoNone, [], [], .none⟩, .allow, 0, 0, 0⟩]

/-- A flow of a protocol, with an SPI. -/
def flowOf (proto : BitVec 8) (spi : BitVec 32) : FlowKey := ⟨1, 2, proto, 0, 0, 0, 0, spi⟩

/-- A GRE flow passes a rule that denies GRE, and an ESP flow is denied by a rule for another
SPI. -/
theorem not_first_match :
    (checkPolicy (denyPolicy ⟨ipprotoGre, [], [], .none⟩)
        (denyPolicy ⟨ipprotoGre, [], [], .none⟩).zipIdx (flowOf 47 0) initResult).sfwAction =
      .allow ∧
    actionOf ((denyPolicy ⟨ipprotoGre, [], [], .none⟩).find?
        fun r => r.spec.satisfied (flowOf 47 0)) = .deny ∧
    (checkPolicy (denyPolicy ⟨ipprotoEsp, [], [], .esp 5⟩)
        (denyPolicy ⟨ipprotoEsp, [], [], .esp 5⟩).zipIdx (flowOf 50 7) initResult).sfwAction =
      .deny ∧
    actionOf ((denyPolicy ⟨ipprotoEsp, [], [], .esp 5⟩).find?
        fun r => r.spec.satisfied (flowOf 50 7)) = .allow := by
  exact ⟨rfl, rfl, rfl, rfl⟩

/-- **A shadowed rule has no effect**: a rule that hits only flows that earlier rules hit may be
left out, and every flow gets the same result, in whatever orders the rules are added. -/
theorem checkPolicy_of_shadowed (pre post : List FwRule) (r : FwRule)
    (hr : ∀ f, r.spec.hits f = true → ∃ q ∈ pre, q.spec.hits f = true)
    {walk walk' : List (FwRule × Nat)} (hw : walk.Perm (pre ++ r :: post).zipIdx)
    (hw' : walk'.Perm (pre ++ post).zipIdx) (f : FlowKey) (init : MatchResult) :
    checkPolicy (pre ++ r :: post) walk f init = checkPolicy (pre ++ post) walk' f init := by
  rw [checkPolicy_eq _ _ hw, checkPolicy_eq _ _ hw', find?_append, find?_append]
  cases hpre : pre.find? fun q => q.spec.hits f with
  | some q => rfl
  | none =>
    have hno : r.spec.hits f = false := by
      rw [← Bool.not_eq_true]
      intro hhit
      obtain ⟨q, hq, hf⟩ := hr f hhit
      exact find?_eq_none.1 hpre q hq hf
    rw [find?_cons, hno]

/-- All flows are denied, and allowed after that. -/
theorem checkPolicy_of_shadowed_allow :
    let rules := denyPolicy ⟨ipprotoNone, [], [], .none⟩
    checkPolicy rules rules.zipIdx (flowOf 50 7) initResult =
      checkPolicy (rules.take 1) (rules.take 1).zipIdx (flowOf 50 7) initResult :=
  checkPolicy_of_shadowed [⟨1, _, .deny, 0, 0, 0⟩] [] ⟨2, _, .allow, 0, 0, 0⟩
    (fun _ hf => ⟨_, mem_singleton_self _, hf⟩) (.refl _) (.refl _) _ _

end NicSw.Sfw
