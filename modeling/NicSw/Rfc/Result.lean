/-
The result of a rule bitmap (`rfc_compute_p3_result`): the action and the priority of the
best rule that is set in it.
-/
import NicSw.Rfc.Bitmap
import NicSw.Rfc.Policy

namespace NicSw.Rfc

open RteBitmap

variable {w : Nat}

/-- The action bit of an entry. -/
def FwAction.bit : FwAction → Nat
  | .allow => 0
  | _ => 1

/-- `RFC_RESULT_SET_ACTION_BIT` and `RFC_RESULT_SET_PRIORITY_BITS`, on a result of 0. -/
def packResult (action : FwAction) (prio : Nat) : Nat := action.bit ||| (prio <<< 1 &&& 0x7FE)

/-- `priority` and `result`. -/
structure Best where
  priority : Nat
  result : Nat
  deriving DecidableEq, Repr

/-- What is done for rule `ruleIdx`; there must be one. -/
def visitRule (π : Policy w) (best : Best) (ruleIdx : Nat) : Option Best := do
  let rule ← π.rules[ruleIdx]?
  some (if best.priority > rule.priority then
    ⟨rule.priority, packResult rule.action rule.priority⟩ else best)

/-- `rfc_compute_p3_result`, on a bitmap that has just been reset and computed. -/
def rfcComputeP3Result (π : Policy w) (cbm : RteBitmap) : Option Nat :=
  match cbm.scan cbm.length with
  | none => some (packResult π.defaultAction saclPriorityLowest)
  | some first => do
      let best ← scanLoop (visitRule π) cbm (first <<< 6) cbm.length (first + 1)
        ⟨saclPriorityInvalid, 0⟩
      some best.result

/-- **The best rule** of a bitmap: the numerically lowest priority, and among rules of that
priority the lowest index. -/
structure IsBest (π : Policy w) (cbm : RteBitmap) (i : Nat) (rule : Rule w) : Prop where
  isRule : π.rules[i]? = some rule
  set : cbm.test i = true
  best : ∀ j rule', cbm.test j = true → π.rules[j]? = some rule' →
    rule.priority < rule'.priority ∨ rule.priority = rule'.priority ∧ i ≤ j

section Result

variable {π : Policy w} {cbm : RteBitmap}

/-- **Run.**  After the rules `is`, in ascending order, the best one is held. -/
theorem foldlM_visitRule {is : List Nat} (hsorted : is.Pairwise (· < ·))
    (hrules : ∀ i ∈ is, ∃ rule, π.rules[i]? = some rule ∧ rule.priority ≤ maxRulePriority) :
    ∃ best, is.foldlM (visitRule π) ⟨saclPriorityInvalid, 0⟩ = some best ∧
      (is = [] ∧ best = ⟨saclPriorityInvalid, 0⟩ ∨
        ∃ i ∈ is, ∃ rule, π.rules[i]? = some rule ∧
          best = ⟨rule.priority, packResult rule.action rule.priority⟩ ∧
          ∀ j ∈ is, ∀ rule', π.rules[j]? = some rule' →
            rule.priority < rule'.priority ∨ rule.priority = rule'.priority ∧ i ≤ j) := by
  induction is using List.reverseRecOn with
  | nil => exact ⟨_, rfl, .inl ⟨rfl, rfl⟩⟩
  | append_singleton is n ih =>
    obtain ⟨hsorted, -, hlast⟩ := List.pairwise_append.mp hsorted
    obtain ⟨best, hfold, hbest⟩ := ih hsorted fun i hi => hrules i (List.mem_append_left _ hi)
    obtain ⟨rule, hrule, hprio⟩ := hrules n (by simp)
    refine ⟨if best.priority > rule.priority then
      ⟨rule.priority, packResult rule.action rule.priority⟩ else best, ?_, .inr ?_⟩
    · rw [List.foldlM_append, hfold]
      simp [visitRule, hrule]
    rcases hbest with ⟨rfl, rfl⟩ | ⟨i, hi, rule1, hrule1, rfl, hmin⟩
    · -- the first rule beats the priority that no rule has
      refine ⟨n, by simp, rule, hrule, if_pos ?_, fun j hj rule' hrule' => .inr ?_⟩
      · exact Nat.lt_of_le_of_lt hprio (by decide)
      · obtain rfl : j = n := by simpa using hj
        rw [hrule] at hrule'
        cases hrule'
        exact ⟨rfl, le_rfl⟩
    · by_cases hlt : rule1.priority > rule.priority
      · refine ⟨n, by simp, rule, hrule, if_pos hlt, fun j hj rule' hrule' => ?_⟩
        rcases List.mem_append.mp hj with hj | hj
        · have := hmin j hj rule' hrule'
          omega
        · obtain rfl : j = n := by simpa using hj
          rw [hrule] at hrule'
          cases hrule'
          exact .inr ⟨rfl, le_rfl⟩
      · refine ⟨i, by simp [hi], rule1, hrule1, if_neg hlt, fun j hj rule' hrule' => ?_⟩
        rcases List.mem_append.mp hj with hj | hj
        · exact hmin j hj rule' hrule'
        · obtain rfl : j = n := by simpa using hj
          rw [hrule] at hrule'
          cases hrule'
          have := hlast i hi j (by simp)
          omega

/-- The fields of an entry. -/
theorem packResult_fields (action : FwAction) {prio : Nat} (h : prio ≤ saclPriorityLowest) :
    packResult action prio % 2 = action.bit ∧ packResult action prio / 2 = prio := by
  have hbit : action.bit < 2 ^ 1 := by cases action <;> decide
  have hlt : prio < 2 ^ 10 := Nat.lt_succ_of_le h
  have hshift : prio <<< 1 &&& 0x7FE = 2 ^ 1 * prio := by
    calc prio <<< 1 &&& 0x7FE = (prio &&& (2 ^ 10 - 1)) <<< 1 := by
          rw [Nat.shiftLeft_and_distrib]; rfl
      _ = 2 ^ 1 * prio := by
          rw [Nat.and_two_pow_sub_one_eq_mod, Nat.mod_eq_of_lt hlt, Nat.shiftLeft_eq, Nat.mul_comm]
  rw [packResult, hshift, Nat.or_comm, ← Nat.two_pow_add_eq_or_of_lt hbit]
  constructor <;> omega

/-- **The result of a bitmap**: the action and the priority of the best rule in it, and the
default action if it is empty. -/
theorem rfcComputeP3Result_spec (hprio : ∀ rule ∈ π.rules, rule.priority ≤ maxRulePriority)
    (hbits : ∀ i, cbm.test i = true → i < π.rules.length) :
    ∃ result, rfcComputeP3Result π cbm = some result ∧
      ((∀ i, cbm.test i = false) → result % 2 = π.defaultAction.bit) ∧
      ((∃ i, cbm.test i = true) → ∃ i rule, IsBest π cbm i rule ∧
        result % 2 = rule.action.bit ∧ result / 2 = rule.priority) := by
  have hrules : ∀ i, cbm.test i = true →
      ∃ rule, π.rules[i]? = some rule ∧ rule.priority ≤ maxRulePriority := fun i hi =>
    ⟨_, List.getElem?_eq_getElem (hbits i hi), hprio _ (List.getElem_mem _)⟩
  cases hscan : cbm.scan cbm.length with
  | none =>
    have hempty := scan_eq_none_iff.mp hscan
    refine ⟨packResult π.defaultAction saclPriorityLowest, ?_, fun _ => ?_, ?_⟩
    · rw [rfcComputeP3Result, hscan]
    · exact (packResult_fields _ le_rfl).1
    · rintro ⟨i, hi⟩
      rw [hempty i] at hi
      cases hi
  | some first =>
    obtain ⟨best, hfold, hbest⟩ := foldlM_visitRule cbm.posns_sorted
      fun i hi => hrules i (mem_posns.mp hi)
    refine ⟨best.result, ?_, fun hempty => ?_, fun _ => ?_⟩
    · rw [rfcComputeP3Result, hscan]
      simp only [walk_eq hscan, hfold]
      rfl
    · rw [scan_eq_none_iff.mpr hempty] at hscan
      cases hscan
    · rcases hbest with ⟨hnil, -⟩ | ⟨i, hi, rule, hrule, rfl, hmin⟩
      · -- the scan found a slab, so there is a set position
        have hempty : ∀ k, cbm.test k = false := by
          intro k
          rw [← Bool.not_eq_true, ← mem_posns, hnil]
          exact List.not_mem_nil
        rw [scan_eq_none_iff.mpr hempty] at hscan
        cases hscan
      · have hset := mem_posns.mp hi
        obtain ⟨rule', hrule', hprio⟩ := hrules i hset
        rw [hrule] at hrule'
        cases hrule'
        refine ⟨i, rule, ⟨hrule, hset, fun j rule' hj => hmin j (mem_posns.mpr hj) _⟩,
          packResult_fields _ (Nat.le_succ_of_le hprio)⟩

theorem packResult_lt (action : FwAction) (prio : Nat) : packResult action prio < 2 ^ 11 := by
  have hbit : action.bit < 2 ^ 11 := by cases action <;> decide
  exact Nat.or_lt_two_pow hbit (Nat.and_lt_two_pow _ (by decide))

/-- A walk over rules ends with an entry of 11 bits. -/
theorem foldlM_visitRule_lt {is : List Nat} (hrules : ∀ i ∈ is, i < π.rules.length) {best : Best}
    (hbest : best.result < 2 ^ 11) :
    ∃ best', is.foldlM (visitRule π) best = some best' ∧ best'.result < 2 ^ 11 := by
  induction is generalizing best with
  | nil => exact ⟨best, rfl, hbest⟩
  | cons i is ih =>
    obtain ⟨hi, his⟩ := List.forall_mem_cons.mp hrules
    have hrule := List.getElem?_eq_getElem hi
    rw [List.foldlM_cons, visitRule, hrule]
    refine ih his ?_
    split
    · exact packResult_lt _ _
    · exact hbest

/-- Every bitmap of rules has a result, whatever their priorities. -/
theorem exists_rfcComputeP3Result (hbits : ∀ i, cbm.test i = true → i < π.rules.length) :
    ∃ result, rfcComputeP3Result π cbm = some result ∧ result < 2 ^ 11 := by
  cases hscan : cbm.scan cbm.length with
  | none => exact ⟨_, by rw [rfcComputeP3Result, hscan], packResult_lt _ _⟩
  | some first =>
    obtain ⟨best, hfold, hlt⟩ := @foldlM_visitRule_lt w π cbm.posns
      (fun i hi => hbits i (mem_posns.mp hi)) ⟨saclPriorityInvalid, 0⟩ (by decide)
    refine ⟨best.result, ?_, hlt⟩
    rw [rfcComputeP3Result, hscan]
    simp only [walk_eq hscan, hfold]
    rfl

end Result

/-- 70 rules, the last ones first. -/
def lastFirst : Policy 32 where
  maxRules := 512
  defaultAction := .allow
  rules := (List.range 70).map fun i => ⟨none, .none, .none, ⟨⟨0, 0⟩, ⟨0, 0⟩⟩, 100 - i, .deny⟩

/-- Rules 0, 2 and 65 match. -/
theorem rfcComputeP3Result_lastFirst :
    ∃ result, rfcComputeP3Result lastFirst [5#64, 2#64] = some result ∧
      ∃ i rule, IsBest lastFirst [5#64, 2#64] i rule ∧
        result % 2 = rule.action.bit ∧ result / 2 = rule.priority := by
  have hbits : ∀ i, test [5#64, 2#64] i = true → i < lastFirst.rules.length := by
    intro i hi
    have hmem := mem_posns.mpr hi
    exact (show ∀ i ∈ [0, 2, 65], i < lastFirst.rules.length by decide) i hmem
  obtain ⟨result, hret, -, hbest⟩ := rfcComputeP3Result_spec (by decide) hbits
  exact ⟨result, hret, hbest ⟨65, by decide⟩⟩

end NicSw.Rfc
