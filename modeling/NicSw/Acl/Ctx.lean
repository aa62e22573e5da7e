/-
ACL contexts: where a rule is filed, how a key is classified, and that the best rule is
found.

A rule goes to the tree of one of its fields, or to the default list: the cheapest place at
the time.  Classification walks all trees at the key's field and then the default list, and
keeps the best match so far; in a list it stops at the first match and where the priority is
worse.  Whatever the history, the answer is a rule with the smallest priority number among
the rules that match.
-/
import NicSw.Acl.Rule
import NicSw.Acl.Itree
import NicSw.Lib.Run

namespace NicSw.Acl

open Function List

variable {cfg : Config}

/-- `acl_ctx_t`: a table for each field and the default list. -/
structure Ctx (cfg : Config) where
  tables : Fin cfg.numFields → Itree (Rule cfg)
  defList : List (Rule cfg)

/-- The results of adding a rule. -/
inductive HalRet
  | ok
  | invalidArg
  deriving DecidableEq, Repr

/-! ### The tables -/

/-- The `match` of both `add_rule` functions: a rule goes before this entry. -/
def priorityMatch (rule entry : Rule cfg) : Bool := entry.priority ≥ rule.priority

/-- `acl_itree_cost`; `~0` if the field has no interval. -/
def aclItreeCost (cfg : Config) (fid : Fin cfg.numFields) (tree : Itree (Rule cfg))
    (rule : Rule cfg) : Nat :=
  match fieldInterval cfg fid rule with
  | none => 2 ^ 32 - 1
  | some (low, high) => tree.cost low high

/-- `acl_itree_add_rule`. -/
def aclItreeAddRule (cfg : Config) (fid : Fin cfg.numFields) (tree : Itree (Rule cfg))
    (rule : Rule cfg) : HalRet × Itree (Rule cfg) :=
  match fieldInterval cfg fid rule with
  | none => (.invalidArg, tree)
  | some (low, high) => (.ok, tree.insert low high rule (priorityMatch rule))

/-- `acl_itree_del_rule`. -/
def aclItreeDelRule (cfg : Config) (fid : Fin cfg.numFields) (tree : Itree (Rule cfg))
    (rule : Rule cfg) : Itree (Rule cfg) :=
  match fieldInterval cfg fid rule with
  | none => tree
  | some (low, high) => tree.remove low high (ruleCompare cfg rule)

/-- `acl_list_cost`. -/
def aclListCost (list : List (Rule cfg)) : Nat := list.length % 2 ^ 32

/-- `acl_list_del_rule`. -/
def aclListDelRule (cfg : Config) (list : List (Rule cfg)) (rule : Rule cfg) :
    List (Rule cfg) :=
  (listRemove (ruleCompare cfg rule) list).getD list

/-- The callback of both `classify` functions. -/
def classifyCb (cfg : Config) (key : Key) (best : Option (Rule cfg)) (rule : Rule cfg) :
    Option (Rule cfg) × Bool :=
  if best.any fun b => b.priority < rule.priority then (best, false)
  else if ruleMatch cfg rule key then (some rule, false)
  else (best, true)

/-- `acl_itree_classify`. -/
def aclItreeClassify (cfg : Config) (fid : Fin cfg.numFields) (tree : Itree (Rule cfg))
    (key : Key) (best : Option (Rule cfg)) : Option (Rule cfg) :=
  (tree.walk (fieldKey cfg fid key) (fieldKey cfg fid key) (classifyCb cfg key) best).2

/-- `acl_list_classify`. -/
def aclListClassify (cfg : Config) (list : List (Rule cfg)) (key : Key)
    (best : Option (Rule cfg)) : Option (Rule cfg) :=
  listWalk (classifyCb cfg key) list best

/-! ### The context -/

namespace Ctx

/-- `acl_ctx_t::create`. -/
def create : Ctx cfg := ⟨fun _ => .create, []⟩

/-- One turn of the loop in `add_rule`: the lowest cost so far and its field. -/
def cheaper (c : Ctx cfg) (rule : Rule cfg) (s : Nat × Option (Fin cfg.numFields))
    (fid : Fin cfg.numFields) : Nat × Option (Fin cfg.numFields) :=
  if s.1 > 0 ∧ (rule.field fid).empty = false then
    let cost := aclItreeCost cfg fid (c.tables fid) rule
    if cost < s.1 then (cost, some fid) else s
  else s

/-- The loop in `add_rule`; no field means the default list. -/
def cheapest (c : Ctx cfg) (rule : Rule cfg) : Nat × Option (Fin cfg.numFields) :=
  (List.finRange cfg.numFields).foldl (c.cheaper rule) (aclListCost c.defList, none)

/-- `acl_ctx_t::add_rule`. -/
def addRule (c : Ctx cfg) (rule : Rule cfg) : HalRet × Ctx cfg :=
  match (c.cheapest rule).2 with
  | some fid =>
    let (ret, table) := aclItreeAddRule cfg fid (c.tables fid) rule
    (ret, { c with tables := update c.tables fid table })
  | none => (.ok, { c with defList := listInsert (priorityMatch rule) rule c.defList })

/-- `acl_ctx_t::del_rule`. -/
def delRule (c : Ctx cfg) (rule : Rule cfg) : Ctx cfg where
  tables fid := aclItreeDelRule cfg fid (c.tables fid) rule
  defList := aclListDelRule cfg c.defList rule

/-- `acl_ctx_t::classify`; `none` is the null pointer. -/
def classify (c : Ctx cfg) (key : Key) : Option (Rule cfg) :=
  aclListClassify cfg c.defList key <|
    (List.finRange cfg.numFields).foldl
      (fun best fid => aclItreeClassify cfg fid (c.tables fid) key best) none

/-- All rules of a context. -/
def rules (c : Ctx cfg) : List (Rule cfg) :=
  (List.finRange cfg.numFields).flatMap (fun fid => (c.tables fid).entries) ++ c.defList

end Ctx

/-! ### The best match -/

/-- `best` is a match of `S` with the smallest priority number, or there is no match. -/
def IsBest (cfg : Config) (key : Key) (S : List (Rule cfg)) : Option (Rule cfg) → Prop
  | none => ∀ r ∈ S, ruleMatch cfg r key = false
  | some b => b ∈ S ∧ ruleMatch cfg b key = true ∧
      ∀ r ∈ S, ruleMatch cfg r key = true → b.priority ≤ r.priority

/-- The callback skips a rule that is worse, takes a match, or goes on. -/
theorem classifyCb_cases (key : Key) (best : Option (Rule cfg)) (e : Rule cfg) :
    (classifyCb cfg key best e = (best, false) ∧ ∃ b ∈ best, b.priority < e.priority) ∨
    (classifyCb cfg key best e = (some e, false) ∧ ruleMatch cfg e key = true ∧
      ∀ b ∈ best, e.priority ≤ b.priority) ∨
    (classifyCb cfg key best e = (best, true) ∧ ruleMatch cfg e key = false) := by
  unfold classifyCb
  cases best with
  | none => cases hm : ruleMatch cfg e key <;> simp
  | some b =>
    obtain hlt | hge := Nat.lt_or_ge b.priority e.priority
    · exact .inl ⟨by simp [hlt], b, rfl, hlt⟩
    · cases hm : ruleMatch cfg e key <;> simp [hge]

variable {es : List (Rule cfg)}

namespace IsBest

variable {key : Key} {S T : List (Rule cfg)} {best : Option (Rule cfg)}

section

variable (h : IsBest cfg key S best)
include h

theorem of_perm (hp : S.Perm T) : IsBest cfg key T best := by
  cases best with
  | none => exact fun r hr => h r (hp.mem_iff.2 hr)
  | some b =>
    obtain ⟨hb, hm, hmin⟩ := h
    exact ⟨hp.mem_iff.1 hb, hm, fun r hr => hmin r (hp.mem_iff.2 hr)⟩

/-- Rules that are no better than the best one, or do not match, may be skipped. -/
theorem skip (hT : ∀ r ∈ T, ruleMatch cfg r key = true → ∃ b ∈ best, b.priority ≤ r.priority) :
    IsBest cfg key (S ++ T) best := by
  cases best with
  | none =>
    intro r hr
    obtain hr | hr := mem_append.1 hr
    · exact h r hr
    · refine Bool.eq_false_iff.2 fun hm => ?_
      obtain ⟨b, hb, -⟩ := hT r hr hm
      cases hb
  | some b =>
    obtain ⟨hb, hm, hmin⟩ := h
    refine ⟨mem_append_left _ hb, hm, fun r hr hr' => ?_⟩
    obtain hr | hr := mem_append.1 hr
    · exact hmin r hr hr'
    · obtain ⟨b', hb', hle⟩ := hT r hr hr'
      cases hb'
      exact hle

/-- A match that is at least as good as the best one replaces it. -/
theorem replace {e : Rule cfg} (he : ruleMatch cfg e key = true)
    (hle : ∀ b ∈ best, e.priority ≤ b.priority) (hT : ∀ r ∈ T, e.priority ≤ r.priority) :
    IsBest cfg key (S ++ e :: T) (some e) := by
  refine ⟨by simp, he, fun r hr hm => ?_⟩
  obtain hr | hr := mem_append.1 hr
  · cases best with
    | none => rw [h r hr] at hm; cases hm
    | some b => exact Nat.le_trans (hle b rfl) (h.2.2 r hr hm)
  · obtain rfl | hr := mem_cons.1 hr
    · exact Nat.le_refl _
    · exact hT r hr

/-- The walk over a list in the order of priority does not miss a better match. -/
theorem listWalk (hes : es.Pairwise fun a b => a.priority ≤ b.priority) :
    IsBest cfg key (S ++ es) (Acl.listWalk (classifyCb cfg key) es best) := by
  induction es generalizing S best with
  | nil => simpa [Acl.listWalk] using h
  | cons e es ih =>
    obtain ⟨he, hes⟩ := pairwise_cons.1 hes
    obtain ⟨hcb, b, hb, hlt⟩ | ⟨hcb, hm, hle⟩ | ⟨hcb, hm⟩ := classifyCb_cases key best e
    · -- all that follow are worse than the best match
      rw [Acl.listWalk, hcb]
      refine h.skip fun r hr _ => ⟨b, hb, ?_⟩
      obtain rfl | hr := mem_cons.1 hr
      · exact Nat.le_of_lt hlt
      · exact Nat.le_trans (Nat.le_of_lt hlt) (he r hr)
    · rw [Acl.listWalk, hcb]
      exact h.replace hm hle he
    · rw [Acl.listWalk, hcb, append_cons]
      refine ih (h.skip ?_) hes
      intro r hr hr'
      rw [mem_singleton.1 hr, hm] at hr'
      cases hr'

end

end IsBest

/-! ### Where the rules are -/

/-- Every rule of a table is filed under the interval of its field, which is not empty, and
all lists are in the order of priority. -/
structure Filed (c : Ctx cfg) : Prop where
  filed : ∀ fid, ∀ x ∈ (c.tables fid).nodes,
    (x.entries.Pairwise fun a b => a.priority ≤ b.priority) ∧
      ∀ r ∈ x.entries, (r.field fid).empty = false ∧
        fieldInterval cfg fid r = some (x.low, x.high)
  sorted : c.defList.Pairwise fun a b => a.priority ≤ b.priority

/-- The order of priority is kept by an insertion. -/
theorem listInsert_sorted {rule : Rule cfg} (h : es.Pairwise fun a b => a.priority ≤ b.priority) :
    (listInsert (priorityMatch rule) rule es).Pairwise fun a b => a.priority ≤ b.priority := by
  induction es with
  | nil => exact pairwise_singleton _ _
  | cons e es ih =>
    obtain ⟨he, hes⟩ := pairwise_cons.1 h
    rw [listInsert]
    split_ifs with hm
    · have hle : rule.priority ≤ e.priority := by simpa [priorityMatch] using hm
      refine pairwise_cons.2 ⟨fun r hr => ?_, h⟩
      obtain rfl | hr := mem_cons.1 hr
      · exact hle
      · exact Nat.le_trans hle (he r hr)
    · have hlt : e.priority < rule.priority := by simpa [priorityMatch] using hm
      refine pairwise_cons.2 ⟨fun r hr => ?_, ih hes⟩
      obtain rfl | hr := mem_cons.1 ((listInsert_perm _ _ _).mem_iff.1 hr)
      · exact Nat.le_of_lt hlt
      · exact he r hr

namespace Filed

variable {c : Ctx cfg}

/-- A table contributes all its rules to the best match: those in the nodes that are not
visited do not match. -/
theorem itreeClassify (h : Filed c) (key : Key) (fid : Fin cfg.numFields) {S : List (Rule cfg)}
    {best : Option (Rule cfg)} (hb : IsBest cfg key S best) :
    IsBest cfg key (S ++ (c.tables fid).entries)
      (aclItreeClassify cfg fid (c.tables fid) key best) := by
  rw [aclItreeClassify, Itree.walk_eq, Itree.entries]
  have hf := h.filed fid
  generalize (c.tables fid).nodes = l at hf
  induction l generalizing S best with
  | nil => simpa using hb
  | cons x l ih =>
    rw [flatMap_cons, ← append_assoc]
    obtain ⟨hx, hl⟩ := forall_mem_cons.1 hf
    cases hm : Itree.meets (fieldKey cfg fid key) (fieldKey cfg fid key) x with
    | true =>
      rw [filter_cons_of_pos hm, foldl_cons]
      exact ih (hb.listWalk hx.1) hl
    | false =>
      rw [filter_cons_of_neg (by simp [hm])]
      refine ih (hb.skip fun r hr hr' => ?_) hl
      obtain ⟨hne, hi⟩ := hx.2 r hr
      have hk := mem_interval_of_fldMatch (fieldKey_lt fid key) hi
        (ruleMatch_iff.1 hr' fid hne)
      simp [Itree.meets, hk] at hm

/-- **Classification finds the best match among all rules.** -/
theorem classify_isBest (h : Filed c) (key : Key) :
    IsBest cfg key c.rules (c.classify key) := by
  refine IsBest.listWalk ?_ h.sorted
  have hloop : ∀ (l : List (Fin cfg.numFields)) S best, IsBest cfg key S best →
      IsBest cfg key (S ++ l.flatMap fun fid => (c.tables fid).entries)
        (l.foldl (fun best fid => aclItreeClassify cfg fid (c.tables fid) key best) best) := by
    intro l
    induction l with
    | nil => intro S best hb; simpa using hb
    | cons fid l ih =>
      intro S best hb
      rw [flatMap_cons, ← append_assoc, foldl_cons]
      exact ih _ _ (h.itreeClassify key fid hb)
  exact hloop (List.finRange cfg.numFields) [] none (by simp [IsBest])

end Filed

/-- The table of the lowest cost is that of a field that is not empty and has an interval:
without one the cost is never lower. -/
theorem Ctx.cheapest_field {c : Ctx cfg} {rule : Rule cfg} {fid : Fin cfg.numFields}
    (h : (c.cheapest rule).2 = some fid) :
    (rule.field fid).empty = false ∧ ∃ low high, fieldInterval cfg fid rule = some (low, high) := by
  have hinv : (c.cheapest rule).1 ≤ 2 ^ 32 - 1 ∧ ∀ fid ∈ (c.cheapest rule).2,
      (rule.field fid).empty = false ∧
        ∃ low high, fieldInterval cfg fid rule = some (low, high) := by
    refine List.foldlRecOn (motive := fun s : Nat × Option (Fin cfg.numFields) =>
      s.1 ≤ 2 ^ 32 - 1 ∧ ∀ fid ∈ s.2, (rule.field fid).empty = false ∧
        ∃ low high, fieldInterval cfg fid rule = some (low, high)) _ _ ?_ ?_
    · exact ⟨Nat.le_sub_one_of_lt (Nat.mod_lt _ (by decide)), by simp⟩
    · intro s hs fid _
      unfold cheaper
      split_ifs with hne
      · by_cases hlt : aclItreeCost cfg fid (c.tables fid) rule < s.1
        · simp only [if_pos hlt]
          refine ⟨by omega, fun f hf => ?_⟩
          cases hf
          refine ⟨hne.2, ?_⟩
          unfold aclItreeCost at hlt
          split at hlt
          · omega
          · next low high hi => exact ⟨low, high, hi⟩
        · simpa only [if_neg hlt] using hs
      · exact hs
  exact hinv.2 fid h

namespace Filed

variable {c : Ctx cfg}

theorem create : Filed (Ctx.create : Ctx cfg) where
  filed _ x hx := by simp [Ctx.create, Itree.nodes, Itree.create, RedBlack.Tree.toList] at hx
  sorted := .nil

theorem addRule (h : Filed c) (rule : Rule cfg) : Filed (c.addRule rule).2 := by
  unfold Ctx.addRule
  split
  · next fid hfid =>
      obtain ⟨hne, low, high, hi⟩ := Ctx.cheapest_field hfid
      refine ⟨fun fid' => ?_, h.sorted⟩
      simp only [aclItreeAddRule, hi]
      by_cases hf : fid' = fid
      · subst hf
        rw [update_self]
        refine Itree.forall_nodes_insert (P := fun low high es =>
          (es.Pairwise fun a b => a.priority ≤ b.priority) ∧ ∀ r ∈ es,
            (r.field fid').empty = false ∧ fieldInterval cfg fid' r = some (low, high))
          (h.filed fid') ?_ ?_
        · exact ⟨pairwise_singleton _ _, by simp [hne, hi]⟩
        · rintro es ⟨hs, hes⟩
          refine ⟨listInsert_sorted hs, fun r hr => ?_⟩
          obtain rfl | hr := mem_cons.1 ((listInsert_perm _ _ _).mem_iff.1 hr)
          · exact ⟨hne, hi⟩
          · exact hes r hr
      · rw [update_of_ne hf]
        exact h.filed fid'
  · exact ⟨h.filed, listInsert_sorted h.sorted⟩

theorem delRule (h : Filed c) (rule : Rule cfg) : Filed (c.delRule rule) := by
  refine ⟨fun fid => ?_, ?_⟩
  · simp only [Ctx.delRule, aclItreeDelRule]
    split
    · exact h.filed fid
    refine Itree.forall_nodes_remove (P := fun low high es =>
      (es.Pairwise fun a b => a.priority ≤ b.priority) ∧ ∀ r ∈ es,
        (r.field fid).empty = false ∧ fieldInterval cfg fid r = some (low, high))
      (h.filed fid) ?_
    rintro es ⟨hs, hes⟩
    exact ⟨hs.sublist eraseP_sublist, fun r hr => hes r (mem_of_mem_eraseP hr)⟩
  · simp only [Ctx.delRule, aclListDelRule, listRemove]
    split_ifs
    · exact h.sorted.sublist eraseP_sublist
    · exact h.sorted

end Filed

/-- Changing one cell changes the list of all contents by what it adds to that cell. -/
theorem flatMap_update_perm {ι τ α : Type} [DecidableEq ι] {f : ι → τ} {g : τ → List α}
    {l : List ι} (hl : l.Nodup) {i : ι} (hi : i ∈ l) {v : τ} {e : α}
    (hv : (g v).Perm (e :: g (f i))) :
    (l.flatMap fun j => g (update f i v j)).Perm (e :: l.flatMap fun j => g (f j)) := by
  induction l with
  | nil => cases hi
  | cons j l ih =>
    obtain ⟨hj, hl⟩ := nodup_cons.1 hl
    rw [flatMap_cons, flatMap_cons]
    by_cases hji : j = i
    · subst hji
      have hrest : (l.flatMap fun k => g (update f j v k)) = l.flatMap fun k => g (f k) := by
        refine flatMap_congr fun k hk => ?_
        rw [update_of_ne (ne_of_mem_of_not_mem hk hj)]
      rw [update_self, hrest, ← cons_append]
      exact hv.append_right _
    · rw [update_of_ne hji]
      have hil : i ∈ l := (mem_cons.1 hi).resolve_left (Ne.symm hji)
      exact ((ih hl hil).append_left _).trans perm_middle

namespace Ctx

/-- An added rule is one of the rules, wherever it was filed. -/
theorem rules_addRule (c : Ctx cfg) (rule : Rule cfg) :
    (c.addRule rule).2.rules.Perm (rule :: c.rules) := by
  unfold addRule
  split
  · next fid hfid =>
      obtain ⟨-, low, high, hi⟩ := cheapest_field hfid
      simp only [aclItreeAddRule, hi, rules]
      refine .append_right _ (flatMap_update_perm (nodup_finRange _) (mem_finRange _) ?_)
      exact Itree.entries_insert _ low high rule _
  · simp only [rules]
    exact ((listInsert_perm _ _ _).append_left _).trans perm_middle

/-- A table loses what compares equal to the deleted rule. -/
theorem entries_delRule {c : Ctx cfg} (h : Filed c) (rule : Rule cfg) (fid : Fin cfg.numFields)
    (hone : (c.tables fid).entries.Pairwise fun a b =>
      ¬(ruleCompare cfg rule a ∧ ruleCompare cfg rule b)) :
    (aclItreeDelRule cfg fid (c.tables fid) rule).entries =
      (c.tables fid).entries.filter fun r => !ruleCompare cfg rule r := by
  unfold aclItreeDelRule
  split
  · next hi =>
      refine (filter_eq_self.2 fun r hr => ?_).symm
      obtain ⟨x, hx, hrx⟩ := mem_flatMap.1 hr
      refine Bool.not_eq_true' _ ▸ Bool.eq_false_iff.2 fun hm => ?_
      have hfr := ((h.filed fid x hx).2 r hrx).2
      rw [← fieldInterval_of_ruleCompare hm, hi] at hfr
      cases hfr
  · next low high hi =>
      refine Itree.entries_remove _ low high hone fun x hx r hr hm => ?_
      have hfr := ((h.filed fid x hx).2 r hr).2
      rw [← fieldInterval_of_ruleCompare hm, hi] at hfr
      cases hfr
      exact ⟨rfl, rfl⟩

/-- Deleting a rule takes out what compares equal to it. -/
theorem rules_delRule {c : Ctx cfg} (h : Filed c) (rule : Rule cfg)
    (hd : c.rules.Pairwise fun a b => ruleCompare cfg a b = false) :
    (c.delRule rule).rules = c.rules.filter fun r => !ruleCompare cfg rule r := by
  have hone : c.rules.Pairwise fun a b => ¬(ruleCompare cfg rule a ∧ ruleCompare cfg rule b) := by
    refine hd.imp fun {a b} hab hm => ?_
    rw [ruleCompare_trans (ruleCompare_symm hm.1) hm.2] at hab
    cases hab
  obtain ⟨ht, hl, -⟩ := pairwise_append.1 hone
  have htables : ∀ fid, (aclItreeDelRule cfg fid (c.tables fid) rule).entries =
      (c.tables fid).entries.filter fun r => !ruleCompare cfg rule r := fun fid =>
    entries_delRule h rule fid (pairwise_flatMap.1 ht |>.1 fid (mem_finRange fid))
  have hlist : aclListDelRule cfg c.defList rule =
      c.defList.filter fun r => !ruleCompare cfg rule r := by
    rw [← eraseP_eq_filter hl, aclListDelRule, listRemove]
    split_ifs with hany
    · rfl
    · exact (eraseP_of_forall_not (by simpa using hany)).symm
  simp [rules, delRule, htables, hlist, filter_flatMap]

end Ctx

/-! ### Runs -/

/-- A context, and the rules that were added and not deleted. -/
structure Run (cfg : Config) where
  ctx : Ctx cfg
  present : List (Rule cfg)

/-- The operations on a context.  A rule that is added has valid fields and differs under
`acl_rule_compare` from those present. -/
inductive Step : Run cfg → Run cfg → Prop
  | add (s : Run cfg) (rule : Rule cfg) (hv : rule.Valid)
      (hd : ∀ r ∈ s.present, ruleCompare cfg rule r = false) :
      Step s ⟨(s.ctx.addRule rule).2, rule :: s.present⟩
  | del (s : Run cfg) (rule : Rule cfg) :
      Step s ⟨s.ctx.delRule rule, s.present.filter fun r => !ruleCompare cfg rule r⟩

/-- A new context. -/
def Start (s : Run cfg) : Prop := s = ⟨Ctx.create, []⟩

/-- What every step keeps. -/
structure Good (s : Run cfg) : Prop where
  filed : Filed s.ctx
  rules : s.ctx.rules.Perm s.present
  distinct : s.present.Pairwise fun a b => ruleCompare cfg a b = false

theorem Ctx.rules_create : (Ctx.create : Ctx cfg).rules = [] := by
  simp [rules, create, Itree.entries, Itree.nodes, Itree.create, RedBlack.Tree.toList]

theorem Good.start : Good (⟨Ctx.create, []⟩ : Run cfg) where
  filed := .create
  rules := by rw [Ctx.rules_create]
  distinct := .nil

theorem Good.step {s s' : Run cfg} (h : Good s) (hs : Step s s') : Good s' := by
  cases hs with
  | add rule _ hd =>
    exact
      { filed := h.filed.addRule rule
        rules := (Ctx.rules_addRule s.ctx rule).trans (h.rules.cons rule)
        distinct := pairwise_cons.2 ⟨hd, h.distinct⟩ }
  | del rule =>
    have hd : s.ctx.rules.Pairwise fun a b => ruleCompare cfg a b = false := by
      refine (h.rules.pairwise_iff fun {a b} hab => ?_).2 h.distinct
      refine Bool.eq_false_iff.2 fun hba => ?_
      rw [ruleCompare_symm hba] at hab
      cases hab
    exact
      { filed := h.filed.delRule rule
        rules := by
          rw [Ctx.rules_delRule h.filed rule hd]
          exact h.rules.filter _
        distinct := h.distinct.filter _ }

/-- **Run.**  What a key is classified to is best among the rules that are present. -/
theorem isBest_of_reachable {s : Run cfg} (h : Reachable Start Step s) (key : Key) :
    IsBest cfg key s.present (s.ctx.classify key) := by
  have hg : Good s := h.invariant (by rintro s rfl; exact .start) fun _ _ hg hs => hg.step hs
  exact (hg.filed.classify_isBest key).of_perm hg.rules

/-- **The classifier is correct.**  After any additions and deletions, a key is classified
to no rule if none that is present matches, and else to a match with the smallest priority
number. -/
theorem classify_correct {s : Run cfg} (h : Reachable Start Step s) (key : Key) :
    (s.ctx.classify key = none ↔ ∀ r ∈ s.present, ruleMatch cfg r key = false) ∧
    ∀ b, s.ctx.classify key = some b → b ∈ s.present ∧ ruleMatch cfg b key = true ∧
      ∀ r ∈ s.present, ruleMatch cfg r key = true → b.priority ≤ r.priority := by
  have hb := isBest_of_reachable h key
  cases hc : s.ctx.classify key with
  | none =>
    rw [hc] at hb
    exact ⟨⟨fun _ => hb, fun _ => rfl⟩, by simp⟩
  | some b =>
    rw [hc] at hb
    refine ⟨⟨nofun, fun hn => ?_⟩, ?_⟩
    · have hm := hb.2.1
      rw [hn b hb.1] at hm
      cases hm
    · rintro _ ⟨⟩
      exact hb

/-- A configuration with one field, a range of ports. -/
def portConfig : Config := ⟨1, fun _ => ⟨.range, .u16, 0⟩, by decide⟩

/-- A rule for the ports from `low` to `high`. -/
def portRule (priority : Nat) (low high : BitVec 32) : Rule portConfig :=
  ⟨1, priority, 0, fun _ => ⟨⟨low⟩, ⟨high⟩, false⟩⟩

/-- Three rules are added and the best one is deleted: port 90 goes to the second best. -/
theorem classify_correct_ports :
    ∃ s : Run portConfig, Reachable Start Step s ∧
      s.ctx.classify (fun i => if i = 0 then 90 else 0) = some (portRule 3 80 90) ∧
      ∀ r ∈ s.present, ruleMatch portConfig r (fun i => if i = 0 then 90 else 0) = true →
        3 ≤ r.priority := by
  have h0 : Reachable Start Step (⟨Ctx.create, []⟩ : Run portConfig) := .start rfl
  have h1 := h0.step (.add _ (portRule 5 0 100) (by decide) (by decide))
  have h2 := h1.step (.add _ (portRule 3 80 90) (by decide) (by decide))
  have h3 := h2.step (.add _ (portRule 1 90 95) (by decide) (by decide))
  have h4 := h3.step (.del _ (portRule 1 90 95))
  refine ⟨_, h4, ?_, ((classify_correct h4 _).2 (portRule 3 80 90) ?_).2.2⟩
  all_goals decide

/-- The best matches of a list have one priority. -/
theorem IsBest.priority_eq {key : Key} {S : List (Rule cfg)} {b b' : Option (Rule cfg)}
    (h : IsBest cfg key S b) (h' : IsBest cfg key S b') :
    b.map (·.priority) = b'.map (·.priority) := by
  cases b with
  | none =>
    cases b' with
    | none => rfl
    | some b' => exact absurd h'.2.1 (by simp [h b' h'.1])
  | some b =>
    cases b' with
    | none => exact absurd h.2.1 (by simp [h' b h.1])
    | some b' =>
      exact congrArg some (Nat.le_antisymm (h.2.2 b' h'.1 h'.2.1) (h'.2.2 b h.1 h.2.1))

/-- **The history does not matter**: if the same rules are left of any two runs of additions and
deletions, every key is classified to rules of one priority. -/
theorem classify_of_perm {s s' : Run cfg} (h : Reachable Start Step s)
    (h' : Reachable Start Step s') (hp : s.present.Perm s'.present) (key : Key) :
    (s.ctx.classify key).map (·.priority) = (s'.ctx.classify key).map (·.priority) :=
  ((isBest_of_reachable h key).of_perm hp).priority_eq (isBest_of_reachable h' key)

/-- Two rules are added in either order. -/
theorem classify_of_perm_ports :
    ∃ s s' : Run portConfig, s.present = [portRule 3 80 90, portRule 5 0 100] ∧
      s'.present = [portRule 5 0 100, portRule 3 80 90] ∧ ∀ key,
        (s.ctx.classify key).map (·.priority) = (s'.ctx.classify key).map (·.priority) := by
  have h0 : Reachable Start Step (⟨Ctx.create, []⟩ : Run portConfig) := .start rfl
  have h1 := h0.step (.add _ (portRule 5 0 100) (by decide) (by decide))
  have h2 := h1.step (.add _ (portRule 3 80 90) (by decide) (by decide))
  have h1' := h0.step (.add _ (portRule 3 80 90) (by decide) (by decide))
  have h2' := h1'.step (.add _ (portRule 5 0 100) (by decide) (by decide))
  exact ⟨_, _, rfl, rfl, classify_of_perm h2 h2' (.swap ..)⟩

end NicSw.Acl
