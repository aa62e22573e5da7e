/-
The interval tables of a policy (`rfc_tree.cc`, `rfc_build_itables`): for each rule, the end
points of what it matches.

A rule has a start and an end in a table, or a start only (a source port range up to 65535),
or nothing (an address in a tag table).  The tables are built rule by rule, so the end points
of a rule are found again by its number (`filter_itable`).
-/
import NicSw.Rfc.Policy

namespace NicSw.Rfc

open List

variable {w : Nat}

/-- `inode_t`. -/
structure Inode where
  key : Nat
  ruleNo : Nat
  start : Bool
  deriving DecidableEq, Repr

/-- `itable_add_address_inodes`. -/
def itableAddAddressInodes (rule : Nat) (pfx : IpPrefix w) : List Inode :=
  [⟨pfx.ipLow.toNat, rule, true⟩, ⟨pfx.ipNext.toNat, rule, false⟩]

/-- `itable_add_address_range_inodes`. -/
def itableAddAddressRangeInodes (rule : Nat) (lo hi : BitVec w) : List Inode :=
  [⟨lo.toNat, rule, true⟩, ⟨hi.toNat, rule, false⟩]

/-- `itable_add_tag_inodes`. -/
def itableAddTagInodes (rule : Nat) (tag : BitVec 32) : List Inode :=
  [⟨tag.toNat, rule, true⟩, ⟨(tag + 1).toNat, rule, false⟩]

/-- `itable_update_l4_any`. -/
def itableUpdateL4Any : RuleL4Match := ⟨⟨0, 65535⟩, ⟨0, 65535⟩⟩

/-- `itable_update_icmp_type_code`. -/
def itableUpdateIcmpTypeCode (m : RuleL4Match) : RuleL4Match where
  sportRange := ⟨0, 65535⟩
  dportRange :=
    if m.typeSpecific then
      if m.codeSpecific then
        ⟨m.icmpType <<< 8 ||| m.icmpCode, m.icmpType <<< 8 ||| m.icmpCode⟩
      else ⟨m.icmpType <<< 8, m.icmpType <<< 8 ||| 255⟩
    else ⟨0, 65535⟩

/-- `itable_add_port_inodes`; ports are 16 bits wide here. -/
def itableAddPortInodes (rule : Nat) (m : RuleL4Match) : List Inode :=
  ⟨m.sportRange.portLo % 2 ^ 16, rule, true⟩ ::
    if m.sportRange.portHi ≠ 65535 then [⟨(m.sportRange.portHi + 1) % 2 ^ 16, rule, false⟩] else []

/-- `itable_add_proto_port_inodes`. -/
def itableAddProtoPortInodes (rule : Nat) (ipProto : Option (BitVec 8)) (m : RuleL4Match) :
    List Inode :=
  [⟨((ipProto.getD 0).toNat <<< 24 ||| m.dportRange.portLo) % 2 ^ 32, rule, true⟩,
    ⟨((ipProto.getD 255).toNat <<< 24 ||| (m.dportRange.portHi + 1)) % 2 ^ 32, rule, false⟩]

/-! ### The tables of a policy -/

/-- The match on an address; without one, the prefix is all zeroes. -/
def ipInodes (rule : Nat) : IpMatch w → List Inode
  | .pfx p => itableAddAddressInodes rule p
  | .range lo hi => itableAddAddressRangeInodes rule lo hi
  | .tag _ => []
  | .none => itableAddAddressInodes rule (⟨0, 0⟩ : IpPrefix w)

/-- The match on a tag. -/
def tagInodes (rule : Nat) : IpMatch w → List Inode
  | .tag t => itableAddTagInodes rule t
  | _ => []

/-- `l4_match` in `rfc_build_itables`. -/
def Rule.l4 (rule : Rule w) : RuleL4Match :=
  match rule.ipProto with
  | none => itableUpdateL4Any
  | some proto =>
    if proto = ipProtoIcmp then itableUpdateIcmpTypeCode rule.l4Match
    else if proto ≠ ipProtoTcp ∧ proto ≠ ipProtoUdp then itableUpdateL4Any
    else rule.l4Match

/-- The loop of `rfc_build_itables`, for one table. -/
def itable (inodes : Nat → Rule w → List Inode) (rules : List (Rule w)) : List Inode :=
  rules.zipIdx.flatMap fun r => inodes r.2 r.1

def sipInodes (i : Nat) (rule : Rule w) : List Inode := ipInodes i rule.src

def stagInodes (i : Nat) (rule : Rule w) : List Inode := tagInodes i rule.src

def dipInodes (i : Nat) (rule : Rule w) : List Inode := ipInodes i rule.dst

def dtagInodes (i : Nat) (rule : Rule w) : List Inode := tagInodes i rule.dst

def portInodes (i : Nat) (rule : Rule w) : List Inode := itableAddPortInodes i rule.l4

def protoPortInodes (i : Nat) (rule : Rule w) : List Inode :=
  itableAddProtoPortInodes i rule.ipProto rule.l4

/-! ### The end points of a rule -/

/-- The nodes that are made for a rule have its number. -/
def Numbered (inodes : Nat → Rule w → List Inode) : Prop :=
  ∀ i rule, ∀ x ∈ inodes i rule, x.ruleNo = i

section Numbered

variable {inodes : Nat → Rule w → List Inode} {x : Inode} {i : Nat}

theorem ruleNo_ipInodes {m : IpMatch w} (h : x ∈ ipInodes i m) : x.ruleNo = i := by
  cases m with
  | tag t => cases h
  | none | pfx p | range lo hi =>
    rcases mem_cons.mp h with rfl | h
    · rfl
    · rw [mem_singleton.mp h]

theorem numbered_sip : Numbered (sipInodes (w := w)) := fun _ _ _ h => ruleNo_ipInodes h

theorem mem_itable {rules : List (Rule w)} (h : x ∈ itable inodes rules) :
    ∃ i rule, rules[i]? = some rule ∧ x ∈ inodes i rule := by
  obtain ⟨⟨rule, i⟩, hr, hx⟩ := mem_flatMap.mp h
  exact ⟨i, rule, mem_zipIdx_iff_getElem?.mp hr, hx⟩

theorem mem_itable_of {rules : List (Rule w)} {rule : Rule w} (hrule : rules[i]? = some rule)
    (hx : x ∈ inodes i rule) : x ∈ itable inodes rules :=
  mem_flatMap.mpr ⟨(rule, i), mem_zipIdx_iff_getElem?.mpr hrule, hx⟩

theorem filter_inodes (hn : Numbered inodes) (i j : Nat) (rule : Rule w) :
    (inodes i rule).filter (fun x => x.ruleNo = j) = if i = j then inodes i rule else [] := by
  split
  · rename_i h
    refine filter_eq_self.mpr fun x hx => ?_
    simpa [h] using hn i rule x hx
  · rename_i h
    refine filter_eq_nil_iff.mpr fun x hx => ?_
    simpa [hn i rule x hx] using h

/-- **The end points of rule `j`.** -/
theorem filter_itable (hn : Numbered inodes) (rules : List (Rule w)) (j : Nat) :
    (itable inodes rules).filter (fun x => x.ruleNo = j) = (rules[j]?.map (inodes j)).getD [] := by
  have key : ∀ n, (((rules.zipIdx n).flatMap fun r => inodes r.2 r.1).filter
      fun x => x.ruleNo = j) = if n ≤ j then (rules[j - n]?.map (inodes j)).getD [] else [] := by
    induction rules with
    | nil => intro n; simp
    | cons rule rules ih =>
      intro n
      rw [zipIdx_cons, flatMap_cons, filter_append, filter_inodes hn, ih]
      rcases Nat.lt_trichotomy n j with hlt | rfl | hgt
      · rw [if_neg (Nat.ne_of_lt hlt), if_pos (Nat.succ_le_of_lt hlt),
          if_pos (Nat.le_of_lt hlt), nil_append, show j - n = (j - (n + 1)) + 1 by omega,
          getElem?_cons_succ]
      · simp
      · rw [if_neg (Nat.ne_of_gt hgt), if_neg (by omega), if_neg (by omega), nil_append]
  simpa [itable] using key 0

end Numbered

end NicSw.Rfc
