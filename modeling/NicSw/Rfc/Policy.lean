/-
Security policies (`pds_policy.hpp`), with the constants of `apulu_sacl_defines.h`.

The width `w` of an address is a parameter (32 for IPv4, 128 for IPv6).

`rule_l4_match_t` is a union of two port ranges and of the match on the ICMP type and code.
The members lie at the same offsets: the match types at the low ends of the ranges, type and
code in the low bytes of the high ends.  So there is one record, with an ICMP view.
-/
import NicSw.Lpm.Prefix

namespace NicSw.Rfc

/-- `fw_action_t`. -/
inductive FwAction
  | none
  | allow
  | deny
  deriving DecidableEq, Repr

/-- `ip_match_type_t`, with what is matched. -/
inductive IpMatch (w : Nat)
  | none
  | pfx (p : IpPrefix w)
  | range (lo hi : BitVec w)
  | tag (t : BitVec 32)
  deriving DecidableEq, Repr

/-- `port_range_t`. -/
structure PortRange where
  portLo : Nat
  portHi : Nat
  deriving DecidableEq, Repr

/-- `rule_l4_match_t`. -/
structure RuleL4Match where
  sportRange : PortRange
  dportRange : PortRange
  deriving DecidableEq, Repr

namespace RuleL4Match

variable (m : RuleL4Match)

/-- `type_match_type == MATCH_SPECIFIC`. -/
def typeSpecific : Bool := m.sportRange.portLo == 1

def icmpType : Nat := m.sportRange.portHi % 256

/-- `code_match_type == MATCH_SPECIFIC`. -/
def codeSpecific : Bool := m.dportRange.portLo == 1

def icmpCode : Nat := m.dportRange.portHi % 256

end RuleL4Match

/-- A rule; `ipProto` is `none` for `MATCH_ANY`. -/
structure Rule (w : Nat) where
  ipProto : Option (BitVec 8)
  src : IpMatch w
  dst : IpMatch w
  l4Match : RuleL4Match
  priority : Nat
  action : FwAction
  deriving DecidableEq, Repr

/-- `policy_t`. -/
structure Policy (w : Nat) where
  maxRules : Nat
  defaultAction : FwAction
  rules : List (Rule w)
  deriving DecidableEq, Repr

def ipProtoIcmp : BitVec 8 := 1

def ipProtoTcp : BitVec 8 := 6

def ipProtoUdp : BitVec 8 := 17

/-- `PDS_MAX_RULES_PER_IPV4_SECURITY_POLICY`. -/
def maxRulesV4 : Nat := 1023

def saclPriorityLowest : Nat := 0x3FF

def saclPriorityInvalid : Nat := saclPriorityLowest + 1

/-- `PDS_MAX_RULE_PRIORITY`. -/
def maxRulePriority : Nat := 1022

end NicSw.Rfc
