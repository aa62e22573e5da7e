/-
How a firewall rule becomes rules of the ACL classifier, and what the classifier makes of
them.

A rule is expanded over its lists, each empty list giving one entry that stands for any.
`construct_rule_fields` encodes one combination in the twelve fields of the classifier;
the key of a flow is a tuple with the same fields.  `expand_match` says which flows hit a
rule after its expansion.
-/
import NicSw.Acl.Rule
import Mathlib.Data.Fin.VecNotation
import Mathlib.Tactic.FinCases

namespace NicSw.Sfw

open NicSw.Acl

/-! ### Protocols, ranges and rules -/

/-- The protocols that the expansion tells apart. -/
def ipprotoNone : BitVec 16 := 0
def ipprotoIcmp : BitVec 16 := 1
def ipprotoTcp : BitVec 16 := 6
def ipprotoUdp : BitVec 16 := 17
def ipprotoGre : BitVec 16 := 47
def ipprotoEsp : BitVec 16 := 50
def ipprotoIcmpv6 : BitVec 16 := 58

/-- `port_range_t`. -/
structure PortRange where
  low : BitVec 32
  high : BitVec 32
  deriving DecidableEq, Repr

/-- `addr_list_elem_t`; `numAddrs` is 0 in the entry that stands for any. -/
structure AddrElem where
  numAddrs : Nat
  low : BitVec 32
  high : BitVec 32
  deriving DecidableEq, Repr

/-- `rule_match_t` with its `rule_match_app_t`. -/
structure RuleMatch where
  srcAddrList : List AddrElem
  dstAddrList : List AddrElem
  srcSgList : List (BitVec 32)
  dstSgList : List (BitVec 32)
  srcMacAddrList : List (BitVec 64)
  dstMacAddrList : List (BitVec 64)
  ethertype : BitVec 16
  proto : BitVec 16
  l4SrcPortList : List PortRange
  l4DstPortList : List PortRange
  espSpi : BitVec 32
  icmpType : BitVec 32
  icmpCode : BitVec 32

/-- `INVALID_TCP_UDP_PORT`. -/
def invalidTcpUdpPort : BitVec 32 := 65536

/-- `IS_ANY_PORT`. -/
def PortRange.isAny (p : PortRange) : Bool :=
  p.low == invalidTcpUdpPort && p.high == invalidTcpUdpPort

/-! ### The tuple and its fields -/

/-- `ipv4_tuple`. -/
structure Ipv4Tuple where
  proto : BitVec 8
  ipSrc : BitVec 32
  ipDst : BitVec 32
  macSrc : BitVec 32
  macDst : BitVec 32
  ethertype : BitVec 16
  portSrc : BitVec 32
  portDst : BitVec 32
  srcSg : BitVec 32
  dstSg : BitVec 32
  icmpType : BitVec 32
  icmpCode : BitVec 32

/-- The fields of a rule, in the order of their enumeration. -/
abbrev Fid := Fin 12

/-- `ip_acl_config_glbl`, with the offsets of `ipv4_tuple`. -/
def ipAclConfig : Config where
  numFields := 12
  defs := ![⟨.exact, .u8, 0⟩, ⟨.range, .u32, 4⟩, ⟨.range, .u32, 8⟩, ⟨.exact, .u32, 12⟩,
    ⟨.exact, .u32, 16⟩, ⟨.exact, .u16, 20⟩, ⟨.range, .u32, 24⟩, ⟨.range, .u32, 28⟩,
    ⟨.range, .u32, 32⟩, ⟨.range, .u32, 36⟩, ⟨.exact, .u32, 40⟩, ⟨.exact, .u32, 44⟩]
  maxFields := by decide

/-- The value of a field. -/
def Ipv4Tuple.value (t : Ipv4Tuple) : Fid → Nat :=
  ![t.proto.toNat, t.ipSrc.toNat, t.ipDst.toNat, t.macSrc.toNat, t.macDst.toNat,
    t.ethertype.toNat, t.portSrc.toNat, t.portDst.toNat, t.srcSg.toNat, t.dstSg.toNat,
    t.icmpType.toNat, t.icmpCode.toNat]

/-- The field that a byte of a tuple belongs to. -/
def fidAt (i : Nat) : Option Fid :=
  (List.finRange 12).find? fun fid =>
    (ipAclConfig.defs fid).offset ≤ i &&
      i < (ipAclConfig.defs fid).offset + (ipAclConfig.defs fid).size.bits / 8

/-- The bytes of a tuple: each field at its offset, the lowest byte first. -/
def Ipv4Tuple.key (t : Ipv4Tuple) : Key := fun i =>
  match fidAt i with
  | some fid => BitVec.ofNat 8 (t.value fid / 256 ^ (i - (ipAclConfig.defs fid).offset))
  | none => 0

/-- The fields do not overlap. -/
theorem fidAt_offset : ∀ fid : Fid, ∀ j < (ipAclConfig.defs fid).size.bits / 8,
    fidAt ((ipAclConfig.defs fid).offset + j) = some fid := by
  decide

theorem Ipv4Tuple.value_lt (t : Ipv4Tuple) (fid : Fid) :
    t.value fid < 256 ^ ((ipAclConfig.defs fid).size.bits / 8) := by
  fin_cases fid <;> exact Nat.lt_of_lt_of_eq (BitVec.isLt _) rfl

/-- **The classifier reads the fields of the tuple.** -/
theorem fieldKey_key (t : Ipv4Tuple) (fid : Fid) :
    fieldKey ipAclConfig fid t.key = t.value fid := by
  refine keyBytes_of_bytes (t.value_lt fid) fun j hj => ?_
  simp [Ipv4Tuple.key, fidAt_offset fid j hj]

/-! ### The expansion -/

/-- A field of a rule that was just allocated. -/
def zeroField : Field := ⟨⟨0⟩, ⟨0⟩, false⟩

/-- A field that is not compared. -/
def emptyField : Field := { zeroField with empty := true }

/-- `IP_SRC` and `IP_DST`. -/
def addrField (entry : Option AddrElem) : Field :=
  match entry with
  | some e => if e.numAddrs ≠ 0 then ⟨⟨e.low⟩, ⟨e.high⟩, false⟩ else emptyField
  | none => emptyField

/-- `PORT_SRC` and `PORT_DST`, before the protocol is looked at. -/
def portField (entry : Option PortRange) : Field :=
  match entry with
  | some p => if p.isAny then emptyField else ⟨⟨p.low⟩, ⟨p.high⟩, false⟩
  | none => emptyField

/-- The second assignment of the port fields, for TCP and UDP. -/
def portAgain (entry : Option PortRange) (fld : Field) : Field :=
  match entry with
  | some p =>
    if p.low ≠ 0 ∨ p.high ≠ 0 then { fld with value := ⟨p.low⟩, maskRange := ⟨p.high⟩ }
    else fld
  | none => fld

/-- A value that is compared with all its bits. -/
def exactField (v mask : BitVec 32) : Field := ⟨⟨v⟩, ⟨mask⟩, false⟩

/-- `MAC_SRC`, `MAC_DST`, `SRC_SG` and `DST_SG`: zero stands for any. -/
def idField {w : Nat} (entry : Option (BitVec w)) : Field :=
  match entry with
  | some v => if v ≠ 0 then exactField (v.setWidth 32) 0xFFFFFFFF else emptyField
  | none => emptyField

/-- `ICMP_TYPE` and `ICMP_CODE`: the mask is 0 if any is meant. -/
def icmpField (v : BitVec 32) : Field := exactField v (if v ≠ 0 then 0xFFFFFFFF else 0)

/-- A half of the SPI, in a port field; the field stays empty if it was. -/
def spiField (v : BitVec 32) (fld : Field) : Field :=
  { fld with value := ⟨v &&& 0xFFFF⟩, maskRange := ⟨v &&& 0xFFFF⟩ }

def isTcpUdp (proto : BitVec 16) : Bool := proto == ipprotoTcp || proto == ipprotoUdp

def isIcmp (proto : BitVec 16) : Bool := proto == ipprotoIcmp || proto == ipprotoIcmpv6

/-- `construct_rule_fields`, with the priority and the user data that the caller sets. -/
def constructRuleFields (sa da : Option AddrElem) (macSa macDa : Option (BitVec 64))
    (sp dp : Option PortRange) (srcSg dstSg : Option (BitVec 32)) (proto : BitVec 16)
    (icmpType icmpCode spi : BitVec 32) (ethertype : BitVec 16) (priority userdata : Nat) :
    Rule ipAclConfig where
  categoryMask := 1
  priority := priority
  userdata := userdata
  field := ![
    if proto ≠ ipprotoNone then exactField ((proto.setWidth 8).setWidth 32) 0xFF else emptyField,
    addrField sa,
    addrField da,
    idField macSa,
    idField macDa,
    if ethertype ≠ 0 then exactField (ethertype.setWidth 32) 0xFFFF else emptyField,
    if isTcpUdp proto then portAgain sp (portField sp)
    else if proto = ipprotoEsp then spiField (spi >>> 16) (portField sp)
    else portField sp,
    if isTcpUdp proto then portAgain dp (portField dp)
    else if proto = ipprotoEsp then spiField spi (portField dp)
    else portField dp,
    idField srcSg,
    idField dstSg,
    if isIcmp proto then icmpField icmpType else zeroField,
    if isIcmp proto then icmpField icmpCode else zeroField]

/-- `RULE_MATCH_DLLIST_CHECK_EMPTY_ADD`. -/
def orDummy {α : Type} (dummy : α) (l : List α) : List α := if l.isEmpty then [dummy] else l

/-- The innermost part of `rule_match_process_rule`: the rules for one combination of groups,
MAC addresses and addresses. -/
def combine (m : RuleMatch) (srcSg dstSg : BitVec 32) (macSa macDa : BitVec 64)
    (sa da : AddrElem) (priority userdata : Nat) : List (Rule ipAclConfig) :=
  if isTcpUdp m.proto then
    (orDummy ⟨invalidTcpUdpPort, invalidTcpUdpPort⟩ m.l4SrcPortList).flatMap fun sp =>
    (orDummy ⟨invalidTcpUdpPort, invalidTcpUdpPort⟩ m.l4DstPortList).map fun dp =>
      constructRuleFields (some sa) (some da) (some macSa) (some macDa) (some sp) (some dp)
        (some srcSg) (some dstSg) m.proto 0 0 0 m.ethertype priority userdata
  else if isIcmp m.proto then
    [constructRuleFields (some sa) (some da) (some macSa) (some macDa) none none
      (some srcSg) (some dstSg) m.proto m.icmpType m.icmpCode 0 m.ethertype priority userdata]
  else if m.proto = ipprotoEsp ∨ m.proto = ipprotoNone then
    -- a rule with an SPI but no protocol is taken for an ESP rule
    [constructRuleFields (some sa) (some da) (some macSa) (some macDa) none none
      (some srcSg) (some dstSg) (if m.espSpi ≠ 0 then ipprotoEsp else m.proto) 0 0 m.espSpi
      m.ethertype priority userdata]
  else []

/-- The loops of `rule_match_process_rule`, over the lists with the dummy nodes of
`rule_match_rule_add`: the rules in the order in which they are added. -/
def expand (m : RuleMatch) (priority userdata : Nat) : List (Rule ipAclConfig) :=
  (orDummy 0 m.srcSgList).flatMap fun srcSg =>
  (orDummy 0 m.dstSgList).flatMap fun dstSg =>
  (orDummy 0 m.srcMacAddrList).flatMap fun macSa =>
  (orDummy 0 m.dstMacAddrList).flatMap fun macDa =>
  (orDummy ⟨0, 0, 0⟩ m.srcAddrList).flatMap fun sa =>
  (orDummy ⟨0, 0, 0⟩ m.dstAddrList).flatMap fun da =>
    combine m srcSg dstSg macSa macDa sa da priority userdata

/-! ### Rules and flows -/

/-- `RuleMatch_AppMatch`. -/
inductive AppMatch
  | none
  | ports (src dst : List PortRange)
  | icmp (type code : BitVec 32)
  | esp (spi : BitVec 32)
  deriving DecidableEq, Repr

/-- `types::RuleMatch` without MAC addresses, groups and an ethertype. -/
structure RuleSpec where
  protocol : BitVec 16
  srcAddress : List (BitVec 32 × BitVec 32)
  dstAddress : List (BitVec 32 × BitVec 32)
  app : AppMatch
  deriving DecidableEq, Repr

namespace RuleSpec

variable (s : RuleSpec)

def srcPorts : List PortRange :=
  match s.app with
  | .ports src _ => src
  | _ => []

def dstPorts : List PortRange :=
  match s.app with
  | .ports _ dst => dst
  | _ => []

def icmpType : BitVec 32 :=
  match s.app with
  | .icmp type _ => type
  | _ => 0

def icmpCode : BitVec 32 :=
  match s.app with
  | .icmp _ code => code
  | _ => 0

def espSpi : BitVec 32 :=
  match s.app with
  | .esp spi => spi
  | _ => 0

/-- `rule_match_spec_extract`. -/
def extract : RuleMatch where
  srcAddrList := s.srcAddress.map fun r => ⟨1, r.1, r.2⟩
  dstAddrList := s.dstAddress.map fun r => ⟨1, r.1, r.2⟩
  srcSgList := []
  dstSgList := []
  srcMacAddrList := []
  dstMacAddrList := []
  ethertype := 0
  proto := s.protocol
  l4SrcPortList := s.srcPorts
  l4DstPortList := s.dstPorts
  espSpi := s.espSpi
  icmpType := s.icmpType
  icmpCode := s.icmpCode

end RuleSpec

/-- The key of an IPv4 flow; which of the last members there are depends on the protocol. -/
structure FlowKey where
  sip : BitVec 32
  dip : BitVec 32
  proto : BitVec 8
  sport : BitVec 16
  dport : BitVec 16
  icmpType : BitVec 8
  icmpCode : BitVec 8
  spi : BitVec 32
  deriving DecidableEq, Repr

/-- The protocol of a flow as a protocol of a rule. -/
def FlowKey.ipproto (f : FlowKey) : BitVec 16 := f.proto.setWidth 16

/-- The key that `net_sfw_check_security_policy` makes for a flow. -/
def FlowKey.aclKey (f : FlowKey) : Ipv4Tuple where
  proto := f.proto
  ipSrc := f.sip
  ipDst := f.dip
  macSrc := 0
  macDst := 0
  ethertype := 0
  portSrc :=
    if isTcpUdp f.ipproto then f.sport.setWidth 32
    else if f.ipproto = ipprotoEsp then f.spi >>> 16 &&& 0xFFFF
    else 0
  portDst :=
    if isTcpUdp f.ipproto then f.dport.setWidth 32
    else if f.ipproto = ipprotoEsp then f.spi &&& 0xFFFF
    else 0
  srcSg := 0
  dstSg := 0
  icmpType := if isIcmp f.ipproto then f.icmpType.setWidth 32 else 0
  icmpCode := if isIcmp f.ipproto then f.icmpCode.setWidth 32 else 0

/-! ### What a rule means -/

/-- An empty list means any address. -/
def inAddresses (l : List (BitVec 32 × BitVec 32)) (a : BitVec 32) : Bool :=
  l.isEmpty || l.any fun r => r.1 ≤ a && a ≤ r.2

/-- An empty list means any port. -/
def inPorts (l : List PortRange) (p : BitVec 16) : Bool :=
  l.isEmpty || l.any fun r => r.low ≤ p.setWidth 32 && p.setWidth 32 ≤ r.high

/-- A rule without a protocol that has an SPI is an ESP rule. -/
def RuleSpec.ipproto (s : RuleSpec) : BitVec 16 :=
  if s.protocol = ipprotoNone ∧ s.espSpi ≠ 0 then ipprotoEsp else s.protocol

/-- The conditions on ports, on ICMP type and code and on the SPI, each a condition of the
rules for its protocols. -/
def RuleSpec.appSatisfied (s : RuleSpec) (f : FlowKey) : Bool :=
  if isTcpUdp s.ipproto then inPorts s.srcPorts f.sport && inPorts s.dstPorts f.dport
  else if isIcmp s.ipproto then
    (s.icmpType == 0 || s.icmpType == f.icmpType.setWidth 32) &&
      (s.icmpCode == 0 || s.icmpCode == f.icmpCode.setWidth 32)
  else if s.ipproto = ipprotoEsp then s.espSpi == 0 || s.espSpi == f.spi
  else true

/-- **The meaning of a rule**: the flow satisfies its match conditions. -/
def RuleSpec.satisfied (s : RuleSpec) (f : FlowKey) : Bool :=
  inAddresses s.srcAddress f.sip && inAddresses s.dstAddress f.dip &&
    (s.ipproto == ipprotoNone || s.ipproto == f.ipproto) && s.appSatisfied f

/-! ### Which flows hit a rule -/

/-- A field that is empty, or matches the value. -/
def fieldOk (d : FieldDef) (v : Nat) (fld : Field) : Bool :=
  fld.empty || fldMatch d.type v d.size fld

theorem ruleMatch_key (r : Rule ipAclConfig) (t : Ipv4Tuple) :
    ruleMatch ipAclConfig r t.key = true ↔
      ∀ fid : Fid, fieldOk (ipAclConfig.defs fid) (t.value fid) (r.field fid) = true := by
  rw [ruleMatch_iff]
  refine forall_congr' fun fid => ?_
  have hk := fieldKey_key t fid
  rw [hk, fieldOk]
  cases (r.field fid).empty <;> simp

theorem fieldOk_emptyField (d : FieldDef) (v : Nat) : fieldOk d v emptyField = true := rfl

theorem fieldOk_zeroField (v : Nat) (o : Nat) : fieldOk ⟨.exact, .u32, o⟩ v zeroField = true := by
  simp [fieldOk, zeroField, fldMatch, FieldVal.get]

theorem fieldOk_range (o : Nat) (a low high : BitVec 32) :
    fieldOk ⟨.range, .u32, o⟩ a.toNat ⟨⟨low⟩, ⟨high⟩, false⟩ = (low ≤ a && a ≤ high) := by
  have hl := Nat.mod_eq_of_lt low.isLt
  have hh := Nat.mod_eq_of_lt high.isLt
  simp [fieldOk, fldMatch, FieldVal.get, FieldSize.bits, hl, hh, BitVec.le_def]

theorem beq_toNat {w : Nat} (a b : BitVec w) : (a.toNat == b.toNat) = (a == b) := by
  rw [Bool.eq_iff_iff, beq_iff_eq, beq_iff_eq, BitVec.toNat_inj]

theorem fieldOk_icmpField (o : Nat) (a v : BitVec 32) :
    fieldOk ⟨.exact, .u32, o⟩ a.toNat (icmpField v) = (v == 0 || v == a) := by
  by_cases hv : v = 0
  · simp [fieldOk, icmpField, exactField, fldMatch, FieldVal.get, hv]
  have hm : (0xFFFFFFFF : Nat) = 2 ^ 32 - 1 := rfl
  have hand : ∀ x : BitVec 32, x.toNat &&& 0xFFFFFFFF = x.toNat := fun x => by
    rw [hm, Nat.and_two_pow_sub_one_eq_mod, Nat.mod_eq_of_lt x.isLt]
  have hget : (⟨v⟩ : FieldVal).get .u32 = v.toNat := Nat.mod_eq_of_lt v.isLt
  have hmask : (⟨0xFFFFFFFF⟩ : FieldVal).get .u32 = 0xFFFFFFFF := rfl
  simp only [fieldOk, icmpField, exactField, fldMatch, if_pos hv, hget, hmask, hand, beq_toNat,
    Bool.false_or, beq_eq_false_iff_ne.2 hv]

theorem fieldOk_proto (a : BitVec 8) (proto : BitVec 16) (h : proto.toNat < 256) :
    fieldOk ⟨.exact, .u8, 0⟩ a.toNat (exactField ((proto.setWidth 8).setWidth 32) 0xFF) =
      (proto == a.setWidth 16) := by
  have hmask : (⟨0xFF⟩ : FieldVal).get .u8 = 2 ^ 8 - 1 := rfl
  have hget : (⟨(proto.setWidth 8).setWidth 32⟩ : FieldVal).get .u8 = proto.toNat := by
    simp only [FieldVal.get, FieldSize.bits, BitVec.toNat_setWidth]
    omega
  have ha : a.toNat = (a.setWidth 16).toNat := by
    rw [BitVec.toNat_setWidth]
    omega
  simp only [fieldOk, exactField, fldMatch, hget, hmask, Nat.and_two_pow_sub_one_eq_mod,
    Bool.false_or]
  rw [Nat.mod_eq_of_lt h, Nat.mod_eq_of_lt a.isLt, ha, beq_toNat]

/-- The ports that hit a list: a range that is the mark for any hits all. -/
def hitsPorts (l : List PortRange) (p : BitVec 16) : Bool :=
  l.isEmpty || l.any fun r => r.isAny || r.low ≤ p.setWidth 32 && p.setWidth 32 ≤ r.high

/-- The flows that hit the protocol and the fields of its application: the SPI is not looked
at, and rules for other protocols are not hit at all. -/
def RuleSpec.hitsApp (s : RuleSpec) (f : FlowKey) : Bool :=
  if isTcpUdp s.protocol then
    s.protocol == f.ipproto && (hitsPorts s.srcPorts f.sport && hitsPorts s.dstPorts f.dport)
  else if isIcmp s.protocol then
    s.protocol == f.ipproto && ((s.icmpType == 0 || s.icmpType == f.icmpType.setWidth 32) &&
      (s.icmpCode == 0 || s.icmpCode == f.icmpCode.setWidth 32))
  else if s.protocol = ipprotoEsp ∨ s.protocol = ipprotoNone then
    s.ipproto == ipprotoNone || s.ipproto == f.ipproto
  else false

/-- The flows that hit a rule after its expansion. -/
def RuleSpec.hits (s : RuleSpec) (f : FlowKey) : Bool :=
  inAddresses s.srcAddress f.sip && inAddresses s.dstAddress f.dip && s.hitsApp f

theorem exists_orDummy {α : Type} {d : α} {l : List α} {p : α → Prop} :
    (∃ x ∈ orDummy d l, p x) ↔ (l = [] ∧ p d) ∨ ∃ x ∈ l, p x := by
  cases l <;> simp [orDummy]

theorem exists_addr (o : Nat) (l : List (BitVec 32 × BitVec 32)) (a : BitVec 32) :
    (∃ sa ∈ orDummy ⟨0, 0, 0⟩ (l.map fun r => (⟨1, r.1, r.2⟩ : AddrElem)),
      fieldOk ⟨.range, .u32, o⟩ a.toNat (addrField (some sa)) = true) ↔
      inAddresses l a = true := by
  rw [exists_orDummy]
  simp [inAddresses, addrField, fieldOk_emptyField, fieldOk_range]

theorem fieldOk_port (o : Nat) (a : BitVec 32) (sp : PortRange) :
    fieldOk ⟨.range, .u32, o⟩ a.toNat (portAgain (some sp) (portField (some sp))) =
      (sp.isAny || sp.low ≤ a && a ≤ sp.high) := by
  by_cases hany : sp.isAny
  · have hempty : (portAgain (some sp) (portField (some sp))).empty = true := by
      simp only [portAgain, portField, hany, if_true]
      split_ifs <;> rfl
    simp [fieldOk, hempty, hany]
  · have hfield : portAgain (some sp) (portField (some sp)) = ⟨⟨sp.low⟩, ⟨sp.high⟩, false⟩ := by
      simp only [portAgain, portField, if_neg hany]
      split_ifs <;> rfl
    rw [hfield, fieldOk_range]
    simp [hany]

theorem exists_port (o : Nat) (l : List PortRange) (p : BitVec 16) :
    (∃ sp ∈ orDummy ⟨invalidTcpUdpPort, invalidTcpUdpPort⟩ l,
      fieldOk ⟨.range, .u32, o⟩ (p.setWidth 32 : BitVec 32).toNat
        (portAgain (some sp) (portField (some sp))) = true) ↔ hitsPorts l p = true := by
  rw [exists_orDummy]
  simp only [fieldOk_port]
  simp [hitsPorts, PortRange.isAny]

/-- When a rule of the expansion matches, field by field. -/
theorem ruleMatch_construct (sa da : AddrElem) (sp dp : Option PortRange) (proto : BitVec 16)
    (icmpType icmpCode spi : BitVec 32) (priority userdata : Nat) (t : Ipv4Tuple) :
    ruleMatch ipAclConfig (constructRuleFields (some sa) (some da) (some 0) (some 0) sp dp (some 0)
      (some 0) proto icmpType icmpCode spi 0 priority userdata) t.key = true ↔
    fieldOk ⟨.exact, .u8, 0⟩ t.proto.toNat
      (if proto ≠ ipprotoNone then exactField ((proto.setWidth 8).setWidth 32) 0xFF
        else emptyField) = true ∧
    fieldOk ⟨.range, .u32, 4⟩ t.ipSrc.toNat (addrField (some sa)) = true ∧
    fieldOk ⟨.range, .u32, 8⟩ t.ipDst.toNat (addrField (some da)) = true ∧
    fieldOk ⟨.range, .u32, 24⟩ t.portSrc.toNat
      (if isTcpUdp proto then portAgain sp (portField sp)
        else if proto = ipprotoEsp then spiField (spi >>> 16) (portField sp)
        else portField sp) = true ∧
    fieldOk ⟨.range, .u32, 28⟩ t.portDst.toNat
      (if isTcpUdp proto then portAgain dp (portField dp)
        else if proto = ipprotoEsp then spiField spi (portField dp)
        else portField dp) = true ∧
    fieldOk ⟨.exact, .u32, 40⟩ t.icmpType.toNat
      (if isIcmp proto then icmpField icmpType else zeroField) = true ∧
    fieldOk ⟨.exact, .u32, 44⟩ t.icmpCode.toNat
      (if isIcmp proto then icmpField icmpCode else zeroField) = true := by
  rw [ruleMatch_key]
  simp [Fin.forall_fin_succ, constructRuleFields, ipAclConfig, Ipv4Tuple.value, idField,
    fieldOk_emptyField]

/-- The addresses of a flow are in the ranges of a combination. -/
def AddrsOk (f : FlowKey) (sa da : AddrElem) : Prop :=
  fieldOk ⟨.range, .u32, 4⟩ f.sip.toNat (addrField (some sa)) = true ∧
    fieldOk ⟨.range, .u32, 8⟩ f.dip.toNat (addrField (some da)) = true

variable {f : FlowKey}

/-- The addresses of a combination are independent of the rest. -/
theorem exists_leaf {src dst : List (BitVec 32 × BitVec 32)}
    {leaf : AddrElem → AddrElem → List (Rule ipAclConfig)} {Z : Prop}
    (h : ∀ sa da, (∃ r ∈ leaf sa da, ruleMatch ipAclConfig r f.aclKey.key = true) ↔
      AddrsOk f sa da ∧ Z) :
    (∃ r ∈ (orDummy ⟨0, 0, 0⟩ (src.map fun r => (⟨1, r.1, r.2⟩ : AddrElem))).flatMap fun sa =>
        (orDummy ⟨0, 0, 0⟩ (dst.map fun r => (⟨1, r.1, r.2⟩ : AddrElem))).flatMap fun da =>
          leaf sa da, ruleMatch ipAclConfig r f.aclKey.key = true) ↔
      inAddresses src f.sip = true ∧ inAddresses dst f.dip = true ∧ Z := by
  rw [← exists_addr 4, ← exists_addr 8]
  constructor
  · rintro ⟨r, hr, hm⟩
    obtain ⟨sa, hsa, hr⟩ := List.mem_flatMap.1 hr
    obtain ⟨da, hda, hr⟩ := List.mem_flatMap.1 hr
    obtain ⟨⟨hs, hd⟩, hz⟩ := (h sa da).1 ⟨r, hr, hm⟩
    exact ⟨⟨sa, hsa, hs⟩, ⟨da, hda, hd⟩, hz⟩
  · rintro ⟨⟨sa, hsa, hs⟩, ⟨da, hda, hd⟩, hz⟩
    obtain ⟨r, hr, hm⟩ := (h sa da).2 ⟨⟨hs, hd⟩, hz⟩
    exact ⟨r, List.mem_flatMap.2 ⟨sa, hsa, List.mem_flatMap.2 ⟨da, hda, hr⟩⟩, hm⟩

variable {proto : BitVec 16}

/-- The protocol field of a rule for a protocol. -/
theorem fieldOk_protocol (hn : proto ≠ ipprotoNone) (h : proto.toNat < 256) (f : FlowKey) :
    fieldOk ⟨.exact, .u8, 0⟩ f.aclKey.proto.toNat
      (if proto ≠ ipprotoNone then exactField ((proto.setWidth 8).setWidth 32) 0xFF
        else emptyField) = (proto == f.ipproto) := by
  rw [if_pos hn, fieldOk_proto _ _ h]
  rfl

theorem isTcpUdp_iff : isTcpUdp proto = true ↔ proto = ipprotoTcp ∨ proto = ipprotoUdp := by
  simp [isTcpUdp]

theorem isIcmp_iff : isIcmp proto = true ↔ proto = ipprotoIcmp ∨ proto = ipprotoIcmpv6 := by
  simp [isIcmp]

variable {s : RuleSpec}

theorem hits_tcpUdp (hp : isTcpUdp s.protocol = true) (sa da : AddrElem) (priority userdata : Nat) :
    (∃ r ∈ (orDummy ⟨invalidTcpUdpPort, invalidTcpUdpPort⟩ s.srcPorts).flatMap fun sp =>
        (orDummy ⟨invalidTcpUdpPort, invalidTcpUdpPort⟩ s.dstPorts).map fun dp =>
          constructRuleFields (some sa) (some da) (some 0) (some 0) (some sp) (some dp)
            (some 0) (some 0) s.protocol 0 0 0 0 priority userdata,
      ruleMatch ipAclConfig r f.aclKey.key = true) ↔
      AddrsOk f sa da ∧
      s.hitsApp f = true := by
  have hn : s.protocol ≠ ipprotoNone ∧ s.protocol.toNat < 256 ∧ isIcmp s.protocol = false := by
    obtain h | h := isTcpUdp_iff.1 hp <;> rw [h] <;> decide
  have hleaf : ∀ sp dp, ruleMatch ipAclConfig (constructRuleFields (some sa) (some da) (some 0)
      (some 0) (some sp) (some dp) (some 0) (some 0) s.protocol 0 0 0 0 priority userdata)
        f.aclKey.key = true ↔
      AddrsOk f sa da ∧
      s.protocol = f.ipproto ∧
      fieldOk ⟨.range, .u32, 24⟩ (f.sport.setWidth 32 : BitVec 32).toNat
        (portAgain (some sp) (portField (some sp))) = true ∧
      fieldOk ⟨.range, .u32, 28⟩ (f.dport.setWidth 32 : BitVec 32).toNat
        (portAgain (some dp) (portField (some dp))) = true := by
    intro sp dp
    rw [ruleMatch_construct, fieldOk_protocol hn.1 hn.2.1]
    simp only [hp, hn.2.2, if_true, fieldOk_zeroField, Bool.false_eq_true, if_false, and_true,
      beq_iff_eq]
    by_cases hf : s.protocol = f.ipproto
    · have hfp : isTcpUdp f.ipproto = true := hf ▸ hp
      simp only [FlowKey.aclKey, hfp, if_true, AddrsOk]
      tauto
    · simp [hf]
  rw [RuleSpec.hitsApp, if_pos hp, Bool.and_eq_true, Bool.and_eq_true, beq_iff_eq,
    ← exists_port 24, ← exists_port 28]
  constructor
  · rintro ⟨r, hr, hm⟩
    obtain ⟨sp, hsp, hr⟩ := List.mem_flatMap.1 hr
    obtain ⟨dp, hdp, rfl⟩ := List.mem_map.1 hr
    obtain ⟨ha, he, h1, h2⟩ := (hleaf sp dp).1 hm
    exact ⟨ha, he, ⟨sp, hsp, h1⟩, dp, hdp, h2⟩
  · rintro ⟨ha, he, ⟨sp, hsp, h1⟩, dp, hdp, h2⟩
    exact ⟨_, List.mem_flatMap.2 ⟨sp, hsp, List.mem_map.2 ⟨dp, hdp, rfl⟩⟩,
      (hleaf sp dp).2 ⟨ha, he, h1, h2⟩⟩

theorem hits_icmp (hp : isIcmp s.protocol = true) (sa da : AddrElem) (priority userdata : Nat) :
    ruleMatch ipAclConfig (constructRuleFields (some sa) (some da) (some 0) (some 0) none none
      (some 0) (some 0) s.protocol s.icmpType s.icmpCode 0 0 priority userdata)
        f.aclKey.key = true ↔
      AddrsOk f sa da ∧
      s.hitsApp f = true := by
  have hn : s.protocol ≠ ipprotoNone ∧ s.protocol.toNat < 256 ∧ isTcpUdp s.protocol = false ∧
      s.protocol ≠ ipprotoEsp := by
    obtain h | h := isIcmp_iff.1 hp <;> rw [h] <;> decide
  rw [ruleMatch_construct, fieldOk_protocol hn.1 hn.2.1, RuleSpec.hitsApp]
  simp only [hp, hn.2.2.1, hn.2.2.2, if_true, Bool.false_eq_true, if_false, portField,
    fieldOk_emptyField, true_and, Bool.and_eq_true, beq_iff_eq]
  by_cases hf : s.protocol = f.ipproto
  · have hfp : isIcmp f.ipproto = true := hf ▸ hp
    simp only [FlowKey.aclKey, hfp, if_true, fieldOk_icmpField, AddrsOk]
    tauto
  · simp [hf]

theorem hits_espNone (hp : s.protocol = ipprotoEsp ∨ s.protocol = ipprotoNone) (sa da : AddrElem)
    (priority userdata : Nat) :
    ruleMatch ipAclConfig (constructRuleFields (some sa) (some da) (some 0) (some 0) none none
      (some 0) (some 0) (if s.espSpi ≠ 0 then ipprotoEsp else s.protocol) 0 0 s.espSpi 0
        priority userdata) f.aclKey.key = true ↔
      AddrsOk f sa da ∧
      s.hitsApp f = true := by
  have hp' : (if s.espSpi ≠ 0 then ipprotoEsp else s.protocol) = s.ipproto := by
    rw [RuleSpec.ipproto]
    obtain h | h := hp <;> simp [h]
  have happ : s.hitsApp f = (s.ipproto == ipprotoNone || s.ipproto == f.ipproto) := by
    have hn : isTcpUdp s.protocol = false ∧ isIcmp s.protocol = false := by
      obtain h | h := hp <;> rw [h] <;> decide
    simp [RuleSpec.hitsApp, hn, hp]
  have hspi : ∀ d v w, fieldOk d v (spiField w emptyField) = true := fun _ _ _ => rfl
  have hcases : s.ipproto = ipprotoNone ∨ s.ipproto = ipprotoEsp := by
    rw [← hp']
    split_ifs
    · exact .inr rfl
    · exact hp.symm
  rw [ruleMatch_construct, hp', happ]
  obtain h | h := hcases
  · have hn : isTcpUdp ipprotoNone = false ∧ isIcmp ipprotoNone = false ∧
        ipprotoNone ≠ ipprotoEsp := by decide
    simp [h, hn, portField, fieldOk_emptyField, fieldOk_zeroField, FlowKey.aclKey, AddrsOk]
  have hn : isTcpUdp ipprotoEsp = false ∧ isIcmp ipprotoEsp = false ∧
      ipprotoEsp ≠ ipprotoNone ∧ ipprotoEsp.toNat < 256 := by decide
  rw [h, fieldOk_protocol hn.2.2.1 hn.2.2.2]
  simp only [hn, portField, hspi, fieldOk_zeroField, Bool.false_eq_true, if_false, if_true,
    and_true, beq_eq_false_iff_ne.2 hn.2.2.1, Bool.false_or]
  exact and_comm

theorem combine_hits (s : RuleSpec) (f : FlowKey) (sa da : AddrElem) (priority userdata : Nat) :
    (∃ r ∈ combine s.extract 0 0 0 0 sa da priority userdata,
      ruleMatch ipAclConfig r f.aclKey.key = true) ↔
      AddrsOk f sa da ∧
      s.hitsApp f = true := by
  by_cases htu : isTcpUdp s.extract.proto
  · rw [combine, if_pos htu]
    exact hits_tcpUdp htu sa da priority userdata
  by_cases hic : isIcmp s.extract.proto
  · rw [combine, if_neg htu, if_pos hic]
    simp only [List.mem_singleton, exists_eq_left]
    exact hits_icmp hic sa da priority userdata
  by_cases hen : s.extract.proto = ipprotoEsp ∨ s.extract.proto = ipprotoNone
  · rw [combine, if_neg htu, if_neg hic, if_pos hen]
    simp only [List.mem_singleton, exists_eq_left]
    exact hits_espNone hen sa da priority userdata
  · have happ : s.hitsApp f = false :=
      (if_neg htu).trans ((if_neg hic).trans (if_neg hen))
    rw [combine, if_neg htu, if_neg hic, if_neg hen, happ]
    simp

/-- **A flow hits the expansion of a rule** exactly if `hits` says so. -/
theorem expand_hits (s : RuleSpec) (f : FlowKey) (priority userdata : Nat) :
    (∃ r ∈ expand s.extract priority userdata,
      ruleMatch ipAclConfig r f.aclKey.key = true) ↔ s.hits f = true := by
  have hone : ∀ {α β : Type} (d : α) (g : α → List β), (orDummy d []).flatMap g = g d := by
    intro α β d g
    simp [orDummy]
  have hexp : expand s.extract priority userdata =
      (orDummy ⟨0, 0, 0⟩ (s.srcAddress.map fun r => (⟨1, r.1, r.2⟩ : AddrElem))).flatMap fun sa =>
      (orDummy ⟨0, 0, 0⟩ (s.dstAddress.map fun r => (⟨1, r.1, r.2⟩ : AddrElem))).flatMap fun da =>
        combine s.extract 0 0 0 0 sa da priority userdata := by
    rw [expand, show s.extract.srcSgList = [] from rfl, show s.extract.dstSgList = [] from rfl,
      show s.extract.srcMacAddrList = [] from rfl, show s.extract.dstMacAddrList = [] from rfl,
      hone, hone, hone, hone]
    rfl
  rw [hexp, exists_leaf fun sa da => combine_hits s f sa da priority userdata, RuleSpec.hits,
    Bool.and_eq_true, Bool.and_eq_true, and_assoc]

end NicSw.Sfw
