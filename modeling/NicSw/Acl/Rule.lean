/-
Fields, rules and keys of the ACL classifier.

A field is 1, 2 or 4 bytes of the key and is matched by a prefix, a range or a value and a
mask.  For each kind `fieldInterval` gives the interval of the field that a rule is filed
under, where it has one: a rule that matches a key has the key's field in its interval
(`mem_interval_of_fldMatch`), and rules that compare equal have the same interval.

A shift by the width of the type or more is undefined in the source.  It happens only for
a prefix whose length is zero or too large; here the shift is taken modulo 32, as the CPUs
do.
-/
import Mathlib.Data.Fintype.Basic
import Mathlib.Data.Nat.Bitwise

namespace NicSw.Acl

/-- `acl_field_type_t`. -/
inductive FieldType
  | pfx
  | range
  | exact
  deriving DecidableEq, Repr

/-- The sizes of fields that the classifier handles. -/
inductive FieldSize
  | u8
  | u16
  | u32
  deriving DecidableEq, Repr

def FieldSize.bits : FieldSize → Nat
  | .u8 => 8
  | .u16 => 16
  | .u32 => 32

/-- `acl_field_val_t`, a union: the member that is read has the lowest bits. -/
structure FieldVal where
  u32 : BitVec 32
  deriving DecidableEq, Repr

def FieldVal.get (v : FieldVal) (size : FieldSize) : Nat :=
  v.u32.toNat % 2 ^ size.bits

/-- `acl_field_def_t`. -/
structure FieldDef where
  type : FieldType
  size : FieldSize
  offset : Nat
  deriving DecidableEq, Repr

/-- `acl_field_t`. -/
structure Field where
  value : FieldVal
  maskRange : FieldVal
  empty : Bool
  deriving DecidableEq, Repr

/-- `acl_config_t`, with at most `ACL_MAX_FIELDS` fields. -/
structure Config where
  numFields : Nat
  defs : Fin numFields → FieldDef
  maxFields : numFields ≤ 32

/-- `acl_rule_t` without its reference count. -/
structure Rule (cfg : Config) where
  categoryMask : Nat
  priority : Nat
  userdata : Nat
  field : Fin cfg.numFields → Field
  deriving DecidableEq

/-- The bytes of a key. -/
abbrev Key := Nat → BitVec 8

/-- `FLD_KEY`: the `n` bytes at an offset, the lowest first. -/
def keyBytes (key : Key) (offset : Nat) : Nat → Nat
  | 0 => 0
  | n + 1 => (key offset).toNat + 256 * keyBytes key (offset + 1) n

theorem keyBytes_lt (key : Key) (offset n : Nat) : keyBytes key offset n < 256 ^ n := by
  induction n generalizing offset with
  | zero => exact Nat.one_pos
  | succ n ih =>
    have h2 := ih (offset + 1)
    rw [keyBytes, Nat.pow_succ]
    omega

/-- The bytes of a number are read back. -/
theorem keyBytes_of_bytes {key : Key} {offset n v : Nat} (hv : v < 256 ^ n)
    (h : ∀ j < n, key (offset + j) = BitVec.ofNat 8 (v / 256 ^ j)) :
    keyBytes key offset n = v := by
  induction n generalizing offset v with
  | zero => simp only [keyBytes]; omega
  | succ n ih =>
    have h0 := h 0 (by omega)
    rw [keyBytes, show key offset = _ from h0, ih (v := v / 256)]
    · simp only [Nat.pow_zero, Nat.div_one, BitVec.toNat_ofNat]
      omega
    · rw [Nat.pow_succ] at hv
      omega
    · intro j hj
      rw [show offset + 1 + j = offset + (j + 1) by omega, h (j + 1) (by omega),
        Nat.pow_succ, Nat.mul_comm, Nat.div_div_eq_div_mul]

variable {cfg : Config}

/-- `acl_field_key`. -/
def fieldKey (cfg : Config) (fid : Fin cfg.numFields) (key : Key) : Nat :=
  keyBytes key (cfg.defs fid).offset ((cfg.defs fid).size.bits / 8)

theorem fieldKey_lt (fid : Fin cfg.numFields) (key : Key) : fieldKey cfg fid key < 2 ^ 32 := by
  have h := keyBytes_lt key (cfg.defs fid).offset ((cfg.defs fid).size.bits / 8)
  unfold fieldKey
  cases hs : (cfg.defs fid).size <;> simp only [hs, FieldSize.bits] at h ⊢ <;> omega

/-! ### Matching -/

/-- The shift of `PREFIX_MATCH`, as the CPU executes it: modulo 32. -/
def prefixShift (size : FieldSize) (fld : Field) : Nat :=
  (size.bits + 2 ^ 32 - fld.maskRange.get size) % 32

/-- `acl_fld_match_prefix`, `acl_fld_match_range` and `acl_fld_match_exact`. -/
def fldMatch (type : FieldType) (data : Nat) (size : FieldSize) (fld : Field) : Bool :=
  match type with
  | .pfx =>
    fld.value.get size >>> prefixShift size fld == data >>> prefixShift size fld
  | .range => data ≥ fld.value.get size && data ≤ fld.maskRange.get size
  | .exact =>
    fld.value.get size &&& fld.maskRange.get size == data &&& fld.maskRange.get size

/-- `acl_rule_match`: all fields that are not empty match. -/
def ruleMatch (cfg : Config) (rule : Rule cfg) (key : Key) : Bool :=
  (List.finRange cfg.numFields).all fun fid =>
    (rule.field fid).empty ||
      fldMatch (cfg.defs fid).type (fieldKey cfg fid key) (cfg.defs fid).size (rule.field fid)

variable {rule r s : Rule cfg}

theorem ruleMatch_iff {key : Key} :
    ruleMatch cfg rule key = true ↔ ∀ fid, (rule.field fid).empty = false →
      fldMatch (cfg.defs fid).type (fieldKey cfg fid key) (cfg.defs fid).size
        (rule.field fid) = true := by
  simp only [ruleMatch, List.all_eq_true, List.mem_finRange, true_implies, Bool.or_eq_true]
  refine forall_congr' fun fid => ?_
  cases (rule.field fid).empty <;> simp

/-! ### Intervals -/

/-- The lambda of `acl_fld_interval_prefix`; `nbits` is an `uint8_t`. -/
def prefixInterval (val nbits : Nat) : Nat × Nat :=
  let mask := 2 ^ (nbits % 32) - 1
  (val &&& (0xFFFFFFFF ^^^ mask), val ||| mask)

/-- `acl_fld_interval_prefix`, `acl_fld_interval_range` and `acl_fld_interval_exact`. -/
def fldInterval (type : FieldType) (size : FieldSize) (fld : Field) : Option (Nat × Nat) :=
  match type with
  | .pfx =>
    some (prefixInterval (fld.value.get size) ((size.bits + 2 ^ 32 - fld.maskRange.get size) % 256))
  | .range => some (fld.value.get size, fld.maskRange.get size)
  | .exact =>
    if fld.maskRange.get size = 0xFFFFFFFF then some (fld.value.get size, fld.value.get size)
    else none

/-- `acl_field_interval`. -/
def fieldInterval (cfg : Config) (fid : Fin cfg.numFields) (rule : Rule cfg) :
    Option (Nat × Nat) :=
  fldInterval (cfg.defs fid).type (cfg.defs fid).size (rule.field fid)

/-- The length of a prefix field is between 1 and its width. -/
def Field.Valid (type : FieldType) (size : FieldSize) (fld : Field) : Prop :=
  type = .pfx → fld.empty = false → 1 ≤ fld.maskRange.get size ∧ fld.maskRange.get size ≤ size.bits

instance (type : FieldType) (size : FieldSize) (fld : Field) : Decidable (fld.Valid type size) :=
  inferInstanceAs (Decidable (_ → _ → _))

/-- The fields of a rule are valid. -/
def Rule.Valid (rule : Rule cfg) : Prop :=
  ∀ fid, (rule.field fid).Valid (cfg.defs fid).type (cfg.defs fid).size

instance (rule : Rule cfg) : Decidable rule.Valid :=
  inferInstanceAs (Decidable (∀ _ : Fin cfg.numFields, _))

theorem FieldVal.get_lt (v : FieldVal) (size : FieldSize) : v.get size < 2 ^ 32 :=
  Nat.lt_of_le_of_lt (Nat.mod_le _ _) v.u32.isLt

/-- Clearing the lowest bits. -/
theorem and_xor_mask {v n : Nat} (hv : v < 2 ^ 32) (hn : n < 32) :
    v &&& (0xFFFFFFFF ^^^ (2 ^ n - 1)) = v / 2 ^ n * 2 ^ n := by
  rw [← Nat.shiftRight_eq_div_pow, ← Nat.shiftLeft_eq]
  refine Nat.eq_of_testBit_eq fun i => ?_
  have hm : (0xFFFFFFFF : Nat) = 2 ^ 32 - 1 := rfl
  rw [hm, Nat.testBit_and, Nat.testBit_xor, Nat.testBit_two_pow_sub_one,
    Nat.testBit_two_pow_sub_one, Nat.testBit_shiftLeft, Nat.testBit_shiftRight]
  by_cases hi : i < n
  · simp [hi, Nat.lt_trans hi hn]
  · by_cases h32 : i < 32
    · simp [hi, h32, Nat.not_lt.1 hi]
    · have hz : v.testBit i = false :=
        Nat.testBit_lt_two_pow (Nat.lt_of_lt_of_le hv (Nat.pow_le_pow_right (by omega) (by omega)))
      simp [hi, h32, hz, Nat.not_lt.1 hi]

/-- Setting the lowest bits. -/
theorem or_mask (v n : Nat) : v ||| (2 ^ n - 1) = v / 2 ^ n * 2 ^ n + (2 ^ n - 1) := by
  have hlt : 2 ^ n - 1 < 2 ^ n := Nat.sub_lt (Nat.two_pow_pos n) Nat.one_pos
  rw [← Nat.shiftRight_eq_div_pow, ← Nat.shiftLeft_eq, Nat.shiftLeft_add_eq_or_of_lt hlt]
  refine Nat.eq_of_testBit_eq fun i => ?_
  rw [Nat.testBit_or, Nat.testBit_or, Nat.testBit_two_pow_sub_one, Nat.testBit_shiftLeft,
    Nat.testBit_shiftRight]
  by_cases hi : i < n
  · simp [hi]
  · simp [hi, Nat.not_lt.1 hi]

theorem mem_prefixInterval {v k n : Nat} (hv : v < 2 ^ 32) (h : v >>> (n % 32) = k >>> (n % 32)) :
    (prefixInterval v n).1 ≤ k ∧ k ≤ (prefixInterval v n).2 := by
  have hn : n % 32 < 32 := Nat.mod_lt n (by decide)
  rw [Nat.shiftRight_eq_div_pow, Nat.shiftRight_eq_div_pow] at h
  simp only [prefixInterval, and_xor_mask hv hn, or_mask, h]
  have hd := Nat.div_add_mod' k (2 ^ (n % 32))
  omega

/-- **A field that matches is in the interval.** -/
theorem mem_interval_of_fldMatch {type : FieldType} {size : FieldSize} {fld : Field}
    {data low high : Nat} (hd : data < 2 ^ 32) (hi : fldInterval type size fld = some (low, high))
    (hm : fldMatch type data size fld = true) : low ≤ data ∧ data ≤ high := by
  have hg := fld.value.get_lt size
  cases type with
  | pfx =>
    -- the shift of the match and that of the interval are taken modulo 32 alike
    have hn : (size.bits + 2 ^ 32 - fld.maskRange.get size) % 256 % 32 =
        prefixShift size fld := by unfold prefixShift; omega
    simp only [fldInterval, Option.some.injEq] at hi
    have hp := mem_prefixInterval (n := (size.bits + 2 ^ 32 - fld.maskRange.get size) % 256)
      hg (hn ▸ eq_of_beq hm)
    rwa [hi] at hp
  | range =>
    simp only [fldInterval, Option.some.injEq, Prod.mk.injEq] at hi
    simp only [fldMatch, Bool.and_eq_true, decide_eq_true_eq] at hm
    exact ⟨hi.1 ▸ hm.1, hi.2 ▸ hm.2⟩
  | exact =>
    simp only [fldInterval] at hi
    split_ifs at hi with hmask
    simp only [Option.some.injEq, Prod.mk.injEq] at hi
    have ha := eq_of_beq hm
    have h32 : (0xFFFFFFFF : Nat) = 2 ^ 32 - 1 := rfl
    rw [hmask, h32, Nat.and_two_pow_sub_one_eq_mod, Nat.and_two_pow_sub_one_eq_mod,
      Nat.mod_eq_of_lt hg, Nat.mod_eq_of_lt hd] at ha
    omega

/-! ### Comparing -/

/-- `acl_fld_compare`; it does not read `empty`. -/
def fldCompare (size : FieldSize) (fld1 fld2 : Field) : Bool :=
  fld1.value.get size == fld2.value.get size && fld1.maskRange.get size == fld2.maskRange.get size

/-- `acl_rule_compare`. -/
def ruleCompare (cfg : Config) (rule other : Rule cfg) : Bool :=
  rule.categoryMask == other.categoryMask && rule.priority == other.priority &&
    rule.userdata == other.userdata &&
    (List.finRange cfg.numFields).all fun fid =>
      fldCompare (cfg.defs fid).size (rule.field fid) (other.field fid)

theorem ruleCompare_iff :
    ruleCompare cfg r s = true ↔
      r.categoryMask = s.categoryMask ∧ r.priority = s.priority ∧ r.userdata = s.userdata ∧
      ∀ fid, (r.field fid).value.get (cfg.defs fid).size =
          (s.field fid).value.get (cfg.defs fid).size ∧
        (r.field fid).maskRange.get (cfg.defs fid).size =
          (s.field fid).maskRange.get (cfg.defs fid).size := by
  simp [ruleCompare, fldCompare, and_assoc]

theorem ruleCompare_refl (r : Rule cfg) : ruleCompare cfg r r = true :=
  ruleCompare_iff.2 ⟨rfl, rfl, rfl, fun _ => ⟨rfl, rfl⟩⟩

theorem ruleCompare_symm (h : ruleCompare cfg r s = true) : ruleCompare cfg s r = true := by
  obtain ⟨h1, h2, h3, h4⟩ := ruleCompare_iff.1 h
  exact ruleCompare_iff.2 ⟨h1.symm, h2.symm, h3.symm, fun fid => ⟨(h4 fid).1.symm, (h4 fid).2.symm⟩⟩

theorem ruleCompare_trans {t : Rule cfg} (h : ruleCompare cfg r s = true)
    (h' : ruleCompare cfg s t = true) : ruleCompare cfg r t = true := by
  obtain ⟨h1, h2, h3, h4⟩ := ruleCompare_iff.1 h
  obtain ⟨k1, k2, k3, k4⟩ := ruleCompare_iff.1 h'
  exact ruleCompare_iff.2 ⟨h1.trans k1, h2.trans k2, h3.trans k3,
    fun fid => ⟨(h4 fid).1.trans (k4 fid).1, (h4 fid).2.trans (k4 fid).2⟩⟩

/-- **Rules that compare equal are filed under the same interval.** -/
theorem fieldInterval_of_ruleCompare (h : ruleCompare cfg r s = true) (fid : Fin cfg.numFields) :
    fieldInterval cfg fid r = fieldInterval cfg fid s := by
  obtain ⟨hv, hm⟩ := (ruleCompare_iff.1 h).2.2.2 fid
  unfold fieldInterval fldInterval
  split <;> simp only [hv, hm]

end NicSw.Acl
