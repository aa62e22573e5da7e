/-
IP prefixes of `sdk/ip.hpp`: the mask of a prefix length, and the lowest,
the highest and the next address of a prefix.

The width `w` of an address is a parameter (32 for IPv4, 128 for IPv6): the
byte-wise IPv6 loops compute the same bits as the IPv4 expressions.

On prefixes of length at most `w` the bit operations are block arithmetic:
the prefix with `w - len` host bits is the block of `2 ^ (w - len)`
addresses that contains its address (`ipLow_toNat`,
`ipHigh_toNat`, `contains_iff`).  Two blocks are nested or disjoint
(`contains_of_overlap`), which is the one fact about prefixes that the
interval sweep rests on.
-/
import Mathlib.Tactic.Linarith

namespace NicSw

open BitVec

variable {w : Nat}

/-- An IP prefix: an address, host bits allowed, and a prefix length. -/
structure IpPrefix (w : Nat) where
  addr : BitVec w
  len : Nat
  deriving DecidableEq, Repr

/-- `ipv4_prefix_len_to_mask`, and the mask the byte loop of
`ipv6_prefix_len_to_mask` builds. -/
def ipPrefixLenToMask (w len : Nat) : BitVec w :=
  if len > w then 0
  else if len = 0 then 0 else ~~~((1#w <<< (w - len)) - 1#w)

namespace IpPrefix

/-- `ip_prefix_ip_low`: the lowest address of the prefix. -/
def ipLow (p : IpPrefix w) : BitVec w := p.addr &&& ipPrefixLenToMask w p.len

/-- `ip_prefix_ip_high`: the highest address of the prefix. -/
def ipHigh (p : IpPrefix w) : BitVec w := p.addr ||| ~~~ipPrefixLenToMask w p.len

/-- `ip_prefix_ip_next`: the address after the highest one; the all-ones
address is its own successor. -/
def ipNext (p : IpPrefix w) : BitVec w :=
  if p.ipHigh = BitVec.allOnes w then p.ipHigh else p.ipHigh + 1

/-- `ip_addr_within_prefix`: the masked address is the masked prefix. -/
def contains (p : IpPrefix w) (a : BitVec w) : Prop :=
  p.addr &&& ipPrefixLenToMask w p.len = a &&& ipPrefixLenToMask w p.len

instance (p : IpPrefix w) (a : BitVec w) : Decidable (p.contains a) :=
  inferInstanceAs (Decidable (_ = _))

/-- The host bits of the prefix's own address are zero. -/
def hostBitsZero (p : IpPrefix w) : Prop := p.ipLow = p.addr

instance (p : IpPrefix w) : Decidable p.hostBitsZero :=
  inferInstanceAs (Decidable (_ = _))

/-- The number of addresses of the prefix. -/
def size (p : IpPrefix w) : Nat := 2 ^ (w - p.len)

end IpPrefix

/-! ### The mask, bit by bit -/

variable {len : Nat}

theorem testBit_ipPrefixLenToMask (h : len ≤ w) (i : Nat) :
    (ipPrefixLenToMask w len).toNat.testBit i = (decide (w - len ≤ i) && decide (i < w)) := by
  unfold ipPrefixLenToMask
  rw [if_neg (by omega)]
  by_cases h0 : len = 0
  · simp [h0]
  have hk : w - len < w := by omega
  have hpow : 2 ^ (w - len) < 2 ^ w := Nat.pow_lt_pow_right (by omega) hk
  have hw : 1 < 2 ^ w := Nat.one_lt_two_pow (by omega)
  have hhost : ((1#w <<< (w - len)) - 1#w).toNat = 2 ^ (w - len) - 1 := by
    have h1 : (1#w <<< (w - len)).toNat = 2 ^ (w - len) := by
      rw [toNat_shiftLeft, toNat_ofNat, Nat.mod_eq_of_lt hw,
        Nat.shiftLeft_eq, one_mul, Nat.mod_eq_of_lt hpow]
    have hle : 1#w ≤ 1#w <<< (w - len) := by
      rw [le_def, h1, toNat_ofNat, Nat.mod_eq_of_lt hw]
      exact Nat.one_le_two_pow
    rw [toNat_sub_of_le hle, h1, toNat_ofNat, Nat.mod_eq_of_lt hw]
  rw [if_neg h0, testBit_toNat, getLsbD_not, ← testBit_toNat, hhost, Nat.testBit_two_pow_sub_one]
  by_cases hi : i < w
  · by_cases hik : i < w - len
    · simp [hi, hik, Nat.not_le.mpr hik]
    · simp [hi, hik, Nat.not_lt.mp hik]
  · simp [hi]

/-! ### Prefixes as blocks of addresses -/

namespace IpPrefix

theorem size_pos (p : IpPrefix w) : 0 < p.size := Nat.two_pow_pos _

theorem and_mask_toNat (h : len ≤ w) (a : BitVec w) :
    (a &&& ipPrefixLenToMask w len).toNat = 2 ^ (w - len) * (a.toNat / 2 ^ (w - len)) := by
  apply Nat.eq_of_testBit_eq
  intro i
  rw [toNat_and, Nat.testBit_and, testBit_ipPrefixLenToMask h,
    Nat.testBit_two_pow_mul, Nat.testBit_div_two_pow]
  by_cases hik : w - len ≤ i
  · by_cases hi : i < w
    · simp [hik, hi]
    · have hbit : a.toNat.testBit i = false :=
        Nat.testBit_lt_two_pow (lt_of_lt_of_le a.isLt (Nat.pow_le_pow_right (by omega)
          (Nat.not_lt.mp hi)))
      simp [hik, hi, hbit]
  · simp [hik]

variable {p : IpPrefix w}

theorem ipLow_toNat (h : p.len ≤ w) : p.ipLow.toNat = p.size * (p.addr.toNat / p.size) :=
  and_mask_toNat h p.addr

theorem not_mask_toNat (h : len ≤ w) : (~~~ipPrefixLenToMask w len).toNat = 2 ^ (w - len) - 1 := by
  apply Nat.eq_of_testBit_eq
  intro i
  rw [testBit_toNat, getLsbD_not, ← testBit_toNat,
    testBit_ipPrefixLenToMask h, Nat.testBit_two_pow_sub_one]
  by_cases hi : i < w
  · by_cases hik : w - len ≤ i
    · simp [hi, hik, Nat.not_lt.mpr hik]
    · simp [hi, hik, Nat.not_le.mp hik]
  · have hik : ¬ i < w - len := by omega
    simp [hi, hik]

theorem ipHigh_toNat (h : p.len ≤ w) : p.ipHigh.toNat = p.ipLow.toNat + (p.size - 1) := by
  have hlt : 2 ^ (w - p.len) - 1 < 2 ^ (w - p.len) := Nat.sub_lt (Nat.two_pow_pos _) Nat.one_pos
  -- the host bits of the address are absorbed by the all-ones host part
  have hmod : p.addr.toNat % 2 ^ (w - p.len) ||| (2 ^ (w - p.len) - 1) = 2 ^ (w - p.len) - 1 := by
    apply Nat.eq_of_testBit_eq
    intro i
    by_cases hi : i < w - p.len <;> simp [hi]
  rw [ipLow_toNat h, size, Nat.two_pow_add_eq_or_of_lt hlt]
  unfold ipHigh
  rw [toNat_or, not_mask_toNat h]
  conv_lhs => rw [← Nat.div_add_mod p.addr.toNat (2 ^ (w - p.len)),
    Nat.two_pow_add_eq_or_of_lt (Nat.mod_lt _ (Nat.two_pow_pos _)), Nat.or_assoc, hmod]

/-- Membership is membership in the block of addresses. -/
theorem contains_iff (h : p.len ≤ w) (a : BitVec w) :
    p.contains a ↔ p.ipLow.toNat ≤ a.toNat ∧ a.toNat < p.ipLow.toNat + p.size := by
  have hpos := p.size_pos
  unfold contains
  rw [← toNat_inj, and_mask_toNat h, and_mask_toNat h, ipLow_toNat h, ← size]
  have hdiv := Nat.div_add_mod a.toNat p.size
  have hmod := Nat.mod_lt a.toNat hpos
  constructor
  · intro he
    omega
  · rintro ⟨h1, h2⟩
    have : a.toNat / p.size = p.addr.toNat / p.size := by
      apply Nat.div_eq_of_lt_le
      · rw [Nat.mul_comm]; exact h1
      · rw [Nat.mul_comm, Nat.mul_add, Nat.mul_one]; exact h2
    rw [this]

/-- The successor of a prefix is the end of its block, saturated at the
all-ones address. -/
theorem ipNext_toNat (h : p.len ≤ w) : p.ipNext.toNat = min (p.ipLow.toNat + p.size) (2 ^ w - 1) := by
  have hhigh := ipHigh_toNat h
  have hpos := p.size_pos
  unfold ipNext
  by_cases ha : p.ipHigh = BitVec.allOnes w
  · rw [if_pos ha]
    have := congrArg BitVec.toNat ha
    rw [toNat_allOnes] at this
    omega
  rw [if_neg ha]
  have hne : p.ipHigh.toNat ≠ 2 ^ w - 1 := by
    intro he
    exact ha (eq_of_toNat_eq (by rw [he, toNat_allOnes]))
  have hw1 : 1 < 2 ^ w := by
    rcases Nat.eq_zero_or_pos w with h0 | h0
    · subst h0
      omega
    · exact Nat.one_lt_two_pow (by omega)
  have h1 : (1 : BitVec w).toNat = 1 := by
    simp only [ofNat_eq_ofNat, toNat_ofNat, Nat.mod_eq_of_lt hw1]
  rw [toNat_add, h1, Nat.mod_eq_of_lt (by omega)]
  omega

/-- Prefixes are laminar: a shorter prefix that shares an address with a
longer one contains it. -/
theorem contains_of_overlap {q : IpPrefix w} (hq : q.len ≤ w) (hlen : p.len ≤ q.len) {a : BitVec w}
    (hpa : p.contains a) (hqa : q.contains a) :
    p.ipLow.toNat ≤ q.ipLow.toNat ∧ q.ipLow.toNat + q.size ≤ p.ipLow.toNat + p.size := by
  have hp : p.len ≤ w := hlen.trans hq
  obtain ⟨m, hm⟩ : ∃ m, p.size = q.size * m :=
    ⟨2 ^ (q.len - p.len), by unfold size; rw [← Nat.pow_add]; congr 1; omega⟩
  rw [contains_iff hp] at hpa
  rw [contains_iff hq] at hqa
  have hlp := ipLow_toNat hp
  have hlq := ipLow_toNat hq
  -- both blocks are multiples of the smaller size, so compare quotients
  set x := q.addr.toNat / q.size
  set y := p.addr.toNat / p.size
  have hpl : p.ipLow.toNat = q.size * (m * y) := by rw [hlp, hm, Nat.mul_assoc]
  have hpe : p.ipLow.toNat + p.size = q.size * (m * y + m) := by
    rw [hpl, hm, Nat.mul_add]
  have h1 : m * y < x + 1 := by
    apply Nat.lt_of_mul_lt_mul_left (a := q.size)
    rw [← hpl, Nat.mul_add, Nat.mul_one, ← hlq]
    omega
  have h2 : x < m * y + m := by
    apply Nat.lt_of_mul_lt_mul_left (a := q.size)
    omega
  constructor
  · rw [hpl, hlq]
    exact Nat.mul_le_mul_left _ (by omega)
  · rw [hpe, hlq]
    calc q.size * x + q.size = q.size * (x + 1) := by rw [Nat.mul_add, Nat.mul_one]
      _ ≤ q.size * (m * y + m) := Nat.mul_le_mul_left _ (by omega)

end IpPrefix

end NicSw
