import Mathlib.Data.ZMod.Basic
import Mathlib.Data.Nat.Prime.Basic
import Mathlib.Data.Nat.Bitwise

/-!
# Bit-vector primitives

The kernel reaches bit-vectors only through the solver's `bzla_bv_*` primitives, which are not
part of this repository. They are modelled from the spec as operations on `BitVec w`:
`bzla_bv_and`, `or`, `xor`, `not`, `neg`, `add`, `sub`, `mul`, `sll`, `srl`, `inc` and `dec`
are the `BitVec` operators, `bzla_bv_urem` is `%` (a zero divisor leaves the dividend),
`bzla_bv_compare` is the unsigned order, `bzla_bv_get_bit` is `getLsbD`, `bzla_bv_slice` is
`extractLsb`, `bzla_bv_concat` is `++`, `bzla_bv_ult` is `BitVec.ult`, `bzla_bv_eq` is
`BitVec.ofBool (x == s)`, `bzla_bv_uint64_to_bv` is `BitVec.ofNat` and `bzla_bv_ones` is
`allOnes`.
The primitives with no `BitVec` counterpart are defined here, together with the facts about
the unsigned order that the domain and generator proofs read bit by bit.
-/

namespace Bzla

variable {w : Nat}

theorem eq_iff_getLsbD {x y : BitVec w} : x = y ↔ ∀ i, x.getLsbD i = y.getLsbD i :=
  ⟨fun same _ => same ▸ rfl, fun agree => BitVec.eq_of_getLsbD_eq fun i => agree i⟩

/-! ### Division, bits and trailing zeros -/

/-- Modelled from the spec: `bzla_bv_udiv`, unsigned division with the SMT-LIB value `ones`
for a zero divisor. -/
def bvUdiv (a b : BitVec w) : BitVec w :=
  if b = 0 then BitVec.allOnes w else a / b

@[simp] theorem bvUdiv_zero (a : BitVec w) : bvUdiv a 0 = BitVec.allOnes w := by
  simp [bvUdiv]

theorem toNat_bvUdiv_of_ne (a : BitVec w) {b : BitVec w} (nonzero : b ≠ 0) :
    (bvUdiv a b).toNat = a.toNat / b.toNat := by
  rw [bvUdiv, if_neg nonzero, BitVec.toNat_udiv]

/-- Modelled from the spec: `bzla_bv_set_bit`. -/
def bvSetBit (x : BitVec w) (i : Nat) (b : Bool) : BitVec w :=
  if b then x ||| BitVec.twoPow w i else x &&& ~~~(BitVec.twoPow w i)

@[simp] theorem getLsbD_bvSetBit (x : BitVec w) (i j : Nat) (b : Bool) :
    (bvSetBit x i b).getLsbD j = if j = i then (decide (i < w) && b) else x.getLsbD j := by
  have bound : x.getLsbD j = true → j < w := BitVec.lt_of_getLsbD
  by_cases same : j = i
  · subst j
    cases b <;> by_cases inRange : i < w <;>
      simp_all [bvSetBit, BitVec.getLsbD_twoPow]
  · cases b
    · simpa [bvSetBit, BitVec.getLsbD_twoPow, same, Ne.symm same] using bound
    · simp [bvSetBit, BitVec.getLsbD_twoPow, same, Ne.symm same]

theorem not_bvSetBit (x : BitVec w) (i : Nat) (b : Bool) :
    ~~~(bvSetBit x i b) = bvSetBit (~~~x) i (!b) := by
  refine eq_iff_getLsbD.mpr fun j => ?_
  by_cases same : j = i
  · subst same
    by_cases inRange : j < w <;> simp [inRange]
  · simp [same]

theorem not_le_not {x y : BitVec w} : ~~~x ≤ ~~~y ↔ y ≤ x := by
  simp only [BitVec.le_def, BitVec.toNat_not]
  have := x.isLt
  have := y.isLt
  omega

/-- Trailing zero bits among the `w` low bits of `n`; `w` when they are all zero. -/
def trailingZeros : Nat → Nat → Nat
  | 0, _ => 0
  | w + 1, n => if n % 2 = 1 then 0 else trailingZeros w (n / 2) + 1

/-- Modelled from the spec: `bzla_bv_get_num_trailing_zeros`, `w` for the zero vector. -/
def bvGetNumTrailingZeros (x : BitVec w) : Nat :=
  trailingZeros w x.toNat

theorem trailingZeros_le (w n : Nat) : trailingZeros w n ≤ w := by
  induction w generalizing n with
  | zero => simp [trailingZeros]
  | succ w ih =>
      unfold trailingZeros
      split
      · omega
      · have := ih (n / 2)
        omega

theorem two_pow_trailingZeros_dvd (w n : Nat) : 2 ^ trailingZeros w n ∣ n := by
  induction w generalizing n with
  | zero => simp [trailingZeros]
  | succ w ih =>
      unfold trailingZeros
      split
      · simp
      · have even : n / 2 * 2 = n := by omega
        have scaled := Nat.mul_dvd_mul_right (ih (n / 2)) 2
        rwa [even, ← pow_succ] at scaled

theorem odd_div_two_pow_trailingZeros {w n : Nat} (below : trailingZeros w n < w) :
    n / 2 ^ trailingZeros w n % 2 = 1 := by
  induction w generalizing n with
  | zero => simp at below
  | succ w ih =>
      unfold trailingZeros at below ⊢
      split
      · simpa
      · rename_i even
        rw [if_neg even] at below
        rw [pow_succ, mul_comm, ← Nat.div_div_eq_div_mul]
        exact ih (by omega)

theorem trailingZeros_lt {w n : Nat} (bound : n < 2 ^ w) (nonzero : n ≠ 0) :
    trailingZeros w n < w := by
  rcases Nat.lt_or_eq_of_le (trailingZeros_le w n) with below | full
  · exact below
  · have dvd := two_pow_trailingZeros_dvd w n
    rw [full] at dvd
    exact absurd (Nat.eq_zero_of_dvd_of_lt dvd bound) nonzero

theorem toNat_eq_two_pow_mul_odd {s : BitVec w} (nonzero : s ≠ 0) :
    bvGetNumTrailingZeros s < w ∧
      s.toNat = 2 ^ bvGetNumTrailingZeros s * (s.toNat / 2 ^ bvGetNumTrailingZeros s) ∧
      s.toNat / 2 ^ bvGetNumTrailingZeros s % 2 = 1 := by
  have positive : s.toNat ≠ 0 := by
    intro zero
    exact nonzero (BitVec.eq_of_toNat_eq (by simpa using zero))
  have below := trailingZeros_lt s.isLt positive
  exact ⟨below, (Nat.mul_div_cancel' (two_pow_trailingZeros_dvd w s.toNat)).symm,
    odd_div_two_pow_trailingZeros below⟩

/-! ### Modular inverse -/

/-- Modelled from the spec: `bzla_bv_mod_inverse`, the inverse of an odd value modulo `2 ^ w`. -/
def bvModInverse (x : BitVec w) : BitVec w :=
  BitVec.ofNat w ((x.toNat : ZMod (2 ^ w))⁻¹).val

theorem mul_bvModInverse {x : BitVec w} (odd : x.toNat % 2 = 1) : x * bvModInverse x = 1 := by
  have coprime : Nat.Coprime x.toNat (2 ^ w) :=
    Nat.Coprime.pow_right w (Nat.coprime_two_right.mpr (Nat.odd_iff.mpr odd))
  have unit : (x.toNat : ZMod (2 ^ w)) * (x.toNat : ZMod (2 ^ w))⁻¹ = 1 := by
    rw [ZMod.mul_inv_eq_gcd, ZMod.val_natCast, Nat.mod_eq_of_lt x.isLt, coprime.gcd_eq_one,
      Nat.cast_one]
  have values := congrArg ZMod.val unit
  rw [ZMod.val_mul, ZMod.val_natCast, Nat.mod_eq_of_lt x.isLt] at values
  apply BitVec.eq_of_toNat_eq
  simp only [bvModInverse, BitVec.toNat_mul, BitVec.toNat_ofNat,
    Nat.mod_eq_of_lt (ZMod.val_lt _)]
  rw [values, ZMod.val_one_eq_one_mod]
  rfl

/-! ### The unsigned order read bit by bit -/

theorem lt_of_getLsbD_of_above {x y : BitVec w} (p : Nat) (clear : x.getLsbD p = false)
    (set : y.getLsbD p = true)
    (above : ∀ j, p < j → x.getLsbD j = true → y.getLsbD j = true) : x < y := by
  rw [BitVec.lt_def]
  have highs : x.toNat / 2 ^ (p + 1) ≤ y.toNat / 2 ^ (p + 1) := by
    apply Nat.le_of_testBit
    intro j bit
    rw [← Nat.shiftRight_eq_div_pow, Nat.testBit_shiftRight] at bit ⊢
    exact above (p + 1 + j) (by omega) bit
  have lowX : x.toNat % 2 ^ (p + 1) < 2 ^ p := by
    apply Nat.lt_pow_two_of_testBit
    intro i atLeast
    rw [Nat.testBit_mod_two_pow]
    rcases Nat.lt_or_eq_of_le atLeast with bigger | rfl
    · simp [show ¬ i < p + 1 by omega]
    · simpa using clear
  have lowY : 2 ^ p ≤ y.toNat % 2 ^ (p + 1) := by
    apply Nat.testBit_implies_ge
    rw [Nat.testBit_mod_two_pow]
    simpa using set
  have scaled := Nat.mul_le_mul_left (2 ^ (p + 1)) highs
  have splitX := Nat.div_add_mod x.toNat (2 ^ (p + 1))
  have splitY := Nat.div_add_mod y.toNat (2 ^ (p + 1))
  omega

theorem exists_getLsbD_of_lt {x y : BitVec w} (lt : x < y) :
    ∃ p, x.getLsbD p = false ∧ y.getLsbD p = true ∧ ∀ j, p < j → x.getLsbD j = y.getLsbD j := by
  rw [BitVec.lt_def] at lt
  have differ : x.toNat ^^^ y.toNat ≠ 0 := by
    intro zero
    rw [Nat.xor_eq_zero] at zero
    omega
  obtain ⟨p, top, none⟩ := Nat.exists_most_significant_bit differ
  have agree : ∀ j, p < j → x.toNat.testBit j = y.toNat.testBit j := by
    intro j bigger
    have equal := none j bigger
    rw [Nat.testBit_xor] at equal
    revert equal
    cases x.toNat.testBit j <;> cases y.toNat.testBit j <;> simp
  rw [Nat.testBit_xor] at top
  simp only [BitVec.getLsbD]
  cases bitX : x.toNat.testBit p <;> cases bitY : y.toNat.testBit p <;> simp [bitX, bitY] at top
  · exact ⟨p, bitX, bitY, agree⟩
  · exact absurd (Nat.lt_of_testBit p bitY bitX fun j bigger => (agree j bigger).symm) (by omega)

theorem le_of_lt_bv {x y : BitVec w} (lt : x < y) : x ≤ y :=
  BitVec.le_def.mpr (Nat.le_of_lt (BitVec.lt_def.mp lt))

theorem le_of_getLsbD_imp {x y : BitVec w}
    (subset : ∀ i, x.getLsbD i = true → y.getLsbD i = true) : x ≤ y := by
  rw [BitVec.le_def]
  exact Nat.le_of_testBit subset

/-! ### One-bit results, concatenations and slices -/

theorem ofBool_eq_zero_iff (b : Bool) : BitVec.ofBool b = 0#1 ↔ b = false := by
  cases b <;> decide

theorem ofBool_eq_one_iff (b : Bool) : BitVec.ofBool b = 1#1 ↔ b = true := by
  cases b <;> decide

theorem ult_eq_decide (x y : BitVec w) : x.ult y = decide (x < y) := rfl

theorem toNat_eq_toNat_iff {m n : Nat} {a : BitVec m} {b : BitVec n} :
    a.toNat = b.toNat ↔ ∀ i, a.getLsbD i = b.getLsbD i :=
  ⟨fun same i => by rw [← BitVec.testBit_toNat, same, BitVec.testBit_toNat],
    fun bits => Nat.eq_of_testBit_eq fun i => by simp only [BitVec.testBit_toNat, bits]⟩

theorem append_eq_iff {m n : Nat} (x : BitVec m) (y : BitVec n) (t : BitVec (m + n)) :
    x ++ y = t ↔ (∀ i, x.getLsbD i = t.getLsbD (n + i)) ∧
      ∀ i, y.getLsbD i = (decide (i < n) && t.getLsbD i) := by
  rw [eq_iff_getLsbD]
  constructor
  · intro bits
    refine ⟨fun i => by simpa [BitVec.getLsbD_append] using bits (n + i), fun i => ?_⟩
    by_cases below : i < n
    · simpa [BitVec.getLsbD_append, below] using bits i
    · simp [below, BitVec.getLsbD_ge y i (Nat.le_of_not_lt below)]
  · rintro ⟨high, low⟩ i
    by_cases below : i < n
    · simp [BitVec.getLsbD_append, below, low]
    · simp [BitVec.getLsbD_append, below, high, Nat.add_sub_cancel' (Nat.le_of_not_lt below)]

theorem getLsbD_extractLsb_high {m n : Nat} (t : BitVec (m + n)) (i : Nat) :
    (BitVec.extractLsb (m + n - 1) n t).getLsbD i = t.getLsbD (n + i) := by
  rw [BitVec.getLsbD_extract]
  by_cases inRange : i < m
  · simp [show i ≤ m + n - 1 - n by omega]
  · simp [BitVec.getLsbD_ge t (n + i) (by omega)]

theorem getLsbD_extractLsb_low {k n : Nat} (pos : 0 < n) (t : BitVec k) (i : Nat) :
    (BitVec.extractLsb (n - 1) 0 t).getLsbD i = (decide (i < n) && t.getLsbD i) := by
  rw [BitVec.getLsbD_extract, Nat.zero_add, Nat.sub_zero]
  congr 1
  exact decide_eq_decide.mpr (by omega)

theorem getLsbD_ofNat_toNat {m n : Nat} (b : BitVec n) (i : Nat) :
    (BitVec.ofNat m b.toNat).getLsbD i = (decide (i < m) && b.getLsbD i) := by
  rw [BitVec.ofNat_toNat, BitVec.getLsbD_setWidth]

end Bzla
