import Mathlib.Tactic.LinearCombination
import BzlaInv.Const.Basic

/-!
# The mul check with constant bits

`bzla_is_inv_mul_const` refines `bzla_is_inv_mul` by the fixed bits of `x`. A fixed `x` is
tried as it is; for odd `s` the only solution is `s⁻¹ * t`; for even `s` the solutions are the
values whose low `w - ctz(s)` bits are those of `(s >> ctz(s))⁻¹ * (t >> ctz(s))`, the domain
`d_tmp_x` that the code meets with `x`. The check is exact on every valid domain, and the two
assertions of the even branch follow from the condition of `bzla_is_inv_mul`.
-/

namespace Bzla

variable {w : Nat}

/-- `d_tmp_x` of `bzla_is_inv_mul_const`: the low `w - ctz(s)` bits fixed to those of
`(s >> ctz(s))⁻¹ * (t >> ctz(s))`, the top `ctz(s)` bits free. -/
def mulConstDomain (t s : BitVec w) : BvDomain w :=
  let tz_s := bvGetNumTrailingZeros s
  let tmp_x := bvModInverse (s >>> tz_s) * (t >>> tz_s)
  let mask_lo := BitVec.allOnes w >>> tz_s
  ⟨mask_lo &&& tmp_x, ~~~mask_lo ||| tmp_x⟩

/-- `bzla_is_inv_mul_const`. The check does not read `pos_x`. -/
def isInvMulConst (x : BvDomain w) (t s : BitVec w) : Bool :=
  let res := isInvMul t s
  if res && s != 0 && x.hasFixedBits then
    if x.isFixed then x.lo * s == t
    else if s.getLsbD 0 then checkConstBits x (bvModInverse s * t)
    else checkConstDomainBits (mulConstDomain t s) x
  else res

/-! ### Trailing zeros of a multiple -/

theorem trailingZeros_zero (w : Nat) : trailingZeros w 0 = w := by
  induction w with
  | zero => rfl
  | succ w ih => simp [trailingZeros, ih]

theorem le_trailingZeros_of_dvd {w n k : Nat} (dvd : 2 ^ k ∣ n) (atMost : k ≤ w) :
    k ≤ trailingZeros w n := by
  induction w generalizing n k with
  | zero =>
      simp only [trailingZeros]
      omega
  | succ w ih =>
      unfold trailingZeros
      split
      · rename_i odd
        rcases k with _ | k
        · exact le_refl 0
        · exact absurd (Nat.dvd_trans (Dvd.intro_left _ (pow_succ 2 k).symm) dvd)
            (by omega)
      · rcases k with _ | k
        · exact Nat.zero_le _
        · have half : 2 ^ k ∣ n / 2 :=
            Nat.dvd_div_of_mul_dvd (by rw [← pow_succ']; exact dvd)
          exact Nat.succ_le_succ (ih half (by omega))

/-! ### The solution domain of the even branch -/

theorem mulConstDomain_valid (t s : BitVec w) : (mulConstDomain t s).isValid = true := by
  rw [BvDomain.isValid_iff]
  intro i
  simp only [mulConstDomain, BitVec.getLsbD_and, BitVec.getLsbD_or, Bool.and_eq_true]
  exact fun both => by simp [both.2]

/-- The valid domain `d_tmp_x`. -/
def mulConstValidDomain (t s : BitVec w) : ValidDomain w :=
  ⟨mulConstDomain t s, mulConstDomain_valid t s⟩

/-- A value lies in `d_tmp_x` exactly when its low `w - ctz(s)` bits are those of `tmp_x`. -/
theorem mem_mulConstDomain_iff (t s x : BitVec w) :
    x ∈ mulConstDomain t s ↔
      x.toNat % 2 ^ (w - bvGetNumTrailingZeros s) =
        (bvModInverse (s >>> bvGetNumTrailingZeros s) * (t >>> bvGetNumTrailingZeros s)).toNat %
          2 ^ (w - bvGetNumTrailingZeros s) := by
  rw [BvDomain.mem_iff_getLsbD]
  simp only [mulConstDomain, BitVec.getLsbD_and, BitVec.getLsbD_or, BitVec.getLsbD_not,
    BitVec.getLsbD_ushiftRight, BitVec.getLsbD_allOnes]
  generalize bvModInverse (s >>> bvGetNumTrailingZeros s) * (t >>> bvGetNumTrailingZeros s) = y
  generalize bvGetNumTrailingZeros s = z
  constructor
  · intro bits
    apply Nat.eq_of_testBit_eq
    intro i
    rw [Nat.testBit_mod_two_pow, Nat.testBit_mod_two_pow]
    by_cases low : i < w - z
    · have both := bits i
      simp only [show z + i < w by omega, decide_True, Bool.true_and, Bool.not_true,
        Bool.and_false, Bool.false_or] at both
      simp only [low, decide_True, Bool.true_and]
      exact Bool.eq_iff_iff.mpr ⟨both.2, both.1⟩
    · simp [low]
  · intro same i
    have bit := congrArg (Nat.testBit · i) same
    simp only [Nat.testBit_mod_two_pow] at bit
    have bound : x.getLsbD i = true → i < w := BitVec.lt_of_getLsbD
    by_cases low : z + i < w
    · simp only [show i < w - z by omega, decide_True, Bool.true_and] at bit
      have bit' : x.getLsbD i = y.getLsbD i := bit
      simp [low, bit']
    · simp only [low, decide_False, Bool.false_and, Bool.not_false, Bool.true_and]
      exact ⟨fun no => absurd no (by simp), fun set => by simp [bound set]⟩

theorem mul_modEq_iff_modEq_mul {m o inv a q : Nat} (unit : o * inv ≡ 1 [MOD m]) :
    a * o ≡ q [MOD m] ↔ a ≡ inv * q [MOD m] := by
  have unitZ : (o : ZMod m) * inv = 1 := by
    simpa using (ZMod.eq_iff_modEq_nat m).mpr unit
  rw [← ZMod.eq_iff_modEq_nat, ← ZMod.eq_iff_modEq_nat]
  push_cast
  constructor
  · intro equal
    linear_combination (inv : ZMod m) * equal - (a : ZMod m) * unitZ
  · intro equal
    linear_combination (o : ZMod m) * equal + (q : ZMod m) * unitZ

/-- With `s = 2 ^ z * o` and `t = 2 ^ z * q`, `x * s = t` is `x * o = q` modulo `2 ^ (w - z)`. -/
theorem mul_eq_iff_modEq {x s t : BitVec w} {z o q : Nat} (below : z < w)
    (split : s.toNat = 2 ^ z * o) (tSplit : t.toNat = 2 ^ z * q) :
    x * s = t ↔ x.toNat * o ≡ q [MOD 2 ^ (w - z)] := by
  have width : 2 ^ w = 2 ^ z * 2 ^ (w - z) := by
    rw [← pow_add, Nat.add_sub_cancel' below.le]
  rw [← @Nat.ModEq.mul_left_cancel_iff' _ _ (2 ^ z) _ (by positivity), ← width, Nat.ModEq,
    ← tSplit, Nat.mod_eq_of_lt t.isLt, BitVec.toNat_eq, BitVec.toNat_mul, split]
  ring_nf

/-- Under the mul condition and for nonzero `s`, the solutions of `x * s = t` are exactly
the values of `d_tmp_x`: the low `w - ctz(s)` bits of `x` are determined. -/
theorem mem_mulConstDomain_iff_mul {s t : BitVec w} (holds : isInvMul t s = true)
    (nonzero : s ≠ 0) (x : BitVec w) : x ∈ mulConstDomain t s ↔ x * s = t := by
  rw [mem_mulConstDomain_iff]
  have divides := (isInvMul_iff_dvd nonzero).mp holds
  obtain ⟨below, split, odd⟩ := toNat_eq_two_pow_mul_odd nonzero
  have shiftS : (s >>> bvGetNumTrailingZeros s).toNat = s.toNat / 2 ^ bvGetNumTrailingZeros s := by
    rw [BitVec.toNat_ushiftRight, Nat.shiftRight_eq_div_pow]
  have shiftT : (t >>> bvGetNumTrailingZeros s).toNat = t.toNat / 2 ^ bvGetNumTrailingZeros s := by
    rw [BitVec.toNat_ushiftRight, Nat.shiftRight_eq_div_pow]
  have unit := congrArg BitVec.toNat
    (@mul_bvModInverse w (s >>> bvGetNumTrailingZeros s) (by rw [shiftS]; exact odd))
  rw [BitVec.toNat_mul, shiftS] at unit
  have tSplit := (Nat.mul_div_cancel' divides).symm
  rw [BitVec.toNat_mul, shiftT]
  generalize (bvModInverse (s >>> bvGetNumTrailingZeros s)).toNat = inv at unit
  generalize bvGetNumTrailingZeros s = z at below split odd tSplit unit ⊢
  generalize s.toNat / 2 ^ z = o at split odd unit
  generalize t.toNat / 2 ^ z = q at tSplit
  -- the inverse of `o` modulo `2 ^ w` is one modulo `2 ^ (w - z)`, and so is its product
  have low : 2 ^ (w - z) ∣ 2 ^ w := Nat.pow_dvd_pow 2 (Nat.sub_le w z)
  have unitLow : o * inv ≡ 1 [MOD 2 ^ (w - z)] := Nat.ModEq.of_dvd low unit
  have reduce : inv * q % 2 ^ w ≡ inv * q [MOD 2 ^ (w - z)] :=
    Nat.ModEq.of_dvd low (Nat.mod_modEq _ _)
  rw [mul_eq_iff_modEq below split tSplit, mul_modEq_iff_modEq_mul unitLow]
  exact ⟨fun same => Nat.ModEq.trans same reduce, fun same => Nat.ModEq.trans same reduce.symm⟩

/-! ### Exactness -/

theorem ValidDomain.mem_of_not_hasFixedBits (D : ValidDomain w)
    (none : D.hasFixedBits = false) (b : BitVec w) : b ∈ D.toBvDomain := by
  simp only [BvDomain.hasFixedBits, bne_eq_false_iff_eq] at none
  refine BvDomain.mem_iff_getLsbD.mpr fun i => ?_
  by_cases inRange : i < w
  · have bit := congrArg (BitVec.getLsbD · i) none
    have valid := D.lo_imp_hi i
    simp only [BitVec.getLsbD_not, BitVec.getLsbD_xor, BitVec.getLsbD_zero] at bit
    revert bit valid
    cases D.lo.getLsbD i <;> cases D.hi.getLsbD i <;> cases b.getLsbD i <;> simp [inRange]
  · simp [BitVec.getLsbD_ge _ _ (Nat.le_of_not_lt inRange)]

theorem ValidDomain.mem_iff_eq_of_isFixed (D : ValidDomain w) (fixed : D.isFixed = true)
    (b : BitVec w) : b ∈ D.toBvDomain ↔ b = D.lo := by
  simp only [BvDomain.isFixed, beq_iff_eq] at fixed
  rw [BvDomain.mem_iff_getLsbD, eq_iff_getLsbD, ← fixed]
  refine forall_congr' fun i => ?_
  cases D.lo.getLsbD i <;> cases b.getLsbD i <;> simp

theorem mul_eq_iff_of_odd {s t : BitVec w} (odd : s.getLsbD 0 = true) (x : BitVec w) :
    x * s = t ↔ x = bvModInverse s * t := by
  have unit := mul_bvModInverse (show s.toNat % 2 = 1 by
    simpa [BitVec.getLsbD, Nat.testBit_zero] using odd)
  constructor
  · rintro rfl
    calc x = x * (s * bvModInverse s) := by rw [unit, mul_one]
      _ = bvModInverse s * (x * s) := by ring
  · rintro rfl
    calc bvModInverse s * t * s = (s * bvModInverse s) * t := by ring
      _ = t := by rw [unit, one_mul]

/-- The assertions of the even branch, `ctz(s) ≤ ctz(t)` and `(s >> ctz(s))[0] = 1`, follow from
the mul condition for nonzero `s`. -/
theorem mulConst_assertions {s t : BitVec w} (holds : isInvMul t s = true) (nonzero : s ≠ 0) :
    bvGetNumTrailingZeros s ≤ bvGetNumTrailingZeros t ∧
      (s >>> bvGetNumTrailingZeros s).getLsbD 0 = true := by
  obtain ⟨below, -, odd⟩ := toNat_eq_two_pow_mul_odd nonzero
  refine ⟨le_trailingZeros_of_dvd ((isInvMul_iff_dvd nonzero).mp holds) below.le, ?_⟩
  rw [BitVec.getLsbD_ushiftRight, Nat.add_zero]
  simpa [BitVec.getLsbD, Nat.testBit_to_div_mod] using odd

theorem isInvMulConst_iff (D : ValidDomain w) (s t : BitVec w) :
    isInvMulConst D.toBvDomain t s = true ↔ ∃ x, x ∈ D.toBvDomain ∧ x * s = t := by
  simp only [isInvMulConst]
  by_cases guard : (isInvMul t s && s != 0 && D.hasFixedBits) = true
  · rw [if_pos guard]
    simp only [Bool.and_eq_true, bne_iff_ne, ne_eq] at guard
    obtain ⟨⟨holds, zero⟩, -⟩ := guard
    by_cases fixed : D.isFixed = true
    · rw [if_pos fixed, beq_iff_eq]
      simp only [D.mem_iff_eq_of_isFixed fixed]
      exact ⟨fun product => ⟨D.lo, rfl, product⟩, fun ⟨x, same, product⟩ => same ▸ product⟩
    · rw [if_neg fixed]
      by_cases odd : s.getLsbD 0 = true
      · rw [if_pos odd, D.checkConstBits_iff_mem]
        simp only [mul_eq_iff_of_odd odd]
        exact ⟨fun member => ⟨_, member, rfl⟩, fun ⟨x, member, same⟩ => same ▸ member⟩
      · rw [if_neg odd, show mulConstDomain t s = (mulConstValidDomain t s).toBvDomain from rfl,
          checkConstDomainBits_iff_exists]
        simp only [mulConstValidDomain, mem_mulConstDomain_iff_mul holds zero]
        exact ⟨fun ⟨x, product, member⟩ => ⟨x, member, product⟩,
          fun ⟨x, member, product⟩ => ⟨x, product, member⟩⟩
  · rw [if_neg guard]
    by_cases holds : isInvMul t s = true
    · rw [holds, iff_true_left rfl]
      obtain ⟨y, solves⟩ := (isInvMul_exact s t).mp holds
      by_cases zero : s = 0
      · subst zero
        exact ⟨D.lo, D.lo_mem, by rw [← solves]; simp⟩
      · have none : D.hasFixedBits = false :=
          (by simpa [holds] using guard : ¬s = 0#w → D.hasFixedBits = false) zero
        exact ⟨y, D.mem_of_not_hasFixedBits none y, solves⟩
    · rw [iff_false_left holds]
      rintro ⟨x, -, solves⟩
      exact holds ((isInvMul_exact s t).mpr ⟨x, solves⟩)

/-- `bzla_is_inv_mul_const` returns true exactly when some value of a valid domain solves
`x * s = t`, and the assertions of its even branch hold whenever that branch runs. -/
theorem isInvMulConst_exact (D : ValidDomain w) (s t : BitVec w) :
    (isInvMulConst D.toBvDomain t s = true ↔ ∃ x, x ∈ D.toBvDomain ∧ x * s = t) ∧
      (isInvMul t s = true → s ≠ 0 → D.hasFixedBits = true → D.isFixed = false →
        s.getLsbD 0 = false →
        bvGetNumTrailingZeros s ≤ bvGetNumTrailingZeros t ∧
          (s >>> bvGetNumTrailingZeros s).getLsbD 0 = true) :=
  ⟨isInvMulConst_iff D s t, fun holds nonzero _ _ _ => mulConst_assertions holds nonzero⟩

/-- The even branch runs on the domain `x0xx` with `s = 2` and `t = 4`. -/
theorem isInvMulConst_even_branch :
    bvGetNumTrailingZeros (2#4) ≤ bvGetNumTrailingZeros (4#4) ∧
      ((2#4) >>> bvGetNumTrailingZeros (2#4)).getLsbD 0 = true :=
  (isInvMulConst_exact ⟨⟨0#4, 11#4⟩, by decide⟩ (2#4) (4#4)).2 (by decide) (by decide)
    (by decide) (by decide) (by decide)

end Bzla
