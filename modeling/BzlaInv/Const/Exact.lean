import BzlaInv.Const.Basic

/-!
# Exactness of the checks that reduce to one comparison

On a valid domain `D`, `bzla_is_inv_add_const`, `bzla_is_inv_and_const`,
`bzla_is_inv_concat_const`, `bzla_is_inv_eq_const`, `bzla_is_inv_ult_const` and
`bzla_is_inv_slice_const` return true exactly when some value of `γ(D)` solves the equation.
Each condition is read bit by bit: a free bit of a valid domain has `lo = 0` and `hi = 1`, so
the masks keep the fixed bits, and a fixed bit is read from `lo`. The solutions built in the
proofs keep the fixed bits of `lo` and take the other bits from `t`, as the value
`(y & hi) | lo` does. For the order, `lo` and `hi` are the least and the greatest value of the
domain.

On the domain of `bzla_bvdomain_new_init` each of these checks computes its domain-free
counterpart, so the domain-free checks are exact as well.
-/

namespace Bzla

variable {w : Nat}

/-! ### Each condition bit by bit -/

section Valid

variable (D : ValidDomain w)

theorem isInvAddConst_iff (s t : BitVec w) :
    isInvAddConst D.toBvDomain t s = true ↔ ∃ x, x ∈ D.toBvDomain ∧ x + s = t := by
  rw [isInvAddConst, D.checkConstBits_iff_mem]
  exact ⟨fun member => ⟨_, member, BitVec.sub_add_cancel t s⟩,
    fun ⟨x, member, sum⟩ => BitVec.eq_sub_iff_add_eq.mpr sum ▸ member⟩

theorem isInvAnd_iff_getLsbD (s t : BitVec w) :
    isInvAnd t s = true ↔ ∀ i, t.getLsbD i = true → s.getLsbD i = true := by
  simp only [isInvAnd, beq_iff_eq, eq_iff_getLsbD, BitVec.getLsbD_and]
  refine forall_congr' fun i => ?_
  cases t.getLsbD i <;> cases s.getLsbD i <;> decide

theorem isInvAndConst_eq_and (d : BvDomain w) (s t : BitVec w) :
    isInvAndConst d t s = (isInvAnd t s &&
      (s &&& d.hi &&& ~~~(d.lo ^^^ d.hi)) == (t &&& ~~~(d.lo ^^^ d.hi))) := by
  rw [isInvAndConst]
  cases isInvAnd t s <;> rfl

theorem isInvAndConst_iff_getLsbD (d : BvDomain w) (s t : BitVec w) :
    isInvAndConst d t s = true ↔ ∀ i, (t.getLsbD i = true → s.getLsbD i = true) ∧
      (d.lo.getLsbD i = d.hi.getLsbD i → (s.getLsbD i && d.hi.getLsbD i) = t.getLsbD i) := by
  rw [isInvAndConst_eq_and, Bool.and_eq_true, isInvAnd_iff_getLsbD, beq_iff_eq, eq_iff_getLsbD,
    ← forall_and]
  refine forall_congr' fun i => ?_
  simp only [BitVec.getLsbD_and, BitVec.getLsbD_not, BitVec.getLsbD_xor]
  by_cases inRange : i < w
  · cases d.lo.getLsbD i <;> cases d.hi.getLsbD i <;> cases s.getLsbD i <;> cases t.getLsbD i <;>
      simp [inRange]
  · simp [inRange, BitVec.getLsbD_ge _ _ (Nat.le_of_not_lt inRange)]

theorem isInvAndConst_iff (s t : BitVec w) :
    isInvAndConst D.toBvDomain t s = true ↔ ∃ x, x ∈ D.toBvDomain ∧ x &&& s = t := by
  rw [isInvAndConst_iff_getLsbD]
  constructor
  · intro bits
    refine ⟨(t &&& D.hi) ||| D.lo, D.and_hi_or_lo_mem t, eq_iff_getLsbD.mpr fun i => ?_⟩
    have valid := D.lo_imp_hi i
    have bit := bits i
    simp only [BitVec.getLsbD_and, BitVec.getLsbD_or]
    revert valid bit
    cases D.lo.getLsbD i <;> cases D.hi.getLsbD i <;> cases s.getLsbD i <;> cases t.getLsbD i <;>
      decide
  · rintro ⟨x, member, rfl⟩ i
    have bit := (BvDomain.mem_iff_getLsbD.mp member) i
    simp only [BitVec.getLsbD_and]
    revert bit
    cases D.lo.getLsbD i <;> cases D.hi.getLsbD i <;> cases s.getLsbD i <;> cases x.getLsbD i <;>
      decide

theorem isInvConcatConst_left_iff {ws : Nat} (s : BitVec ws) (t : BitVec (w + ws)) (pos : 0 < ws) :
    isInvConcatConst D.toBvDomain t s 0 = true ↔ ∃ x, x ∈ D.toBvDomain ∧ x ++ s = t := by
  simp only [isInvConcatConst, ↓reduceIte, Bool.and_eq_true, beq_iff_eq, D.checkConstBits_iff_mem,
    append_eq_iff, toNat_eq_toNat_iff, getLsbD_extractLsb_low pos]
  constructor
  · rintro ⟨member, low⟩
    refine ⟨_, member, fun i => ?_, low⟩
    rw [getLsbD_ofNat_toNat, getLsbD_extractLsb_high]
    by_cases inRange : i < w
    · simp [inRange]
    · simp [inRange, BitVec.getLsbD_ge t (ws + i) (by omega)]
  · rintro ⟨x, member, high, low⟩
    refine ⟨?_, low⟩
    convert member using 1
    refine eq_iff_getLsbD.mpr fun i => ?_
    rw [getLsbD_ofNat_toNat, getLsbD_extractLsb_high, high]
    by_cases inRange : i < w
    · simp [inRange]
    · simp [inRange, BitVec.getLsbD_ge t (ws + i) (by omega)]

theorem isInvConcatConst_right_iff {ws : Nat} (s : BitVec ws) (t : BitVec (ws + w)) (pos : 0 < w) :
    isInvConcatConst D.toBvDomain t s 1 = true ↔ ∃ x, x ∈ D.toBvDomain ∧ s ++ x = t := by
  rw [isInvConcatConst, if_neg one_ne_zero]
  simp only [Bool.and_eq_true, beq_iff_eq, D.checkConstBits_iff_mem, append_eq_iff,
    toNat_eq_toNat_iff, getLsbD_extractLsb_high]
  have low : BitVec.ofNat w (BitVec.extractLsb (w - 1) 0 t).toNat =
      BitVec.ofNat w t.toNat := eq_iff_getLsbD.mpr fun i => by
    rw [getLsbD_ofNat_toNat, getLsbD_ofNat_toNat, getLsbD_extractLsb_low pos]
    cases decide (i < w) <;> rfl
  constructor
  · rintro ⟨member, high⟩
    refine ⟨_, member, high, fun i => ?_⟩
    rw [low, getLsbD_ofNat_toNat]
  · rintro ⟨x, member, high, bits⟩
    refine ⟨?_, high⟩
    convert member using 1
    exact eq_iff_getLsbD.mpr fun i => by rw [low, getLsbD_ofNat_toNat, bits]

theorem isInvUltConst_left_iff (t : BitVec 1) (s : BitVec w) :
    isInvUltConst D.toBvDomain t s 0 = true ↔
      ∃ x, x ∈ D.toBvDomain ∧ BitVec.ofBool (x.ult s) = t := by
  simp only [isInvUltConst, ↓reduceIte, ult_eq_decide]
  rcases BitVec.eq_zero_or_eq_one t with rfl | rfl
  · simp only [ofBool_eq_zero_iff, decide_eq_false_iff_not, BitVec.not_lt, decide_eq_true_eq,
      show (0#1 == (1 : BitVec 1)) = false from rfl, Bool.false_eq_true, ↓reduceIte,
      D.exists_mem_ge_iff]
  · simp only [ofBool_eq_one_iff, decide_eq_true_eq, show (1#1 == (1 : BitVec 1)) = true from rfl,
      ↓reduceIte, Bool.and_eq_true, bne_iff_ne, ne_eq, D.exists_mem_lt_iff]
    refine and_iff_right_of_imp fun lt => ?_
    rintro rfl
    simp [BitVec.lt_def] at lt

theorem isInvUltConst_right_iff (t : BitVec 1) (s : BitVec w) :
    isInvUltConst D.toBvDomain t s 1 = true ↔
      ∃ x, x ∈ D.toBvDomain ∧ BitVec.ofBool (s.ult x) = t := by
  simp only [isInvUltConst, if_neg one_ne_zero, ult_eq_decide]
  rcases BitVec.eq_zero_or_eq_one t with rfl | rfl
  · simp only [ofBool_eq_zero_iff, decide_eq_false_iff_not, BitVec.not_lt, decide_eq_true_eq,
      show (0#1 == (1 : BitVec 1)) = false from rfl, Bool.false_eq_true, ↓reduceIte,
      D.exists_mem_le_iff]
  · simp only [ofBool_eq_one_iff, decide_eq_true_eq, show (1#1 == (1 : BitVec 1)) = true from rfl,
      ↓reduceIte, Bool.and_eq_true, bne_iff_ne, ne_eq, D.exists_mem_gt_iff]
    refine and_iff_right_of_imp fun lt => ?_
    rintro rfl
    have := D.hi.isLt
    simp only [BitVec.lt_def, BitVec.toNat_allOnes] at lt
    omega

/-- `x = s`: for `t = 1`, `s` must be a value of `x`; for `t = 0`, `x` must hold a value
other than `s`, which fails only when `x` is fixed to `s`. -/
theorem isInvEqConst_iff (t : BitVec 1) (s : BitVec w) :
    isInvEqConst D.toBvDomain t s = true ↔ ∃ x, x ∈ D.toBvDomain ∧ BitVec.ofBool (x == s) = t := by
  rcases BitVec.eq_zero_or_eq_one t with rfl | rfl
  · simp only [isInvEqConst, show (0#1 == (0 : BitVec 1)) = true from rfl, ↓reduceIte,
      Bool.or_eq_true, bne_iff_ne, ne_eq, ofBool_eq_zero_iff, beq_eq_false_iff_ne]
    constructor
    · intro differ
      by_cases top : D.hi = s
      · exact ⟨D.lo, D.lo_mem, fun low => by simp_all⟩
      · exact ⟨D.hi, D.hi_mem, top⟩
    · rintro ⟨x, member, differ⟩
      by_contra! fixed
      exact differ (fixed.2 ▸ fixed.1 ▸ D.eq_lo_of_mem fixed.1.symm member)
  · simp only [isInvEqConst, show (1#1 == (0 : BitVec 1)) = false from rfl, Bool.false_eq_true,
      ↓reduceIte, D.checkConstBits_iff_mem, ofBool_eq_one_iff, beq_iff_eq, exists_eq_right]

/-- `x[upper:lower] = t`: on the fixed bits of `x` in the range, `t` is `lo`. The value with the
bits of `t` in the range and `lo` elsewhere solves the equation. -/
theorem isInvSliceConst_iff {upper lower : Nat} (t : BitVec (upper - lower + 1))
    (range : lower ≤ upper) (top : upper < w) :
    isInvSliceConst D.toBvDomain upper lower t = true ↔
      ∃ x, x ∈ D.toBvDomain ∧ BitVec.extractLsb upper lower x = t := by
  simp only [isInvSliceConst, beq_iff_eq, eq_iff_getLsbD, BitVec.getLsbD_extract,
    BitVec.getLsbD_and, BitVec.getLsbD_not, BitVec.getLsbD_xor]
  have outside : ∀ i, ¬i ≤ upper - lower → t.getLsbD i = false := fun i above =>
    BitVec.getLsbD_ge t i (by omega)
  constructor
  · intro check
    refine ⟨((t.setWidth w <<< lower) &&& D.hi) ||| D.lo, D.and_hi_or_lo_mem _, fun i => ?_⟩
    by_cases inside : i ≤ upper - lower
    · have bit := check i
      have valid := D.lo_imp_hi (lower + i)
      simp only [BitVec.getLsbD_or, BitVec.getLsbD_and, BitVec.getLsbD_shiftLeft,
        BitVec.getLsbD_setWidth, Nat.add_sub_cancel_left, inside, show lower + i < w by omega,
        show ¬lower + i < lower by omega, show i < w by omega, decide_True, decide_False,
        Bool.true_and, Bool.not_false] at bit ⊢
      revert bit valid
      cases D.lo.getLsbD (lower + i) <;> cases D.hi.getLsbD (lower + i) <;> cases t.getLsbD i <;>
        decide
    · simp only [inside, outside i inside, decide_False, Bool.false_and]
  · rintro ⟨x, member, bits⟩ i
    have bit := (BvDomain.mem_iff_getLsbD.mp member) (lower + i)
    by_cases inside : i ≤ upper - lower
    · simp only [← bits i, inside, show lower + i < w by omega, decide_True, Bool.true_and]
      revert bit
      cases D.lo.getLsbD (lower + i) <;> cases D.hi.getLsbD (lower + i) <;>
        cases x.getLsbD (lower + i) <;> decide
    · simp only [inside, decide_False, Bool.false_and]

end Valid

/-! ### Add, and, concat, eq, ult and slice against `γ(D)` -/

/-- `bzla_is_inv_and_const` is exact on a valid domain, for `x & s` and for `s & x`. -/
theorem isInvAndConst_exact (D : ValidDomain w) (s t : BitVec w) :
    (isInvAndConst D.toBvDomain t s = true ↔ ∃ x, x ∈ D.toBvDomain ∧ x &&& s = t) ∧
      (isInvAndConst D.toBvDomain t s = true ↔ ∃ x, x ∈ D.toBvDomain ∧ s &&& x = t) :=
  ⟨isInvAndConst_iff D s t, by simp only [BitVec.and_comm s, isInvAndConst_iff D s t]⟩

/-- `bzla_is_inv_concat_const` is exact on a valid domain, for `x o s` and for `s o x`. -/
theorem isInvConcatConst_exact {wx ws : Nat} (D : ValidDomain wx) (s : BitVec ws) (posX : 0 < wx)
    (posS : 0 < ws) :
    (∀ t : BitVec (wx + ws),
        isInvConcatConst D.toBvDomain t s 0 = true ↔ ∃ x, x ∈ D.toBvDomain ∧ x ++ s = t) ∧
      ∀ t : BitVec (ws + wx),
        isInvConcatConst D.toBvDomain t s 1 = true ↔ ∃ x, x ∈ D.toBvDomain ∧ s ++ x = t :=
  ⟨fun t => isInvConcatConst_left_iff D s t posS, fun t => isInvConcatConst_right_iff D s t posX⟩

theorem isInvConcatConst_exact_x1 :
    0 < 2 ∧ 0 < 1 ∧
      ((∀ t : BitVec (2 + 1), isInvConcatConst ⟨1#2, 3#2⟩ t (1#1) 0 = true ↔
          ∃ x, x ∈ (⟨1#2, 3#2⟩ : BvDomain 2) ∧ x ++ 1#1 = t) ∧
        ∀ t : BitVec (1 + 2), isInvConcatConst ⟨1#2, 3#2⟩ t (1#1) 1 = true ↔
          ∃ x, x ∈ (⟨1#2, 3#2⟩ : BvDomain 2) ∧ 1#1 ++ x = t) :=
  ⟨by decide, by decide,
    isInvConcatConst_exact ⟨⟨1#2, 3#2⟩, by decide⟩ (1#1) (by decide) (by decide)⟩

/-- `bzla_is_inv_ult_const` is exact on a valid domain, for `x < s` and for `s < x`. -/
theorem isInvUltConst_exact (D : ValidDomain w) (t : BitVec 1) (s : BitVec w) :
    (isInvUltConst D.toBvDomain t s 0 = true ↔
        ∃ x, x ∈ D.toBvDomain ∧ BitVec.ofBool (x.ult s) = t) ∧
      (isInvUltConst D.toBvDomain t s 1 = true ↔
        ∃ x, x ∈ D.toBvDomain ∧ BitVec.ofBool (s.ult x) = t) :=
  ⟨isInvUltConst_left_iff D t s, isInvUltConst_right_iff D t s⟩

/-- `bzla_is_inv_add_const`, `bzla_is_inv_eq_const` and `bzla_is_inv_slice_const` are exact on
a valid domain, for both operand orders of `+` and `=`. -/
theorem isInvAddEqSliceConst_exact (D : ValidDomain w) :
    (∀ s t : BitVec w,
        (isInvAddConst D.toBvDomain t s = true ↔ ∃ x, x ∈ D.toBvDomain ∧ x + s = t) ∧
          (isInvAddConst D.toBvDomain t s = true ↔ ∃ x, x ∈ D.toBvDomain ∧ s + x = t)) ∧
      (∀ (t : BitVec 1) (s : BitVec w),
        (isInvEqConst D.toBvDomain t s = true ↔
            ∃ x, x ∈ D.toBvDomain ∧ BitVec.ofBool (x == s) = t) ∧
          (isInvEqConst D.toBvDomain t s = true ↔
            ∃ x, x ∈ D.toBvDomain ∧ BitVec.ofBool (s == x) = t)) ∧
      ∀ (upper lower : Nat) (t : BitVec (upper - lower + 1)), lower ≤ upper → upper < w →
        (isInvSliceConst D.toBvDomain upper lower t = true ↔
          ∃ x, x ∈ D.toBvDomain ∧ BitVec.extractLsb upper lower x = t) :=
  ⟨fun s t => ⟨isInvAddConst_iff D s t, by simp only [BitVec.add_comm s, isInvAddConst_iff D s t]⟩,
    fun t s => ⟨isInvEqConst_iff D t s,
      by simp only [Bool.beq_comm (a := s), isInvEqConst_iff D t s]⟩,
    fun _ _ t range top => isInvSliceConst_iff D t range top⟩

theorem isInvSliceConst_exact_xx01 :
    (0 ≤ 1 ∧ 1 < 4) ∧ (isInvSliceConst ⟨1#4, 13#4⟩ 1 0 (1#2) = true ↔
      ∃ x, x ∈ (⟨1#4, 13#4⟩ : BvDomain 4) ∧ BitVec.extractLsb 1 0 x = 1#2) :=
  ⟨by decide, (isInvAddEqSliceConst_exact ⟨⟨1#4, 13#4⟩, by decide⟩).2.2 1 0 (1#2) (by decide)
    (by decide)⟩

/-! ### Without the domain

On the domain of `bzla_bvdomain_new_init`, with no fixed bit, each check with constant bits
computes the domain-free check, so the exactness of the former gives that of the latter. -/

section NewInit

@[simp] theorem checkConstBits_newInit (b : BitVec w) :
    checkConstBits (BvDomain.newInit w) b = true :=
  (ValidDomain.newInit w).checkConstBits_iff_mem.mpr (BvDomain.mem_newInit b)

theorem isInvAddConst_newInit (s t : BitVec w) :
    isInvAddConst (BvDomain.newInit w) t s = isInvAdd :=
  checkConstBits_newInit _

theorem isInvAndConst_newInit (s t : BitVec w) :
    isInvAndConst (BvDomain.newInit w) t s = isInvAnd t s := by
  simp [isInvAndConst_eq_and, BvDomain.newInit]

theorem isInvEqConst_newInit (pos : 0 < w) (t : BitVec 1) (s : BitVec w) :
    isInvEqConst (BvDomain.newInit w) t s = isInvEq := by
  have ones : BitVec.allOnes w ≠ 0#w := fun zero => by
    simpa [Nat.pos_iff_ne_zero.mp pos] using congrArg (BitVec.getLsbD · 0) zero
  rcases BitVec.eq_zero_or_eq_one t with rfl | rfl
  · simp [isInvEqConst, isInvEq, BvDomain.newInit, ones,
      show (0#1 == (0 : BitVec 1)) = true from rfl]
  · simp [isInvEqConst, isInvEq, show (1#1 == (0 : BitVec 1)) = false from rfl]

theorem isInvUltConst_newInit (t : BitVec 1) (s : BitVec w) :
    isInvUltConst (BvDomain.newInit w) t s 0 = isInvUlt t s 0 ∧
      isInvUltConst (BvDomain.newInit w) t s 1 = isInvUlt t s 1 := by
  have top := s.isLt
  have low : 0#w < s ↔ s ≠ 0#w := by
    rw [BitVec.lt_def, Ne, BitVec.toNat_eq, BitVec.toNat_ofNat, Nat.zero_mod]
    omega
  have high : s < BitVec.allOnes w ↔ s ≠ BitVec.allOnes w := by
    rw [BitVec.lt_def, Ne, BitVec.toNat_eq, BitVec.toNat_allOnes]
    omega
  have le : 0#w ≤ s ∧ s ≤ BitVec.allOnes w := by
    rw [BitVec.le_def, BitVec.le_def, BitVec.toNat_allOnes, BitVec.toNat_ofNat, Nat.zero_mod]
    omega
  rcases BitVec.eq_zero_or_eq_one t with rfl | rfl
  · simp [isInvUltConst, isInvUlt, BvDomain.newInit, le,
      show (0#1 == (1 : BitVec 1)) = false from rfl, show (0#1 == (0 : BitVec 1)) = true from rfl]
  · simp [isInvUltConst, isInvUlt, BvDomain.newInit, low, high,
      show (1#1 == (1 : BitVec 1)) = true from rfl, show (1#1 == (0 : BitVec 1)) = false from rfl]

theorem isInvConcatConst_newInit {ws wt : Nat} (t : BitVec wt) (s : BitVec ws) :
    isInvConcatConst (BvDomain.newInit w) t s 0 = isInvConcat t s 0 := by
  simp only [isInvConcatConst, isInvConcat, ↓reduceIte, checkConstBits_newInit, Bool.true_and]

theorem isInvConcatConst_newInit_right {ws : Nat} (t : BitVec (ws + w)) (s : BitVec ws) :
    isInvConcatConst (BvDomain.newInit w) t s 1 = isInvConcat t s 1 := by
  simp only [isInvConcatConst, isInvConcat, if_neg one_ne_zero, checkConstBits_newInit,
    Bool.true_and]
  rw [Nat.add_sub_cancel_left]

theorem isInvSliceConst_newInit (upper lower : Nat) (t : BitVec (upper - lower + 1)) :
    isInvSliceConst (BvDomain.newInit w) upper lower t = isInvSlice := by
  simp [isInvSliceConst, isInvSlice, BvDomain.newInit]

/-- A check with constant bits that computes `ic` on the full domain and is exact there makes
`ic` exact. -/
theorem exact_of_newInit {P : BitVec w → Prop} {check ic : Bool} (same : check = ic)
    (exact : check = true ↔ ∃ x, x ∈ (ValidDomain.newInit w).toBvDomain ∧ P x) :
    ic = true ↔ ∃ x, P x := by
  simpa only [← same, ValidDomain.toBvDomain_newInit, BvDomain.mem_newInit, true_and] using exact

end NewInit

/-- The domain-free checks `bzla_is_inv_add`, `bzla_is_inv_and`, `bzla_is_inv_eq`,
`bzla_is_inv_ult`, `bzla_is_inv_concat` and `bzla_is_inv_slice` are exact. -/
theorem obliviousChecks_exact (pos : 0 < w) :
    (∀ s t : BitVec w, isInvAdd = true ↔ ∃ x : BitVec w, x + s = t) ∧
      (∀ s t : BitVec w, isInvAnd t s = true ↔ ∃ x : BitVec w, x &&& s = t) ∧
      (∀ (t : BitVec 1) (s : BitVec w),
        isInvEq = true ↔ ∃ x : BitVec w, BitVec.ofBool (x == s) = t) ∧
      (∀ (t : BitVec 1) (s : BitVec w),
        (isInvUlt t s 0 = true ↔ ∃ x : BitVec w, BitVec.ofBool (x.ult s) = t) ∧
          (isInvUlt t s 1 = true ↔ ∃ x : BitVec w, BitVec.ofBool (s.ult x) = t)) ∧
      (∀ {ws : Nat} (s : BitVec ws), 0 < ws →
        (∀ t : BitVec (w + ws), isInvConcat t s 0 = true ↔ ∃ x : BitVec w, x ++ s = t) ∧
          ∀ t : BitVec (ws + w), isInvConcat t s 1 = true ↔ ∃ x : BitVec w, s ++ x = t) ∧
      ∀ (upper lower : Nat) (t : BitVec (upper - lower + 1)), lower ≤ upper → upper < w →
        (isInvSlice = true ↔ ∃ x : BitVec w, BitVec.extractLsb upper lower x = t) :=
  let D := ValidDomain.newInit w
  ⟨fun s t => exact_of_newInit (isInvAddConst_newInit s t) (isInvAddConst_iff D s t),
    fun s t => exact_of_newInit (isInvAndConst_newInit s t) (isInvAndConst_iff D s t),
    fun t s => exact_of_newInit (isInvEqConst_newInit pos t s) (isInvEqConst_iff D t s),
    fun t s => ⟨exact_of_newInit (isInvUltConst_newInit t s).1 (isInvUltConst_left_iff D t s),
      exact_of_newInit (isInvUltConst_newInit t s).2 (isInvUltConst_right_iff D t s)⟩,
    fun s posS => ⟨fun t =>
      exact_of_newInit (isInvConcatConst_newInit t s) (isInvConcatConst_left_iff D s t posS),
      fun t => exact_of_newInit (isInvConcatConst_newInit_right t s)
        (isInvConcatConst_right_iff D s t pos)⟩,
    fun upper lower t range top =>
      exact_of_newInit (isInvSliceConst_newInit upper lower t) (isInvSliceConst_iff D t range top)⟩

theorem obliviousChecks_exact_two :
    0 < 2 ∧ (0 < 1 ∧ (isInvConcat (5#3) (1#1) 0 = true ↔ ∃ x : BitVec 2, x ++ 1#1 = 5#3)) ∧
      (0 ≤ 1 ∧ 1 < 2 ∧ (isInvSlice = true ↔ ∃ x : BitVec 2, BitVec.extractLsb 1 0 x = 2#2)) :=
  ⟨by decide, ⟨by decide, ((obliviousChecks_exact (w := 2) (by decide)).2.2.2.2.1 (1#1)
    (by decide)).1 (5#3)⟩, by decide, by decide,
    (obliviousChecks_exact (w := 2) (by decide)).2.2.2.2.2 1 0 (2#2) (by decide) (by decide)⟩

end Bzla
