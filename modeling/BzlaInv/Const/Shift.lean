import BzlaInv.Const.Basic

/-!
# Shifts against a domain

`bzla_is_inv_sll_const` and `bzla_is_inv_srl_const` differ only in the shift they apply and in
the domain-free check they call first, so both are `isInvShiftConst` at their own shift. For
`x << s` and `x >> s` the condition adds to the domain-free one that, once shifted, the bits of
`hi` cover `t` and the bits of `lo` stay inside it. For `s << x` and `s >> x` it tries every
amount `i = 0 .. w` the domain allows, after the shortcut `hi ≥ w ∧ t = 0`: every amount of at
least `w` shifts all bits out, and `hi` is the largest value of the domain.

Both checks are exact: they return, and return true exactly when some value of the domain
solves the equation. For `pos_x = 1` this needs the loop's 32-bit counter not to wrap, so
`w < 2 ^ 32 - 1`.
-/

namespace Bzla

variable {w : Nat}

/-! ### The model -/

/-- The body shared by `bzla_is_inv_sll_const` and `bzla_is_inv_srl_const`: `shift` is the
operator, `isInv` its domain-free check; a `pos_x` other than `0` and `1` fails
`assert (pos_x == 1)`. -/
def isInvShiftConst (shift : BitVec w → BitVec w → BitVec w)
    (isInv : BitVec w → BitVec w → Nat → Option Bool)
    (x : BvDomain w) (t s : BitVec w) (pos_x : Nat) : Option Bool :=
  if pos_x = 0 then
    (isInv t s pos_x).map fun ic => ic && (shift x.hi s &&& t) == t && (shift x.lo s ||| t) == t
  else if pos_x = 1 then
    let bw_s := w.toUInt32
    let res := decide (BitVec.ofNat w bw_s.toNat ≤ x.hi) && t == 0
    shiftLoop (fun i =>
        let bv_i := BitVec.ofNat w i.toNat
        let invalid := (bv_i ||| x.lo) != bv_i || (bv_i &&& x.hi) != bv_i
        !invalid && shift s bv_i == t)
      bw_s shiftLoopFuel 0 res
  else none

def isInvSllConst (x : BvDomain w) (t s : BitVec w) (pos_x : Nat) : Option Bool :=
  isInvShiftConst (· <<< ·) isInvSll x t s pos_x

def isInvSrlConst (x : BvDomain w) (t s : BitVec w) (pos_x : Nat) : Option Bool :=
  isInvShiftConst (· >>> ·) isInvSrl x t s pos_x

/-! ### Shifting out of range -/

theorem shiftLeft_eq_zero_of_le (s x : BitVec w) (outOfRange : w ≤ x.toNat) : s <<< x = 0 := by
  refine eq_iff_getLsbD.mpr fun i => ?_
  by_cases inRange : i < w
  · simp [BitVec.getLsbD_shiftLeft', show i < x.toNat by omega]
  · simp [BitVec.getLsbD_shiftLeft', inRange]

theorem ushiftRight_eq_zero_of_le (s x : BitVec w) (outOfRange : w ≤ x.toNat) : s >>> x = 0 := by
  refine eq_iff_getLsbD.mpr fun i => ?_
  simp [BitVec.ushiftRight_eq', BitVec.getLsbD_ge s _ (by omega : w ≤ x.toNat + i)]

/-! ### The conditions for `x << s` and `x >> s`, bit by bit -/

private theorem decide_lt_and_getLsbD (t : BitVec w) (i : Nat) :
    (decide (i < w) && t.getLsbD i) = t.getLsbD i := by
  cases bit : t.getLsbD i
  · simp
  · simp [BitVec.lt_of_getLsbD bit]

theorem shiftLeft_ushiftRight_eq_iff (t : BitVec w) (n : Nat) :
    (t >>> n) <<< n = t ↔ ∀ i, i < n → t.getLsbD i = false := by
  simp only [eq_iff_getLsbD, BitVec.getLsbD_shiftLeft, BitVec.getLsbD_ushiftRight]
  refine forall_congr' fun i => ?_
  by_cases lt : i < n
  · cases t.getLsbD i <;> simp [lt]
  · simp [lt, Nat.add_sub_cancel' (Nat.le_of_not_lt lt), decide_lt_and_getLsbD]

theorem shiftLeft_and_eq_iff (h t : BitVec w) (n : Nat) :
    (h <<< n) &&& t = t ↔ ∀ i, t.getLsbD i = true → n ≤ i ∧ h.getLsbD (i - n) = true := by
  simp only [eq_iff_getLsbD, BitVec.getLsbD_and, BitVec.getLsbD_shiftLeft]
  refine forall_congr' fun i => ?_
  cases bit : t.getLsbD i
  · simp
  · simp [BitVec.lt_of_getLsbD bit]

theorem shiftLeft_or_eq_iff (l t : BitVec w) (n : Nat) :
    (l <<< n) ||| t = t ↔
      ∀ i, i < w → n ≤ i → l.getLsbD (i - n) = true → t.getLsbD i = true := by
  simp only [eq_iff_getLsbD, BitVec.getLsbD_or, BitVec.getLsbD_shiftLeft]
  refine forall_congr' fun i => ?_
  cases t.getLsbD i <;> simp

theorem ushiftRight_shiftLeft_eq_iff (t : BitVec w) (n : Nat) :
    (t <<< n) >>> n = t ↔ ∀ i, w ≤ n + i → t.getLsbD i = false := by
  simp only [eq_iff_getLsbD, BitVec.getLsbD_shiftLeft, BitVec.getLsbD_ushiftRight]
  refine forall_congr' fun i => ?_
  by_cases inRange : n + i < w
  · simp [inRange, show ¬ w ≤ n + i by omega]
  · cases t.getLsbD i <;> simp [inRange, show w ≤ n + i by omega]

theorem ushiftRight_and_eq_iff (h t : BitVec w) (n : Nat) :
    (h >>> n) &&& t = t ↔ ∀ i, t.getLsbD i = true → h.getLsbD (n + i) = true := by
  simp only [eq_iff_getLsbD, BitVec.getLsbD_and, BitVec.getLsbD_ushiftRight]
  refine forall_congr' fun i => ?_
  cases t.getLsbD i <;> simp

theorem ushiftRight_or_eq_iff (l t : BitVec w) (n : Nat) :
    (l >>> n) ||| t = t ↔ ∀ i, l.getLsbD (n + i) = true → t.getLsbD i = true := by
  simp only [eq_iff_getLsbD, BitVec.getLsbD_or, BitVec.getLsbD_ushiftRight]
  refine forall_congr' fun i => ?_
  cases t.getLsbD i <;> simp

theorem exists_shiftLeft_iff (D : ValidDomain w) (t : BitVec w) (n : Nat) :
    (∃ x, x ∈ D.toBvDomain ∧ x <<< n = t) ↔
      (t >>> n) <<< n = t ∧ (D.hi <<< n) &&& t = t ∧ (D.lo <<< n) ||| t = t := by
  rw [shiftLeft_ushiftRight_eq_iff, shiftLeft_and_eq_iff, shiftLeft_or_eq_iff]
  constructor
  · rintro ⟨x, member, rfl⟩
    rw [BvDomain.mem_iff_getLsbD] at member
    refine ⟨fun i lt => by simp [lt], fun i bit => ?_, fun i inRange atLeast low => ?_⟩
    · simp only [BitVec.getLsbD_shiftLeft, Bool.and_eq_true, decide_eq_true_eq,
        Bool.not_eq_true', decide_eq_false_iff_not] at bit
      exact ⟨by omega, (member _).2 bit.2⟩
    · simp [inRange, Nat.not_lt.mpr atLeast, (member _).1 low]
  · rintro ⟨low, cover, inside⟩
    refine ⟨((t >>> n) &&& D.hi) ||| D.lo, D.and_hi_or_lo_mem _, ?_⟩
    refine eq_iff_getLsbD.mpr fun i => ?_
    simp only [BitVec.getLsbD_shiftLeft, BitVec.getLsbD_or, BitVec.getLsbD_and,
      BitVec.getLsbD_ushiftRight]
    cases bit : t.getLsbD i
    · by_cases inRange : i < w
      · by_cases lt : i < n
        · simp [lt]
        · have lowOff : D.lo.getLsbD (i - n) = false := by
            cases lowBit : D.lo.getLsbD (i - n)
            · rfl
            · simpa [bit] using inside i inRange (by omega) lowBit
          simp [lt, Nat.add_sub_cancel' (Nat.le_of_not_lt lt), bit, lowOff]
      · simp [inRange]
    · obtain ⟨atLeast, high⟩ := cover i bit
      simp [BitVec.lt_of_getLsbD bit, Nat.not_lt.mpr atLeast, Nat.add_sub_cancel' atLeast, bit,
        high]

theorem exists_ushiftRight_iff (D : ValidDomain w) (t : BitVec w) (n : Nat) :
    (∃ x, x ∈ D.toBvDomain ∧ x >>> n = t) ↔
      (t <<< n) >>> n = t ∧ (D.hi >>> n) &&& t = t ∧ (D.lo >>> n) ||| t = t := by
  rw [ushiftRight_shiftLeft_eq_iff, ushiftRight_and_eq_iff, ushiftRight_or_eq_iff]
  constructor
  · rintro ⟨x, member, rfl⟩
    rw [BvDomain.mem_iff_getLsbD] at member
    refine ⟨fun i outOfRange => ?_, fun i bit => (member _).2 (by simpa using bit),
      fun i low => by simpa using (member _).1 low⟩
    simpa using BitVec.getLsbD_ge x (n + i) outOfRange
  · rintro ⟨high, cover, inside⟩
    refine ⟨((t <<< n) &&& D.hi) ||| D.lo, D.and_hi_or_lo_mem _, ?_⟩
    refine eq_iff_getLsbD.mpr fun i => ?_
    simp only [BitVec.getLsbD_ushiftRight, BitVec.getLsbD_or, BitVec.getLsbD_and,
      BitVec.getLsbD_shiftLeft, Nat.add_sub_cancel_left]
    cases bit : t.getLsbD i
    · have lowOff : D.lo.getLsbD (n + i) = false := by
        cases lowBit : D.lo.getLsbD (n + i)
        · rfl
        · simpa [bit] using inside i lowBit
      simp [bit, lowOff]
    · have inRange : n + i < w := by
        by_contra outOfRange
        simpa [bit] using high i (by omega)
      simp [inRange, bit, cover i bit]

/-! ### Exactness -/

theorem BvDomain.mem_iff_or_and {d : BvDomain w} {b : BitVec w} :
    b ∈ d ↔ (b ||| d.lo) = b ∧ (b &&& d.hi) = b := by
  simp only [BvDomain.mem_iff_getLsbD, eq_iff_getLsbD, BitVec.getLsbD_or, BitVec.getLsbD_and,
    ← forall_and]
  refine forall_congr' fun i => ?_
  cases d.lo.getLsbD i <;> cases b.getLsbD i <;> cases d.hi.getLsbD i <;> simp

theorem candidate_iff (d : BvDomain w) (b r t : BitVec w) :
    (!((b ||| d.lo) != b || (b &&& d.hi) != b) && r == t) = true ↔ b ∈ d ∧ r = t := by
  simp [BvDomain.mem_iff_or_and]

section ShiftAmount

variable (shift : BitVec w → BitVec w → BitVec w)
  (outOfRange : ∀ s x : BitVec w, w ≤ x.toNat → shift s x = 0)
include outOfRange

/-- Amounts of at least `w` all give `0`, and `hi` is one of them when any is, so the amounts
`0 .. w` and the shortcut `hi ≥ w ∧ t = 0` cover every solution. -/
theorem exists_shift_amount_iff (D : ValidDomain w) (s t : BitVec w) :
    (∃ x, x ∈ D.toBvDomain ∧ shift s x = t) ↔
      (BitVec.ofNat w w ≤ D.hi ∧ t = 0) ∨
        ∃ k, k ≤ w ∧ BitVec.ofNat w k ∈ D.toBvDomain ∧ shift s (BitVec.ofNat w k) = t := by
  have width : (BitVec.ofNat w w).toNat = w := by
    simp [Nat.mod_eq_of_lt (Nat.lt_two_pow w)]
  constructor
  · rintro ⟨x, member, rfl⟩
    by_cases big : w ≤ x.toNat
    · refine .inl ⟨BitVec.le_trans ?_ (BvDomain.le_hi_of_mem member), outOfRange s x big⟩
      rw [BitVec.le_def, width]
      exact big
    · exact .inr ⟨x.toNat, by omega, by simpa using member⟩
  · rintro (⟨high, rfl⟩ | ⟨k, -, member, solves⟩)
    · rw [BitVec.le_def, width] at high
      exact ⟨D.hi, D.hi_mem, outOfRange s D.hi high⟩
    · exact ⟨_, member, solves⟩

/-- For `s << x` and `s >> x` the check returns, and returns whether the domain holds a
solution. -/
theorem isInvShiftConst_one_exact (isInv : BitVec w → BitVec w → Nat → Option Bool)
    (D : ValidDomain w) (s t : BitVec w) (fits : w < 2 ^ 32 - 1) :
    ∃ b, isInvShiftConst shift isInv D.toBvDomain t s 1 = some b ∧
      (b = true ↔ ∃ x, x ∈ D.toBvDomain ∧ shift s x = t) := by
  rw [exists_shift_amount_iff shift outOfRange]
  simp only [isInvShiftConst, if_neg one_ne_zero, if_pos rfl, toNat_toUInt32 (by omega : w < 2 ^ 32)]
  by_cases shortcut : BitVec.ofNat w w ≤ D.hi ∧ t = 0
  · rw [show (decide (BitVec.ofNat w w ≤ D.hi) && t == 0) = true by simpa using shortcut,
      shiftLoop_true]
    exact ⟨true, rfl, by simp [shortcut]⟩
  · rw [show (decide (BitVec.ofNat w w ≤ D.hi) && t == 0) = false by simpa using shortcut,
      shiftLoop_run _ fits]
    refine ⟨_, rfl, ?_⟩
    rw [or_iff_right shortcut, List.any_eq_true]
    constructor
    · rintro ⟨k, range, body⟩
      have small : k < 2 ^ 32 := by simp at range; omega
      rw [toNat_toUInt32 small, candidate_iff] at body
      exact ⟨k, by simp at range; omega, body⟩
    · rintro ⟨k, bound, body⟩
      refine ⟨k, by simp; omega, ?_⟩
      rw [toNat_toUInt32 (by omega), candidate_iff]
      exact body

end ShiftAmount

/-- `bzla_is_inv_sll_const` returns, and returns whether some value of the domain solves
`x << s = t` (`pos_x = 0`) or `s << x = t` (`pos_x = 1`). -/
theorem isInvSllConst_exact (D : ValidDomain w) (s t : BitVec w) (fits : w < 2 ^ 32 - 1) :
    (∃ b, isInvSllConst D.toBvDomain t s 0 = some b ∧
        (b = true ↔ ∃ x, x ∈ D.toBvDomain ∧ x <<< s = t)) ∧
      ∃ b, isInvSllConst D.toBvDomain t s 1 = some b ∧
        (b = true ↔ ∃ x, x ∈ D.toBvDomain ∧ s <<< x = t) := by
  refine ⟨⟨_, rfl, ?_⟩, isInvShiftConst_one_exact _ shiftLeft_eq_zero_of_le isInvSll D s t fits⟩
  simp only [BitVec.shiftLeft_eq', BitVec.ushiftRight_eq', exists_shiftLeft_iff, Bool.and_eq_true,
    beq_iff_eq, and_assoc]

theorem isInvSllConst_xx01 :
    (∃ b, isInvSllConst ⟨1#4, 13#4⟩ (2#4) (1#4) 0 = some b ∧
        (b = true ↔ ∃ x, x ∈ (⟨1#4, 13#4⟩ : BvDomain 4) ∧ x <<< (1#4) = 2#4)) ∧
      ∃ b, isInvSllConst ⟨1#4, 13#4⟩ (2#4) (1#4) 1 = some b ∧
        (b = true ↔ ∃ x, x ∈ (⟨1#4, 13#4⟩ : BvDomain 4) ∧ (1#4) <<< x = 2#4) :=
  isInvSllConst_exact ⟨⟨1#4, 13#4⟩, by decide⟩ (1#4) (2#4) (by decide)

/-- `bzla_is_inv_srl_const` returns, and returns whether some value of the domain solves
`x >> s = t` (`pos_x = 0`) or `s >> x = t` (`pos_x = 1`). -/
theorem isInvSrlConst_exact (D : ValidDomain w) (s t : BitVec w) (fits : w < 2 ^ 32 - 1) :
    (∃ b, isInvSrlConst D.toBvDomain t s 0 = some b ∧
        (b = true ↔ ∃ x, x ∈ D.toBvDomain ∧ x >>> s = t)) ∧
      ∃ b, isInvSrlConst D.toBvDomain t s 1 = some b ∧
        (b = true ↔ ∃ x, x ∈ D.toBvDomain ∧ s >>> x = t) := by
  refine ⟨⟨_, rfl, ?_⟩,
    isInvShiftConst_one_exact _ ushiftRight_eq_zero_of_le isInvSrl D s t fits⟩
  simp only [BitVec.shiftLeft_eq', BitVec.ushiftRight_eq', exists_ushiftRight_iff,
    Bool.and_eq_true, beq_iff_eq, and_assoc]

theorem isInvSrlConst_xx01 :
    (∃ b, isInvSrlConst ⟨1#4, 13#4⟩ (2#4) (8#4) 0 = some b ∧
        (b = true ↔ ∃ x, x ∈ (⟨1#4, 13#4⟩ : BvDomain 4) ∧ x >>> (8#4) = 2#4)) ∧
      ∃ b, isInvSrlConst ⟨1#4, 13#4⟩ (2#4) (8#4) 1 = some b ∧
        (b = true ↔ ∃ x, x ∈ (⟨1#4, 13#4⟩ : BvDomain 4) ∧ (8#4) >>> x = 2#4) :=
  isInvSrlConst_exact ⟨⟨1#4, 13#4⟩, by decide⟩ (8#4) (2#4) (by decide)

end Bzla
