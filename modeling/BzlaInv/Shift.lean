import BzlaInv.Const.Shift

/-!
# The shift checks with an existential amount

For `pos_x = 1` the shift checks of `bzlainvutils.c` look for an amount: they run the loop
`for (i = 0; i <= bw_s && !res; i++)` over a 32-bit counter `i`. Every amount of at least `w`
shifts out every bit, as the amount `w` does, so the amounts `0 .. w` are enough, and below the
counter's wrap the loop exits within `w + 1` iterations with the answer. With the
`pos_x = 0` conditions of `bzla_is_inv_sll` and `bzla_is_inv_srl`, this makes both oblivious
shift checks exact.

At `w = 2 ^ 32 - 1` every counter passes `i <= bw_s`: the counter wraps to `0`, and a loop that
finds no amount never exits. This happens for `s = 0` and `t = 1`, in the four checks.
-/

namespace Bzla

variable {w : Nat}

/-! ### The amounts `0 .. w` -/

section Amounts

variable (shift : BitVec w → BitVec w → BitVec w)
  (outOfRange : ∀ s x : BitVec w, w ≤ x.toNat → shift s x = 0)
include outOfRange

/-- Every amount of at least `w` shifts out every bit, as the amount `w` does, so the amounts
`0 .. w` reach every value of `shift s x`. -/
theorem exists_amount_iff (s t : BitVec w) :
    (∃ x : BitVec w, shift s x = t) ↔ ∃ k, k ≤ w ∧ shift s (BitVec.ofNat w k) = t := by
  constructor
  · rintro ⟨x, rfl⟩
    by_cases big : w ≤ x.toNat
    · refine ⟨w, le_refl w, ?_⟩
      rw [outOfRange s x big, outOfRange]
      simp [Nat.mod_eq_of_lt (Nat.lt_two_pow w)]
    · exact ⟨x.toNat, by omega, by simp⟩
  · rintro ⟨k, -, solves⟩
    exact ⟨_, solves⟩

/-- Below the counter's wrap, the loop over the amounts returns whether one of them solves
`shift s x = t`. -/
theorem shiftLoop_amounts_exact (s t : BitVec w) (fits : w < 2 ^ 32 - 1) :
    ∃ b, shiftLoop (fun i => shift s (BitVec.ofNat w i.toNat) == t) w.toUInt32 shiftLoopFuel 0
        false = some b ∧ (b = true ↔ ∃ x : BitVec w, shift s x = t) := by
  rw [shiftLoop_run _ fits, exists_amount_iff shift outOfRange]
  refine ⟨_, rfl, ?_⟩
  rw [List.any_eq_true]
  constructor
  · rintro ⟨k, range, body⟩
    rw [List.mem_range] at range
    rw [toNat_toUInt32 (by omega), beq_iff_eq] at body
    exact ⟨k, by omega, body⟩
  · rintro ⟨k, bound, body⟩
    refine ⟨k, List.mem_range.mpr (by omega), ?_⟩
    rw [toNat_toUInt32 (by omega), beq_iff_eq]
    exact body

end Amounts

/-! ### `x << s` and `x >> s` -/

theorem exists_shiftLeft_eq_iff (t : BitVec w) (n : Nat) :
    (∃ x : BitVec w, x <<< n = t) ↔ (t >>> n) <<< n = t := by
  refine ⟨?_, fun back => ⟨_, back⟩⟩
  rintro ⟨x, rfl⟩
  rw [shiftLeft_ushiftRight_eq_iff]
  intro i lt
  simp [lt]

theorem exists_ushiftRight_eq_iff (t : BitVec w) (n : Nat) :
    (∃ x : BitVec w, x >>> n = t) ↔ (t <<< n) >>> n = t := by
  refine ⟨?_, fun back => ⟨_, back⟩⟩
  rintro ⟨x, rfl⟩
  rw [ushiftRight_shiftLeft_eq_iff]
  intro i outOfRange
  simpa using BitVec.getLsbD_ge x (n + i) outOfRange

/-- `bzla_is_inv_sll` and `bzla_is_inv_srl` return, and return whether some `x` of the width
solves the equation, for both operand positions. -/
theorem isInvSll_isInvSrl_exact (s t : BitVec w) (fits : w < 2 ^ 32 - 1) :
    (∃ b, isInvSll t s 0 = some b ∧ (b = true ↔ ∃ x : BitVec w, x <<< s = t)) ∧
      (∃ b, isInvSll t s 1 = some b ∧ (b = true ↔ ∃ x : BitVec w, s <<< x = t)) ∧
      (∃ b, isInvSrl t s 0 = some b ∧ (b = true ↔ ∃ x : BitVec w, x >>> s = t)) ∧
      (∃ b, isInvSrl t s 1 = some b ∧ (b = true ↔ ∃ x : BitVec w, s >>> x = t)) := by
  refine ⟨⟨_, rfl, ?_⟩, shiftLoop_amounts_exact _ shiftLeft_eq_zero_of_le s t fits, ⟨_, rfl, ?_⟩,
    shiftLoop_amounts_exact _ ushiftRight_eq_zero_of_le s t fits⟩
  · simp only [BitVec.shiftLeft_eq', BitVec.ushiftRight_eq', beq_iff_eq, exists_shiftLeft_eq_iff]
  · simp only [BitVec.shiftLeft_eq', BitVec.ushiftRight_eq', beq_iff_eq, exists_ushiftRight_eq_iff]

theorem isInvSll_isInvSrl_exact_four :
    (∃ b, isInvSll (2#4) (1#4) 0 = some b ∧ (b = true ↔ ∃ x : BitVec 4, x <<< (1#4) = 2#4)) ∧
      (∃ b, isInvSll (2#4) (1#4) 1 = some b ∧ (b = true ↔ ∃ x : BitVec 4, (1#4) <<< x = 2#4)) ∧
      (∃ b, isInvSrl (2#4) (1#4) 0 = some b ∧ (b = true ↔ ∃ x : BitVec 4, x >>> (1#4) = 2#4)) ∧
      (∃ b, isInvSrl (2#4) (1#4) 1 = some b ∧ (b = true ↔ ∃ x : BitVec 4, (1#4) >>> x = 2#4)) :=
  isInvSll_isInvSrl_exact (1#4) (2#4) (by decide)

/-! ### How long the loops run -/

theorem shiftLoop_of_le (body : UInt32 → Bool) (bwS : UInt32) {fuel more : Nat}
    (enough : fuel ≤ more) {i : UInt32} {res r : Bool}
    (returns : shiftLoop body bwS fuel i res = some r) :
    shiftLoop body bwS more i res = some r := by
  induction fuel generalizing more i res with
  | zero =>
      rw [shiftLoop.eq_def] at returns ⊢
      split at returns
      · cases returns
      · rwa [if_neg ‹_›]
  | succ fuel ih =>
      obtain ⟨more, rfl⟩ : ∃ m, more = m + 1 := ⟨more - 1, by omega⟩
      rw [shiftLoop.eq_def] at returns ⊢
      split at returns
      · rw [if_pos ‹_›]
        exact ih (by omega) returns
      · rwa [if_neg ‹_›]

/-- Below the counter's wrap a shift loop exits within `w + 1` iterations, whatever its body and
first `res`, and every larger bound on the iterations gives the same result. -/
theorem shiftLoop_exits_within (body : UInt32 → Bool) (res : Bool) (fits : w < 2 ^ 32 - 1) :
    ∃ r, shiftLoop body w.toUInt32 (w + 1) 0 res = some r ∧
      ∀ fuel, w + 1 ≤ fuel → shiftLoop body w.toUInt32 fuel 0 res = some r := by
  cases res with
  | true => exact ⟨true, shiftLoop_true _ _ _ _, fun _ _ => shiftLoop_true _ _ _ _⟩
  | false =>
      have within := shiftLoop_false body fits (w + 1) 0 (w + 1) (by omega) (le_refl _)
      exact ⟨_, within, fun _ enough => shiftLoop_of_le body _ enough within⟩

theorem shiftLoop_exits_within_four :
    4 < 2 ^ 32 - 1 ∧ ∃ r, shiftLoop (fun _ => false) (4 : Nat).toUInt32 (4 + 1) 0 false = some r ∧
      ∀ fuel, 4 + 1 ≤ fuel → shiftLoop (fun _ => false) (4 : Nat).toUInt32 fuel 0 false = some r :=
  ⟨by decide, shiftLoop_exits_within (w := 4) _ _ (by decide)⟩

theorem le_toUInt32_max (i : UInt32) : i ≤ (2 ^ 32 - 1).toUInt32 := by
  have bound := i.toNat_lt_size
  have top : (2 ^ 32 - 1).toUInt32.toNat = 2 ^ 32 - 1 := toNat_toUInt32 (by decide)
  rw [UInt32.le_def, BitVec.le_def]
  change i.toNat ≤ (2 ^ 32 - 1).toUInt32.toNat
  rw [top]
  exact Nat.le_sub_one_of_lt bound

/-- When every counter passes the test `i <= bw_s`, a loop whose body never holds never exits. -/
theorem shiftLoop_none_of_top (body : UInt32 → Bool) (bwS : UInt32) (top : ∀ i, i ≤ bwS)
    (never : ∀ i, body i = false) (fuel : Nat) (i : UInt32) :
    shiftLoop body bwS fuel i false = none := by
  have guard : ∀ i, (decide (i ≤ bwS) && !false) = true := fun i => by simpa using top i
  induction fuel generalizing i with
  | zero => rw [shiftLoop.eq_def, if_pos (guard i)]
  | succ fuel ih =>
      rw [shiftLoop.eq_def, if_pos (guard i), never i]
      exact ih (i + 1)

theorem zero_ne_one_of_pos (pos : 0 < w) : (0 : BitVec w) ≠ 1 := fun same => by
  have := congrArg BitVec.toNat same
  simp [Nat.mod_eq_of_lt (Nat.one_lt_two_pow pos.ne')] at this

section Zero

variable (shift : BitVec w → BitVec w → BitVec w) (zero : ∀ x, shift 0 x = 0) (pos : 0 < w)
  (top : ∀ i : UInt32, i ≤ w.toUInt32)
include zero pos top

/-- When every counter passes the loop test, no amount moves `s = 0` to `t = 1` and the loop of
`s << x` or `s >> x` never exits. -/
theorem shiftLoop_zero_one_none (fuel : Nat) :
    shiftLoop (fun i => shift 0 (BitVec.ofNat w i.toNat) == 1) w.toUInt32 fuel 0 false = none :=
  shiftLoop_none_of_top _ _ top
    (fun i => by rw [zero]; exact beq_eq_false_iff_ne.mpr (zero_ne_one_of_pos pos)) fuel 0

theorem isInvShiftConst_zero_one_none (isInv : BitVec w → BitVec w → Nat → Option Bool)
    (x : BvDomain w) : isInvShiftConst shift isInv x 1 0 1 = none := by
  have differ := zero_ne_one_of_pos pos
  simp only [isInvShiftConst, if_neg one_ne_zero, if_pos rfl]
  rw [beq_eq_false_iff_ne.mpr differ.symm, Bool.and_false]
  exact shiftLoop_none_of_top _ _ top
    (fun i => by rw [zero, beq_eq_false_iff_ne.mpr differ, Bool.and_false]) _ 0

end Zero

theorem zero_shiftLeft_amount (x : BitVec w) : (0 : BitVec w) <<< x = 0 := by
  simp [BitVec.shiftLeft_eq']

theorem zero_ushiftRight_amount (x : BitVec w) : (0 : BitVec w) >>> x = 0 := by
  simp [BitVec.ushiftRight_eq']

/-- At `w = 2 ^ 32 - 1`, with `s = 0` and `t = 1`, the `pos_x = 1` loops of the four shift
checks never exit: every 32-bit counter passes `i <= bw_s`, and no amount solves. -/
theorem shiftLoops_never_exit (fuel : Nat) :
    shiftLoop (fun i => (0 : BitVec (2 ^ 32 - 1)) <<< BitVec.ofNat (2 ^ 32 - 1) i.toNat == 1)
        (2 ^ 32 - 1).toUInt32 fuel 0 false = none ∧
      shiftLoop (fun i => (0 : BitVec (2 ^ 32 - 1)) >>> BitVec.ofNat (2 ^ 32 - 1) i.toNat == 1)
        (2 ^ 32 - 1).toUInt32 fuel 0 false = none ∧
      isInvSll (1 : BitVec (2 ^ 32 - 1)) 0 1 = none ∧
      isInvSrl (1 : BitVec (2 ^ 32 - 1)) 0 1 = none ∧
      isInvSllConst (BvDomain.newInit (2 ^ 32 - 1)) 1 0 1 = none ∧
      isInvSrlConst (BvDomain.newInit (2 ^ 32 - 1)) 1 0 1 = none := by
  have sllZero := zero_shiftLeft_amount (w := 2 ^ 32 - 1)
  have srlZero := zero_ushiftRight_amount (w := 2 ^ 32 - 1)
  have pos : 0 < 2 ^ 32 - 1 := by decide
  refine ⟨shiftLoop_zero_one_none _ sllZero pos le_toUInt32_max fuel,
    shiftLoop_zero_one_none _ srlZero pos le_toUInt32_max fuel, ?_, ?_,
    isInvShiftConst_zero_one_none _ sllZero pos le_toUInt32_max _ _,
    isInvShiftConst_zero_one_none _ srlZero pos le_toUInt32_max _ _⟩
  · rw [isInvSll, if_neg one_ne_zero, if_pos rfl]
    exact shiftLoop_zero_one_none _ sllZero pos le_toUInt32_max _
  · rw [isInvSrl, if_neg one_ne_zero, if_pos rfl]
    exact shiftLoop_zero_one_none _ srlZero pos le_toUInt32_max _

end Bzla
