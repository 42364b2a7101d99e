import Mathlib.Data.BitVec
import BzlaInv.Domain

/-!
# Invertibility conditions without constant bits

The first half of `bzlainvutils.c`: for each operator, a condition on `s` and `t` alone that
holds when `x ∘ s = t` (`pos_x = 0`) or `s ∘ x = t` (`pos_x = 1`) has a solution `x` of the
operand width. The memory manager argument, and the domain `x` that these checks ignore,
are left out of the signatures. For the shifts, `pos_x = 1` runs a loop over a 32-bit
counter; its model returns `none` when that loop would not exit.

The exactness theorems read each condition as arithmetic on `toNat`: urem and udiv are
Euclidean division with the SMT-LIB values at a zero divisor, and mul reduces to the trailing
zeros of `s`.
-/

namespace Bzla

variable {w : Nat}

/-! ### The model -/

/-- The loop `for (uint32_t i = 0; i <= bw_s && !res; i++) res = body (i)` of the shift checks,
run for at most `fuel` iterations: `none` when the fuel runs out before the loop exits. -/
def shiftLoop (body : UInt32 → Bool) (bwS : UInt32) (fuel : Nat) (i : UInt32) (res : Bool) :
    Option Bool :=
  if i ≤ bwS && !res then
    match fuel with
    | 0 => none
    | fuel + 1 => shiftLoop body bwS fuel (i + 1) (body i)
  else some res

/-- The iterations a shift loop is given: after `2 ^ 32 + 1` of them with `res` still false the
32-bit counter has taken some value twice, so running out of them means the C loop never
exits. -/
def shiftLoopFuel : Nat := 2 ^ 32 + 1

theorem toUInt32_le_toUInt32 {a b : Nat} (ha : a < 2 ^ 32) (hb : b < 2 ^ 32) :
    a.toUInt32 ≤ b.toUInt32 ↔ a ≤ b := by
  simp only [UInt32.le_def, BitVec.le_def, Nat.toUInt32, UInt32.ofNat, BitVec.toNat_ofNat]
  omega

theorem toUInt32_add_one (a : Nat) : a.toUInt32 + 1 = (a + 1).toUInt32 := by
  simp only [Nat.toUInt32, UInt32.ofNat, UInt32.add_def]
  congr 1
  apply BitVec.eq_of_toNat_eq
  simp

theorem toNat_toUInt32 {a : Nat} (fits : a < 2 ^ 32) : a.toUInt32.toNat = a :=
  UInt32.toNat_ofNat_of_lt fits

theorem shiftLoop_true (body : UInt32 → Bool) (bwS : UInt32) (fuel : Nat) (i : UInt32) :
    shiftLoop body bwS fuel i true = some true := by
  rw [shiftLoop.eq_def]
  simp

/-- Below the counter's wrap, the loop started at `i` with `res` clear returns whether `body k`
holds for one of the `n` counters `k = i .. bound`. -/
theorem shiftLoop_false (body : UInt32 → Bool) {bound : Nat} (fits : bound < 2 ^ 32 - 1) :
    ∀ (n i fuel : Nat), i + n = bound + 1 → n ≤ fuel →
      shiftLoop body bound.toUInt32 fuel i.toUInt32 false =
        some ((List.range' i n).any fun k => body k.toUInt32) := by
  intro n
  induction n with
  | zero =>
      intro i fuel last _
      have past : ¬ i.toUInt32 ≤ bound.toUInt32 := by
        rw [toUInt32_le_toUInt32 (by omega) (by omega)]
        omega
      rw [shiftLoop.eq_def, if_neg (by simpa using past)]
      rfl
  | succ n ih =>
      intro i fuel next enough
      obtain ⟨fuel, rfl⟩ : ∃ f, fuel = f + 1 := ⟨fuel - 1, by omega⟩
      have within : i.toUInt32 ≤ bound.toUInt32 :=
        (toUInt32_le_toUInt32 (by omega) (by omega)).mpr (by omega)
      rw [shiftLoop.eq_def, if_pos (by simpa using within), toUInt32_add_one, List.range'_succ,
        List.any_cons]
      cases body i.toUInt32
      · exact ih (i + 1) fuel (by omega) (by omega)
      · exact shiftLoop_true body _ fuel _

/-- With the fuel the shift checks give it, the loop over `0 .. bound` returns whether some
counter in that range satisfies `body`. -/
theorem shiftLoop_run (body : UInt32 → Bool) {bound : Nat} (fits : bound < 2 ^ 32 - 1) :
    shiftLoop body bound.toUInt32 shiftLoopFuel 0 false =
      some ((List.range (bound + 1)).any fun k => body k.toUInt32) := by
  rw [List.range_eq_range']
  exact shiftLoop_false body fits (bound + 1) 0 shiftLoopFuel (by omega)
    (by simp only [shiftLoopFuel]; omega)

/-- `bzla_is_inv_add`: IC `true`. -/
def isInvAdd : Bool := true

/-- `bzla_is_inv_and`: IC `t & s = t`. -/
def isInvAnd (t s : BitVec w) : Bool :=
  (t &&& s) == t

/-- `bzla_is_inv_concat`: IC `s = t[bw(s) - 1 : 0]` for `x o s`, and
`s = t[bw(t) - 1 : bw(t) - bw(s)]` for `s o x`. `bzla_bv_compare` compares the values. -/
def isInvConcat {ws wt : Nat} (t : BitVec wt) (s : BitVec ws) (pos_x : Nat) : Bool :=
  if pos_x = 0 then s.toNat == (BitVec.extractLsb (ws - 1) 0 t).toNat
  else s.toNat == (BitVec.extractLsb (wt - 1) (wt - ws) t).toNat

/-- `bzla_is_inv_eq`: IC `true`. -/
def isInvEq : Bool := true

/-- `bzla_is_inv_mul`: IC `(-s | s) & t = t`. -/
def isInvMul (t s : BitVec w) : Bool :=
  ((-s ||| s) &&& t) == t

/-- `bzla_is_inv_sll`: IC `(t >> s) << s = t` for `x << s`, and for `s << x` the loop
trying `s << i = t` for `i = 0 .. bw(s)`. Any other `pos_x` fails `assert (pos_x == 1)`. -/
def isInvSll (t s : BitVec w) (pos_x : Nat) : Option Bool :=
  if pos_x = 0 then some ((t >>> s) <<< s == t)
  else if pos_x = 1 then
    shiftLoop (fun i => s <<< BitVec.ofNat w i.toNat == t) w.toUInt32 shiftLoopFuel 0 false
  else none

/-- `bzla_is_inv_srl`: IC `(t << s) >> s = t` for `x >> s`, and for `s >> x` the loop
trying `s >> i = t` for `i = 0 .. bw(s)`. Any other `pos_x` fails `assert (pos_x == 1)`. -/
def isInvSrl (t s : BitVec w) (pos_x : Nat) : Option Bool :=
  if pos_x = 0 then some ((t <<< s) >>> s == t)
  else if pos_x = 1 then
    shiftLoop (fun i => s >>> BitVec.ofNat w i.toNat == t) w.toUInt32 shiftLoopFuel 0 false
  else none

/-- `bzla_is_inv_ult` on a 1-bit `t`: IC `t = 0 ∨ s ≠ 0` for `x < s`, and `t = 0 ∨ s ≠ ~0`
for `s < x`. -/
def isInvUlt (t : BitVec 1) (s : BitVec w) (pos_x : Nat) : Bool :=
  if pos_x = 0 then t == 0 || s != 0
  else t == 0 || s != BitVec.allOnes w

/-- `bzla_is_inv_udiv`: IC `(s * t) / s = t` for `x / s`, and `s / (s / t) = t` for `s / x`. -/
def isInvUdiv (t s : BitVec w) (pos_x : Nat) : Bool :=
  if pos_x = 0 then bvUdiv (s * t) s == t
  else bvUdiv s (bvUdiv s t) == t

/-- `bzla_is_inv_urem`: IC `~(-s) ≥ t` for `x % s`, and `(t + t - s) & s ≥ t` for `s % x`. -/
def isInvUrem (t s : BitVec w) (pos_x : Nat) : Bool :=
  if pos_x = 0 then decide (t ≤ ~~~(-s))
  else decide (t ≤ (t + t + -s) &&& s)

/-- `bzla_is_inv_slice`: IC `true`. -/
def isInvSlice : Bool := true

/-! ### urem -/

theorem toNat_pos_of_ne_zero {s : BitVec w} (nonzero : s ≠ 0) : 0 < s.toNat := by
  apply Nat.pos_of_ne_zero
  intro zero
  exact nonzero (BitVec.eq_of_toNat_eq (by simpa using zero))

theorem toNat_and_le_right (x s : BitVec w) : (x &&& s).toNat ≤ s.toNat := by
  rw [BitVec.toNat_and]
  exact Nat.and_le_right

theorem toNat_and_le_left (x s : BitVec w) : (x &&& s).toNat ≤ x.toNat := by
  rw [BitVec.toNat_and]
  exact Nat.and_le_left

theorem toNat_and_not_add_and (s c : BitVec w) :
    (s &&& ~~~c).toNat + (s &&& c).toNat = s.toNat := by
  have disjoint : (s &&& ~~~c) &&& (s &&& c) = 0#w := by
    rw [eq_iff_getLsbD]
    intro i
    simp only [BitVec.getLsbD_and, BitVec.getLsbD_not, BitVec.getLsbD_zero]
    cases s.getLsbD i <;> cases c.getLsbD i <;> simp
  have whole : (s &&& ~~~c) ||| (s &&& c) = s := by
    rw [eq_iff_getLsbD]
    intro i
    have bound : s.getLsbD i = true → i < w := BitVec.lt_of_getLsbD
    simp only [BitVec.getLsbD_or, BitVec.getLsbD_and, BitVec.getLsbD_not]
    revert bound
    cases s.getLsbD i <;> cases c.getLsbD i <;> by_cases inRange : i < w <;> simp [inRange]
  rw [← BitVec.toNat_add_of_and_eq_zero disjoint, BitVec.add_eq_or_of_and_eq_zero _ _ disjoint,
    whole]

theorem toNat_lt_neg_and_add {d : BitVec w} (nonzero : d ≠ 0) (s : BitVec w) :
    s.toNat < ((-d) &&& s).toNat + d.toNat := by
  have complement : -d = ~~~(d - 1) := by
    rw [BitVec.neg_eq_not_add, ← BitVec.allOnes_sub_eq_not, ← BitVec.allOnes_sub_eq_not]
    rw [add_comm]
    show 1 + (BitVec.allOnes w - d) = _
    ring
  have positive := toNat_pos_of_ne_zero nonzero
  have oneVal : (1 : BitVec w).toNat = 1 := by
    have := d.isLt
    show (BitVec.ofNat w 1).toNat = 1
    rw [BitVec.toNat_ofNat, Nat.mod_eq_of_lt (by omega)]
  have pred : (d - 1).toNat = d.toNat - 1 := by
    rw [BitVec.toNat_sub_of_le (BitVec.le_def.mpr (by omega)), oneVal]
  have split := toNat_and_not_add_and s (d - 1)
  have masked := toNat_and_le_right s (d - 1)
  rw [complement, BitVec.and_comm]
  omega

theorem exists_urem_left_iff (s t : BitVec w) :
    (∃ x : BitVec w, x % s = t) ↔ s = 0 ∨ t < s := by
  constructor
  · rintro ⟨x, rfl⟩
    by_cases zero : s = 0
    · exact Or.inl zero
    · right
      rw [BitVec.lt_def, BitVec.toNat_umod]
      exact Nat.mod_lt _ (toNat_pos_of_ne_zero zero)
  · rintro (rfl | lt)
    · exact ⟨t, BitVec.umod_zero⟩
    · refine ⟨t, BitVec.eq_of_toNat_eq ?_⟩
      rw [BitVec.toNat_umod, Nat.mod_eq_of_lt (BitVec.lt_def.mp lt)]

/-- `s % x = t` has a solution exactly when `s = t` (take `x = 0`) or `t + t < s`
(take `x = s - t`). -/
theorem exists_urem_right_iff (s t : BitVec w) :
    (∃ x : BitVec w, s % x = t) ↔ s = t ∨ t.toNat + t.toNat < s.toNat := by
  constructor
  · rintro ⟨x, rfl⟩
    by_cases zero : x = 0
    · subst zero
      exact Or.inl BitVec.umod_zero.symm
    · have positive := toNat_pos_of_ne_zero zero
      have split := Nat.div_add_mod s.toNat x.toNat
      have small := Nat.mod_lt s.toNat positive
      rw [BitVec.toNat_umod]
      rcases Nat.eq_zero_or_pos (s.toNat / x.toNat) with none | some
      · left
        apply BitVec.eq_of_toNat_eq
        rw [BitVec.toNat_umod]
        rw [none, Nat.mul_zero, Nat.zero_add] at split
        exact split.symm
      · right
        have scaled := Nat.le_mul_of_pos_right x.toNat some
        omega
  · rintro (rfl | wide)
    · exact ⟨0, BitVec.umod_zero⟩
    · refine ⟨s - t, BitVec.eq_of_toNat_eq ?_⟩
      rw [BitVec.toNat_umod, BitVec.toNat_sub_of_le (BitVec.le_def.mpr (by omega)),
        Nat.mod_eq_sub_mod (by omega), show s.toNat - (s.toNat - t.toNat) = t.toNat by omega,
        Nat.mod_eq_of_lt (by omega)]

theorem isInvUrem_left_iff (s t : BitVec w) : isInvUrem t s 0 = true ↔ s = 0 ∨ t < s := by
  simp only [isInvUrem, if_pos, decide_eq_true_eq, BitVec.le_def, BitVec.lt_def,
    BitVec.toNat_not, BitVec.toNat_neg]
  have bound := t.isLt
  by_cases zero : s = 0
  · subst zero
    have zeroVal : (0 : BitVec w).toNat = 0 := rfl
    simp only [zeroVal, Nat.sub_zero, Nat.mod_self, true_or, iff_true]
    omega
  · have positive := toNat_pos_of_ne_zero zero
    rw [Nat.mod_eq_of_lt (by omega)]
    simp only [zero, false_or]
    omega

theorem isInvUrem_right_iff (s t : BitVec w) :
    isInvUrem t s 1 = true ↔ s = t ∨ t.toNat + t.toNat < s.toNat := by
  simp only [isInvUrem, if_neg one_ne_zero, decide_eq_true_eq, BitVec.le_def]
  have masked := toNat_and_le_right (t + t + -s) s
  rcases Nat.lt_or_ge s.toNat t.toNat with below | atLeast
  · have differ : s ≠ t := fun same => by rw [same] at below; omega
    simp only [differ, false_or]
    omega
  · rcases Nat.lt_or_ge (t.toNat + t.toNat) s.toNat with wide | narrow
    · have twice : (t + t).toNat = t.toNat + t.toNat :=
        BitVec.toNat_add_of_lt (by have := s.isLt; omega)
      have diff : (s - (t + t)).toNat = s.toNat - (t.toNat + t.toNat) := by
        rw [BitVec.toNat_sub_of_le (BitVec.le_def.mpr (by omega)), twice]
      have nonzero : s - (t + t) ≠ 0 := fun zero => by
        rw [zero] at diff
        simp at diff
        omega
      have lower := toNat_lt_neg_and_add nonzero s
      rw [show t + t + -s = -(s - (t + t)) by rw [neg_sub, sub_eq_add_neg]]
      simp only [wide, or_true, iff_true]
      omega
    · have diff : (s - t).toNat = s.toNat - t.toNat :=
        BitVec.toNat_sub_of_le (BitVec.le_def.mpr atLeast)
      have value : (t + t + -s).toNat = t.toNat - (s.toNat - t.toNat) := by
        rw [show t + t + -s = t - (s - t) by rw [sub_sub_eq_add_sub, sub_eq_add_neg],
          BitVec.toNat_sub_of_le (BitVec.le_def.mpr (by omega)), diff]
      by_cases same : s = t
      · subst same
        have back : s + s + -s = s := BitVec.eq_of_toNat_eq (by rw [value]; omega)
        simp [back]
      · have differ : s.toNat ≠ t.toNat := fun equal => same (BitVec.eq_of_toNat_eq equal)
        have lowered := toNat_and_le_left (t + t + -s) s
        simp only [same, false_or]
        omega

/-- `bzla_is_inv_urem` is exact for both operand positions, with `x % 0 = x`. -/
theorem isInvUrem_exact (s t : BitVec w) :
    (isInvUrem t s 0 = true ↔ ∃ x : BitVec w, x % s = t) ∧
      (isInvUrem t s 1 = true ↔ ∃ x : BitVec w, s % x = t) :=
  ⟨(isInvUrem_left_iff s t).trans (exists_urem_left_iff s t).symm,
    (isInvUrem_right_iff s t).trans (exists_urem_right_iff s t).symm⟩

/-! ### udiv -/

/-- The udiv condition for `pos_x = 0`: `s * t` is a solution whenever any is. -/
theorem isInvUdiv_left_iff (s t : BitVec w) :
    isInvUdiv t s 0 = true ↔ ∃ x : BitVec w, bvUdiv x s = t := by
  simp only [isInvUdiv, if_pos, beq_iff_eq]
  refine ⟨fun holds => ⟨s * t, holds⟩, ?_⟩
  rintro ⟨x, rfl⟩
  by_cases zero : s = 0
  · subst zero
    simp [bvUdiv]
  · have positive := toNat_pos_of_ne_zero zero
    have quotient := toNat_bvUdiv_of_ne x zero
    have product : s.toNat * (bvUdiv x s).toNat < 2 ^ w := by
      rw [quotient]
      exact lt_of_le_of_lt (Nat.mul_div_le x.toNat s.toNat) x.isLt
    apply BitVec.eq_of_toNat_eq
    rw [toNat_bvUdiv_of_ne _ zero, BitVec.toNat_mul_of_lt product,
      Nat.mul_div_cancel_left _ positive]

theorem bvUdiv_allOnes_eq (s : BitVec w) :
    bvUdiv s (BitVec.allOnes w) = if s = BitVec.allOnes w then 1 else 0 := by
  by_cases empty : BitVec.allOnes w = 0
  · have none := congrArg BitVec.toNat empty
    have zeroVal : (0 : BitVec w).toNat = 0 := rfl
    rw [BitVec.toNat_allOnes, zeroVal] at none
    have single : ∀ v : BitVec w, v = 0 := fun v => BitVec.eq_of_toNat_eq (by
      have bound := v.isLt
      rw [zeroVal]
      omega)
    rw [single (bvUdiv _ _), single (ite _ _ _)]
  · have ones := toNat_pos_of_ne_zero empty
    rw [BitVec.toNat_allOnes] at ones
    apply BitVec.eq_of_toNat_eq
    rw [toNat_bvUdiv_of_ne _ empty, BitVec.toNat_allOnes]
    by_cases full : s = BitVec.allOnes w
    · subst full
      rw [if_pos rfl, BitVec.toNat_allOnes, Nat.div_self ones]
      show 1 = (BitVec.ofNat w 1).toNat
      rw [BitVec.toNat_ofNat, Nat.mod_eq_of_lt (by omega)]
    · have below : s.toNat < 2 ^ w - 1 := by
        have differ : s.toNat ≠ 2 ^ w - 1 := fun same =>
          full (BitVec.eq_of_toNat_eq (by rw [same, BitVec.toNat_allOnes]))
        have := s.isLt
        omega
      rw [if_neg full, Nat.div_eq_of_lt below]
      rfl

theorem div_div_div_self {s x : Nat} (positive : 0 < x) (some : 0 < s / x) :
    s / (s / (s / x)) = s / x := by
  have within : x ≤ s / (s / x) := (Nat.le_div_iff_mul_le some).mpr (Nat.mul_div_le s x)
  apply Nat.le_antisymm
  · exact Nat.div_le_div_left within positive
  · exact (Nat.le_div_iff_mul_le (by omega)).mpr (Nat.mul_div_le s _)

/-- The udiv condition for `pos_x = 1`: `s / t` is a solution whenever any is. -/
theorem isInvUdiv_right_iff (s t : BitVec w) :
    isInvUdiv t s 1 = true ↔ ∃ x : BitVec w, bvUdiv s x = t := by
  simp only [isInvUdiv, if_neg one_ne_zero, beq_iff_eq]
  refine ⟨fun holds => ⟨bvUdiv s t, holds⟩, ?_⟩
  rintro ⟨x, rfl⟩
  by_cases zero : x = 0
  · subst zero
    rw [bvUdiv_zero, bvUdiv_allOnes_eq]
    by_cases full : s = BitVec.allOnes w
    · rw [if_pos full]
      simp [bvUdiv, full]
    · rw [if_neg full, bvUdiv_zero]
  · have positive := toNat_pos_of_ne_zero zero
    have quotient := toNat_bvUdiv_of_ne s zero
    by_cases none : bvUdiv s x = 0
    · rw [none, bvUdiv_zero, bvUdiv_allOnes_eq]
      have small : s.toNat < x.toNat := by
        have := congrArg BitVec.toNat none
        rw [quotient] at this
        exact (Nat.div_eq_zero_iff positive).mp this
      have differ : s ≠ BitVec.allOnes w := fun full => by
        have := x.isLt
        rw [full, BitVec.toNat_allOnes] at small
        omega
      rw [if_neg differ]
    · have some := toNat_pos_of_ne_zero none
      rw [quotient] at some
      have inner : (bvUdiv s (bvUdiv s x)).toNat = s.toNat / (s.toNat / x.toNat) := by
        rw [toNat_bvUdiv_of_ne _ none, quotient]
      have innerNonzero : bvUdiv s (bvUdiv s x) ≠ 0 := fun vanish => by
        have := congrArg BitVec.toNat vanish
        rw [inner] at this
        change _ = 0 at this
        have := Nat.div_pos (Nat.div_le_self s.toNat x.toNat) some
        omega
      apply BitVec.eq_of_toNat_eq
      rw [toNat_bvUdiv_of_ne _ innerNonzero, inner, quotient, div_div_div_self positive some]

/-- `bzla_is_inv_udiv` is exact for both operand positions, with `x / 0 = ones`. -/
theorem isInvUdiv_exact (s t : BitVec w) :
    (isInvUdiv t s 0 = true ↔ ∃ x : BitVec w, bvUdiv x s = t) ∧
      (isInvUdiv t s 1 = true ↔ ∃ x : BitVec w, bvUdiv s x = t) :=
  ⟨isInvUdiv_left_iff s t, isInvUdiv_right_iff s t⟩

/-! ### mul -/

theorem testBit_two_pow_sub_or {m o : Nat} (odd : o % 2 = 1) (bound : o < 2 ^ m) (k : Nat) :
    ((2 ^ m - o).testBit k || o.testBit k) = decide (k < m) := by
  have below : ∀ j, o.testBit j = true → j < m := fun j bit =>
    (Nat.pow_lt_pow_iff_right (by decide)).mp (lt_of_le_of_lt (Nat.testBit_implies_ge bit) bound)
  rw [show 2 ^ m - o = 2 ^ m - (o - 1 + 1) by omega, Nat.testBit_two_pow_sub_succ (by omega)]
  cases k with
  | zero =>
      have low : o.testBit 0 = true := by simp [Nat.testBit_zero, odd]
      simp [low, below 0 low]
  | succ k =>
      have same : (o - 1).testBit (k + 1) = o.testBit (k + 1) := by
        rw [Nat.testBit_add_one, Nat.testBit_add_one, show (o - 1) / 2 = o / 2 by omega]
      rw [same]
      cases bit : o.testBit (k + 1)
      · simp
      · simp [below (k + 1) bit]

theorem getLsbD_neg_or_self {s : BitVec w} (nonzero : s ≠ 0) (i : Nat) :
    (-s ||| s).getLsbD i = decide (bvGetNumTrailingZeros s ≤ i ∧ i < w) := by
  have positive := toNat_pos_of_ne_zero nonzero
  obtain ⟨below, split, odd⟩ := toNat_eq_two_pow_mul_odd nonzero
  generalize bvGetNumTrailingZeros s = z at below split odd ⊢
  generalize s.toNat / 2 ^ z = o at split odd
  have width : 2 ^ w = 2 ^ z * 2 ^ (w - z) := by
    rw [← pow_add, Nat.add_sub_cancel' below.le]
  have oddBound : o < 2 ^ (w - z) := by
    have bound := s.isLt
    rw [split, width] at bound
    exact Nat.lt_of_mul_lt_mul_left bound
  have negValue : (-s).toNat = 2 ^ z * (2 ^ (w - z) - o) := by
    rw [BitVec.toNat_neg, Nat.mod_eq_of_lt (by omega), Nat.mul_sub, ← width, ← split]
  rw [BitVec.getLsbD_or]
  show ((-s).toNat.testBit i || s.toNat.testBit i) = _
  rw [negValue, split, Nat.testBit_mul_pow_two, Nat.testBit_mul_pow_two,
    ← Bool.and_or_distrib_left, testBit_two_pow_sub_or odd oddBound]
  by_cases low : z ≤ i
  · simp only [ge_iff_le, low, decide_True, Bool.true_and, true_and]
    exact decide_eq_decide.mpr (by omega)
  · simp [low]

theorem and_eq_right_iff {m t : BitVec w} :
    m &&& t = t ↔ ∀ i, t.getLsbD i = true → m.getLsbD i = true := by
  rw [eq_iff_getLsbD]
  refine forall_congr' fun i => ?_
  simp only [BitVec.getLsbD_and]
  cases m.getLsbD i <;> cases t.getLsbD i <;> simp

theorem isInvMul_iff_dvd {s t : BitVec w} (nonzero : s ≠ 0) :
    isInvMul t s = true ↔ 2 ^ bvGetNumTrailingZeros s ∣ t.toNat := by
  simp only [isInvMul, beq_iff_eq, and_eq_right_iff, getLsbD_neg_or_self nonzero,
    decide_eq_true_eq]
  constructor
  · intro covered
    apply Nat.dvd_of_mod_eq_zero
    apply Nat.eq_of_testBit_eq
    intro i
    rw [Nat.testBit_mod_two_pow, Nat.zero_testBit]
    cases bit : t.getLsbD i
    · simp [show t.toNat.testBit i = false from bit]
    · simp [show ¬ i < bvGetNumTrailingZeros s from Nat.not_lt.mpr (covered i bit).1]
  · rintro ⟨q, value⟩ i bit
    refine ⟨?_, BitVec.lt_of_getLsbD bit⟩
    have shifted : t.toNat.testBit i = true := bit
    rw [value, Nat.testBit_mul_pow_two] at shifted
    simp only [Bool.and_eq_true, decide_eq_true_eq] at shifted
    exact shifted.1

/-- For nonzero `s`, `x * s = t` has a solution exactly when `2 ^ ctz(s)` divides `t`: the
odd part of `s` is invertible modulo `2 ^ w`. -/
theorem exists_mul_iff_dvd {s t : BitVec w} (nonzero : s ≠ 0) :
    (∃ x : BitVec w, x * s = t) ↔ 2 ^ bvGetNumTrailingZeros s ∣ t.toNat := by
  obtain ⟨below, split, odd⟩ := toNat_eq_two_pow_mul_odd nonzero
  generalize bvGetNumTrailingZeros s = z at below split odd ⊢
  generalize s.toNat / 2 ^ z = o at split odd
  have scale : 2 ^ z ∣ 2 ^ w := Nat.pow_dvd_pow 2 below.le
  constructor
  · rintro ⟨x, rfl⟩
    rw [BitVec.toNat_mul, Nat.dvd_mod_iff scale, split]
    exact Dvd.dvd.mul_left (Dvd.intro _ rfl) _
  · rintro ⟨q, value⟩
    have oddBound : o < 2 ^ w := by
      have := s.isLt
      rw [split] at this
      exact lt_of_le_of_lt (Nat.le_mul_of_pos_left o (Nat.two_pow_pos z)) this
    have sFactor : s = BitVec.ofNat w (2 ^ z) * BitVec.ofNat w o :=
      BitVec.eq_of_toNat_eq (by
        rw [BitVec.toNat_mul, BitVec.toNat_ofNat, BitVec.toNat_ofNat, ← Nat.mul_mod, ← split,
          Nat.mod_eq_of_lt s.isLt])
    have tFactor : t = BitVec.ofNat w (2 ^ z) * BitVec.ofNat w q :=
      BitVec.eq_of_toNat_eq (by
        rw [BitVec.toNat_mul, BitVec.toNat_ofNat, BitVec.toNat_ofNat, ← Nat.mul_mod, ← value,
          Nat.mod_eq_of_lt t.isLt])
    have oddUnit := @mul_bvModInverse w (BitVec.ofNat w o)
      (by rw [BitVec.toNat_ofNat, Nat.mod_eq_of_lt oddBound]; exact odd)
    refine ⟨bvModInverse (BitVec.ofNat w o) * BitVec.ofNat w q, ?_⟩
    rw [tFactor, sFactor]
    calc _ = (BitVec.ofNat w o * bvModInverse (BitVec.ofNat w o)) *
          (BitVec.ofNat w (2 ^ z) * BitVec.ofNat w q) := by ring
      _ = _ := by rw [oddUnit, one_mul]

/-- `bzla_is_inv_mul` is exact: `(-s | s) & t = t` holds iff `x * s = t` has a solution. The
check does not read `pos_x`, and `x * s = s * x`. -/
theorem isInvMul_exact (s t : BitVec w) :
    isInvMul t s = true ↔ ∃ x : BitVec w, x * s = t := by
  by_cases zero : s = 0
  · subst zero
    have vanish : (-0 ||| 0 : BitVec w) &&& t = 0 := by
      show (-BitVec.ofNat w 0 ||| BitVec.ofNat w 0) &&& t = BitVec.ofNat w 0
      rw [BitVec.neg_zero, BitVec.or_self, BitVec.zero_and]
    simp only [isInvMul, beq_iff_eq, vanish]
    exact ⟨fun zero => ⟨0, zero ▸ BitVec.mul_zero⟩,
      fun ⟨x, product⟩ => product ▸ BitVec.mul_zero.symm⟩
  · exact (isInvMul_iff_dvd zero).trans (exists_mul_iff_dvd zero).symm

end Bzla
