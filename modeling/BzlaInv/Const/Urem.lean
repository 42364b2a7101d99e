import BzlaInv.Const.Basic
import BzlaInv.Gen.Run

/-!
# Unsigned remainder against a domain

`bzla_is_inv_urem_const` refines the domain-free condition of `bzla_is_inv_urem` by the
constant bits of `x`. For `s % x = t` it branches on `t = ones`, `s = t` and `s > t`; in the last
case it enumerates candidates with the domain generator. For `x % s = t` it tries `x = t` and
falls back on an overflow test for `x = s * n + t`.

The assertions hold on every input and the generator loop always ends, but the result is not
exact. For `x % s = t` no solvable instance is rejected, and an unsolvable one is accepted only
past the overflow test. For `s % x = t` the `s > t` branch returns whether no candidate was found.
-/

namespace Bzla

variable {w : Nat}

/-! ### The model -/

/-- The bound `hi` on the candidates of the `s > t` branch of `bzla_is_inv_urem_const`:
`s` for `t = 0`, else `(s - t) / t`, less one when `t` divides `s - t`. -/
def uremCandidateHi (t s : BitVec w) : BitVec w :=
  if t = 0 then s
  else if (s - t) % t = 0 then bvUdiv (s - t) t - 1
  else bvUdiv (s - t) t

/-- `bzla_is_inv_urem_const`; `none` where an assertion fails. The candidate loop drains a
generator with the fuel that bounds its iterations. -/
def isInvUremConst (x : BvDomain w) (t s : BitVec w) (pos_x : Nat) : Option Bool :=
  if isInvUrem t s pos_x then
    let ones := BitVec.allOnes w
    if pos_x ≠ 0 then
      if t = ones then
        if s = ones then some (checkConstBitsVal x 0) else none
      else if s < t then none
      else if s = t then some (decide (t ≤ x.hi))
      else
        (genDrain (2 ^ x.freeCount) (genInitRange x (some 1) (some (uremCandidateHi t s)))).map
          fun (candidates, _) =>
            !(candidates.any fun bv => s % bv == t && checkConstBits x (s % bv))
    else if s = 0 ∨ t = ones then some (checkConstBits x t)
    else if ¬ t < s then none
    else if !checkConstBits x t then some !decide (ones - s < t)
    else some true
  else some false

/-! ### Arithmetic of the branches -/

/-- The overflow test of the `x % s = t` branch: `ones - s < t` says that `s + t` wraps. -/
theorem allOnes_sub_lt_iff (s t : BitVec w) :
    BitVec.allOnes w - s < t ↔ 2 ^ w ≤ t.toNat + s.toNat := by
  have ones : (BitVec.allOnes w).toNat = 2 ^ w - 1 := BitVec.toNat_allOnes
  have bound := s.isLt
  have below : s ≤ BitVec.allOnes w := BitVec.le_def.mpr (by omega)
  rw [BitVec.lt_def, BitVec.toNat_sub_of_le below, ones]
  omega

theorem urem_zero (x : BitVec w) : x % 0 = x :=
  BitVec.eq_of_toNat_eq (by simp [BitVec.toNat_umod])

theorem checkConstBits_eq_false {D : ValidDomain w} {b : BitVec w} (outside : b ∉ D.toBvDomain) :
    checkConstBits D.toBvDomain b = false :=
  Bool.eq_false_iff.mpr fun inside => outside ((D.checkConstBits_iff_mem).mp inside)

theorem add_lt_of_urem_eq {x s t : BitVec w} (solves : x % s = t) (other : x ≠ t) :
    t.toNat + s.toNat < 2 ^ w := by
  have remainder : x.toNat % s.toNat = t.toNat := by rw [← BitVec.toNat_umod, solves]
  have large : s.toNat ≤ x.toNat := by
    by_contra small
    exact other (BitVec.eq_of_toNat_eq (by rw [← remainder, Nat.mod_eq_of_lt (by omega)]))
  have positive : 0 < s.toNat := by
    by_contra zero
    exact other (BitVec.eq_of_toNat_eq
      (by rw [← remainder, show s.toNat = 0 by omega, Nat.mod_zero]))
  have split := Nat.div_add_mod x.toNat s.toNat
  have scaled := Nat.le_mul_of_pos_right s.toNat (Nat.div_pos large positive)
  have bound := x.isLt
  omega

/-! ### What holds -/

/-- The `x % s = t` branch computes the domain-free condition, then accepts when `t ∈ γ(D)`
(`x = t`) or, for `s ≠ 0`, when `s + t` does not wrap. -/
theorem isInvUremConst_left_eq (D : ValidDomain w) (s t : BitVec w) :
    isInvUremConst D.toBvDomain t s 0 = some (isInvUrem t s 0 &&
      (decide (t ∈ D.toBvDomain) || (s != 0 && decide (t.toNat + s.toNat < 2 ^ w)))) := by
  unfold isInvUremConst
  by_cases ic : isInvUrem t s 0 = true
  · rw [if_pos ic, if_neg (by decide), ic, Bool.true_and]
    by_cases zero : s = 0
    · rw [if_pos (.inl zero)]
      by_cases mem : t ∈ D.toBvDomain
      · simp [(D.checkConstBits_iff_mem).mpr mem, mem]
      · simp [checkConstBits_eq_false mem, mem, zero]
    · have below := ((isInvUrem_left_iff s t).mp ic).resolve_left zero
      have notOnes : t ≠ BitVec.allOnes w := fun full => by
        have ones : (BitVec.allOnes w).toNat = 2 ^ w - 1 := BitVec.toNat_allOnes
        have := s.isLt
        rw [full, BitVec.lt_def, ones] at below
        omega
      rw [if_neg (not_or.mpr ⟨zero, notOnes⟩), if_neg (not_not.mpr below)]
      by_cases mem : t ∈ D.toBvDomain
      · simp [(D.checkConstBits_iff_mem).mpr mem, mem]
      · have nonzero : (s != 0) = true := bne_iff_ne.mpr zero
        simp only [checkConstBits_eq_false mem, Bool.not_false, ite_true, allOnes_sub_lt_iff, mem,
          decide_False, nonzero, Bool.true_and, Bool.false_or, ← decide_not, Nat.not_le]
  · rw [if_neg ic]
    simp [ic]

/-- The assertions of `bzla_is_inv_urem_const` hold on every input: `s = ones` when `t = ones`
and `s ≥ t` for `s % x = t`, and `s > t` for `x % s = t` past its first branch. -/
theorem isInvUremConst_isSome (D : ValidDomain w) (s t : BitVec w) :
    (isInvUremConst D.toBvDomain t s 0).isSome ∧ (isInvUremConst D.toBvDomain t s 1).isSome := by
  refine ⟨by rw [isInvUremConst_left_eq]; rfl, ?_⟩
  have ones : (BitVec.allOnes w).toNat = 2 ^ w - 1 := BitVec.toNat_allOnes
  have bound := s.isLt
  unfold isInvUremConst
  by_cases ic : isInvUrem t s 1 = true
  · have cases := (isInvUrem_right_iff s t).mp ic
    rw [if_pos ic, if_pos (by decide)]
    by_cases full : t = BitVec.allOnes w
    · have same : s = BitVec.allOnes w := by
        rcases cases with same | double
        · rw [same, full]
        · rw [full, ones] at double
          omega
      rw [if_pos full, if_pos same]
      rfl
    · have atLeast : ¬ s < t := by
        rcases cases with same | double
        · rw [same]
          exact BitVec.lt_irrefl t
        · rw [BitVec.lt_def]
          omega
      rw [if_neg full, if_neg atLeast]
      split
      · rfl
      · obtain ⟨xs, g', drained⟩ := genDrain_genInitRange_some D (some 1#w)
          (some (uremCandidateHi t s))
        simp [drained]
  · rw [if_neg ic]
    rfl

/-- For `x % s = t`, `bzla_is_inv_urem_const` accepts every solvable instance, and accepts an
unsolvable one only when `s ≠ 0`, `t < s`, `t ∉ γ(D)` and `s + t` does not wrap. -/
theorem isInvUremConst_left_bounds (D : ValidDomain w) (s t : BitVec w) :
    ((∃ x, x ∈ D.toBvDomain ∧ x % s = t) → isInvUremConst D.toBvDomain t s 0 = some true) ∧
    (isInvUremConst D.toBvDomain t s 0 = some true → (∃ x, x ∈ D.toBvDomain ∧ x % s = t) ∨
      (s ≠ 0 ∧ t < s ∧ t ∉ D.toBvDomain ∧ t.toNat + s.toNat < 2 ^ w)) := by
  rw [isInvUremConst_left_eq]
  constructor
  · rintro ⟨x, member, solves⟩
    have ic := (isInvUrem_left_iff s t).mpr ((exists_urem_left_iff s t).mp ⟨x, solves⟩)
    by_cases mem : t ∈ D.toBvDomain
    · simp [ic, mem]
    · -- `x ≠ t`, so `x` is `t` plus a positive multiple of `s`, which fits below `2 ^ w`
      have other : x ≠ t := fun same => mem (same ▸ member)
      have nonzero : s ≠ 0#w := fun zero =>
        other (by rw [← solves, show s = 0 from zero, urem_zero])
      simp [ic, mem, nonzero, add_lt_of_urem_eq solves other]
  · intro accepts
    simp only [Option.some.injEq, Bool.and_eq_true, Bool.or_eq_true, decide_eq_true_eq,
      bne_iff_ne, ne_eq] at accepts
    obtain ⟨ic, fits⟩ := accepts
    have cases := (isInvUrem_left_iff s t).mp ic
    by_cases mem : t ∈ D.toBvDomain
    · -- `x = t` solves, as `t` is below `s` or `s = 0`
      refine .inl ⟨t, mem, ?_⟩
      rcases cases with zero | below
      · rw [zero, urem_zero]
      · exact BitVec.eq_of_toNat_eq (by
          rw [BitVec.toNat_umod, Nat.mod_eq_of_lt (BitVec.lt_def.mp below)])
    · obtain ⟨nonzero, room⟩ := fits.resolve_left mem
      exact .inr ⟨nonzero, cases.resolve_left nonzero, mem, room⟩

/-! ### The `s > t` branch -/

/-- Over the values of `γ(D)` in `[1, hi]`, the candidate loop of the branch finds a candidate
exactly when `t ∈ γ(D)` and one of the values solves `s % x = t`. -/
theorem any_candidate_iff (D : ValidDomain w) (s t hi : BitVec w) {xs : List (BitVec w)}
    (members : ∀ x, x ∈ xs ↔ InGenRange D.toBvDomain (some 1) (some hi) x) :
    xs.any (fun bv => s % bv == t && checkConstBits D.toBvDomain (s % bv)) = true ↔
      t ∈ D.toBvDomain ∧ ∃ x, x ∈ D.toBvDomain ∧ 1 ≤ x ∧ x ≤ hi ∧ s % x = t := by
  rw [List.any_eq_true]
  constructor
  · rintro ⟨x, listed, found⟩
    simp only [Bool.and_eq_true, beq_iff_eq] at found
    obtain ⟨member, low, high⟩ := (members x).mp listed
    exact ⟨found.1 ▸ (D.checkConstBits_iff_mem).mp found.2, x, member, low _ rfl, high _ rfl,
      found.1⟩
  · rintro ⟨mem, x, member, low, high, solves⟩
    refine ⟨x, (members x).mpr ⟨member, ?_, ?_⟩, ?_⟩
    · exact fun m one => Option.some_injective _ one ▸ low
    · exact fun m bound => Option.some_injective _ bound ▸ high
    · simp [solves, (D.checkConstBits_iff_mem).mpr mem]

/-- For `s % x = t` with `t < s`, the branch drains the values of `γ(D)` in `[1, hi]` and returns
whether none of them is a candidate. Past the domain-free condition `t + t < s` it rejects exactly
when `t ∈ γ(D)` and some `x ∈ γ(D)` in `[1, hi]` has `s % x = t`, that is when it finds a
solution, and it accepts on a domain with no free bit, whose one value the generator never
yields. -/
theorem isInvUremConst_right_search (D : ValidDomain w) (s t : BitVec w) (below : t < s) :
    isInvUremConst D.toBvDomain t s 1 = some (decide (t.toNat + t.toNat < s.toNat) &&
      !decide (0 < D.freeCount ∧ t ∈ D.toBvDomain ∧
        ∃ x, x ∈ D.toBvDomain ∧ 1 ≤ x ∧ x ≤ uremCandidateHi t s ∧ s % x = t)) := by
  have differ : s ≠ t := fun same => BitVec.lt_irrefl t (same ▸ below)
  unfold isInvUremConst
  by_cases wide : t.toNat + t.toNat < s.toNat
  · have notOnes : t ≠ BitVec.allOnes w := fun full => by
      have lt := BitVec.lt_def.mp below
      have := s.isLt
      rw [full, BitVec.toNat_allOnes] at lt
      omega
    rw [if_pos ((isInvUrem_right_iff s t).mpr (.inr wide)), if_pos (by decide), if_neg notOnes,
      if_neg (BitVec.not_lt.mpr (le_of_lt_bv below)), if_neg differ, decide_eq_true wide,
      Bool.true_and]
    by_cases free : 0 < D.freeCount
    · obtain ⟨xs, g', drained, -, members, -⟩ :=
        genInitRange_drain D (some 1) (some (uremCandidateHi t s)) free (le_refl _)
      rw [drained, Option.map_some']
      dsimp only
      congr 2
      rw [Bool.eq_iff_iff, any_candidate_iff D s t _ members, decide_eq_true_iff]
      exact (and_iff_right free).symm
    · have start := genInitRange_bits_of_not D (some 1) (some (uremCandidateHi t s))
        fun enumerable => enumerable.1 (by omega)
      rw [genDrain_of_not_hasNext _ (genHasNext_of_bits_none start)]
      simp [free]
  · have ic : isInvUrem t s 1 = false := Bool.eq_false_iff.mpr fun holds =>
      ((isInvUrem_right_iff s t).mp holds).elim differ wide
    rw [if_neg (by simp [ic])]
    simp [wide]

theorem isInvUremConst_right_search_three :
    (1#2 < 3#2) ∧ isInvUremConst (ValidDomain.newInit 2).toBvDomain 1#2 3#2 1 =
      some (decide ((1#2).toNat + (1#2).toNat < (3#2).toNat) &&
        !decide (0 < (ValidDomain.newInit 2).freeCount ∧ 1#2 ∈ (ValidDomain.newInit 2).toBvDomain ∧
          ∃ x, x ∈ (ValidDomain.newInit 2).toBvDomain ∧ 1 ≤ x ∧ x ≤ uremCandidateHi 1#2 3#2 ∧
            3#2 % x = 1#2)) :=
  ⟨by decide, isInvUremConst_right_search (ValidDomain.newInit 2) 3#2 1#2 (by decide)⟩

theorem eq_zero_of_mem_zero {x : BitVec w} (member : x ∈ (⟨0, 0⟩ : BvDomain w)) : x = 0 := by
  have high := member.2
  simpa using high

/-- `s % x = s` is solved by `x = 0` and by every `x > s`, so it has a solution in `γ(D)` exactly
when `lo = 0` or `s < hi`; the `s = t` branch returns `t ≤ hi` instead. -/
theorem exists_urem_self_iff (D : ValidDomain w) (t : BitVec w) :
    (∃ x, x ∈ D.toBvDomain ∧ t % x = t) ↔ D.lo = 0 ∨ t < D.hi := by
  refine ⟨fun ⟨x, member, solves⟩ => ?_, ?_⟩
  · by_cases zero : x = 0
    · -- `lo &&& 0 = lo` leaves `lo = 0`
      have low := member.1
      rw [zero] at low
      exact .inl (by simpa [eq_comm] using low)
    · -- a nonzero `x` leaves `t` as its own remainder only when `t < x ≤ hi`
      have remainder : t.toNat % x.toNat = t.toNat := by rw [← BitVec.toNat_umod, solves]
      have below := remainder ▸ Nat.mod_lt t.toNat (toNat_pos_of_ne_zero zero)
      have high := BitVec.le_def.mp (BvDomain.le_hi_of_mem member)
      exact .inr (BitVec.lt_def.mpr (by omega))
  · rintro (zero | below)
    · exact ⟨D.lo, D.lo_mem, by rw [zero, urem_zero]⟩
    · exact ⟨D.hi, D.hi_mem, BitVec.eq_of_toNat_eq (by
        rw [BitVec.toNat_umod, Nat.mod_eq_of_lt (BitVec.lt_def.mp below)])⟩

/-- On the domain `00`, `2 % x = 0` has no solution, yet the `s > t` branch accepts it: the
generator yields no candidate and the branch returns whether the candidate stack is empty. -/
theorem isInvUremConst_accepts_without_candidate :
    isInvUremConst (⟨0#2, 0#2⟩ : BvDomain 2) 0#2 2#2 1 = some true ∧
      ¬ ∃ x, x ∈ (⟨0#2, 0#2⟩ : BvDomain 2) ∧ 2#2 % x = 0#2 := by
  refine ⟨by decide, ?_⟩
  rintro ⟨x, member, solves⟩
  rw [eq_zero_of_mem_zero member] at solves
  exact absurd solves (by decide)

end Bzla
