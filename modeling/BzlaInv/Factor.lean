import BzlaInv.Domain
import Mathlib.Tactic.IntervalCases
import Mathlib.Data.List.ReduceOption
import Mathlib.Data.Nat.Factors

/-!
# The wheel factorizer

`wfact_init`, `wfact_next` and `bzla_bvdomain_get_factor` of `bzlabvdomain.c`: trial division of
`num` by the candidates `2, 3, 5` and then the numbers coprime to `30`, stepped through the
increment table of a mod-30 wheel. A call of `wfact_next` returns the next divisor it finds, or
`num` itself once `fact * fact > num`, and stops for good at the iteration limit or when
`fact + inc` wraps around.

The constants `2`, `4` and `6` are vectors of the input's width. From width 2 on, the values a
factorizer returns divide `n`, there are finitely many of them, and without a limit their
product is `n`, so that `bzla_bvdomain_get_factor` ends; the proof rests on the invariant
`WfactInv` that no number in `[2, fact)` divides `num`, and on the outcomes `WfactStep` of one
call. At width 1 the constant `2` is `0`, and the factorizer returns `1` forever.
-/

namespace Bzla

variable {w : Nat}

/-! ### The model -/

/-- The increments `inc[0..10]` of `wfact_init`, as numbers: `1, 2, 2, 4, 2, 4, 2, 4, 6, 2, 6`. -/
def wfactWheel : List Nat := [1, 2, 2, 4, 2, 4, 2, 4, 6, 2, 6]

/-- `inc[pos]`: the vector of width `w` that `wfact_init` makes of the increment, through its
`one`, `two`, `four` and `six`. -/
def wfactInc (w pos : Nat) : BitVec w :=
  BitVec.ofNat w (wfactWheel.getD pos 0)

/-- `WheelFactorizer`; the memory manager and the vectors `one` to `six` behind `inc` are left
out. `limit = 0` is no limit. -/
structure WheelFactorizer (w : Nat) where
  done : Bool
  num : BitVec w
  fact : BitVec w
  pos : Nat
  limit : Nat

def wfactInit (n : BitVec w) (limit : Nat) : WheelFactorizer w :=
  { done := false, num := n, fact := BitVec.ofNat w 2, pos := 0, limit }

/-- The `while (true)` loop of `wfact_next` after `numIterations` iterations: the result, `none`
for the null pointer, and the factorizer after the call. The loop goes on only when `fact`
grows, which bounds it. -/
def wfactNextLoop (wf : WheelFactorizer w) (numIterations : Nat) :
    Option (BitVec w) × WheelFactorizer w :=
  if wf.limit ≠ 0 ∧ wf.limit < numIterations + 1 then (none, { wf with done := true })
  else if wf.num < wf.fact * wf.fact then (some wf.num, { wf with done := true })
  else if wf.num % wf.fact = 0 then (some wf.fact, { wf with num := bvUdiv wf.num wf.fact })
  else
    let tmp := wf.fact + wfactInc w wf.pos
    let pos := if wf.pos = 10 then 3 else wf.pos + 1
    if wraps : tmp ≤ wf.fact then (none, { wf with fact := tmp, pos, done := true })
    else wfactNextLoop { wf with fact := tmp, pos } (numIterations + 1)
termination_by 2 ^ w - wf.fact.toNat
decreasing_by
  have grows : wf.fact < wf.fact + wfactInc w wf.pos := BitVec.not_le.mp wraps
  have bound := (wf.fact + wfactInc w wf.pos).isLt
  simp only [BitVec.lt_def] at grows
  omega

def wfactNext (wf : WheelFactorizer w) : Option (BitVec w) × WheelFactorizer w :=
  if wf.done then (none, wf) else wfactNextLoop wf 0

/-- The results of `k` successive calls of `wfact_next`, and the factorizer after them. -/
def wfactNexts : Nat → WheelFactorizer w → List (Option (BitVec w)) × WheelFactorizer w
  | 0, wf => ([], wf)
  | k + 1, wf =>
      let (res, wf') := wfactNext wf
      let (rest, wf'') := wfactNexts k wf'
      (res :: rest, wf'')

/-- The test in the loop of `bzla_bvdomain_get_factor`: `fact` is above `excl_min_val` and fits
the domain `x`, each where given. -/
def getFactorAccepts (x : Option (BvDomain w)) (exclMinVal : Option (BitVec w))
    (fact : BitVec w) : Bool :=
  (exclMinVal.all fun excl => decide (excl < fact)) && (x.all fun d => d.checkFixedBits fact)

/-- The loop of `bzla_bvdomain_get_factor` on a factorizer, for at most `fuel` calls: the first
value above `excl_min_val` that fits the domain `x`, `some none` when the factorizer runs dry,
and `none` when the fuel runs out. -/
def getFactorLoop (x : Option (BvDomain w)) (exclMinVal : Option (BitVec w)) :
    Nat → WheelFactorizer w → Option (Option (BitVec w))
  | 0, _ => none
  | fuel + 1, wf =>
      match wfactNext wf with
      | (none, _) => some none
      | (some fact, wf') =>
          if getFactorAccepts x exclMinVal fact then some (some fact)
          else getFactorLoop x exclMinVal fuel wf'

/-- `bzla_bvdomain_get_factor`, for at most `fuel` calls of `wfact_next`; an absent `x` or
`excl_min_val` is `none`. -/
def bvdomainGetFactor (num : BitVec w) (x : Option (BvDomain w)) (exclMinVal : Option (BitVec w))
    (limit fuel : Nat) : Option (Option (BitVec w)) :=
  getFactorLoop x exclMinVal fuel (wfactInit num limit)

/-! ### One call of `wfact_next`

From width 2 on the increments are the numbers themselves, and the candidates are `2, 3, 5` and
then the numbers coprime to `30`, in order. -/

/-- The candidate `f` sits at position `pos` of the wheel: `2, 3, 5` at positions `0, 1, 2`,
then the residues `7, 11, 13, 17, 19, 23, 29, 1` modulo `30` at positions `3 .. 10`. -/
def OnWheel (pos f : Nat) : Prop :=
  (pos = 0 ∧ f = 2) ∨ (pos = 1 ∧ f = 3) ∨ (pos = 2 ∧ f = 5) ∨
    (3 ≤ pos ∧ pos ≤ 10 ∧ 7 ≤ f ∧ f % 30 = [7, 11, 13, 17, 19, 23, 29, 1].getD (pos - 3) 0)

theorem wfactWheel_getD_le (pos : Nat) : wfactWheel.getD pos 0 ≤ 6 := by
  by_cases inRange : pos < 11
  · interval_cases pos <;> decide
  · rw [List.getD_eq_default _ _ (by simp [wfactWheel]; omega)]
    omega

theorem wheel_residue_step : ∀ pos < 11, 3 ≤ pos →
    ([7, 11, 13, 17, 19, 23, 29, 1].getD (pos - 3) 0 + wfactWheel.getD pos 0) % 30 =
      [7, 11, 13, 17, 19, 23, 29, 1].getD ((if pos = 10 then 3 else pos + 1) - 3) 0 := by
  decide

/-- Every number inside a gap of the wheel past `7` has a factor `2`, `3` or `5`. -/
theorem wheel_gap_residues : ∀ pos < 11, 3 ≤ pos → ∀ k < 5, k + 1 < wfactWheel.getD pos 0 →
    ([7, 11, 13, 17, 19, 23, 29, 1].getD (pos - 3) 0 + k + 1) % 2 = 0 ∨
      ([7, 11, 13, 17, 19, 23, 29, 1].getD (pos - 3) 0 + k + 1) % 3 = 0 ∨
      ([7, 11, 13, 17, 19, 23, 29, 1].getD (pos - 3) 0 + k + 1) % 5 = 0 := by
  decide

theorem onWheel_step {pos f : Nat} (onWheel : OnWheel pos f) :
    OnWheel (if pos = 10 then 3 else pos + 1) (f + wfactWheel.getD pos 0) := by
  rcases onWheel with ⟨rfl, rfl⟩ | ⟨rfl, rfl⟩ | ⟨rfl, rfl⟩ | ⟨low, high, big, residue⟩
  · unfold OnWheel; decide
  · unfold OnWheel; decide
  · unfold OnWheel; decide
  · have step := wheel_residue_step pos (by omega) low
    refine Or.inr (Or.inr (Or.inr ⟨by split <;> omega, by split <;> omega, by omega, by omega⟩))

theorem exists_small_dvd_of_gap {pos f d : Nat} (onWheel : OnWheel pos f) (above : f < d)
    (below : d < f + wfactWheel.getD pos 0) : ∃ p, 2 ≤ p ∧ p < f ∧ p ∣ d := by
  obtain ⟨k, rfl⟩ := Nat.exists_eq_add_of_lt above
  have short : k < 5 := by
    have := wfactWheel_getD_le pos
    omega
  have small : ((f + k + 1) % 2 = 0 ∧ 2 < f) ∨ ((f + k + 1) % 3 = 0 ∧ 3 < f) ∨
      ((f + k + 1) % 5 = 0 ∧ 5 < f) := by
    rcases onWheel with ⟨rfl, rfl⟩ | ⟨rfl, rfl⟩ | ⟨rfl, rfl⟩ | ⟨low, high, big, residue⟩
    · simp [wfactWheel] at below
      omega
    · obtain rfl : k = 0 := by simp [wfactWheel] at below; omega
      decide
    · obtain rfl : k = 0 := by simp [wfactWheel] at below; omega
      decide
    · have gap := wheel_gap_residues pos (by omega) low k short (by omega)
      omega
  rcases small with ⟨two, lt⟩ | ⟨three, lt⟩ | ⟨five, lt⟩
  · exact ⟨2, le_refl 2, lt, Nat.dvd_of_mod_eq_zero two⟩
  · exact ⟨3, by omega, lt, Nat.dvd_of_mod_eq_zero three⟩
  · exact ⟨5, by omega, lt, Nat.dvd_of_mod_eq_zero five⟩

theorem wfactWheel_pos {pos f : Nat} (onWheel : OnWheel pos f) : 0 < wfactWheel.getD pos 0 := by
  rcases onWheel with ⟨rfl, -⟩ | ⟨rfl, -⟩ | ⟨rfl, -⟩ | ⟨low, high, -, -⟩
  · decide
  · decide
  · decide
  · interval_cases pos <;> decide

theorem wfactWheel_lt {pos f : Nat} (onWheel : OnWheel pos f) : wfactWheel.getD pos 0 < f := by
  rcases onWheel with ⟨rfl, rfl⟩ | ⟨rfl, rfl⟩ | ⟨rfl, rfl⟩ | ⟨-, -, big, -⟩
  · decide
  · decide
  · decide
  · have := wfactWheel_getD_le pos
    omega

theorem two_le_of_onWheel {pos f : Nat} (onWheel : OnWheel pos f) : 2 ≤ f := by
  rcases onWheel with ⟨-, rfl⟩ | ⟨-, rfl⟩ | ⟨-, rfl⟩ | ⟨-, -, big, -⟩ <;> omega

theorem toNat_add_cases (a b : BitVec w) :
    (a + b).toNat = a.toNat + b.toNat ∨ (a + b).toNat + 2 ^ w = a.toNat + b.toNat := by
  have := a.isLt
  have := b.isLt
  rw [BitVec.toNat_add]
  by_cases fits : a.toNat + b.toNat < 2 ^ w
  · exact Or.inl (Nat.mod_eq_of_lt fits)
  · rw [Nat.mod_eq_sub_mod (by omega), Nat.mod_eq_of_lt (by omega)]
    omega

theorem umod_eq_zero_iff {a b : BitVec w} : a % b = 0 ↔ b.toNat ∣ a.toNat := by
  simp [BitVec.toNat_eq, BitVec.toNat_umod, Nat.dvd_iff_mod_eq_zero]

/-- What holds of a factorizer in use from width 2 on: `fact` sits on the wheel, no number in
`[2, fact)` divides `num`, and `num` is positive. -/
structure WfactInv (wf : WheelFactorizer w) : Prop where
  wheel : OnWheel wf.pos wf.fact.toNat
  noSmall : ∀ d, 2 ≤ d → d < wf.fact.toNat → ¬ d ∣ wf.num.toNat
  positive : 0 < wf.num.toNat

/-- How a call of `wfact_next` on a factorizer `wf` in use ends: with a divisor `fact`, below
which nothing divides `num`, and the cofactor left in `num`; with `num` itself, then `1` or a
prime, once `fact * fact > num`; or with the null pointer, which without a limit only comes when
`num` is down to `1`. -/
inductive WfactStep (wf : WheelFactorizer w) : Option (BitVec w) × WheelFactorizer w → Prop
  | divisor (wf' : WheelFactorizer w) (inv : WfactInv wf') (running : wf'.done = false)
      (split : wf'.fact.toNat * wf'.num.toNat = wf.num.toNat) (nontrivial : 2 ≤ wf'.fact.toNat)
      (sameLimit : wf'.limit = wf.limit)
      (least : ∀ d, 2 ≤ d → d < wf'.fact.toNat → ¬ d ∣ wf.num.toNat) :
      WfactStep wf (some wf'.fact, wf')
  | last (wf' : WheelFactorizer w) (stopped : wf'.done = true)
      (primeOrOne : wf.num.toNat = 1 ∨ wf.num.toNat.Prime) : WfactStep wf (some wf.num, wf')
  | dry (wf' : WheelFactorizer w) (stopped : wf'.done = true)
      (unit : wf.limit = 0 → wf.num.toNat = 1) : WfactStep wf (none, wf')

theorem WfactStep.of_same {wf v : WheelFactorizer w} {r : Option (BitVec w) × WheelFactorizer w}
    (step : WfactStep v r) (num : v.num = wf.num) (limit : v.limit = wf.limit) :
    WfactStep wf r := by
  cases step with
  | divisor wf' inv running split nontrivial sameLimit least =>
      exact .divisor wf' inv running (num ▸ split) nontrivial (limit ▸ sameLimit) (num ▸ least)
  | last wf' stopped primeOrOne => exact num ▸ .last wf' stopped (num ▸ primeOrOne)
  | dry wf' stopped unit => exact .dry wf' stopped (num ▸ limit ▸ unit)

namespace WfactInv

variable {wf : WheelFactorizer w} (inv : WfactInv wf)
include inv

theorem toNat_wfactInc : (wfactInc w wf.pos).toNat = wfactWheel.getD wf.pos 0 :=
  Nat.mod_eq_of_lt (Nat.lt_trans (wfactWheel_lt inv.wheel) wf.fact.isLt)

theorem not_dvd_below_next (skip : ¬ wf.fact.toNat ∣ wf.num.toNat) :
    ∀ d, 2 ≤ d → d < wf.fact.toNat + wfactWheel.getD wf.pos 0 → ¬ d ∣ wf.num.toNat := by
  intro d two below divides
  rcases Nat.lt_trichotomy d wf.fact.toNat with lt | rfl | gt
  · exact inv.noSmall d two lt divides
  · exact skip divides
  · obtain ⟨p, twoP, ltP, dvdP⟩ := exists_small_dvd_of_gap inv.wheel gt below
    exact inv.noSmall p twoP ltP (Nat.dvd_trans dvdP divides)

theorem divide_fact (found : wf.num % wf.fact = 0) :
    WfactInv { wf with num := bvUdiv wf.num wf.fact } ∧
      wf.fact.toNat * (bvUdiv wf.num wf.fact).toNat = wf.num.toNat := by
  have two := two_le_of_onWheel inv.wheel
  have nonzero : wf.fact ≠ 0 := fun zero => by simp [zero] at two
  have divides := umod_eq_zero_iff.mp found
  have quotient := toNat_bvUdiv_of_ne wf.num nonzero
  have within := Nat.le_of_dvd inv.positive divides
  refine ⟨⟨inv.wheel, fun d two' below dvd => ?_, ?_⟩, ?_⟩
  · exact inv.noSmall d two' below (Nat.dvd_trans (quotient ▸ dvd) (Nat.div_dvd_of_dvd divides))
  · exact quotient ▸ Nat.div_pos within (by omega)
  · rw [quotient, Nat.mul_div_cancel' divides]

/-- Once `fact * fact > num`, even where the product wraps, `num` is `1` or a prime. -/
theorem prime_or_one (small : wf.num < wf.fact * wf.fact) :
    wf.num.toNat = 1 ∨ wf.num.toNat.Prime := by
  refine or_iff_not_imp_left.mpr fun notUnit => ?_
  by_contra composite
  have square := Nat.minFac_sq_le_self inv.positive composite
  have atLeast : wf.fact.toNat ≤ wf.num.toNat.minFac := Nat.le_of_not_lt fun lt =>
    inv.noSmall _ (Nat.minFac_prime notUnit).two_le lt (Nat.minFac_dvd _)
  have wraps : (wf.fact * wf.fact).toNat ≤ wf.fact.toNat * wf.fact.toNat := by
    rw [BitVec.toNat_mul]
    exact Nat.mod_le _ _
  have below := BitVec.lt_def.mp small
  have := Nat.mul_le_mul atLeast atLeast
  rw [pow_two] at square
  omega

end WfactInv

/-- Every run of the loop of `wfact_next` on a factorizer in use ends in one of the three ways
of `WfactStep`. -/
theorem wfactNextLoop_step (wf : WheelFactorizer w) (i : Nat) (inv : WfactInv wf)
    (running : wf.done = false) : WfactStep wf (wfactNextLoop wf i) := by
  induction wf, i using wfactNextLoop.induct with
  | case1 wf i limited =>
      rw [wfactNextLoop, if_pos limited]
      exact .dry _ rfl fun unlimited => absurd unlimited limited.1
  | case2 wf i unlimited small =>
      rw [wfactNextLoop, if_neg unlimited, if_pos small]
      exact .last _ rfl (inv.prime_or_one small)
  | case3 wf i unlimited big found =>
      rw [wfactNextLoop, if_neg unlimited, if_neg big, if_pos found]
      obtain ⟨inv', split⟩ := inv.divide_fact found
      exact .divisor _ inv' running split (two_le_of_onWheel inv.wheel) rfl inv.noSmall
  | case4 wf i unlimited big skip _ wraps =>
      rw [wfactNextLoop, if_neg unlimited, if_neg big, if_neg skip, dif_pos wraps]
      refine .dry _ rfl fun _ => ?_
      -- `fact + inc` wrapped around, past `num`, and no number in `[2, fact + inc)` divides `num`
      have wrapped : 2 ^ w ≤ wf.fact.toNat + wfactWheel.getD wf.pos 0 := by
        have := toNat_add_cases wf.fact (wfactInc w wf.pos)
        have := BitVec.le_def.mp (show wf.fact + wfactInc w wf.pos ≤ wf.fact from wraps)
        have := wfactWheel_pos inv.wheel
        rw [inv.toNat_wfactInc] at *
        omega
      by_contra notUnit
      have := inv.positive
      have := wf.num.isLt
      exact inv.not_dvd_below_next (mt umod_eq_zero_iff.mpr skip) _ (by omega) (by omega)
        (Nat.dvd_refl _)
  | case5 wf i unlimited big skip _ _ grows ih =>
      rw [wfactNextLoop, if_neg unlimited, if_neg big, if_neg skip, dif_neg grows]
      have next :
          (wf.fact + wfactInc w wf.pos).toNat = wf.fact.toNat + wfactWheel.getD wf.pos 0 := by
        have := toNat_add_cases wf.fact (wfactInc w wf.pos)
        have := BitVec.lt_def.mp
          (BitVec.not_le.mp (show ¬ wf.fact + wfactInc w wf.pos ≤ wf.fact from grows))
        have := (wfactInc w wf.pos).isLt
        rw [inv.toNat_wfactInc] at *
        omega
      refine (ih ⟨?_, ?_, inv.positive⟩ running).of_same rfl rfl
      · simpa only [next, dite_eq_ite] using onWheel_step inv.wheel
      · exact fun d two below => inv.not_dvd_below_next (mt umod_eq_zero_iff.mpr skip) d two
          (next ▸ below)

theorem wfactNext_step {wf : WheelFactorizer w} (inv : WfactInv wf) (running : wf.done = false) :
    WfactStep wf (wfactNext wf) := by
  rw [wfactNext, if_neg (by simp [running])]
  exact wfactNextLoop_step wf 0 inv running

theorem wfactNext_done {wf : WheelFactorizer w} (stopped : wf.done = true) :
    wfactNext wf = (none, wf) := by
  rw [wfactNext, if_pos stopped]

theorem wfactNexts_done {wf : WheelFactorizer w} (stopped : wf.done = true) (k : Nat) :
    wfactNexts k wf = (List.replicate k none, wf) := by
  induction k with
  | zero => rfl
  | succ k ih => simp only [wfactNexts, wfactNext_done stopped, ih, List.replicate_succ]

/-! ### Runs, and the prime factorization -/

theorem reduceOption_replicate_none (k : Nat) :
    (List.replicate k (none : Option (BitVec w))).reduceOption = [] := by
  induction k with
  | zero => rfl
  | succ k ih => rw [List.replicate_succ, List.reduceOption_cons_of_none, ih]

theorem wfactInit_inv (two : 2 ≤ w) (n : BitVec w) (positive : 0 < n.toNat) (limit : Nat) :
    WfactInv (wfactInit n limit) := by
  have fits : 2 < 2 ^ w := Nat.lt_of_lt_of_le (by decide) (Nat.pow_le_pow_right (by decide) two)
  have fact : (BitVec.ofNat w 2).toNat = 2 := by simp [Nat.mod_eq_of_lt fits]
  refine ⟨?_, ?_, positive⟩ <;> simp only [wfactInit, fact]
  · exact Or.inl ⟨rfl, rfl⟩
  · omega

theorem lt_of_mul_eq {f m n : Nat} (split : f * m = n) (two : 2 ≤ f) (positive : 0 < m) :
    m < n :=
  calc m < 2 * m := by omega
    _ ≤ f * m := Nat.mul_le_mul_right m two
    _ = n := split

/-- From a factorizer in use, `num` calls of `wfact_next` are enough: the factorizer is then
done, every value it returned divides `num`, so does their product, and without a limit the
product is `num`. -/
theorem wfactNexts_factors (k : Nat) {wf : WheelFactorizer w} (inv : WfactInv wf)
    (running : wf.done = false) (enough : wf.num.toNat ≤ k) :
    (wfactNexts k wf).2.done = true ∧
      (∀ v ∈ (wfactNexts k wf).1.reduceOption, v.toNat ∣ wf.num.toNat) ∧
      ((wfactNexts k wf).1.reduceOption.map BitVec.toNat).prod ∣ wf.num.toNat ∧
      (wf.limit = 0 → ((wfactNexts k wf).1.reduceOption.map BitVec.toNat).prod = wf.num.toNat) := by
  induction k generalizing wf with
  | zero => exact absurd inv.positive (by omega)
  | succ k ih =>
      have step := wfactNext_step inv running
      simp only [wfactNexts]
      generalize wfactNext wf = r at step ⊢
      cases step with
      | divisor wf' inv' running' split two same _ =>
          have smaller := lt_of_mul_eq split two inv'.positive
          obtain ⟨stopped, each, prod, exact⟩ := ih inv' running' (by omega)
          simp only [List.reduceOption_cons_of_some, List.map_cons, List.prod_cons, List.mem_cons,
            forall_eq_or_imp]
          refine ⟨stopped, ⟨Dvd.intro _ split, fun v mem => ?_⟩, ?_, fun unlimited => ?_⟩
          · exact Nat.dvd_trans (each v mem) (Dvd.intro_left _ split)
          · exact split ▸ Nat.mul_dvd_mul_left _ prod
          · rw [exact (same ▸ unlimited), split]
      | last wf' stopped _ =>
          simp [wfactNexts_done stopped, reduceOption_replicate_none, stopped]
      | dry wf' stopped unit =>
          simpa [wfactNexts_done stopped, reduceOption_replicate_none, stopped, eq_comm] using unit

/-- From width 2 on, `n` calls of `wfact_next` after `wfact_init n L` leave the factorizer done,
so that every later call returns the null pointer; every value returned divides `n`, so does
their product, and without a limit the product is `n`. -/
theorem wfactInit_factors (two : 2 ≤ w) (n : BitVec w) (positive : 0 < n.toNat) (limit : Nat) :
    (∀ k, wfactNexts k (wfactNexts n.toNat (wfactInit n limit)).2 =
        (List.replicate k none, (wfactNexts n.toNat (wfactInit n limit)).2)) ∧
      (∀ v ∈ (wfactNexts n.toNat (wfactInit n limit)).1.reduceOption, v.toNat ∣ n.toNat) ∧
      ((wfactNexts n.toNat (wfactInit n limit)).1.reduceOption.map BitVec.toNat).prod ∣ n.toNat ∧
      (limit = 0 →
        ((wfactNexts n.toNat (wfactInit n limit)).1.reduceOption.map BitVec.toNat).prod =
          n.toNat) := by
  obtain ⟨stopped, each, prod, exact⟩ :=
    wfactNexts_factors n.toNat (wfactInit_inv two n positive limit) rfl (le_refl _)
  exact ⟨wfactNexts_done stopped, each, prod, exact⟩

theorem wfactInit_factors_twelve :
    (∀ k, wfactNexts k (wfactNexts (12#4).toNat (wfactInit 12#4 0)).2 =
        (List.replicate k none, (wfactNexts (12#4).toNat (wfactInit 12#4 0)).2)) ∧
      (∀ v ∈ (wfactNexts (12#4).toNat (wfactInit 12#4 0)).1.reduceOption, v.toNat ∣ (12#4).toNat) ∧
      ((wfactNexts (12#4).toNat (wfactInit 12#4 0)).1.reduceOption.map BitVec.toNat).prod ∣
        (12#4).toNat ∧
      ((0 : Nat) = 0 →
        ((wfactNexts (12#4).toNat (wfactInit 12#4 0)).1.reduceOption.map BitVec.toNat).prod =
          (12#4).toNat) :=
  wfactInit_factors (by decide) 12#4 (by decide) 0

/-! Every divisor found is the least factor of `num` above `1`, and the last value is `1` or a prime,
so the values come out as `primeFactorsList n`, ascending and with multiplicity. A trailing `1`
comes from `n = 1`, or from a square `fact * fact` that wraps past `num` after `fact = num`. -/

theorem minFac_eq_of_least {f n : Nat} (two : 2 ≤ f) (divides : f ∣ n)
    (least : ∀ d, 2 ≤ d → d < f → ¬ d ∣ n) (notUnit : n ≠ 1) : n.minFac = f :=
  le_antisymm (Nat.minFac_le_of_dvd two divides)
    (Nat.le_of_not_lt fun lt => least _ (Nat.minFac_prime notUnit).two_le lt (Nat.minFac_dvd n))

theorem primeFactorsList_of_split {f m n : Nat} (split : f * m = n) (two : 2 ≤ f)
    (positive : 0 < m) (least : ∀ d, 2 ≤ d → d < f → ¬ d ∣ n) :
    n.primeFactorsList = f :: m.primeFactorsList := by
  have large := Nat.mul_le_mul two (Nat.succ_le_of_lt positive)
  obtain ⟨k, rfl⟩ : ∃ k, n = k + 2 := ⟨n - 2, by omega⟩
  rw [Nat.primeFactorsList_add_two, minFac_eq_of_least two (Dvd.intro _ split) least (by omega),
    ← split, Nat.mul_div_cancel_left _ (by omega)]

/-- From a factorizer in use, the values of `num` calls of `wfact_next` are a prefix of the
prime factorization of `num` followed by a `1`, and without a limit they hold all of it. -/
theorem wfactNexts_primeFactorsList (k : Nat) {wf : WheelFactorizer w} (inv : WfactInv wf)
    (running : wf.done = false) (enough : wf.num.toNat ≤ k) :
    (wfactNexts k wf).1.reduceOption.map BitVec.toNat <+: wf.num.toNat.primeFactorsList ++ [1] ∧
      (wf.limit = 0 →
        wf.num.toNat.primeFactorsList <+: (wfactNexts k wf).1.reduceOption.map BitVec.toNat) := by
  induction k generalizing wf with
  | zero => exact absurd inv.positive (by omega)
  | succ k ih =>
      have step := wfactNext_step inv running
      simp only [wfactNexts]
      generalize wfactNext wf = r at step ⊢
      cases step with
      | divisor wf' inv' running' split two same least =>
          have smaller := lt_of_mul_eq split two inv'.positive
          obtain ⟨upper, lower⟩ := ih inv' running' (by omega)
          simp only [List.reduceOption_cons_of_some, List.map_cons,
            primeFactorsList_of_split split two inv'.positive least, List.cons_append,
            List.prefix_cons_inj]
          exact ⟨upper, fun unlimited => lower (same ▸ unlimited)⟩
      | last wf' stopped primeOrOne =>
          simp only [wfactNexts_done stopped, List.reduceOption_cons_of_some,
            reduceOption_replicate_none, List.map_cons, List.map_nil]
          rcases primeOrOne with unit | prime
          · rw [unit, Nat.primeFactorsList_one]
            exact ⟨List.prefix_refl _, fun _ => List.nil_prefix⟩
          · rw [Nat.primeFactorsList_prime prime]
            exact ⟨List.prefix_append _ _, fun _ => List.prefix_refl _⟩
      | dry wf' stopped unit =>
          simp only [wfactNexts_done stopped, List.reduceOption_cons_of_none,
            reduceOption_replicate_none, List.map_nil]
          exact ⟨List.nil_prefix, fun unlimited => by rw [unit unlimited, Nat.primeFactorsList_one]⟩

/-- From width 2 on, the values of `n` calls of `wfact_next` after `wfact_init n L` are the prime
factors of `n` in ascending order, a prefix of them under a limit, followed at most by a `1`. -/
theorem wfactInit_primeFactorsList (two : 2 ≤ w) (n : BitVec w) (positive : 0 < n.toNat)
    (limit : Nat) :
    (wfactNexts n.toNat (wfactInit n limit)).1.reduceOption.map BitVec.toNat <+:
        n.toNat.primeFactorsList ++ [1] ∧
      (limit = 0 → n.toNat.primeFactorsList <+:
        (wfactNexts n.toNat (wfactInit n limit)).1.reduceOption.map BitVec.toNat) :=
  wfactNexts_primeFactorsList n.toNat (wfactInit_inv two n positive limit) rfl (le_refl _)

theorem wfactInit_primeFactorsList_twelve :
    (wfactNexts (12#4).toNat (wfactInit 12#4 0)).1.reduceOption.map BitVec.toNat <+:
        (12#4).toNat.primeFactorsList ++ [1] ∧
      ((0 : Nat) = 0 → (12#4).toNat.primeFactorsList <+:
        (wfactNexts (12#4).toNat (wfactInit 12#4 0)).1.reduceOption.map BitVec.toNat) :=
  wfactInit_primeFactorsList (by decide) 12#4 (by decide) 0

/-! ### The search of `bzla_bvdomain_get_factor` -/

theorem getFactorLoop_done (x : Option (BvDomain w)) (exclMinVal : Option (BitVec w)) (fuel : Nat)
    {wf : WheelFactorizer w} (stopped : wf.done = true) :
    getFactorLoop x exclMinVal (fuel + 1) wf = some none := by
  rw [getFactorLoop, wfactNext_done stopped]

/-- On a factorizer in use, the loop of `bzla_bvdomain_get_factor` ends within `num + 1` calls,
and a factor it returns passes its test, divides `num` and is a prime or `1`. -/
theorem getFactorLoop_spec (x : Option (BvDomain w)) (exclMinVal : Option (BitVec w)) (fuel : Nat)
    {wf : WheelFactorizer w} (inv : WfactInv wf) (running : wf.done = false)
    (enough : wf.num.toNat < fuel) :
    ∃ r, getFactorLoop x exclMinVal fuel wf = some r ∧
      ∀ v, r = some v → getFactorAccepts x exclMinVal v = true ∧ v.toNat ∣ wf.num.toNat ∧
        (v.toNat.Prime ∨ v.toNat = 1) := by
  induction fuel generalizing wf with
  | zero => exact absurd enough (Nat.not_lt_zero _)
  | succ fuel ih =>
      have step := wfactNext_step inv running
      rw [getFactorLoop]
      generalize wfactNext wf = r at step ⊢
      cases step with
      | divisor wf' inv' running' split two same least =>
          have smaller := lt_of_mul_eq split two inv'.positive
          -- the divisor found is the least factor of `num` above `1`, a prime
          have prime : wf'.fact.toNat.Prime := by
            have notUnit : wf.num.toNat ≠ 1 := by have := inv'.positive; omega
            exact minFac_eq_of_least two (Dvd.intro _ split) least notUnit ▸ Nat.minFac_prime notUnit
          dsimp only
          split
          · exact ⟨_, rfl, fun v found =>
              Option.some_injective _ found ▸ ⟨‹_›, Dvd.intro _ split, .inl prime⟩⟩
          · obtain ⟨r, run, spec⟩ := ih inv' running' (by omega)
            exact ⟨r, run, fun v found => (spec v found).imp_right
              (And.imp_left fun d => Nat.dvd_trans d (Dvd.intro_left _ split))⟩
      | last wf' stopped primeOrOne =>
          dsimp only
          split
          · exact ⟨_, rfl, fun v found =>
              Option.some_injective _ found ▸ ⟨‹_›, Nat.dvd_refl _, primeOrOne.symm⟩⟩
          · obtain ⟨fuel, rfl⟩ : ∃ k, fuel = k + 1 := ⟨fuel - 1, by have := inv.positive; omega⟩
            exact ⟨none, getFactorLoop_done x exclMinVal fuel stopped, fun _ => nofun⟩
      | dry wf' stopped unit => exact ⟨none, rfl, fun _ => nofun⟩

/-- From width 2 on, `bzla_bvdomain_get_factor` ends within `num + 1` calls of `wfact_next`, and a
factor it returns passes its test and divides `num`. -/
theorem bvdomainGetFactor_spec (two : 2 ≤ w) (num : BitVec w) (positive : 0 < num.toNat)
    (x : Option (BvDomain w)) (exclMinVal : Option (BitVec w)) (limit : Nat) :
    ∃ r, bvdomainGetFactor num x exclMinVal limit (num.toNat + 1) = some r ∧
      ∀ v, r = some v → getFactorAccepts x exclMinVal v = true ∧ v.toNat ∣ num.toNat :=
  have ⟨r, run, spec⟩ :=
    getFactorLoop_spec x exclMinVal _ (wfactInit_inv two num positive limit) rfl (Nat.lt_succ_self _)
  ⟨r, run, fun v found => (spec v found).imp_right And.left⟩

theorem bvdomainGetFactor_spec_twelve :
    ∃ r, bvdomainGetFactor (12#4) none (some 2#4) 0 ((12#4).toNat + 1) = some r ∧
      ∀ v, r = some v → getFactorAccepts none (some 2#4) v = true ∧ v.toNat ∣ (12#4).toNat :=
  bvdomainGetFactor_spec (by decide) 12#4 (by decide) none (some 2#4) 0

/-- On a factorizer in use, the loop of `bzla_bvdomain_get_factor` returns the first value of
the stream of `wfact_next` that passes its test. -/
theorem getFactorLoop_eq_find (x : Option (BvDomain w)) (exclMinVal : Option (BitVec w))
    (k : Nat) {wf : WheelFactorizer w} (inv : WfactInv wf) (running : wf.done = false)
    (enough : wf.num.toNat ≤ k) :
    getFactorLoop x exclMinVal (k + 1) wf =
      some ((wfactNexts k wf).1.reduceOption.find? (getFactorAccepts x exclMinVal)) := by
  induction k generalizing wf with
  | zero => exact absurd inv.positive (by omega)
  | succ k ih =>
      have step := wfactNext_step inv running
      rw [getFactorLoop]
      simp only [wfactNexts]
      generalize wfactNext wf = r at step ⊢
      cases step with
      | divisor wf' inv' running' split two _ _ =>
          have smaller := lt_of_mul_eq split two inv'.positive
          simp only [List.reduceOption_cons_of_some, ih inv' running' (by omega)]
          cases accepted : getFactorAccepts x exclMinVal wf'.fact <;> simp [accepted]
      | last wf' stopped _ =>
          simp only [wfactNexts_done stopped, List.reduceOption_cons_of_some,
            reduceOption_replicate_none, getFactorLoop_done x exclMinVal k stopped]
          cases accepted : getFactorAccepts x exclMinVal wf.num <;> simp [accepted]
      | dry wf' stopped _ => simp [wfactNexts_done stopped, reduceOption_replicate_none]

theorem le_of_find_eq_some {α : Type} {f : α → Nat} {p : α → Bool} {l : List α} {v : α}
    (sorted : (l.map f).Sorted (· ≤ ·)) (found : l.find? p = some v) {a : α} (member : a ∈ l)
    (passes : p a = true) : f v ≤ f a := by
  induction l with
  | nil => cases member
  | cons b l ih =>
      rw [List.map_cons, List.sorted_cons] at sorted
      by_cases head : p b = true
      · obtain rfl : b = v := by simpa [List.find?_cons_of_pos _ head] using found
        rcases List.mem_cons.mp member with rfl | later
        · exact le_refl _
        · exact sorted.1 _ (List.mem_map_of_mem f later)
      · rw [List.find?_cons_of_neg _ head] at found
        rcases List.mem_cons.mp member with rfl | later
        · exact absurd passes head
        · exact ih sorted.2 found later

theorem getFactor_least_prime (two : 2 ≤ w) (num : BitVec w) (positive : 0 < num.toNat)
    (x : Option (BvDomain w)) (exclMinVal : Option (BitVec w)) :
    ∃ r, bvdomainGetFactor num x exclMinVal 0 (num.toNat + 1) = some r ∧
      (∀ v, r = some v → getFactorAccepts x exclMinVal v = true ∧
        (v.toNat.Prime ∧ v.toNat ∣ num.toNat ∨ v.toNat = 1)) ∧
      ∀ p : BitVec w, p.toNat.Prime → p.toNat ∣ num.toNat →
        getFactorAccepts x exclMinVal p = true →
        ∃ v, r = some v ∧ v.toNat.Prime ∧ v.toNat ≤ p.toNat := by
  have inv := wfactInit_inv two num positive 0
  have factors : ∀ {p}, p ∈ num.toNat.primeFactorsList ↔ p.Prime ∧ p ∣ num.toNat :=
    Nat.mem_primeFactorsList (Nat.pos_iff_ne_zero.mp positive)
  obtain ⟨upper, lower⟩ := wfactNexts_primeFactorsList num.toNat inv rfl (le_refl _)
  obtain ⟨rest, split⟩ := lower rfl
  obtain ⟨P, T, stream, primes, -⟩ := List.append_eq_map_iff.mp split
  refine ⟨_, getFactorLoop_eq_find x exclMinVal _ inv rfl (le_refl _), fun v found => ?_,
    fun p prime divides passes => ?_⟩
  · have listed := upper.subset (List.mem_map_of_mem BitVec.toNat (List.mem_of_find?_eq_some found))
    refine ⟨List.find?_some found, ?_⟩
    rcases List.mem_append.mp listed with factor | unit
    · exact .inl (factors.mp factor)
    · exact .inr (List.mem_singleton.mp unit)
  · -- `p` is among the prime factors, which come first and in ascending order
    obtain ⟨q, member, same⟩ := List.mem_map.mp (primes ▸ factors.mpr ⟨prime, divides⟩)
    obtain rfl := BitVec.eq_of_toNat_eq same
    obtain ⟨v, found⟩ := Option.ne_none_iff_exists'.mp
      (mt List.find?_eq_none.mp fun none => none q member passes)
    have first : (wfactNexts num.toNat (wfactInit num 0)).1.reduceOption.find?
        (getFactorAccepts x exclMinVal) = some v := by
      rw [stream, List.find?_append, found]
      rfl
    have listed : v.toNat ∈ num.toNat.primeFactorsList :=
      primes ▸ List.mem_map_of_mem BitVec.toNat (List.mem_of_find?_eq_some found)
    refine ⟨v, by rw [first], (factors.mp listed).1, ?_⟩
    exact le_of_find_eq_some (primes ▸ Nat.primeFactorsList_sorted _) found member passes

/-- Without a limit, from width 2 on, `bzla_bvdomain_get_factor` returns the least prime factor of
`num` that passes its test, and returns the null pointer or `1` only when none passes. -/
theorem bvdomainGetFactor_least (two : 2 ≤ w) (num : BitVec w) (positive : 0 < num.toNat)
    (x : Option (BvDomain w)) (exclMinVal : Option (BitVec w)) :
    ∃ r, bvdomainGetFactor num x exclMinVal 0 (num.toNat + 1) = some r ∧
      (∀ v, r = some v → getFactorAccepts x exclMinVal v = true ∧
        (v.toNat.Prime ∧ v.toNat ∣ num.toNat ∨ v.toNat = 1)) ∧
      ∀ p : BitVec w, p.toNat.Prime → p.toNat ∣ num.toNat →
        getFactorAccepts x exclMinVal p = true →
        ∃ v, r = some v ∧ v.toNat.Prime ∧ v.toNat ≤ p.toNat :=
  getFactor_least_prime two num positive x exclMinVal

theorem bvdomainGetFactor_least_twelve :
    ∃ r, bvdomainGetFactor (12#4) none (some 2#4) 0 ((12#4).toNat + 1) = some r ∧
      (∀ v, r = some v → getFactorAccepts none (some 2#4) v = true ∧
        (v.toNat.Prime ∧ v.toNat ∣ (12#4).toNat ∨ v.toNat = 1)) ∧
      ∀ p : BitVec 4, p.toNat.Prime → p.toNat ∣ (12#4).toNat →
        getFactorAccepts none (some 2#4) p = true →
        ∃ v, r = some v ∧ v.toNat.Prime ∧ v.toNat ≤ p.toNat :=
  bvdomainGetFactor_least (by decide) 12#4 (by decide) none (some 2#4)

section Urem

variable (D : ValidDomain w) {s t : BitVec w} (below : t < s)
include below

theorem toNat_sub_of_lt : (s - t).toNat = s.toNat - t.toNat :=
  BitVec.toNat_sub_of_le (le_of_lt_bv below)

/-- The test of `bzla_bvdomain_get_factor` on `s - t` with `excl_min_val = t` and the domain `D`
passes exactly the values of `γ(D)` above `t` that divide `s - t`: those solve `s % x = t`, and
every solution passes. -/
theorem getFactorAccepts_urem {x : BitVec w} (divides : x.toNat ∣ (s - t).toNat) :
    getFactorAccepts (some D.toBvDomain) (some t) x = true ↔ x ∈ D.toBvDomain ∧ s % x = t := by
  obtain ⟨k, multiple⟩ := divides
  have := BitVec.lt_def.mp below
  have total : s.toNat = x.toNat * k + t.toNat := by rw [toNat_sub_of_lt below] at multiple; omega
  have nonzero : 0 < x.toNat :=
    Nat.pos_of_ne_zero fun zero => by rw [zero, Nat.zero_mul] at total; omega
  simp only [getFactorAccepts, Option.all_some, Bool.and_eq_true, decide_eq_true_eq,
    D.checkFixedBits_iff_mem, BitVec.lt_def, BitVec.toNat_eq, BitVec.toNat_umod, total,
    Nat.mul_add_mod]
  exact ⟨fun ⟨above, mem⟩ => ⟨mem, Nat.mod_eq_of_lt above⟩,
    fun ⟨mem, same⟩ => ⟨same ▸ Nat.mod_lt _ nonzero, mem⟩⟩

theorem dvd_sub_of_umod_eq {x : BitVec w} (solves : s % x = t) : x.toNat ∣ (s - t).toNat := by
  rw [toNat_sub_of_lt below, ← solves, BitVec.toNat_umod]
  exact Nat.dvd_sub_mod _

end Urem

/-- What the factorizer is for (its comment: wheel factorization for `s % x = t`): called on
`s - t` with `t < s`, the domain `x` and `excl_min_val = t`, `bzla_bvdomain_get_factor` returns,
a factor it returns is a prime or `1` of `γ(x)` that solves `s % x = t`, and without a limit it
finds the least prime solution whenever there is one. A solution none of whose prime factors
solves the equation, such as `4` for `11 % x = 3` at width 4, is never found. -/
theorem bvdomainGetFactor_urem (two : 2 ≤ w) (D : ValidDomain w) (s t : BitVec w) (below : t < s)
    (limit : Nat) :
    ∃ r, bvdomainGetFactor (s - t) (some D.toBvDomain) (some t) limit ((s - t).toNat + 1) = some r ∧
      (∀ x, r = some x → x ∈ D.toBvDomain ∧ s % x = t ∧ (x.toNat.Prime ∨ x.toNat = 1)) ∧
      (limit = 0 → ∀ p : BitVec w, p.toNat.Prime → p ∈ D.toBvDomain → s % p = t →
        ∃ x, r = some x ∧ x.toNat.Prime ∧ x ≤ p) := by
  have positive : 0 < (s - t).toNat := by
    rw [toNat_sub_of_lt below]; exact Nat.sub_pos_of_lt (BitVec.lt_def.mp below)
  obtain ⟨r, run, spec⟩ := getFactorLoop_spec (some D.toBvDomain) (some t) _
    (wfactInit_inv two (s - t) positive limit) rfl (Nat.lt_succ_self _)
  refine ⟨r, run, fun x found => ?_, fun unlimited p prime mem solves => ?_⟩
  · obtain ⟨accepted, divides, primeOrOne⟩ := spec x found
    obtain ⟨mem, solves⟩ := (getFactorAccepts_urem D below divides).mp accepted
    exact ⟨mem, solves, primeOrOne⟩
  · subst unlimited
    obtain ⟨r', run', -, least⟩ := getFactor_least_prime two (s - t) positive (some D.toBvDomain)
      (some t)
    obtain rfl : r = r' := Option.some_injective _ (run.symm.trans run')
    have divides := dvd_sub_of_umod_eq below solves
    obtain ⟨x, found, xPrime, le⟩ :=
      least p prime divides ((getFactorAccepts_urem D below divides).mpr ⟨mem, solves⟩)
    exact ⟨x, found, xPrime, BitVec.le_def.mpr le⟩

/-- On `11 % x = 3` at width 4 the search finds nothing, though `4` solves the equation: its only
prime factor `2` is no solution. -/
theorem bvdomainGetFactor_urem_eleven :
    bvdomainGetFactor (11#4 - 3#4) (some (ValidDomain.newInit 4).toBvDomain) (some 3#4) 0
        ((11#4 - 3#4).toNat + 1) = some none ∧ 11#4 % 4#4 = 3#4 := by
  obtain ⟨r, run, sound, -⟩ :=
    bvdomainGetFactor_urem (by decide) (ValidDomain.newInit 4) 11#4 3#4 (by decide) 0
  refine ⟨?_, by decide⟩
  cases r with
  | none => exact run
  | some x =>
      -- the solutions are `4` and `8`, neither a prime nor `1`
      obtain ⟨-, solves, primeOrOne⟩ := sound x rfl
      have remainder : 11 % x.toNat = 3 := by simpa using congrArg BitVec.toNat solves
      have := x.isLt
      interval_cases x.toNat <;> revert primeOrOne remainder <;> decide

/-! `wfact_next` counts the iterations of its loop and stops with the null pointer once they pass
`limit`. Short of that, a call with a limit computes what the same call without one computes, so a
limit only ever cuts the search of `bzla_bvdomain_get_factor` short. -/

/-- A run of the loop with a limit stops with the null pointer, or ends as the run without a
limit on the same factorizer does. -/
theorem wfactNextLoop_limit (wf : WheelFactorizer w) (i : Nat) :
    (wfactNextLoop wf i).1 = none ∨
      wfactNextLoop { wf with limit := 0 } i =
        ((wfactNextLoop wf i).1, { (wfactNextLoop wf i).2 with limit := 0 }) := by
  induction wf, i using wfactNextLoop.induct with
  | case1 wf i limited =>
      rw [wfactNextLoop, if_pos limited]
      exact .inl rfl
  | case2 wf i unlimited small =>
      rw [wfactNextLoop, if_neg unlimited, if_pos small, wfactNextLoop.eq_1 { wf with limit := 0 }]
      simp [small]
  | case3 wf i unlimited big found =>
      rw [wfactNextLoop, if_neg unlimited, if_neg big, if_pos found,
        wfactNextLoop.eq_1 { wf with limit := 0 }]
      simp [big, found]
  | case4 wf i unlimited big skip _ wraps =>
      rw [wfactNextLoop, if_neg unlimited, if_neg big, if_neg skip, dif_pos wraps]
      exact .inl rfl
  | case5 wf i unlimited big skip _ _ grows ih =>
      rw [wfactNextLoop, if_neg unlimited, if_neg big, if_neg skip, dif_neg grows]
      refine ih.imp_right fun same => ?_
      rw [wfactNextLoop.eq_1 { wf with limit := 0 }]
      dsimp only
      rw [if_neg (fun h : (0 : Nat) ≠ 0 ∧ _ => h.1 rfl), if_neg big, if_neg skip, dif_neg grows]
      exact same

theorem wfactNext_limit (wf : WheelFactorizer w) :
    (wfactNext wf).1 = none ∨
      wfactNext { wf with limit := 0 } =
        ((wfactNext wf).1, { (wfactNext wf).2 with limit := 0 }) := by
  by_cases stopped : wf.done = true
  · exact .inl (by rw [wfactNext_done stopped])
  · rw [wfactNext.eq_1 wf, wfactNext.eq_1 { wf with limit := 0 }, if_neg stopped, if_neg stopped]
    exact wfactNextLoop_limit wf 0

theorem getFactorLoop_limit (x : Option (BvDomain w)) (exclMinVal : Option (BitVec w)) (fuel : Nat)
    (wf : WheelFactorizer w) {r : Option (BitVec w)}
    (found : getFactorLoop x exclMinVal fuel wf = some r) :
    r = none ∨ getFactorLoop x exclMinVal fuel { wf with limit := 0 } = some r := by
  induction fuel generalizing wf with
  | zero => cases found
  | succ fuel ih =>
      rw [getFactorLoop] at found
      rcases wfactNext_limit wf with cut | same
      · rw [show wfactNext wf = (none, (wfactNext wf).2) from Prod.ext cut rfl] at found
        exact .inl (Option.some_injective _ found).symm
      · rw [getFactorLoop, same]
        generalize wfactNext wf = step at found ⊢
        obtain ⟨_ | fact, wf'⟩ := step
        · exact .inl (Option.some_injective _ found).symm
        · dsimp only at found ⊢
          by_cases accepted : getFactorAccepts x exclMinVal fact = true
          · rw [if_pos accepted] at found ⊢
            exact .inr found
          · rw [if_neg accepted] at found ⊢
            exact ih wf' found

/-- A limit never changes what the factorizer computes, only where it stops: a call of
`wfact_next` with a limit returns the null pointer or ends as the call without one, and
`bzla_bvdomain_get_factor` with any limit returns the null pointer or what it returns without a
limit. -/
theorem bvdomainGetFactor_limit (num : BitVec w) (x : Option (BvDomain w))
    (exclMinVal : Option (BitVec w)) (limit fuel : Nat) :
    (∀ wf : WheelFactorizer w, (wfactNext wf).1 = none ∨
      wfactNext { wf with limit := 0 } = ((wfactNext wf).1, { (wfactNext wf).2 with limit := 0 })) ∧
    ∀ r, bvdomainGetFactor num x exclMinVal limit fuel = some r →
      r = none ∨ bvdomainGetFactor num x exclMinVal 0 fuel = some r :=
  ⟨wfactNext_limit, fun _ => getFactorLoop_limit x exclMinVal fuel (wfactInit num limit)⟩

theorem bvdomainGetFactor_limit_two :
    bvdomainGetFactor (2#2) none none 1 1 = some (some 2#2) ∧
      (some 2#2 = none ∨ bvdomainGetFactor (2#2) none none 0 1 = some (some 2#2)) :=
  have found : bvdomainGetFactor (2#2) none none 1 1 = some (some 2#2) := by
    rw [bvdomainGetFactor, getFactorLoop, wfactNext, if_neg (by decide), wfactNextLoop,
      if_neg (by decide), if_neg (by decide), if_pos (by decide)]
    rfl
  ⟨found, (bvdomainGetFactor_limit 2#2 none none 1 1).2 _ found⟩

/-- The factorizer at width 1 after its first call: `fact` has stepped from `0` to `1`. -/
def wfactStuck : WheelFactorizer 1 :=
  { done := false, num := 1#1, fact := 1#1, pos := 1, limit := 0 }

theorem wfactNext_init_one : wfactNext (wfactInit (1#1) 0) = (some 1#1, wfactStuck) := by
  rw [wfactNext, if_neg (by decide), wfactNextLoop, if_neg (by decide), if_neg (by decide),
    if_neg (by decide), dif_neg (by decide), wfactNextLoop, if_neg (by decide), if_neg (by decide),
    if_pos (by decide)]
  rfl

theorem wfactNext_stuck : wfactNext wfactStuck = (some 1#1, wfactStuck) := by
  rw [wfactNext, if_neg (by decide), wfactNextLoop, if_neg (by decide), if_neg (by decide),
    if_pos (by decide)]
  rfl

theorem wfactNexts_of_next_stuck {wf : WheelFactorizer 1}
    (next : wfactNext wf = (some 1#1, wfactStuck)) (k : Nat) :
    (wfactNexts k wf).1 = List.replicate k (some 1#1) := by
  induction k generalizing wf with
  | zero => rfl
  | succ k ih => simp only [wfactNexts, next, ih wfactNext_stuck, List.replicate_succ]

theorem getFactorLoop_of_next_stuck {wf : WheelFactorizer 1}
    (next : wfactNext wf = (some 1#1, wfactStuck)) (fuel : Nat) :
    getFactorLoop none (some 1#1) fuel wf = none := by
  induction fuel generalizing wf with
  | zero => rfl
  | succ fuel ih =>
      rw [getFactorLoop, next]
      exact if_neg (by decide) |>.trans (ih wfactNext_stuck)

/-- At width 1 the constant `2` of `wfact_init` is `0`. From `n = 1` every call of `wfact_next`
returns `1` and leaves `num = 1`, so the factorizer is never done, and a search for a factor
above `1` does not end. -/
theorem wfactInit_width_one_never_done (k : Nat) :
    (wfactNexts k (wfactInit (1#1) 0)).1 = List.replicate k (some 1#1) ∧
      bvdomainGetFactor (1#1) none (some 1#1) 0 k = none :=
  ⟨wfactNexts_of_next_stuck wfactNext_init_one k,
    getFactorLoop_of_next_stuck wfactNext_init_one k⟩

end Bzla
