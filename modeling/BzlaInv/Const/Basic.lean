import BzlaInv.Oblivious

/-!
# Invertibility conditions with constant bits: shared checks

The helpers of the second half of `bzlainvutils.c`, which compare a domain of `x` with a value
or with another domain, and the checks that reduce to one such comparison: add, and, concat,
eq, ult, udiv and slice. For a valid domain, `check_const_bits` is membership in `γ(D)`, and
`check_const_domain_bits` says that two domains share a value.
-/

namespace Bzla

variable {w : Nat}

/-! ### Helpers -/

/-- `check_const_bits`: the code of `bzla_bvdomain_check_fixed_bits`, `(bv & hi) | lo = bv`. -/
def checkConstBits (d : BvDomain w) (bv : BitVec w) : Bool :=
  d.checkFixedBits bv

/-- `check_const_bits_val`: `check_const_bits` against `ones` for a nonzero `val`, else zero. -/
def checkConstBitsVal (d : BvDomain w) (val : Nat) : Bool :=
  checkConstBits d (if val ≠ 0 then BitVec.allOnes w else 0)

/-- `check_const_domain_bits`: on the bits fixed in both domains, the two `lo` agree. -/
def checkConstDomainBits (d1 d2 : BvDomain w) : Bool :=
  let common := ~~~(d1.lo ^^^ d1.hi) &&& ~~~(d2.lo ^^^ d2.hi)
  (common &&& d1.lo) == (common &&& d2.lo)

/-! ### Checks that reduce to one comparison -/

/-- `bzla_is_inv_add_const`: IC `((t - s) & hi) | lo = t - s`. -/
def isInvAddConst (x : BvDomain w) (t s : BitVec w) : Bool :=
  checkConstBits x (t - s)

/-- `bzla_is_inv_and_const`: IC `t & s = t ∧ (s & hi) & m = t & m` with `m = ~(lo ^ hi)`. -/
def isInvAndConst (x : BvDomain w) (t s : BitVec w) : Bool :=
  if !isInvAnd t s then false
  else
    let mask := ~~~(x.lo ^^^ x.hi)
    (s &&& x.hi &&& mask) == (t &&& mask)

/-- `bzla_is_inv_concat_const`: the half of `t` under `s` must equal `s`, and the half
under `x` must agree with the fixed bits of `x`. That half is read at the width of `x`, as
`bzla_bv_and` reads its operands of equal width. -/
def isInvConcatConst {wx ws wt : Nat} (x : BvDomain wx) (t : BitVec wt) (s : BitVec ws)
    (pos_x : Nat) : Bool :=
  if pos_x = 0 then
    let t_h := BitVec.extractLsb (wt - 1) ws t
    let t_l := BitVec.extractLsb (ws - 1) 0 t
    checkConstBits x (BitVec.ofNat wx t_h.toNat) && s.toNat == t_l.toNat
  else
    let t_h := BitVec.extractLsb (wt - 1) wx t
    let t_l := BitVec.extractLsb (wx - 1) 0 t
    checkConstBits x (BitVec.ofNat wx t_l.toNat) && s.toNat == t_h.toNat

/-- `bzla_is_inv_eq_const` on a 1-bit `t`: for `t = 0`, `x` must not be fixed to `s`; for
`t = 1`, `s` must be a value of `x`. -/
def isInvEqConst (x : BvDomain w) (t : BitVec 1) (s : BitVec w) : Bool :=
  if t == 0 then x.hi != x.lo || x.hi != s
  else checkConstBits x s

/-- `bzla_is_inv_udiv_const`: returns `true`. -/
def isInvUdivConst : Bool := true

/-- `bzla_is_inv_ult_const` on a 1-bit `t`. -/
def isInvUltConst (x : BvDomain w) (t : BitVec 1) (s : BitVec w) (pos_x : Nat) : Bool :=
  if pos_x = 0 then
    if t == 1 then s != 0 && x.lo < s else decide (s ≤ x.hi)
  else
    if t == 1 then s != BitVec.allOnes w && s < x.hi else decide (x.lo ≤ s)

/-- `bzla_is_inv_slice_const`: IC `lo[upper:lower] = m & t` with `m = ~(lo ^ hi)[upper:lower]`. -/
def isInvSliceConst (x : BvDomain w) (upper lower : Nat) (t : BitVec (upper - lower + 1)) :
    Bool :=
  let mask := ~~~(x.lo ^^^ x.hi)
  BitVec.extractLsb upper lower x.lo == (BitVec.extractLsb upper lower mask &&& t)

/-! ### Two valid domains share a value exactly when their common fixed bits agree -/

namespace ValidDomain

variable (D : ValidDomain w)

theorem checkConstBits_iff_mem {b : BitVec w} :
    checkConstBits D.toBvDomain b = true ↔ b ∈ D.toBvDomain :=
  D.checkFixedBits_iff_mem

theorem free_bit {i : Nat} (free : D.lo.getLsbD i ≠ D.hi.getLsbD i) :
    D.lo.getLsbD i = false ∧ D.hi.getLsbD i = true := by
  have valid := D.lo_imp_hi i
  revert free valid
  cases D.lo.getLsbD i <;> cases D.hi.getLsbD i <;> simp

end ValidDomain

/-- `check_const_domain_bits` of two valid domains holds exactly when they share a value;
`d1.lo | d2.lo` is one. -/
theorem checkConstDomainBits_iff_exists (D1 D2 : ValidDomain w) :
    checkConstDomainBits D1.toBvDomain D2.toBvDomain = true ↔
      ∃ x, x ∈ D1.toBvDomain ∧ x ∈ D2.toBvDomain := by
  simp only [checkConstDomainBits, beq_iff_eq, eq_iff_getLsbD, BitVec.getLsbD_and,
    BitVec.getLsbD_not, BitVec.getLsbD_xor]
  constructor
  · intro agree
    refine ⟨D1.lo ||| D2.lo, BvDomain.mem_iff_getLsbD.mpr fun i => ?_,
      BvDomain.mem_iff_getLsbD.mpr fun i => ?_⟩ <;>
    · simp only [BitVec.getLsbD_or]
      by_cases inRange : i < w
      · have valid1 := D1.lo_imp_hi i
        have valid2 := D2.lo_imp_hi i
        have same := agree i
        revert valid1 valid2 same
        cases D1.lo.getLsbD i <;> cases D1.hi.getLsbD i <;> cases D2.lo.getLsbD i <;>
          cases D2.hi.getLsbD i <;> simp [inRange]
      · simp [BitVec.getLsbD_ge _ _ (Nat.le_of_not_lt inRange)]
  · rintro ⟨x, member1, member2⟩ i
    have bits1 := (BvDomain.mem_iff_getLsbD.mp member1) i
    have bits2 := (BvDomain.mem_iff_getLsbD.mp member2) i
    revert bits1 bits2
    cases D1.lo.getLsbD i <;> cases D1.hi.getLsbD i <;> cases D2.lo.getLsbD i <;>
      cases D2.hi.getLsbD i <;> cases x.getLsbD i <;> simp

end Bzla
