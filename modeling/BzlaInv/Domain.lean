import BzlaInv.Bv

/-!
# Three-valued bit-vector domains

The `BzlaBvDomain` of `bzlabvdomain.c`: a pair `(lo, hi)` of vectors of one width. A bit is
fixed where `lo` and `hi` agree, and the domain is valid when no bit has `lo = 1` and
`hi = 0`. The concretization `γ(D)` of the spec is `BvDomain.Mem`. Invalid domains are values
of `BvDomain` as they are of the C type; `ValidDomain` carries validity as a field, so that the
oracle theorems quantify over valid domains without a hypothesis.

Each function `bzla_bvdomain_f` is `BvDomain.f` in camel case. Where the C function asserts on
its arguments, `f` is the body after the assertion and `fAsserted` the whole call, which fails
when the assertion does.

The mask test `bzla_bvdomain_check_fixed_bits` and the bit loop `bzla_bvdomain_is_consistent`
agree on valid domains; at a bit with `lo = 1` and `hi = 0` the mask test also asks for a one.
-/

namespace Bzla

/-- `BzlaBvDomain`: the lower and upper bound of a three-valued bit-vector. -/
structure BvDomain (w : Nat) where
  lo : BitVec w
  hi : BitVec w
deriving DecidableEq, Repr

namespace BvDomain

variable {w : Nat}

/-! ### Constructors, operations and queries -/

/-- `bzla_bvdomain_new_init`: every bit unknown. -/
def newInit (w : Nat) : BvDomain w :=
  ⟨0, BitVec.allOnes w⟩

def newFixed (bv : BitVec w) : BvDomain w :=
  ⟨bv, bv⟩

def newFixedUint64 (val w : Nat) : BvDomain w :=
  ⟨BitVec.ofNat w val, BitVec.ofNat w val⟩

def isEqual (a b : BvDomain w) : Bool :=
  a.hi == b.hi && a.lo == b.lo

def slice (d : BvDomain w) (hi lo : Nat) : BvDomain (hi - lo + 1) :=
  ⟨BitVec.extractLsb hi lo d.lo, BitVec.extractLsb hi lo d.hi⟩

/-- `bzla_bvdomain_not`: the bounds are complemented and swapped. -/
def not (d : BvDomain w) : BvDomain w :=
  ⟨~~~d.hi, ~~~d.lo⟩

/-- `bzla_bvdomain_is_valid`: `~lo | hi` is all ones. -/
def isValid (d : BvDomain w) : Bool :=
  (~~~d.lo ||| d.hi) == BitVec.allOnes w

def isFixed (d : BvDomain w) : Bool :=
  d.lo == d.hi

/-- `bzla_bvdomain_has_fixed_bits`: the reduction-or of `xnor lo hi`. -/
def hasFixedBits (d : BvDomain w) : Bool :=
  ~~~(d.lo ^^^ d.hi) != 0

def fixBit (d : BvDomain w) (pos : Nat) (value : Bool) : BvDomain w :=
  ⟨bvSetBit d.lo pos value, bvSetBit d.hi pos value⟩

def isFixedBit (d : BvDomain w) (pos : Nat) : Bool :=
  d.lo.getLsbD pos == d.hi.getLsbD pos

def isFixedBitTrue (d : BvDomain w) (pos : Nat) : Bool :=
  d.lo.getLsbD pos && d.lo.getLsbD pos == d.hi.getLsbD pos

def isFixedBitFalse (d : BvDomain w) (pos : Nat) : Bool :=
  !d.lo.getLsbD pos && d.lo.getLsbD pos == d.hi.getLsbD pos

theorem isFixedBitTrue_eq (d : BvDomain w) (pos : Nat) :
    d.isFixedBitTrue pos = (d.lo.getLsbD pos && d.isFixedBit pos) := rfl

theorem isFixedBitFalse_eq (d : BvDomain w) (pos : Nat) :
    d.isFixedBitFalse pos = (!d.lo.getLsbD pos && d.isFixedBit pos) := rfl

@[simp] theorem isFixedBit_not (d : BvDomain w) (pos : Nat) :
    d.not.isFixedBit pos = d.isFixedBit pos := by
  by_cases inRange : pos < w
  · cases lo : d.lo.getLsbD pos <;> cases hi : d.hi.getLsbD pos <;>
      simp [isFixedBit, not, inRange, lo, hi]
  · simp [isFixedBit, not, BitVec.getLsbD_ge _ _ (Nat.le_of_not_lt inRange)]

theorem isFixedBitTrue_not (d : BvDomain w) {pos : Nat} (inRange : pos < w) :
    d.not.isFixedBitTrue pos = d.isFixedBitFalse pos := by
  cases lo : d.lo.getLsbD pos <;> cases hi : d.hi.getLsbD pos <;>
    simp [isFixedBitTrue, isFixedBitFalse, not, inRange, lo, hi]

theorem isFixedBitFalse_not (d : BvDomain w) {pos : Nat} (inRange : pos < w) :
    d.not.isFixedBitFalse pos = d.isFixedBitTrue pos := by
  cases lo : d.lo.getLsbD pos <;> cases hi : d.hi.getLsbD pos <;>
    simp [isFixedBitTrue, isFixedBitFalse, not, inRange, lo, hi]

/-- `bzla_bvdomain_check_fixed_bits`, and `check_const_bits` of `bzlainvutils.c`:
`(bv & hi) | lo = bv`. -/
def checkFixedBits (d : BvDomain w) (bv : BitVec w) : Bool :=
  ((bv &&& d.hi) ||| d.lo) == bv

/-- A call that checks `assert (contract)` and then runs `body`; a failed assertion is `none`. The
operations above are the bodies of calls whose C function asserts on its arguments. -/
def asserting {α : Type} (contract : Prop) [Decidable contract] (body : α) : Option α :=
  if contract then some body else none

@[simp] theorem isSome_asserting {α : Type} (contract : Prop) [Decidable contract] (body : α) :
    (asserting contract body).isSome = decide contract := by
  by_cases holds : contract <;> simp [asserting, holds]

@[simp] theorem mem_asserting {α : Type} {contract : Prop} [Decidable contract] {body r : α} :
    r ∈ asserting contract body ↔ contract ∧ body = r := by
  by_cases holds : contract <;> simp [asserting, holds]

/-- `bzla_bvdomain_slice` with its `assert (hi >= lo)`. -/
def sliceAsserted (d : BvDomain w) (hi lo : Nat) : Option (BvDomain (hi - lo + 1)) :=
  asserting (lo ≤ hi) (d.slice hi lo)

/-- `bzla_bvdomain_fix_bit` with its `assert (pos < bzla_bvdomain_get_width (d))`. -/
def fixBitAsserted (d : BvDomain w) (pos : Nat) (value : Bool) : Option (BvDomain w) :=
  asserting (pos < w) (d.fixBit pos value)

/-- `bzla_bvdomain_is_fixed_bit` with its `assert (pos < bzla_bvdomain_get_width (d))`. -/
def isFixedBitAsserted (d : BvDomain w) (pos : Nat) : Option Bool :=
  asserting (pos < w) (d.isFixedBit pos)

/-- `bzla_bvdomain_is_fixed_bit_true` with its `assert (pos < bzla_bvdomain_get_width (d))`. -/
def isFixedBitTrueAsserted (d : BvDomain w) (pos : Nat) : Option Bool :=
  asserting (pos < w) (d.isFixedBitTrue pos)

/-- `bzla_bvdomain_is_fixed_bit_false` with its `assert (pos < bzla_bvdomain_get_width (d))`. -/
def isFixedBitFalseAsserted (d : BvDomain w) (pos : Nat) : Option Bool :=
  asserting (pos < w) (d.isFixedBitFalse pos)

/-! ### Concretization -/

/-- The concretization `γ(D) = {b | lo & b = lo ∧ b | hi = hi}` of the spec. -/
def Mem (d : BvDomain w) (b : BitVec w) : Prop :=
  d.lo &&& b = d.lo ∧ b ||| d.hi = d.hi

instance : Membership (BitVec w) (BvDomain w) :=
  ⟨Mem⟩

instance (b : BitVec w) (d : BvDomain w) : Decidable (b ∈ d) :=
  inferInstanceAs (Decidable (d.lo &&& b = d.lo ∧ b ||| d.hi = d.hi))

theorem mem_iff_getLsbD {d : BvDomain w} {b : BitVec w} :
    b ∈ d ↔ ∀ i, (d.lo.getLsbD i = true → b.getLsbD i = true) ∧
      (b.getLsbD i = true → d.hi.getLsbD i = true) := by
  show Mem d b ↔ _
  simp only [Mem, eq_iff_getLsbD, BitVec.getLsbD_and, BitVec.getLsbD_or, ← forall_and]
  refine forall_congr' fun i => ?_
  cases d.lo.getLsbD i <;> cases b.getLsbD i <;> cases d.hi.getLsbD i <;> simp

@[simp] theorem mem_newInit (b : BitVec w) : b ∈ newInit w :=
  mem_iff_getLsbD.mpr fun i => by
    simpa [newInit] using BitVec.lt_of_getLsbD

theorem lo_le_of_mem {d : BvDomain w} {b : BitVec w} (member : b ∈ d) : d.lo ≤ b :=
  le_of_getLsbD_imp fun i => ((mem_iff_getLsbD.mp member) i).1

theorem le_hi_of_mem {d : BvDomain w} {b : BitVec w} (member : b ∈ d) : b ≤ d.hi :=
  le_of_getLsbD_imp fun i => ((mem_iff_getLsbD.mp member) i).2

theorem isValid_iff {d : BvDomain w} :
    d.isValid = true ↔ ∀ i, d.lo.getLsbD i = true → d.hi.getLsbD i = true := by
  simp only [isValid, beq_iff_eq, eq_iff_getLsbD, BitVec.getLsbD_or, BitVec.getLsbD_not,
    BitVec.getLsbD_allOnes]
  refine forall_congr' fun i => ?_
  by_cases inRange : i < w
  · cases d.lo.getLsbD i <;> cases d.hi.getLsbD i <;> simp [inRange]
  · simp [inRange, BitVec.getLsbD_ge _ _ (Nat.le_of_not_lt inRange)]

/-! ### The mask test and the bit loop -/

end BvDomain

/-- A domain with no bit where `lo` is set and `hi` is clear. -/
structure ValidDomain (w : Nat) extends BvDomain w where
  valid : toBvDomain.isValid = true

namespace ValidDomain

variable {w : Nat} (D : ValidDomain w)

theorem lo_imp_hi (i : Nat) : D.lo.getLsbD i = true → D.hi.getLsbD i = true :=
  BvDomain.isValid_iff.mp D.valid i

theorem lo_mem : D.lo ∈ D.toBvDomain :=
  BvDomain.mem_iff_getLsbD.mpr fun i => ⟨id, D.lo_imp_hi i⟩

theorem hi_mem : D.hi ∈ D.toBvDomain :=
  BvDomain.mem_iff_getLsbD.mpr fun i => ⟨D.lo_imp_hi i, id⟩

def not : ValidDomain w where
  toBvDomain := D.toBvDomain.not
  valid := BvDomain.isValid_iff.mpr fun i lo => by
    simp only [BvDomain.not, BitVec.getLsbD_not, Bool.and_eq_true, decide_eq_true_eq,
      Bool.not_eq_true'] at lo ⊢
    refine ⟨lo.1, ?_⟩
    cases bit : D.lo.getLsbD i
    · rfl
    · simp [D.lo_imp_hi i bit] at lo

/-- On a valid domain the mask test of `check_const_bits` is membership in `γ(D)`. -/
theorem checkFixedBits_iff_mem {b : BitVec w} :
    D.checkFixedBits b = true ↔ b ∈ D.toBvDomain := by
  rw [BvDomain.mem_iff_getLsbD]
  simp only [BvDomain.checkFixedBits, beq_iff_eq, eq_iff_getLsbD, BitVec.getLsbD_or,
    BitVec.getLsbD_and]
  refine forall_congr' fun i => ?_
  have valid := D.lo_imp_hi i
  revert valid
  cases D.lo.getLsbD i <;> cases b.getLsbD i <;> cases D.hi.getLsbD i <;> simp

/-! ### The full domain, and the least and greatest values -/

def newInit (w : Nat) : ValidDomain w :=
  ⟨BvDomain.newInit w, by simp [BvDomain.newInit, BvDomain.isValid]⟩

@[simp] theorem toBvDomain_newInit : (newInit w).toBvDomain = BvDomain.newInit w := rfl

theorem eq_lo_of_mem (fixed : D.lo = D.hi) {b : BitVec w} (member : b ∈ D.toBvDomain) :
    b = D.lo :=
  BitVec.le_antisymm (fixed ▸ BvDomain.le_hi_of_mem member) (BvDomain.lo_le_of_mem member)

theorem exists_mem_lt_iff (s : BitVec w) : (∃ x, x ∈ D.toBvDomain ∧ x < s) ↔ D.lo < s :=
  ⟨fun ⟨_, member, lt⟩ => by have := BvDomain.lo_le_of_mem member; bv_omega,
    fun lt => ⟨_, D.lo_mem, lt⟩⟩

theorem exists_mem_le_iff (s : BitVec w) : (∃ x, x ∈ D.toBvDomain ∧ x ≤ s) ↔ D.lo ≤ s :=
  ⟨fun ⟨_, member, le⟩ => BitVec.le_trans (BvDomain.lo_le_of_mem member) le,
    fun le => ⟨_, D.lo_mem, le⟩⟩

theorem exists_mem_gt_iff (s : BitVec w) : (∃ x, x ∈ D.toBvDomain ∧ s < x) ↔ s < D.hi :=
  ⟨fun ⟨_, member, lt⟩ => by have := BvDomain.le_hi_of_mem member; bv_omega,
    fun lt => ⟨_, D.hi_mem, lt⟩⟩

theorem exists_mem_ge_iff (s : BitVec w) : (∃ x, x ∈ D.toBvDomain ∧ s ≤ x) ↔ s ≤ D.hi :=
  ⟨fun ⟨_, member, le⟩ => BitVec.le_trans le (BvDomain.le_hi_of_mem member),
    fun le => ⟨_, D.hi_mem, le⟩⟩

theorem and_hi_or_lo_mem (y : BitVec w) :
    (y &&& D.hi) ||| D.lo ∈ D.toBvDomain := by
  rw [BvDomain.mem_iff_getLsbD]
  intro i
  simp only [BitVec.getLsbD_or, BitVec.getLsbD_and]
  refine ⟨fun bit => by simp [bit], fun bit => ?_⟩
  cases lowBit : D.lo.getLsbD i
  · simp_all
  · exact D.lo_imp_hi i lowBit

end ValidDomain

end Bzla
