import BzlaInv.Domain

/-!
# The domain operations against `γ`

What each operation of `bzlabvdomain.c` does to the concretization `γ(D)`. The operations that
build a domain are exact: `bzla_bvdomain_not` maps `γ(D)` to the complements of its values and is
its own inverse, `bzla_bvdomain_slice` maps it to the slices of its values, and
`bzla_bvdomain_fix_bit` sets one bit in each of its values; `slice` and `fix_bit` keep a domain
valid. The queries read `γ`: `is_valid` says that `γ(D)` is not empty, `is_fixed` that it is a
singleton, `has_fixed_bits` that it is not every vector, `is_fixed_bit` and its two variants that
its values share one bit, and `is_equal` that two valid domains have the same values.

The candidates behind the exactness of `slice` and `fix_bit` are built from `lo`, as the witness
`(y & hi) | lo` of the constant-bits checks is.
-/

namespace Bzla

variable {w : Nat}

namespace BvDomain

/-! ### Any domain -/

@[simp] theorem mem_newFixed {b x : BitVec w} : x ∈ newFixed b ↔ x = b := by
  simp only [mem_iff_getLsbD, eq_iff_getLsbD, newFixed]
  exact forall_congr' fun i => by cases x.getLsbD i <;> cases b.getLsbD i <;> simp

@[simp] theorem mem_newFixedUint64 {val : Nat} {x : BitVec w} :
    x ∈ newFixedUint64 val w ↔ x = BitVec.ofNat w val :=
  mem_newFixed

theorem mem_not {d : BvDomain w} {x : BitVec w} : x ∈ d.not ↔ ~~~x ∈ d := by
  simp only [mem_iff_getLsbD, BvDomain.not, BitVec.getLsbD_not]
  refine forall_congr' fun i => ?_
  by_cases inRange : i < w
  · cases x.getLsbD i <;> cases d.lo.getLsbD i <;> cases d.hi.getLsbD i <;> simp [inRange]
  · have above := Nat.le_of_not_lt inRange
    simp [inRange, BitVec.getLsbD_ge _ _ above]

@[simp] theorem not_not (d : BvDomain w) : d.not.not = d := by
  simp [BvDomain.not, BitVec.not_not]

theorem getLsbD_of_mem {d : BvDomain w} {x : BitVec w} (member : x ∈ d) (i : Nat) :
    (d.lo.getLsbD i = true → x.getLsbD i = true) ∧ (x.getLsbD i = true → d.hi.getLsbD i = true) :=
  mem_iff_getLsbD.mp member i

theorem getLsbD_eq_lo_of_mem {d : BvDomain w} {pos : Nat} (fixed : d.isFixedBit pos = true)
    {x : BitVec w} (member : x ∈ d) : x.getLsbD pos = d.lo.getLsbD pos := by
  have bits := getLsbD_of_mem member pos
  simp only [isFixedBit, beq_iff_eq] at fixed
  rw [fixed] at bits ⊢
  exact Bool.eq_iff_iff.mpr ⟨bits.2, bits.1⟩

theorem isValid_iff_exists_mem (d : BvDomain w) : d.isValid = true ↔ ∃ x, x ∈ d :=
  ⟨fun valid => ⟨d.lo, ValidDomain.lo_mem ⟨d, valid⟩⟩, fun ⟨_, member⟩ =>
    isValid_iff.mpr fun i lo => (getLsbD_of_mem member i).2 ((getLsbD_of_mem member i).1 lo)⟩

theorem isFixed_iff (d : BvDomain w) : d.isFixed = true ↔ ∃ b, ∀ x, x ∈ d ↔ x = b := by
  constructor
  · intro fixed
    obtain ⟨lo, hi⟩ := d
    obtain rfl : lo = hi := beq_iff_eq.mp fixed
    exact ⟨lo, fun x => mem_newFixed⟩
  · rintro ⟨b, single⟩
    let D : ValidDomain w := ⟨d, (isValid_iff_exists_mem d).mpr ⟨b, (single b).mpr rfl⟩⟩
    have lo : d.lo = b := (single _).mp D.lo_mem
    have hi : d.hi = b := (single _).mp D.hi_mem
    simp [isFixed, lo, hi]

theorem hasFixedBits_iff_exists (d : BvDomain w) :
    d.hasFixedBits = true ↔ ∃ i, i < w ∧ d.isFixedBit i = true := by
  simp only [hasFixedBits, bne_iff_ne, ne_eq, eq_iff_getLsbD, BitVec.getLsbD_not,
    BitVec.getLsbD_xor, BitVec.getLsbD_zero, not_forall, isFixedBit]
  refine exists_congr fun i => ?_
  by_cases inRange : i < w
  · cases d.lo.getLsbD i <;> cases d.hi.getLsbD i <;> simp [inRange]
  · simp [inRange]

end BvDomain

namespace ValidDomain

variable (D : ValidDomain w)

/-! ### Valid domains -/

def slice (hi lo : Nat) : ValidDomain (hi - lo + 1) where
  toBvDomain := D.toBvDomain.slice hi lo
  valid := BvDomain.isValid_iff.mpr fun i bit => by
    simp only [BvDomain.slice, BitVec.getLsbD_extract, Bool.and_eq_true] at bit ⊢
    exact ⟨bit.1, D.lo_imp_hi _ bit.2⟩

def fixBit (pos : Nat) (value : Bool) : ValidDomain w where
  toBvDomain := D.toBvDomain.fixBit pos value
  valid := BvDomain.isValid_iff.mpr fun i bit => by
    simp only [BvDomain.fixBit, getLsbD_bvSetBit] at bit ⊢
    by_cases same : i = pos
    · rwa [if_pos same] at bit ⊢
    · rw [if_neg same] at bit ⊢
      exact D.lo_imp_hi i bit

/-- `bzla_bvdomain_slice` holds the slices of the values of `D`. The candidate for a slice `y`
is `lo` with `y` written over bits `lo .. hi`. -/
theorem mem_slice (hi lo : Nat) (y : BitVec (hi - lo + 1)) :
    y ∈ D.toBvDomain.slice hi lo ↔ ∃ x, x ∈ D.toBvDomain ∧ BitVec.extractLsb hi lo x = y := by
  simp only [BvDomain.mem_iff_getLsbD, BvDomain.slice, BitVec.getLsbD_extract, Bool.and_eq_true,
    decide_eq_true_eq]
  constructor
  · intro slice
    refine ⟨D.lo ||| (y.setWidth w <<< lo), fun j => ?_, ?_⟩
    · simp only [BitVec.getLsbD_or, BitVec.getLsbD_shiftLeft, BitVec.getLsbD_setWidth,
        Bool.or_eq_true, Bool.and_eq_true, decide_eq_true_eq, Bool.not_eq_true',
        decide_eq_false_iff_not]
      refine ⟨fun bit => .inl bit, ?_⟩
      rintro (bit | ⟨⟨-, above⟩, -, bit⟩)
      · exact D.lo_imp_hi j bit
      · have := ((slice (j - lo)).2 bit).2
        rwa [Nat.add_sub_cancel' (Nat.le_of_not_lt above)] at this
    · refine eq_iff_getLsbD.mpr fun i => ?_
      simp only [BitVec.getLsbD_extract, BitVec.getLsbD_or, BitVec.getLsbD_shiftLeft,
        BitVec.getLsbD_setWidth, Nat.add_sub_cancel_left]
      by_cases inside : i ≤ hi - lo
      · cases bit : y.getLsbD i
        · have clear : D.lo.getLsbD (lo + i) = false :=
            Bool.eq_false_iff.mpr fun low => by simp [(slice i).1 ⟨inside, low⟩] at bit
          simp [inside, clear]
        · have inRange := BitVec.lt_of_getLsbD ((slice i).2 bit).2
          simp [inside, inRange, show ¬ lo + i < lo by omega, show i < w by omega]
      · have above : hi - lo + 1 ≤ i := by omega
        simp [inside, BitVec.getLsbD_ge y i above]
  · rintro ⟨x, member, rfl⟩ i
    simp only [BitVec.getLsbD_extract, Bool.and_eq_true, decide_eq_true_eq]
    exact ⟨fun ⟨inside, bit⟩ => ⟨inside, (member (lo + i)).1 bit⟩,
      fun ⟨inside, bit⟩ => ⟨inside, (member (lo + i)).2 bit⟩⟩

/-- `bzla_bvdomain_fix_bit` holds the values of `D` with the bit at `pos` set to `value`. The
candidate for a value `x` is `x` with the bit of `lo` at `pos`. -/
theorem mem_fixBit (pos : Nat) (value : Bool) (x : BitVec w) :
    x ∈ D.toBvDomain.fixBit pos value ↔ ∃ y, y ∈ D.toBvDomain ∧ bvSetBit y pos value = x := by
  simp only [BvDomain.mem_iff_getLsbD, BvDomain.fixBit, getLsbD_bvSetBit]
  constructor
  · intro fixed
    refine ⟨bvSetBit x pos (D.lo.getLsbD pos), fun j => ?_, eq_iff_getLsbD.mpr fun j => ?_⟩
    · by_cases same : j = pos
      · subst same
        simp only [getLsbD_bvSetBit, if_true, Bool.and_eq_true, decide_eq_true_eq]
        exact ⟨fun bit => ⟨BitVec.lt_of_getLsbD bit, bit⟩, fun bit => D.lo_imp_hi j bit.2⟩
      · simpa only [getLsbD_bvSetBit, if_neg same] using fixed j
    · by_cases same : j = pos
      · subst same
        have bits := fixed j
        rw [if_pos rfl, if_pos rfl] at bits
        rw [getLsbD_bvSetBit, if_pos rfl]
        exact Bool.eq_iff_iff.mpr ⟨bits.1, bits.2⟩
      · simp only [getLsbD_bvSetBit, if_neg same]
  · rintro ⟨y, member, rfl⟩ j
    simp only [getLsbD_bvSetBit]
    split
    · exact ⟨id, id⟩
    · exact member j

/-- `bzla_bvdomain_has_fixed_bits`: on a valid domain, `γ(D)` is not every vector. The vector
outside is `lo` with a fixed bit flipped. -/
theorem hasFixedBits_iff : D.hasFixedBits = true ↔ ∃ x, x ∉ D.toBvDomain := by
  rw [BvDomain.hasFixedBits_iff_exists]
  constructor
  · rintro ⟨i, inRange, fixed⟩
    refine ⟨bvSetBit D.lo i (!D.lo.getLsbD i), fun member => ?_⟩
    have bits := BvDomain.getLsbD_of_mem member i
    simp only [getLsbD_bvSetBit, if_true, inRange, decide_True, Bool.true_and] at bits
    simp only [BvDomain.isFixedBit, beq_iff_eq] at fixed
    cases low : D.lo.getLsbD i <;> simp_all
  · rintro ⟨x, outside⟩
    rw [BvDomain.mem_iff_getLsbD] at outside
    push_neg at outside
    obtain ⟨i, bit⟩ := outside
    cases low : D.lo.getLsbD i
    · obtain ⟨set, clear⟩ := bit (by simp [low])
      exact ⟨i, BitVec.lt_of_getLsbD set, by simp_all [BvDomain.isFixedBit]⟩
    · exact ⟨i, BitVec.lt_of_getLsbD low, by simp [BvDomain.isFixedBit, low, D.lo_imp_hi i low]⟩

theorem isFixedBit_iff (pos : Nat) : D.isFixedBit pos = true ↔
    ∀ x ∈ D.toBvDomain, ∀ y ∈ D.toBvDomain, x.getLsbD pos = y.getLsbD pos := by
  refine ⟨fun fixed x xMem y yMem => ?_, fun shared => ?_⟩
  · rw [BvDomain.getLsbD_eq_lo_of_mem fixed xMem, BvDomain.getLsbD_eq_lo_of_mem fixed yMem]
  · simpa [BvDomain.isFixedBit] using shared _ D.lo_mem _ D.hi_mem

theorem isFixedBitTrue_iff (pos : Nat) :
    D.isFixedBitTrue pos = true ↔ ∀ x ∈ D.toBvDomain, x.getLsbD pos = true := by
  rw [BvDomain.isFixedBitTrue_eq, Bool.and_eq_true]
  refine ⟨fun ⟨low, fixed⟩ x member => BvDomain.getLsbD_eq_lo_of_mem fixed member ▸ low,
    fun set => ⟨set _ D.lo_mem, ?_⟩⟩
  simp [BvDomain.isFixedBit, set _ D.lo_mem, set _ D.hi_mem]

theorem isFixedBitFalse_iff (pos : Nat) :
    D.isFixedBitFalse pos = true ↔ ∀ x ∈ D.toBvDomain, x.getLsbD pos = false := by
  rw [BvDomain.isFixedBitFalse_eq, Bool.and_eq_true, Bool.not_eq_true']
  refine ⟨fun ⟨low, fixed⟩ x member => BvDomain.getLsbD_eq_lo_of_mem fixed member ▸ low,
    fun clear => ⟨clear _ D.lo_mem, ?_⟩⟩
  simp [BvDomain.isFixedBit, clear _ D.lo_mem, clear _ D.hi_mem]

theorem isEqual_iff (A B : ValidDomain w) :
    A.isEqual B.toBvDomain = true ↔ ∀ x, x ∈ A.toBvDomain ↔ x ∈ B.toBvDomain := by
  simp only [BvDomain.isEqual, Bool.and_eq_true, beq_iff_eq, eq_iff_getLsbD]
  constructor
  · rintro ⟨high, low⟩ x
    have same : A.toBvDomain = B.toBvDomain := by
      obtain ⟨⟨_, _⟩, _⟩ := A
      obtain ⟨⟨_, _⟩, _⟩ := B
      simp only [BvDomain.mk.injEq, ← eq_iff_getLsbD] at high low ⊢
      exact ⟨low, high⟩
    rw [same]
  · intro same
    have inB := fun x => (same x).mp
    have inA := fun x => (same x).mpr
    exact ⟨fun i => Bool.eq_iff_iff.mpr ⟨(BvDomain.getLsbD_of_mem (inB _ A.hi_mem) i).2,
        (BvDomain.getLsbD_of_mem (inA _ B.hi_mem) i).2⟩,
      fun i => Bool.eq_iff_iff.mpr ⟨(BvDomain.getLsbD_of_mem (inA _ B.lo_mem) i).1,
        (BvDomain.getLsbD_of_mem (inB _ A.lo_mem) i).1⟩⟩

end ValidDomain

/-! ### The domain against `γ` -/

/-- The operations of `bzlabvdomain.c` that build a domain are exact for `γ`: `not` holds the
complements of the values and undoes itself, `slice` holds their slices and `fix_bit` the values
with one bit set, and the three keep a domain valid. -/
theorem bvdomainOps_exact (d : BvDomain w) (D : ValidDomain w) (hi lo pos : Nat) (value : Bool) :
    (∀ x, x ∈ d.not ↔ ~~~x ∈ d) ∧ d.not.not = d ∧
      (∀ y, y ∈ D.toBvDomain.slice hi lo ↔
        ∃ x, x ∈ D.toBvDomain ∧ BitVec.extractLsb hi lo x = y) ∧
      (∀ x, x ∈ D.toBvDomain.fixBit pos value ↔
        ∃ y, y ∈ D.toBvDomain ∧ bvSetBit y pos value = x) ∧
      D.toBvDomain.not.isValid = true ∧ (D.toBvDomain.slice hi lo).isValid = true ∧
      (D.toBvDomain.fixBit pos value).isValid = true :=
  ⟨fun _ => BvDomain.mem_not, BvDomain.not_not d, D.mem_slice hi lo, D.mem_fixBit pos value,
    D.not.valid, (D.slice hi lo).valid, (D.fixBit pos value).valid⟩

/-- The queries of `bzlabvdomain.c` read `γ`: on any domain, `is_valid` says that `γ(d)` is not
empty and `is_fixed` that it is a singleton; on valid domains, `has_fixed_bits` says that `γ(A)`
is not every vector, `is_fixed_bit` that its values share the bit at `pos`, `is_fixed_bit_true`
and `is_fixed_bit_false` that they all have it set or clear, and `is_equal` that `A` and `B` hold
the same values. -/
theorem bvdomainQueries_exact (d : BvDomain w) (A B : ValidDomain w) (pos : Nat) :
    (d.isValid = true ↔ ∃ x, x ∈ d) ∧ (d.isFixed = true ↔ ∃ b, ∀ x, x ∈ d ↔ x = b) ∧
      (A.hasFixedBits = true ↔ ∃ x, x ∉ A.toBvDomain) ∧
      (A.isFixedBit pos = true ↔
        ∀ x ∈ A.toBvDomain, ∀ y ∈ A.toBvDomain, x.getLsbD pos = y.getLsbD pos) ∧
      (A.isFixedBitTrue pos = true ↔ ∀ x ∈ A.toBvDomain, x.getLsbD pos = true) ∧
      (A.isFixedBitFalse pos = true ↔ ∀ x ∈ A.toBvDomain, x.getLsbD pos = false) ∧
      (A.isEqual B.toBvDomain = true ↔ ∀ x, x ∈ A.toBvDomain ↔ x ∈ B.toBvDomain) :=
  ⟨BvDomain.isValid_iff_exists_mem d, BvDomain.isFixed_iff d, A.hasFixedBits_iff,
    A.isFixedBit_iff pos, A.isFixedBitTrue_iff pos, A.isFixedBitFalse_iff pos,
    ValidDomain.isEqual_iff A B⟩

/-- With their assertions, `slice` returns exactly when `hi >= lo` and `fix_bit` and the three bit
queries exactly when `pos` is below the width; what they return is what the bodies compute on
`γ`: a valid domain of the slices or of the values with the bit set, and the answers to the
queries. -/
theorem bvdomainAsserted_exact (D : ValidDomain w) (hi lo pos : Nat) (value : Bool) :
    ((D.toBvDomain.sliceAsserted hi lo).isSome ↔ lo ≤ hi) ∧
      (∀ S ∈ D.toBvDomain.sliceAsserted hi lo, S.isValid = true ∧
        ∀ y, y ∈ S ↔ ∃ x, x ∈ D.toBvDomain ∧ BitVec.extractLsb hi lo x = y) ∧
      ((D.toBvDomain.fixBitAsserted pos value).isSome ↔ pos < w) ∧
      (∀ F ∈ D.toBvDomain.fixBitAsserted pos value, F.isValid = true ∧
        ∀ x, x ∈ F ↔ ∃ y, y ∈ D.toBvDomain ∧ bvSetBit y pos value = x) ∧
      ((D.toBvDomain.isFixedBitAsserted pos).isSome ↔ pos < w) ∧
      (∀ b ∈ D.toBvDomain.isFixedBitAsserted pos,
        b = true ↔ ∀ x ∈ D.toBvDomain, ∀ y ∈ D.toBvDomain, x.getLsbD pos = y.getLsbD pos) ∧
      ((D.toBvDomain.isFixedBitTrueAsserted pos).isSome ↔ pos < w) ∧
      (∀ b ∈ D.toBvDomain.isFixedBitTrueAsserted pos,
        b = true ↔ ∀ x ∈ D.toBvDomain, x.getLsbD pos = true) ∧
      ((D.toBvDomain.isFixedBitFalseAsserted pos).isSome ↔ pos < w) ∧
      ∀ b ∈ D.toBvDomain.isFixedBitFalseAsserted pos,
        b = true ↔ ∀ x ∈ D.toBvDomain, x.getLsbD pos = false := by
  simp only [BvDomain.sliceAsserted, BvDomain.fixBitAsserted, BvDomain.isFixedBitAsserted,
    BvDomain.isFixedBitTrueAsserted, BvDomain.isFixedBitFalseAsserted, BvDomain.isSome_asserting,
    decide_eq_true_eq, BvDomain.mem_asserting, and_imp, true_and]
  refine ⟨?_, ?_, ?_, ?_, ?_⟩ <;> rintro _ - rfl
  exacts [⟨(D.slice hi lo).valid, D.mem_slice hi lo⟩,
    ⟨(D.fixBit pos value).valid, D.mem_fixBit pos value⟩, D.isFixedBit_iff pos,
    D.isFixedBitTrue_iff pos, D.isFixedBitFalse_iff pos]

end Bzla
