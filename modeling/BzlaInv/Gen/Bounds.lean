import BzlaInv.Gen.Free

/-!
# The counter bounds of the domain generator

`bzla_bvdomain_gen_init_range` scans `min` and `max` from the most significant bit down and
derives `bits_min`, the least counter whose composed value is at least `min`, and `bits_max`,
the greatest counter whose composed value is at most `max`. A fixed bit that disagrees with the
bound ends the scan; when it leaves the composed value below `min` (above `max`), the last copied
free bit that can still be raised (lowered), `j0`, is bumped and the free bits below it are
reset.

The main results are the Galois characterizations `min ≤ compose b ↔ bits_min ≤ b` and
`compose b ≤ max ↔ b ≤ bits_max`, for every valid domain and every bound inside `[lo, hi]`.
The `bits_max` scan is the `bits_min` scan of the complemented domain and bound, which is how
its characterization is obtained.
-/

namespace Bzla

variable {w : Nat}

/-! ### The model -/

/-- The loop `for (k = j0 + 1; k < cnt; k++) bzla_bv_set_bit (bits, cnt - 1 - k, value)` that
ends a bump in the scans, with `n` indices left. -/
def setLowBits {c : Nat} (value : Bool) : Nat → Nat → BitVec c → BitVec c
  | 0, _, bits => bits
  | n + 1, k, bits => setLowBits value n (k + 1) (bvSetBit bits (c - 1 - k) value)

/-- The scan of `bzla_bvdomain_gen_init_range` that sets `bits_min`, with `n` steps left: step
`i` reads position `bw - 1 - i` of `min`, `j` counts the free positions copied so far and `j0`
is the last of them where `min` had a zero. -/
def bitsMinLoop (d : BvDomain w) (min : BitVec w) {c : Nat} :
    Nat → Nat → Nat → Nat → BitVec c → BitVec c
  | 0, _, _, _, bits => bits
  | n + 1, i, j, j0, bits =>
      let idx_i := w - 1 - i
      let bit := min.getLsbD idx_i
      if !d.isFixedBit idx_i then
        bitsMinLoop d min n (i + 1) (j + 1) (if !bit then j else j0)
          (bvSetBit bits (c - 1 - j) bit)
      else if d.isFixedBitTrue idx_i && !bit then bits
      else if d.isFixedBitFalse idx_i && bit then
        setLowBits false (c - (j0 + 1)) (j0 + 1) (bvSetBit bits (c - 1 - j0) true)
      else bitsMinLoop d min n (i + 1) j j0 bits

/-- The scan of `bzla_bvdomain_gen_init_range` that sets `bits_max`; `j0` is the last copied
free position where `max` had a one. -/
def bitsMaxLoop (d : BvDomain w) (max : BitVec w) {c : Nat} :
    Nat → Nat → Nat → Nat → BitVec c → BitVec c
  | 0, _, _, _, bits => bits
  | n + 1, i, j, j0, bits =>
      let idx_i := w - 1 - i
      let bit := max.getLsbD idx_i
      if !d.isFixedBit idx_i then
        bitsMaxLoop d max n (i + 1) (j + 1) (if bit then j else j0)
          (bvSetBit bits (c - 1 - j) bit)
      else if d.isFixedBitTrue idx_i && !bit then
        setLowBits true (c - (j0 + 1)) (j0 + 1) (bvSetBit bits (c - 1 - j0) false)
      else if d.isFixedBitFalse idx_i && bit then bits
      else bitsMaxLoop d max n (i + 1) j j0 bits

/-- `bits_min` as `bzla_bvdomain_gen_init_range` computes it, from a zero counter. -/
def bitsMin (d : BvDomain w) (min : BitVec w) (c : Nat) : BitVec c :=
  bitsMinLoop d min w 0 0 0 0

/-- `bits_max` as `bzla_bvdomain_gen_init_range` computes it, from an all-ones counter. -/
def bitsMax (d : BvDomain w) (max : BitVec w) (c : Nat) : BitVec c :=
  bitsMaxLoop d max w 0 0 0 (BitVec.allOnes c)

/-- The assertions of the `bits_min` scan, read along its steps: `j < cnt` before a free
position is copied, and before the bump `j > 0` and a clear counter bit at `cnt - j0 - 1`. -/
def bitsMinLoopAsserts (d : BvDomain w) (min : BitVec w) {c : Nat} :
    Nat → Nat → Nat → Nat → BitVec c → Bool
  | 0, _, _, _, _ => true
  | n + 1, i, j, j0, bits =>
      let idx_i := w - 1 - i
      let bit := min.getLsbD idx_i
      if !d.isFixedBit idx_i then
        decide (j < c) && bitsMinLoopAsserts d min n (i + 1) (j + 1) (if !bit then j else j0)
          (bvSetBit bits (c - 1 - j) bit)
      else if d.isFixedBitTrue idx_i && !bit then true
      else if d.isFixedBitFalse idx_i && bit then decide (0 < j) && !bits.getLsbD (c - j0 - 1)
      else bitsMinLoopAsserts d min n (i + 1) j j0 bits

/-- The assertions of the `bits_max` scan: `j < cnt` before a free position is copied, and
before the bump `j > 0` and a set counter bit at `cnt - j0 - 1`. -/
def bitsMaxLoopAsserts (d : BvDomain w) (max : BitVec w) {c : Nat} :
    Nat → Nat → Nat → Nat → BitVec c → Bool
  | 0, _, _, _, _ => true
  | n + 1, i, j, j0, bits =>
      let idx_i := w - 1 - i
      let bit := max.getLsbD idx_i
      if !d.isFixedBit idx_i then
        decide (j < c) && bitsMaxLoopAsserts d max n (i + 1) (j + 1) (if bit then j else j0)
          (bvSetBit bits (c - 1 - j) bit)
      else if d.isFixedBitTrue idx_i && !bit then decide (0 < j) && bits.getLsbD (c - j0 - 1)
      else if d.isFixedBitFalse idx_i && bit then true
      else bitsMaxLoopAsserts d max n (i + 1) j j0 bits

/-- The assertions of the scan that computes `bits_min`. -/
def bitsMinAsserts (d : BvDomain w) (min : BitVec w) (c : Nat) : Bool :=
  bitsMinLoopAsserts d min w 0 0 0 (0 : BitVec c)

/-- The assertions of the scan that computes `bits_max`. -/
def bitsMaxAsserts (d : BvDomain w) (max : BitVec w) (c : Nat) : Bool :=
  bitsMaxLoopAsserts d max w 0 0 0 (BitVec.allOnes c)

/-! ### The `bits_min` scan -/

theorem getLsbD_setLowBits {c : Nat} (value : Bool) :
    ∀ (n k : Nat) (bits : BitVec c) (p : Nat), k + n = c →
      (setLowBits value n k bits).getLsbD p = if p < n then value else bits.getLsbD p := by
  intro n
  induction n with
  | zero => intro k bits p _; simp [setLowBits]
  | succ n ih =>
      intro k bits p total
      rw [setLowBits, ih (k + 1) _ p (by omega), getLsbD_bvSetBit]
      by_cases low : p < n
      · simp [low, show p < n + 1 by omega]
      · by_cases top : p = c - 1 - k
        · simp [low, top, show c - 1 - k < n + 1 by omega, show c - 1 - k < c by omega]
        · simp [low, top, show ¬ p < n + 1 by omega]

theorem getLsbD_bumpMin {c j0 r : Nat} (bits : BitVec c) (room : j0 < c) (rank : c - 1 - j0 = r)
    (inRange : r < c) (p : Nat) :
    (setLowBits false (c - (j0 + 1)) (j0 + 1) (bvSetBit bits (c - 1 - j0) true)).getLsbD p =
      if p < r then false else if p = r then true else bits.getLsbD p := by
  rw [getLsbD_setLowBits false _ _ _ p (by omega), show c - (j0 + 1) = r by omega,
    getLsbD_bvSetBit, rank]
  simp [inRange]

/-- What the `bits_min` scan knows once every position from `m` up is processed: the free ones
are copied from `min`, the counter below them is still zero, the fixed ones agree with `min`, and
`j0` names the lowest processed free position where `min` has a zero, if there is one. -/
structure MinScan (d : BvDomain w) (min : BitVec w) {c : Nat} (m j j0 : Nat) (bits : BitVec c) :
    Prop where
  count : j + d.freeBelow m = c
  copied : ∀ k, m ≤ k → d.isFixedBit k = false → bits.getLsbD (d.freeBelow k) = min.getLsbD k
  zero : ∀ p, p < d.freeBelow m → bits.getLsbD p = false
  agree : ∀ k, m ≤ k → d.isFixedBit k = true → d.lo.getLsbD k = min.getLsbD k
  last : (∀ k, m ≤ k → d.isFixedBit k = false → min.getLsbD k = true) ∨
    ∃ q, m ≤ q ∧ d.isFixedBit q = false ∧ min.getLsbD q = false ∧ j0 + d.freeBelow q + 1 = c ∧
      ∀ k, m ≤ k → k < q → d.isFixedBit k = false → min.getLsbD k = true

namespace MinScan

variable {d : BvDomain w} {min : BitVec w} {c : Nat} {m j j0 : Nat} {bits : BitVec c}

theorem init (size : c = d.freeCount) : MinScan d min w 0 0 (0 : BitVec c) where
  count := by simp [size, BvDomain.freeCount]
  copied k le free := absurd (d.lt_of_isFixedBit_eq_false free) (by omega)
  zero p _ := by simp
  agree k le _ := by simp [BitVec.getLsbD_ge _ k le]
  last := .inl fun k le free => absurd (d.lt_of_isFixedBit_eq_false free) (by omega)

theorem free_step (inv : MinScan d min (m + 1) j j0 bits) (size : c = d.freeCount)
    (free : d.isFixedBit m = false) :
    MinScan d min m (j + 1) (if !min.getLsbD m then j else j0)
      (bvSetBit bits (c - 1 - j) (min.getLsbD m)) := by
  have rank : d.freeBelow (m + 1) = d.freeBelow m + 1 := by simp [BvDomain.freeBelow_succ, free]
  have count := inv.count
  have inRange : d.freeBelow m < c := size ▸ d.freeBelow_lt_freeCount free
  rw [show c - 1 - j = d.freeBelow m by omega]
  refine ⟨by omega, fun k le free' => ?_, fun p lt => ?_, fun k le fixed => ?_, ?_⟩
  · rw [getLsbD_bvSetBit]
    by_cases same : k = m
    · subst same
      simp [inRange]
    · have above := d.freeBelow_lt_of_free free (show m < k by omega)
      rw [if_neg (by omega)]
      exact inv.copied k (by omega) free'
  · rw [getLsbD_bvSetBit, if_neg (by omega)]
    exact inv.zero p (by omega)
  · have other : k ≠ m := fun same => by simp [same, free] at fixed
    exact inv.agree k (by omega) fixed
  · cases bit : min.getLsbD m
    · simp only [Bool.not_false, ite_true]
      exact .inr ⟨m, le_refl m, free, bit, by omega, fun k le lt => absurd lt (by omega)⟩
    · simp only [Bool.not_true, Bool.false_eq_true, ite_false]
      have extend : ∀ k, m ≤ k → d.isFixedBit k = false → k ≠ m → m + 1 ≤ k := by omega
      rcases inv.last with all | ⟨q, le, freeQ, zeroQ, countQ, between⟩
      · refine .inl fun k le free' => ?_
        by_cases same : k = m
        · rwa [same]
        · exact all k (extend k le free' same) free'
      · refine .inr ⟨q, by omega, freeQ, zeroQ, countQ, fun k le' lt free' => ?_⟩
        by_cases same : k = m
        · rwa [same]
        · exact between k (extend k le' free' same) lt free'

theorem fixed_step (inv : MinScan d min (m + 1) j j0 bits) (fixed : d.isFixedBit m = true)
    (agree : d.lo.getLsbD m = min.getLsbD m) : MinScan d min m j j0 bits := by
  have rank : d.freeBelow (m + 1) = d.freeBelow m := by simp [BvDomain.freeBelow_succ, fixed]
  have skip : ∀ k, m ≤ k → d.isFixedBit k = false → m + 1 ≤ k := fun k le free => by
    rcases Nat.lt_or_eq_of_le le with lt | rfl
    · exact lt
    · simp [fixed] at free
  refine ⟨rank ▸ inv.count, fun k le free => inv.copied k (skip k le free) free,
    fun p lt => inv.zero p (rank ▸ lt), fun k le fixed' => ?_, ?_⟩
  · rcases Nat.lt_or_eq_of_le le with lt | rfl
    · exact inv.agree k lt fixed'
    · exact agree
  · rcases inv.last with all | ⟨q, le, freeQ, zeroQ, countQ, between⟩
    · exact .inl fun k le free => all k (skip k le free) free
    · exact .inr ⟨q, by omega, freeQ, zeroQ, countQ,
        fun k le' lt free => between k (skip k le' free) lt free⟩

theorem getLsbD_composeBits (inv : MinScan d min m j j0 bits) {k : Nat} (le : m ≤ k) :
    (d.composeBits bits).getLsbD k = min.getLsbD k := by
  rw [BvDomain.getLsbD_composeBits]
  cases fixed : d.isFixedBit k
  · simpa using inv.copied k le fixed
  · simpa using inv.agree k le fixed

end MinScan

section Galois

variable (D : ValidDomain w) (min : BitVec w) {c : Nat} (size : c = D.freeCount)
include size

theorem galois_of_least {bm : BitVec c} (above : min ≤ D.composeBits bm)
    (least : ∀ b, b < bm → D.composeBits b < min) (b : BitVec c) :
    min ≤ D.composeBits b ↔ bm ≤ b := by
  constructor
  · intro reaches
    by_contra small
    exact BitVec.not_le.mpr (least b (BitVec.not_le.mp small)) reaches
  · intro le
    exact BitVec.le_trans above ((D.composeBits_le_composeBits_iff size).mpr le)

variable {min} {m j j0 : Nat} {bits : BitVec c}

theorem MinScan.galois_done (inv : MinScan D.toBvDomain min 0 j j0 bits) (b : BitVec c) :
    min ≤ D.composeBits b ↔ bits ≤ b := by
  have same : D.composeBits bits = min :=
    eq_iff_getLsbD.mpr fun k => inv.getLsbD_composeBits (Nat.zero_le k)
  refine galois_of_least D min size (same ▸ BitVec.le_refl _) (fun b lt => ?_) b
  rw [← same]
  exact D.composeBits_lt_composeBits size lt

omit size in
theorem MinScan.composeBits_lt (inv : MinScan D.toBvDomain min m j j0 bits) {b : BitVec c}
    {q : Nat} (free : D.isFixedBit q = false) (clear : b.getLsbD (D.freeBelow q) = false)
    (high : min.getLsbD q = true)
    (agree : ∀ k, q < k → D.isFixedBit k = false →
      b.getLsbD (D.freeBelow k) = bits.getLsbD (D.freeBelow k)) (le : m ≤ q) :
    D.composeBits b < min := by
  apply lt_of_getLsbD_of_above q (by simpa [free] using clear) high
  intro k above bit
  rwa [D.getLsbD_composeBits_of_agree agree above, inv.getLsbD_composeBits (by omega)] at bit

/-- The scan stopped at a position fixed to one where `min` has a zero: the counter so far,
with zeros below, is the least one. -/
theorem MinScan.galois_break (inv : MinScan D.toBvDomain min (m + 1) j j0 bits)
    (fixed : D.isFixedBit m = true) (one : D.lo.getLsbD m = true)
    (bit : min.getLsbD m = false) (b : BitVec c) :
    min ≤ D.composeBits b ↔ bits ≤ b := by
  refine galois_of_least D min size (le_of_lt_bv ?_) (fun b lt => ?_) b
  · apply lt_of_getLsbD_of_above m bit (by simpa [fixed] using one)
    intro k above set
    rwa [inv.getLsbD_composeBits above]
  · obtain ⟨q, free, clear, set, agree⟩ := D.exists_free_of_lt size lt
    have le : m + 1 ≤ q := by
      by_contra below
      have := inv.zero _ (D.freeBelow_lt_of_free free (show q < m + 1 by omega))
      simp [this] at set
    exact inv.composeBits_lt D free clear (by rwa [← inv.copied q le free]) agree le

omit size in
/-- Before a bump the scan has copied a free position where `min` has a zero, the one `j0`
names: were every copied free bit of `min` a one, `min` would be above `hi`. -/
theorem MinScan.exists_zero_of_bump (inv : MinScan D.toBvDomain min (m + 1) j j0 bits)
    (below : min ≤ D.hi) (fixed : D.isFixedBit m = true) (zero : D.lo.getLsbD m = false)
    (bit : min.getLsbD m = true) :
    ∃ q, m + 1 ≤ q ∧ D.isFixedBit q = false ∧ min.getLsbD q = false ∧
      j0 + D.freeBelow q + 1 = c ∧
      ∀ k, m + 1 ≤ k → k < q → D.isFixedBit k = false → min.getLsbD k = true := by
  have fixedEq : D.lo.getLsbD m = D.hi.getLsbD m := by
    simpa [BvDomain.isFixedBit] using fixed
  refine inv.last.resolve_left fun all => absurd below (BitVec.not_le.mpr ?_)
  apply lt_of_getLsbD_of_above m (by rw [← fixedEq, zero]) bit
  intro k above set
  cases fk : D.isFixedBit k
  · exact all k above fk
  · rw [← inv.agree k above fk]
    simpa [BvDomain.isFixedBit, set] using fk

/-- The scan stopped at a position fixed to zero where `min` has a one: the counter is bumped
at the lowest processed free position where `min` has a zero, and cleared below it. -/
theorem MinScan.galois_bump (inv : MinScan D.toBvDomain min (m + 1) j j0 bits)
    (below : min ≤ D.hi) (fixed : D.isFixedBit m = true) (zero : D.lo.getLsbD m = false)
    (bit : min.getLsbD m = true) (b : BitVec c) :
    min ≤ D.composeBits b ↔
      setLowBits false (c - (j0 + 1)) (j0 + 1) (bvSetBit bits (c - 1 - j0) true) ≤ b := by
  obtain ⟨q0, le0, free0, clear0, count0, between⟩ :=
    inv.exists_zero_of_bump D below fixed zero bit
  have inRange : D.freeBelow q0 < c := by omega
  have bitsOf :=
    getLsbD_bumpMin bits (by omega) (show c - 1 - j0 = D.freeBelow q0 by omega) inRange
  have keep : ∀ k, q0 < k → D.isFixedBit k = false →
      (setLowBits false (c - (j0 + 1)) (j0 + 1) (bvSetBit bits (c - 1 - j0) true)).getLsbD
        (D.freeBelow k) = bits.getLsbD (D.freeBelow k) := fun k lt fk => by
    have := D.freeBelow_lt_of_free free0 lt
    rw [bitsOf, if_neg (by omega), if_neg (by omega)]
  refine galois_of_least D min size (le_of_lt_bv ?_) (fun b lt => ?_) b
  · apply lt_of_getLsbD_of_above q0 clear0 (by simp [free0, bitsOf])
    intro k above set
    rwa [D.getLsbD_composeBits_of_agree (fun k lt fk => keep k lt fk) above,
      inv.getLsbD_composeBits (by omega)]
  · obtain ⟨q, free, clear, set, agree⟩ := D.exists_free_of_lt size lt
    have atLeast : q0 ≤ q := by
      by_contra small
      have := D.freeBelow_lt_of_free free (show q < q0 by omega)
      simp [bitsOf, this] at set
    rcases Nat.lt_or_eq_of_le atLeast with above | rfl
    · have agreeBits : ∀ k, q < k → D.isFixedBit k = false →
          b.getLsbD (D.freeBelow k) = bits.getLsbD (D.freeBelow k) := fun k lt fk => by
        rw [agree k lt fk, keep k (by omega) fk]
      have high : min.getLsbD q = true := by
        rw [← inv.copied q (by omega) free, ← keep q above free]
        exact set
      exact inv.composeBits_lt D free clear high agreeBits (by omega)
    · apply lt_of_getLsbD_of_above m (by simp [fixed, zero]) bit
      intro k above one
      rw [BvDomain.getLsbD_composeBits] at one
      cases fk : D.isFixedBit k <;> simp only [fk, ite_true, ite_false,
        Bool.false_eq_true] at one
      · rcases lt_trichotomy k q0 with lt' | rfl | gt'
        · exact between k (by omega) lt' fk
        · rw [clear] at one
          contradiction
        · rw [← inv.copied k (by omega) fk, ← keep k gt' fk, ← agree k gt' fk]
          exact one
      · rwa [← inv.agree k (by omega) fk]

/-- The `bits_min` scan, run from a state that satisfies `MinScan` with `n` positions left,
returns the least counter whose value reaches `min`. -/
theorem bitsMinLoop_galois (below : min ≤ D.hi) :
    ∀ n, n ≤ w → ∀ j j0 (bits : BitVec c), MinScan D.toBvDomain min n j j0 bits →
      ∀ b, min ≤ D.composeBits b ↔ bitsMinLoop D.toBvDomain min n (w - n) j j0 bits ≤ b := by
  intro n
  induction n with
  | zero => exact fun _ j j0 bits inv => inv.galois_done D size
  | succ n ih =>
      intro le j j0 bits inv
      rw [bitsMinLoop]
      simp only [show w - 1 - (w - (n + 1)) = n by omega, show w - (n + 1) + 1 = w - n by omega]
      cases fixed : D.isFixedBit n
      · exact ih (by omega) _ _ _ (inv.free_step size fixed)
      · cases lo : D.lo.getLsbD n <;> cases bit : min.getLsbD n <;>
          simp only [BvDomain.isFixedBitTrue_eq, BvDomain.isFixedBitFalse_eq, fixed, lo,
            Bool.not_true, Bool.not_false, Bool.and_self, Bool.and_false, Bool.false_and,
            Bool.false_eq_true, ite_true, ite_false]
        · exact ih (by omega) _ _ _ (inv.fixed_step fixed (lo.trans bit.symm))
        · exact inv.galois_bump D size below fixed lo bit
        · exact inv.galois_break D size fixed lo bit
        · exact ih (by omega) _ _ _ (inv.fixed_step fixed (lo.trans bit.symm))

/-- `bits_min` is the least counter whose composed value is at least `min`. -/
theorem bitsMin_galois (below : min ≤ D.hi) (b : BitVec c) :
    min ≤ D.composeBits b ↔ bitsMin D.toBvDomain min c ≤ b := by
  have scan := bitsMinLoop_galois D size below w (le_refl w) 0 0 0 (MinScan.init size) b
  rwa [Nat.sub_self] at scan

end Galois

/-! ### `bits_max` through the complemented domain -/

theorem not_setLowBits {c : Nat} (value : Bool) :
    ∀ (n k : Nat) (bits : BitVec c),
      ~~~(setLowBits value n k bits) = setLowBits (!value) n k (~~~bits) := by
  intro n
  induction n with
  | zero => intro k bits; rfl
  | succ n ih => intro k bits; rw [setLowBits, setLowBits, ih, not_bvSetBit]

/-- The `bits_max` scan is the complement of the `bits_min` scan of the complemented domain and
bound. -/
theorem bitsMaxLoop_eq_not (d : BvDomain w) (max : BitVec w) {c : Nat} :
    ∀ n i j j0 (bits : BitVec c), n + i ≤ w →
      bitsMaxLoop d max n i j j0 bits = ~~~(bitsMinLoop d.not (~~~max) n i j j0 (~~~bits)) := by
  intro n
  induction n with
  | zero => intro i j j0 bits _; simp [bitsMaxLoop, bitsMinLoop]
  | succ n ih =>
      intro i j j0 bits fits
      have inRange : w - 1 - i < w := by omega
      rw [bitsMaxLoop, bitsMinLoop]
      simp only [BvDomain.isFixedBit_not, BvDomain.isFixedBitTrue_not _ inRange,
        BvDomain.isFixedBitFalse_not _ inRange, BitVec.getLsbD_not, inRange, decide_True,
        Bool.true_and, Bool.not_not]
      cases free : d.isFixedBit (w - 1 - i)
      · simp only [Bool.not_false, ite_true]
        rw [ih _ _ _ _ (by omega), not_bvSetBit]
      · cases lo : d.lo.getLsbD (w - 1 - i) <;> cases bit : max.getLsbD (w - 1 - i) <;>
          simp only [BvDomain.isFixedBitTrue_eq, BvDomain.isFixedBitFalse_eq, free, lo,
            Bool.not_true, Bool.not_false, Bool.and_true, Bool.and_false, Bool.true_and,
            Bool.false_and, Bool.false_eq_true, ite_true, ite_false, BitVec.not_not]
        · exact ih _ _ _ _ (by omega)
        · simp only [not_setLowBits, not_bvSetBit, BitVec.not_not, Bool.not_true, Bool.not_false]
        · exact ih _ _ _ _ (by omega)

/-- `bits_max` is the greatest counter whose composed value is at most `max`. -/
theorem bitsMax_galois (D : ValidDomain w) {max : BitVec w} {c : Nat} (size : c = D.freeCount)
    (above : D.lo ≤ max) (b : BitVec c) :
    D.composeBits b ≤ max ↔ b ≤ bitsMax D.toBvDomain max c := by
  have scan := bitsMin_galois D.not (by simpa [ValidDomain.not] using size)
    (show ~~~max ≤ ~~~D.lo from not_le_not.mpr above) (~~~b)
  rw [show D.not.composeBits (~~~b) = ~~~(D.composeBits b) from D.composeBits_not size b,
    not_le_not] at scan
  rw [scan, bitsMax, bitsMaxLoop_eq_not _ _ _ _ _ _ _ (by omega), ← not_le_not, BitVec.not_not]
  have empty : ~~~(BitVec.allOnes c) = 0 := by
    refine eq_iff_getLsbD.mpr fun k => ?_
    simp
  rw [empty]
  rfl

/-! ### The assertions of the scans

Where `bzla_bvdomain_gen_init_range` runs the scans, `min ≤ hi` and `max ≥ lo`, and then no
assertion of either scan fails. The bump of the `bits_min` scan is the one that needs `min ≤ hi`:
it asserts that some free bit of `min` was copied as a zero, which `exists_zero_of_bump` gives. -/

section Asserts

variable (D : ValidDomain w) {min : BitVec w} {c : Nat} (size : c = D.freeCount)
include size

/-- From a state the `bits_min` scan reaches, with `min ≤ hi`, no assertion fails. -/
theorem bitsMinLoopAsserts_of_scan (below : min ≤ D.hi) :
    ∀ n, n ≤ w → ∀ j j0 (bits : BitVec c), MinScan D.toBvDomain min n j j0 bits →
      bitsMinLoopAsserts D.toBvDomain min n (w - n) j j0 bits = true := by
  intro n
  induction n with
  | zero => intros; rfl
  | succ n ih =>
      intro le j j0 bits inv
      have count := inv.count
      rw [bitsMinLoopAsserts]
      simp only [show w - 1 - (w - (n + 1)) = n by omega, show w - (n + 1) + 1 = w - n by omega]
      cases fixed : D.isFixedBit n
      · have rank : D.freeBelow (n + 1) = D.freeBelow n + 1 := by
          simp [BvDomain.freeBelow_succ, fixed]
        simp only [Bool.not_false, ite_true, decide_eq_true (show j < c by omega), Bool.true_and]
        exact ih (by omega) _ _ _ (inv.free_step size fixed)
      · cases lo : D.lo.getLsbD n <;> cases bit : min.getLsbD n <;>
          simp only [BvDomain.isFixedBitTrue_eq, BvDomain.isFixedBitFalse_eq, fixed, lo,
            Bool.not_true, Bool.not_false, Bool.and_self, Bool.and_false, Bool.false_and,
            Bool.false_eq_true, ite_true, ite_false]
        · exact ih (by omega) _ _ _ (inv.fixed_step fixed (lo.trans bit.symm))
        · -- the bump: the copied zero of `min` sits at `j0`, below the `j` copied positions
          obtain ⟨q, above, free, clear, countQ, -⟩ := inv.exists_zero_of_bump D below fixed lo bit
          have mono := D.freeBelow_mono above
          rw [show c - j0 - 1 = D.freeBelow q by omega, inv.copied q above free, clear]
          simp only [Bool.not_false, Bool.and_true, decide_eq_true_eq]
          omega
        · exact ih (by omega) _ _ _ (inv.fixed_step fixed (lo.trans bit.symm))

theorem bitsMinAsserts_eq_true (below : min ≤ D.hi) : bitsMinAsserts D.toBvDomain min c = true := by
  have scan := bitsMinLoopAsserts_of_scan D size below w (le_refl w) 0 0 0 (MinScan.init size)
  rwa [Nat.sub_self] at scan

end Asserts

/-- The assertions of the `bits_max` scan are those of the `bits_min` scan of the complemented
domain and bound, while `j ≤ cnt`. -/
theorem bitsMaxLoopAsserts_eq_not (d : BvDomain w) (max : BitVec w) {c : Nat} :
    ∀ n i j j0 (bits : BitVec c), n + i ≤ w → j ≤ c →
      bitsMaxLoopAsserts d max n i j j0 bits =
        bitsMinLoopAsserts d.not (~~~max) n i j j0 (~~~bits) := by
  intro n
  induction n with
  | zero => intros; rfl
  | succ n ih =>
      intro i j j0 bits fits room
      have inRange : w - 1 - i < w := by omega
      rw [bitsMaxLoopAsserts, bitsMinLoopAsserts]
      simp only [BvDomain.isFixedBit_not, BvDomain.isFixedBitTrue_not _ inRange,
        BvDomain.isFixedBitFalse_not _ inRange, BitVec.getLsbD_not, inRange, decide_True,
        Bool.true_and, Bool.not_not]
      cases free : d.isFixedBit (w - 1 - i)
      · simp only [Bool.not_false, ite_true]
        by_cases more : j < c
        · rw [ih _ _ _ _ (by omega) more, not_bvSetBit]
        · simp only [more, decide_False, Bool.false_and]
      · cases lo : d.lo.getLsbD (w - 1 - i) <;> cases bit : max.getLsbD (w - 1 - i) <;>
          simp only [BvDomain.isFixedBitTrue_eq, BvDomain.isFixedBitFalse_eq, free, lo,
            Bool.not_true, Bool.not_false, Bool.and_true, Bool.and_false, Bool.true_and,
            Bool.false_and, Bool.false_eq_true, ite_true, ite_false, BitVec.not_not]
        · exact ih _ _ _ _ (by omega) room
        · by_cases some : 0 < j
          · simp only [some, show c - j0 - 1 < c by omega, decide_True, Bool.true_and,
              Bool.not_not]
          · simp only [some, decide_False, Bool.false_and]
        · exact ih _ _ _ _ (by omega) room

theorem bitsMaxAsserts_eq_true (D : ValidDomain w) {max : BitVec w} {c : Nat}
    (size : c = D.freeCount) (above : D.lo ≤ max) : bitsMaxAsserts D.toBvDomain max c = true := by
  have empty : ~~~(BitVec.allOnes c) = 0 := eq_iff_getLsbD.mpr fun k => by simp
  rw [bitsMaxAsserts, bitsMaxLoopAsserts_eq_not _ _ _ _ _ _ _ (by omega) (Nat.zero_le c), empty]
  exact bitsMinAsserts_eq_true D.not (by simpa [ValidDomain.not] using size)
    (show ~~~max ≤ ~~~D.lo from not_le_not.mpr above)

end Bzla
