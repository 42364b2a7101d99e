import BzlaInv.Domain

/-!
# The free bits of a domain

The domain generator of `bzlabvdomain.c` enumerates `γ(D)` through a counter `bits` with one
bit per free (unfixed) position of `D`: counter bit `j` goes to the `j`-th free position from
the bottom. This module models the loop of `bzla_bvdomain_gen_init_range` that counts the free
positions (`cnt`) and the loop of `gen_next_bits` that composes a value from a counter, and
proves that composing is an order isomorphism from the counters of width `cnt` onto `γ(D)`,
both ordered as unsigned numbers.
-/

namespace Bzla

namespace BvDomain

variable {w : Nat} (d : BvDomain w)

/-! ### The model -/

/-- The free positions below `i`; for a free position, its rank among the free positions. -/
def freeBelow (i : Nat) : Nat :=
  (List.range i).countP fun k => !d.isFixedBit k

/-- `cnt` of `bzla_bvdomain_gen_init_range`: the number of positions that are not fixed. -/
def freeCount : Nat :=
  d.freeBelow w

/-- The loop `for (i = 0, j = 0; i < bw; ++i)` of `gen_next_bits` with `n` positions left:
every free position takes the next bit of the counter. -/
def fillFreeBits {c : Nat} (bits : BitVec c) : Nat → Nat → Nat → BitVec w → BitVec w
  | 0, _, _, res => res
  | n + 1, i, j, res =>
      if d.isFixedBit i then fillFreeBits bits n (i + 1) j res
      else fillFreeBits bits n (i + 1) (j + 1) (bvSetBit res i (bits.getLsbD j))

/-- The value `gen_next_bits` emits for the counter `bits`: `lo` with the free positions
overwritten by the bits of the counter, low to high. -/
def composeBits {c : Nat} (bits : BitVec c) : BitVec w :=
  d.fillFreeBits bits w 0 0 d.lo

/-- The loop of `fillFreeBits` run the other way: free position `i` gives its bit to counter bit
`freeBelow i`. It inverts `composeBits` on `γ(D)` and serves the proofs only. -/
def gatherLoop (x : BitVec w) {c : Nat} : Nat → Nat → Nat → BitVec c → BitVec c
  | 0, _, _, b => b
  | n + 1, i, j, b =>
      if d.isFixedBit i then gatherLoop x n (i + 1) j b
      else gatherLoop x n (i + 1) (j + 1) (bvSetBit b j (x.getLsbD i))

/-! ### Ranks of the free positions -/

@[simp] theorem freeBelow_zero : d.freeBelow 0 = 0 := rfl

theorem freeBelow_succ (i : Nat) :
    d.freeBelow (i + 1) = d.freeBelow i + if d.isFixedBit i then 0 else 1 := by
  simp only [freeBelow, List.range_succ, List.countP_append, List.countP_singleton]
  cases d.isFixedBit i <;> rfl

theorem freeBelow_mono {i j : Nat} (le : i ≤ j) : d.freeBelow i ≤ d.freeBelow j := by
  induction le with
  | refl => exact Nat.le_refl _
  | step _ ih =>
      rw [freeBelow_succ]
      omega

theorem lt_of_isFixedBit_eq_false {k : Nat} (free : d.isFixedBit k = false) : k < w := by
  by_contra outside
  simp [isFixedBit, BitVec.getLsbD_ge _ _ (Nat.le_of_not_lt outside)] at free

theorem freeBelow_lt_of_free {k j : Nat} (free : d.isFixedBit k = false) (lt : k < j) :
    d.freeBelow k < d.freeBelow j := by
  have step := d.freeBelow_mono (Nat.succ_le_of_lt lt)
  rw [freeBelow_succ, free] at step
  simpa using step

theorem freeBelow_lt_freeCount {k : Nat} (free : d.isFixedBit k = false) :
    d.freeBelow k < d.freeCount :=
  d.freeBelow_lt_of_free free (d.lt_of_isFixedBit_eq_false free)

theorem exists_free_of_lt_freeBelow {p i : Nat} (lt : p < d.freeBelow i) :
    ∃ k, k < i ∧ d.isFixedBit k = false ∧ d.freeBelow k = p := by
  induction i with
  | zero => simp at lt
  | succ i ih =>
      rw [freeBelow_succ] at lt
      by_cases below : p < d.freeBelow i
      · obtain ⟨k, lt, free, rank⟩ := ih below
        exact ⟨k, by omega, free, rank⟩
      · cases fixed : d.isFixedBit i <;> simp [fixed] at lt
        · exact ⟨i, by omega, fixed, by omega⟩
        · omega

/-! ### Composing -/

theorem getLsbD_fillFreeBits {c : Nat} (bits : BitVec c) :
    ∀ (n i : Nat) (res : BitVec w) (k : Nat), i + n = w →
      (d.fillFreeBits bits n i (d.freeBelow i) res).getLsbD k =
        if i ≤ k ∧ d.isFixedBit k = false then bits.getLsbD (d.freeBelow k)
        else res.getLsbD k := by
  intro n
  induction n with
  | zero =>
      intro i res k last
      have outside : ¬ (i ≤ k ∧ d.isFixedBit k = false) := fun ⟨le, free⟩ =>
        absurd (d.lt_of_isFixedBit_eq_false free) (by omega)
      rw [if_neg outside]
      rfl
  | succ n ih =>
      intro i res k next
      have shift : i + 1 ≤ k ↔ i ≤ k ∧ k ≠ i := by omega
      cases fixed : d.isFixedBit i
      · have rank : d.freeBelow i + 1 = d.freeBelow (i + 1) := by simp [freeBelow_succ, fixed]
        rw [fillFreeBits, if_neg (by simp [fixed]), rank, ih (i + 1) _ k (by omega),
          getLsbD_bvSetBit]
        by_cases same : k = i
        · subst same
          simp [fixed, show k < w by omega]
        · simp [shift, same]
      · have rank : d.freeBelow i = d.freeBelow (i + 1) := by simp [freeBelow_succ, fixed]
        rw [fillFreeBits, if_pos fixed, rank, ih (i + 1) res k (by omega)]
        by_cases same : k = i
        · subst same
          simp [fixed]
        · simp [shift, same]

/-- What `gen_next_bits` emits, bit by bit. -/
@[simp] theorem getLsbD_composeBits {c : Nat} (bits : BitVec c) (k : Nat) :
    (d.composeBits bits).getLsbD k =
      if d.isFixedBit k then d.lo.getLsbD k else bits.getLsbD (d.freeBelow k) := by
  have loop := d.getLsbD_fillFreeBits bits w 0 d.lo k (by omega)
  rw [freeBelow_zero] at loop
  rw [composeBits, loop]
  cases d.isFixedBit k <;> simp

/-- Below `b'`, a counter with `cnt` bits first differs from `b'` at the rank of a free
position, where it has a zero and `b'` a one. -/
theorem exists_free_of_lt {c : Nat} (size : c = d.freeCount) {b b' : BitVec c} (lt : b < b') :
    ∃ q, d.isFixedBit q = false ∧ b.getLsbD (d.freeBelow q) = false ∧
      b'.getLsbD (d.freeBelow q) = true ∧
      ∀ k, q < k → d.isFixedBit k = false →
        b.getLsbD (d.freeBelow k) = b'.getLsbD (d.freeBelow k) := by
  obtain ⟨p, clear, set, above⟩ := exists_getLsbD_of_lt lt
  have inRange : p < d.freeCount := size ▸ BitVec.lt_of_getLsbD set
  obtain ⟨q, -, free, rfl⟩ := d.exists_free_of_lt_freeBelow inRange
  exact ⟨q, free, clear, set, fun k bigger _ => above _ (d.freeBelow_lt_of_free free bigger)⟩

theorem getLsbD_composeBits_of_agree {c c' : Nat} {b : BitVec c} {b' : BitVec c'} {q : Nat}
    (agree : ∀ k, q < k → d.isFixedBit k = false →
      b.getLsbD (d.freeBelow k) = b'.getLsbD (d.freeBelow k))
    {k : Nat} (above : q < k) : (d.composeBits b).getLsbD k = (d.composeBits b').getLsbD k := by
  rw [getLsbD_composeBits, getLsbD_composeBits]
  cases fixed : d.isFixedBit k
  · simpa using agree k above fixed
  · rfl

theorem composeBits_lt_composeBits {c : Nat} (size : c = d.freeCount) {b b' : BitVec c}
    (lt : b < b') : d.composeBits b < d.composeBits b' := by
  obtain ⟨q, free, clear, set, agree⟩ := d.exists_free_of_lt size lt
  apply lt_of_getLsbD_of_above q
  · simp [free, clear]
  · simp [free, set]
  · intro k above bit
    rwa [← d.getLsbD_composeBits_of_agree agree above]

theorem composeBits_le_composeBits_iff {c : Nat} (size : c = d.freeCount) {b b' : BitVec c} :
    d.composeBits b ≤ d.composeBits b' ↔ b ≤ b' := by
  constructor
  · intro le
    by_contra over
    exact BitVec.not_le.mpr (d.composeBits_lt_composeBits size (BitVec.not_le.mp over)) le
  · intro le
    rcases Nat.lt_or_eq_of_le (BitVec.le_def.mp le) with lt | same
    · exact le_of_lt_bv (d.composeBits_lt_composeBits size (BitVec.lt_def.mpr lt))
    · rw [BitVec.eq_of_toNat_eq same]
      exact BitVec.le_refl _

@[simp] theorem freeBelow_not (i : Nat) : d.not.freeBelow i = d.freeBelow i := by
  simp [freeBelow]

@[simp] theorem freeCount_not : d.not.freeCount = d.freeCount :=
  d.freeBelow_not w

/-- Complementing the counter complements the composed value in the complemented domain. -/
theorem composeBits_not {c : Nat} (size : c = d.freeCount) (b : BitVec c) :
    d.not.composeBits (~~~b) = ~~~(d.composeBits b) := by
  refine eq_iff_getLsbD.mpr fun k => ?_
  cases fixed : d.isFixedBit k
  · have inRange := d.lt_of_isFixedBit_eq_false fixed
    have rank : d.freeBelow k < c := size ▸ d.freeBelow_lt_freeCount fixed
    simp [fixed, inRange, rank]
  · have same : d.lo.getLsbD k = d.hi.getLsbD k := by simpa [isFixedBit] using fixed
    rw [getLsbD_composeBits, isFixedBit_not, fixed, if_pos rfl, BitVec.getLsbD_not,
      getLsbD_composeBits, fixed, if_pos rfl]
    simp [not, same]

/-! ### Gathering -/

theorem getLsbD_gatherLoop (x : BitVec w) {c : Nat} (size : c = d.freeCount) :
    ∀ (n i : Nat) (b : BitVec c), i + n = w →
      (∀ k, i ≤ k → d.isFixedBit k = false →
        (d.gatherLoop x n i (d.freeBelow i) b).getLsbD (d.freeBelow k) = x.getLsbD k) ∧
      ∀ p, p < d.freeBelow i → (d.gatherLoop x n i (d.freeBelow i) b).getLsbD p = b.getLsbD p := by
  intro n
  induction n with
  | zero =>
      intro i b last
      refine ⟨fun k le free => absurd (d.lt_of_isFixedBit_eq_false free) (by omega),
        fun _ _ => rfl⟩
  | succ n ih =>
      intro i b next
      cases fixed : d.isFixedBit i
      · have rank : d.freeBelow i + 1 = d.freeBelow (i + 1) := by simp [freeBelow_succ, fixed]
        have inRange : d.freeBelow i < c := size ▸ d.freeBelow_lt_freeCount fixed
        rw [gatherLoop, if_neg (by simp [fixed]), rank]
        obtain ⟨upper, lower⟩ := ih (i + 1) (bvSetBit b (d.freeBelow i) (x.getLsbD i)) (by omega)
        refine ⟨fun k le free => ?_, fun p lt => ?_⟩
        · by_cases same : k = i
          · subst same
            rw [lower _ (by omega), getLsbD_bvSetBit]
            simp [inRange]
          · exact upper k (by omega) free
        · rw [lower p (by omega), getLsbD_bvSetBit, if_neg (by omega)]
      · have rank : d.freeBelow i = d.freeBelow (i + 1) := by simp [freeBelow_succ, fixed]
        rw [gatherLoop, if_pos fixed, rank]
        obtain ⟨upper, lower⟩ := ih (i + 1) b (by omega)
        refine ⟨fun k le free => upper k ?_ free, lower⟩
        rcases Nat.lt_or_eq_of_le le with lt | rfl
        · exact lt
        · rw [fixed] at free
          contradiction

end BvDomain

namespace ValidDomain

variable {w : Nat} (D : ValidDomain w)

theorem composeBits_mem {c : Nat} (bits : BitVec c) : D.composeBits bits ∈ D.toBvDomain := by
  rw [BvDomain.mem_iff_getLsbD]
  intro i
  have valid := D.lo_imp_hi i
  rw [BvDomain.getLsbD_composeBits]
  cases fixed : D.isFixedBit i <;> simp only [ite_true, ite_false, Bool.false_eq_true] <;>
    simp only [BvDomain.isFixedBit] at fixed <;> revert valid fixed <;>
    cases D.lo.getLsbD i <;> cases D.hi.getLsbD i <;> simp

theorem exists_composeBits_eq {c : Nat} (size : c = D.freeCount) {x : BitVec w}
    (member : x ∈ D.toBvDomain) : ∃ b : BitVec c, D.composeBits b = x := by
  have gathered := (D.getLsbD_gatherLoop x size w 0 0 (by omega)).1
  refine ⟨D.gatherLoop x w 0 0 0, eq_iff_getLsbD.mpr fun k => ?_⟩
  rw [BvDomain.getLsbD_composeBits]
  cases fixed : D.isFixedBit k
  · exact gathered k (Nat.zero_le k) fixed
  · have bounds := (BvDomain.mem_iff_getLsbD.mp member) k
    simp only [BvDomain.isFixedBit, beq_iff_eq] at fixed
    simp only [ite_true]
    revert bounds
    rw [← fixed]
    cases D.lo.getLsbD k <;> cases x.getLsbD k <;> simp

end ValidDomain

end Bzla
