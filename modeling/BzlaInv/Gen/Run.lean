import BzlaInv.Gen.Bounds

/-!
# The domain generator

`BzlaBvDomainGenerator` and its operations: `bzla_bvdomain_gen_init_range` computes the counter
bounds and starts `bits` at `bits_min`, `gen_next_bits` composes the value of the counter and
steps it, `bzla_bvdomain_gen_next` and `bzla_bvdomain_gen_random` are its two uses, and
`bzla_bvdomain_gen_has_next` tests the counter against `bits_max`. The assertions of
`gen_next_bits` are part of the model: a call whose assertions fail returns `none`.

The results are about whole runs. Draining a generator, as the callers'
`while (has_next) next` loops do, returns exactly `γ(D) ∩ [min, max]`, strictly ascending, and
leaves `has_next` false. In any interleaving of `next` and `random` on a non-empty generator the
assertions hold and every value is in the same set.
-/

namespace Bzla

variable {w : Nat}

/-! ### The model -/

/-- `BzlaBvDomainGenerator` over the domain `d`, which it never changes: the counter `bits` and
its bounds have one bit per free position of `d`, and `min`, `max` are the range clipped to
`[lo, hi]`, kept for the assertions. The memory manager and the random number generator are
left out; a draw of the latter is an argument of `genRandom`. -/
structure BvDomainGenerator (d : BvDomain w) where
  bits : Option (BitVec d.freeCount)
  bitsMin : Option (BitVec d.freeCount)
  bitsMax : Option (BitVec d.freeCount)
  cur : Option (BitVec w)
  min : BitVec w
  max : BitVec w

/-- The first statement of `bzla_bvdomain_gen_init_range`: `min` is raised to `lo`, and an
absent `min` is `lo`. -/
def genClipMin (d : BvDomain w) : Option (BitVec w) → BitVec w
  | some min => if min < d.lo then d.lo else min
  | none => d.lo

/-- The second statement of `bzla_bvdomain_gen_init_range`: `max` is lowered to `hi`, and an
absent `max` is `hi`. -/
def genClipMax (d : BvDomain w) : Option (BitVec w) → BitVec w
  | some max => if d.hi < max then d.hi else max
  | none => d.hi

/-- `bzla_bvdomain_gen_init_range`; an absent bound is `none`. -/
def genInitRange (d : BvDomain w) (min max : Option (BitVec w)) : BvDomainGenerator d :=
  let min := genClipMin d min
  let max := genClipMax d max
  if d.freeCount ≠ 0 ∧ min ≤ d.hi ∧ d.lo ≤ max then
    { bits := if bitsMin d min d.freeCount ≤ bitsMax d max d.freeCount
        then some (bitsMin d min d.freeCount) else none
      bitsMin := some (bitsMin d min d.freeCount)
      bitsMax := some (bitsMax d max d.freeCount)
      cur := none, min, max }
  else { bits := none, bitsMin := none, bitsMax := none, cur := none, min, max }

/-- `bzla_bvdomain_gen_init`: the range left open on both sides. -/
def genInit (d : BvDomain w) : BvDomainGenerator d :=
  genInitRange d none none

def genHasNext {d : BvDomain w} (g : BvDomainGenerator d) : Bool :=
  match g.bits, g.bitsMax with
  | some bits, some bitsMax => decide (bits ≤ bitsMax)
  | _, _ => false

/-- Modelled from the spec: `bzla_bv_new_random_range`, a value of `[lo, hi]`; `seed` stands for
the state of the random number generator. -/
def bvNewRandomRange {c : Nat} (seed : Nat) (lo hi : BitVec c) : BitVec c :=
  lo + BitVec.ofNat c (seed % ((hi - lo).toNat + 1))

/-- `gen_next_bits`; `random` is `some seed` for a random emission with the draw `seed`. The
result is `none` where the C code fails an assertion or reads a null counter. -/
def genNextBits {d : BvDomain w} (g : BvDomainGenerator d) (random : Option Nat) :
    Option (BitVec w × BvDomainGenerator d) :=
  match g.bitsMin, g.bitsMax with
  | some bitsMin, some bitsMax =>
      let current := match random with
        | some seed => some (bvNewRandomRange seed bitsMin bitsMax)
        | none => g.bits
      match current with
      | some bits =>
          let res := d.composeBits bits
          let next := if bits = bitsMax then (if random.isSome then some bitsMin else none)
            else some (bits + 1)
          if (next.all fun b => decide (bitsMin ≤ b ∧ b ≤ bitsMax)) &&
              decide (g.min ≤ res ∧ res ≤ g.max) then
            some (res, { g with bits := next, cur := some res })
          else none
      | none => none
  | _, _ => none

/-- `bzla_bvdomain_gen_next`, which asserts `has_next`. -/
def genNext {d : BvDomain w} (g : BvDomainGenerator d) : Option (BitVec w × BvDomainGenerator d) :=
  if genHasNext g then genNextBits g none else none

/-- `bzla_bvdomain_gen_random`, with the draw `seed` of the random number generator. -/
def genRandom {d : BvDomain w} (g : BvDomainGenerator d) (seed : Nat) :
    Option (BitVec w × BvDomainGenerator d) :=
  genNextBits g (some seed)

/-- The loop `while (bzla_bvdomain_gen_has_next (gen)) bzla_bvdomain_gen_next (gen)` of the
callers, run for at most `fuel` iterations: the values, and the generator after the loop. -/
def genDrain {d : BvDomain w} (fuel : Nat) (g : BvDomainGenerator d) :
    Option (List (BitVec w) × BvDomainGenerator d) :=
  if genHasNext g then
    match fuel with
    | 0 => none
    | fuel + 1 =>
        match genNext g with
        | some (x, g') => (genDrain fuel g').map fun (xs, g'') => (x :: xs, g'')
        | none => none
  else some ([], g)

/-- A client's calls in any order: `none` calls `gen_next` when `has_next` holds, as the
callers' loops do, and `some seed` calls `gen_random` with the draw `seed`. The values, and the
generator after the calls. -/
def genRun {d : BvDomain w} : List (Option Nat) → BvDomainGenerator d →
    Option (List (BitVec w) × BvDomainGenerator d)
  | [], g => some ([], g)
  | none :: calls, g =>
      if genHasNext g then
        match genNext g with
        | some (x, g') => (genRun calls g').map fun (xs, g'') => (x :: xs, g'')
        | none => none
      else genRun calls g
  | some seed :: calls, g =>
      match genRandom g seed with
      | some (x, g') => (genRun calls g').map fun (xs, g'') => (x :: xs, g'')
      | none => none

/-- `γ(D) ∩ [min, max]`, an absent bound leaving its side open. -/
def InGenRange (d : BvDomain w) (min max : Option (BitVec w)) (x : BitVec w) : Prop :=
  x ∈ d ∧ (∀ m, min = some m → m ≤ x) ∧ (∀ m, max = some m → x ≤ m)

/-! ### One call at a time -/

theorem toNat_add_one_of_lt {c : Nat} {b u : BitVec c} (lt : b < u) :
    (b + 1).toNat = b.toNat + 1 := by
  have bound := u.isLt
  rw [BitVec.lt_def] at lt
  rw [BitVec.toNat_add_of_lt] <;> rw [show (1 : BitVec c).toNat = 1 % 2 ^ c from rfl,
    Nat.mod_eq_of_lt (by omega)]
  omega

theorem add_one_le_iff_lt {c : Nat} {b u k : BitVec c} (lt : b < u) : b + 1 ≤ k ↔ b < k := by
  rw [BitVec.le_def, BitVec.lt_def, toNat_add_one_of_lt lt]
  omega

theorem bvNewRandomRange_mem {c : Nat} (seed : Nat) {lo hi : BitVec c} (le : lo ≤ hi) :
    lo ≤ bvNewRandomRange seed lo hi ∧ bvNewRandomRange seed lo hi ≤ hi := by
  have gap : (hi - lo).toNat = hi.toNat - lo.toNat := BitVec.toNat_sub_of_le le
  have step : seed % ((hi - lo).toNat + 1) < (hi - lo).toNat + 1 := Nat.mod_lt _ (by omega)
  have bound := hi.isLt
  rw [BitVec.le_def] at le
  have draw : (BitVec.ofNat c (seed % ((hi - lo).toNat + 1))).toNat =
      seed % ((hi - lo).toNat + 1) := by
    rw [BitVec.toNat_ofNat, Nat.mod_eq_of_lt (by omega)]
  have sum : (bvNewRandomRange seed lo hi).toNat = lo.toNat + seed % ((hi - lo).toNat + 1) := by
    rw [bvNewRandomRange, BitVec.toNat_add_of_lt (by omega), draw]
  simp only [BitVec.le_def, sum]
  omega

theorem genDrain_of_not_hasNext {d : BvDomain w} {g : BvDomainGenerator d} (fuel : Nat)
    (done : genHasNext g = false) : genDrain fuel g = some ([], g) := by
  rw [genDrain.eq_def, if_neg (by simp [done])]

theorem genHasNext_of_bits_none {d : BvDomain w} {g : BvDomainGenerator d}
    (empty : g.bits = none) : genHasNext g = false := by
  simp [genHasNext, empty]

/-- What `bzla_bvdomain_gen_init_range` establishes on a range it can enumerate and every
emission keeps: the counter bounds are `lower` and `upper`, which are the least and greatest
counters whose values lie in `[min, max]`, and `bits`, when present, lies between them. -/
structure GenInv (D : ValidDomain w) (g : BvDomainGenerator D.toBvDomain)
    (lower upper : BitVec D.freeCount) : Prop where
  hasMin : g.bitsMin = some lower
  hasMax : g.bitsMax = some upper
  reachMin : ∀ b, g.min ≤ D.composeBits b ↔ lower ≤ b
  reachMax : ∀ b, D.composeBits b ≤ g.max ↔ b ≤ upper
  between : ∀ b, g.bits = some b → lower ≤ b ∧ b ≤ upper

namespace GenInv

variable {D : ValidDomain w} {g : BvDomainGenerator D.toBvDomain} {lower upper : BitVec D.freeCount}

theorem update (inv : GenInv D g lower upper) (next : Option (BitVec D.freeCount))
    (inBounds : ∀ b, next = some b → lower ≤ b ∧ b ≤ upper) (x : BitVec w) :
    GenInv D { g with bits := next, cur := some x } lower upper :=
  ⟨inv.hasMin, inv.hasMax, inv.reachMin, inv.reachMax, inBounds⟩

theorem succ_between {b : BitVec D.freeCount} (low : lower ≤ b) (high : b ≤ upper) :
    ∀ b', (if b = upper then none else some (b + 1)) = some b' → lower ≤ b' ∧ b' ≤ upper := by
  intro b' next
  by_cases last : b = upper
  · simp [last] at next
  · rw [if_neg last] at next
    cases next
    have lt : b < upper := BitVec.lt_of_le_ne high last
    have succ := toNat_add_one_of_lt lt
    simp only [BitVec.le_def, BitVec.lt_def] at low lt ⊢
    omega

theorem genNextBits_none (inv : GenInv D g lower upper) {b : BitVec D.freeCount}
    (current : g.bits = some b) :
    genNextBits g none = some (D.composeBits b,
      { g with bits := if b = upper then none else some (b + 1), cur := some (D.composeBits b) }) := by
  obtain ⟨low, high⟩ := inv.between b current
  have next := succ_between low high
  simp only [genNextBits, inv.hasMin, inv.hasMax, current, Option.isSome_none,
    Bool.false_eq_true, ite_false]
  rw [if_pos]
  have bounds : ((if b = upper then none else some (b + 1)).all
      fun b' => decide (lower ≤ b' ∧ b' ≤ upper)) = true := by
    by_cases last : b = upper
    · simp [last]
    · simpa [last] using next (b + 1) (if_neg last)
  simp only [bounds, Bool.true_and, decide_eq_true_eq]
  exact ⟨(inv.reachMin b).mpr low, (inv.reachMax b).mpr high⟩

theorem genNext_some (inv : GenInv D g lower upper) (has : genHasNext g = true) :
    ∃ b g', lower ≤ b ∧ b ≤ upper ∧ genNext g = some (D.composeBits b, g') ∧
      GenInv D g' lower upper := by
  cases current : g.bits with
  | none => simp [genHasNext, current] at has
  | some b =>
      obtain ⟨low, high⟩ := inv.between b current
      exact ⟨b, _, low, high, by rw [genNext, if_pos has, inv.genNextBits_none current],
        inv.update _ (succ_between low high) _⟩

theorem genRandom_some (inv : GenInv D g lower upper) (nonempty : lower ≤ upper) (seed : Nat) :
    ∃ b g', lower ≤ b ∧ b ≤ upper ∧ genRandom g seed = some (D.composeBits b, g') ∧
      g'.bits = (if b = upper then some lower else some (b + 1)) ∧ GenInv D g' lower upper := by
  obtain ⟨low, high⟩ := bvNewRandomRange_mem seed nonempty
  set r := bvNewRandomRange seed lower upper
  have next : ∀ b', (if r = upper then some lower else some (r + 1)) = some b' →
      lower ≤ b' ∧ b' ≤ upper := by
    intro b' isNext
    by_cases last : r = upper
    · rw [if_pos last] at isNext
      cases isNext
      exact ⟨BitVec.le_refl _, nonempty⟩
    · rw [if_neg last] at isNext
      exact succ_between low high b' (by rw [if_neg last]; exact isNext)
  have bounds : ((if r = upper then some lower else some (r + 1)).all
      fun b' => decide (lower ≤ b' ∧ b' ≤ upper)) = true := by
    by_cases last : r = upper
    · simpa [last] using next lower (if_pos last)
    · simpa [last] using next (r + 1) (if_neg last)
  refine ⟨r, { g with
      bits := if r = upper then some lower else some (r + 1)
      cur := some (D.composeBits r) }, low, high, ?_, rfl, inv.update _ next _⟩
  simp only [genRandom, genNextBits, inv.hasMin, inv.hasMax, Option.isSome_some, ite_true]
  rw [if_pos]
  simp only [bounds, Bool.true_and, decide_eq_true_eq]
  exact ⟨(inv.reachMin r).mpr low, (inv.reachMax r).mpr high⟩

/-- Draining from a counter `b` emits the values of `b, b + 1, ..., upper` and leaves no next
value. -/
theorem genDrain_eq (inv : GenInv D g lower upper) {b : BitVec D.freeCount}
    (current : g.bits = some b) (fuel : Nat) (enough : upper.toNat - b.toNat < fuel) :
    ∃ g', genDrain fuel g = some ((List.range' b.toNat (upper.toNat - b.toNat + 1)).map
      (fun k => D.composeBits (BitVec.ofNat D.freeCount k)), g') ∧ genHasNext g' = false := by
  induction fuel generalizing b g with
  | zero => omega
  | succ fuel ih =>
      obtain ⟨low, high⟩ := inv.between b current
      have has : genHasNext g = true := by simp [genHasNext, current, inv.hasMax, high]
      have self : BitVec.ofNat D.freeCount b.toNat = b :=
        BitVec.eq_of_toNat_eq (by simp [Nat.mod_eq_of_lt b.isLt])
      rw [genDrain, if_pos has]
      simp only [genNext, if_pos has, inv.genNextBits_none current]
      by_cases last : b = upper
      · subst last
        rw [if_pos rfl, genDrain_of_not_hasNext _ (by simp [genHasNext])]
        exact ⟨{ g with bits := none, cur := some (D.composeBits b) }, by simp [self],
          by simp [genHasNext]⟩
      · have lt : b < upper := BitVec.lt_of_le_ne high last
        have succ := toNat_add_one_of_lt lt
        have below := BitVec.lt_def.mp lt
        rw [if_neg last]
        have bounds : ∀ b', some (b + 1) = some b' → lower ≤ b' ∧ b' ≤ upper :=
          fun b' isNext => succ_between low high b' (by rw [if_neg last]; exact isNext)
        obtain ⟨g', drained, done⟩ := ih (inv.update _ bounds (D.composeBits b)) rfl (by omega)
        refine ⟨g', ?_, done⟩
        rw [drained, succ, show upper.toNat - b.toNat = upper.toNat - (b.toNat + 1) + 1 by omega,
          List.range'_succ b.toNat _ 1]
        simp [self]

/-- Any sequence of calls on a non-empty generator succeeds, and each value it returns is the
value of a counter between the bounds. -/
theorem genRun_between (inv : GenInv D g lower upper) (nonempty : lower ≤ upper)
    (calls : List (Option Nat)) :
    ∃ xs g', genRun calls g = some (xs, g') ∧
      (∀ x ∈ xs, ∃ b, lower ≤ b ∧ b ≤ upper ∧ D.composeBits b = x) ∧
      GenInv D g' lower upper := by
  induction calls generalizing g with
  | nil => exact ⟨[], g, rfl, by simp, inv⟩
  | cons call calls ih =>
      cases call with
      | none =>
          by_cases has : genHasNext g = true
          · obtain ⟨b, g₁, low, high, step, inv₁⟩ := inv.genNext_some has
            obtain ⟨xs, g', run, values, inv'⟩ := ih inv₁
            refine ⟨D.composeBits b :: xs, g', by simp [genRun, has, step, run], ?_, inv'⟩
            simpa using ⟨⟨b, low, high, rfl⟩, values⟩
          · obtain ⟨xs, g', run, values, inv'⟩ := ih inv
            exact ⟨xs, g', by simp [genRun, has, run], values, inv'⟩
      | some seed =>
          obtain ⟨b, g₁, low, high, step, -, inv₁⟩ := inv.genRandom_some nonempty seed
          obtain ⟨xs, g', run, values, inv'⟩ := ih inv₁
          refine ⟨D.composeBits b :: xs, g', by simp [genRun, step, run], ?_, inv'⟩
          simpa using ⟨⟨b, low, high, rfl⟩, values⟩

end GenInv

/-! ### Initialization -/

section Init

variable (D : ValidDomain w) (min max : Option (BitVec w))

theorem genClipMin_le_iff {x : BitVec w} (member : x ∈ D.toBvDomain) :
    genClipMin D.toBvDomain min ≤ x ↔ ∀ m, min = some m → m ≤ x := by
  have low := BvDomain.lo_le_of_mem member
  cases min with
  | none => simpa [genClipMin] using low
  | some m =>
      by_cases below : m < D.lo
      · simp only [genClipMin, if_pos below, low, Option.some.injEq, forall_eq', true_iff]
        have := BitVec.lt_def.mp below
        have := BitVec.le_def.mp low
        exact BitVec.le_def.mpr (by omega)
      · simp [genClipMin, below]

theorem le_genClipMax_iff {x : BitVec w} (member : x ∈ D.toBvDomain) :
    x ≤ genClipMax D.toBvDomain max ↔ ∀ m, max = some m → x ≤ m := by
  have high := BvDomain.le_hi_of_mem member
  cases max with
  | none => simpa [genClipMax] using high
  | some m =>
      by_cases above : D.hi < m
      · simp only [genClipMax, if_pos above, high, Option.some.injEq, forall_eq', true_iff]
        have := BitVec.lt_def.mp above
        have := BitVec.le_def.mp high
        exact BitVec.le_def.mpr (by omega)
      · simp [genClipMax, above]

theorem inGenRange_iff {x : BitVec w} :
    InGenRange D.toBvDomain min max x ↔
      x ∈ D.toBvDomain ∧ genClipMin D.toBvDomain min ≤ x ∧ x ≤ genClipMax D.toBvDomain max := by
  constructor
  · rintro ⟨member, low, high⟩
    exact ⟨member, (genClipMin_le_iff D min member).mpr low,
      (le_genClipMax_iff D max member).mpr high⟩
  · rintro ⟨member, low, high⟩
    exact ⟨member, (genClipMin_le_iff D min member).mp low,
      (le_genClipMax_iff D max member).mp high⟩

/-- The condition under which `bzla_bvdomain_gen_init_range` computes the counter bounds. -/
def GenEnumerable : Prop :=
  D.freeCount ≠ 0 ∧ genClipMin D.toBvDomain min ≤ D.hi ∧ D.lo ≤ genClipMax D.toBvDomain max

/-- Where it computes them, the bounds are the least and greatest counters of the range, and
`bits` starts at the least one when it is not above the greatest. -/
theorem genInitRange_inv (enumerable : GenEnumerable D min max) :
    GenInv D (genInitRange D.toBvDomain min max)
        (bitsMin D.toBvDomain (genClipMin D.toBvDomain min) D.freeCount)
        (bitsMax D.toBvDomain (genClipMax D.toBvDomain max) D.freeCount) ∧
      (genInitRange D.toBvDomain min max).bits =
        if bitsMin D.toBvDomain (genClipMin D.toBvDomain min) D.freeCount ≤
            bitsMax D.toBvDomain (genClipMax D.toBvDomain max) D.freeCount
        then some (bitsMin D.toBvDomain (genClipMin D.toBvDomain min) D.freeCount) else none := by
  unfold GenEnumerable at enumerable
  simp only [genInitRange, if_pos enumerable]
  refine ⟨⟨rfl, rfl, bitsMin_galois D rfl enumerable.2.1, bitsMax_galois D rfl enumerable.2.2,
    fun b start => ?_⟩, trivial⟩
  by_cases ordered : bitsMin D.toBvDomain (genClipMin D.toBvDomain min) D.freeCount ≤
      bitsMax D.toBvDomain (genClipMax D.toBvDomain max) D.freeCount
  · rw [if_pos ordered] at start
    cases start
    exact ⟨BitVec.le_refl _, ordered⟩
  · rw [if_neg ordered] at start
    contradiction

theorem genInitRange_min :
    (genInitRange D.toBvDomain min max).min = genClipMin D.toBvDomain min := by
  simp only [genInitRange]
  split <;> rfl

theorem genInitRange_max :
    (genInitRange D.toBvDomain min max).max = genClipMax D.toBvDomain max := by
  simp only [genInitRange]
  split <;> rfl

theorem genInitRange_bits_of_not (stuck : ¬ GenEnumerable D min max) :
    (genInitRange D.toBvDomain min max).bits = none := by
  unfold GenEnumerable at stuck
  simp only [genInitRange, if_neg stuck]

theorem genEnumerable_of_mem (free : 0 < D.freeCount) {x : BitVec w}
    (inRange : InGenRange D.toBvDomain min max x) : GenEnumerable D min max := by
  obtain ⟨member, low, high⟩ := (inGenRange_iff D min max).mp inRange
  exact ⟨by omega, BitVec.le_trans low (BvDomain.le_hi_of_mem member),
    BitVec.le_trans (BvDomain.lo_le_of_mem member) high⟩

theorem lo_le_genClipMin : D.lo ≤ genClipMin D.toBvDomain min := by
  cases min with
  | none => exact BitVec.le_refl _
  | some m =>
      by_cases below : m < D.lo
      · simpa only [genClipMin, if_pos below] using BitVec.le_refl D.lo
      · simpa only [genClipMin, if_neg below] using BitVec.not_lt.mp below

theorem genClipMax_le_hi : genClipMax D.toBvDomain max ≤ D.hi := by
  cases max with
  | none => exact BitVec.le_refl _
  | some m =>
      by_cases above : D.hi < m
      · simpa only [genClipMax, if_pos above] using BitVec.le_refl D.hi
      · simpa only [genClipMax, if_neg above] using BitVec.not_lt.mp above

/-- The assertions of `bzla_bvdomain_gen_init_range` hold wherever it runs its scans: `min ≥ lo`
and `max ≤ hi` after the clipping, and no assertion of the `bits_min` or the `bits_max` scan
fails, the two bumps included. -/
theorem genInitRange_assertions (runs : GenEnumerable D min max) :
    D.lo ≤ genClipMin D.toBvDomain min ∧ genClipMax D.toBvDomain max ≤ D.hi ∧
      bitsMinAsserts D.toBvDomain (genClipMin D.toBvDomain min) D.freeCount = true ∧
      bitsMaxAsserts D.toBvDomain (genClipMax D.toBvDomain max) D.freeCount = true :=
  ⟨lo_le_genClipMin D min, genClipMax_le_hi D max, bitsMinAsserts_eq_true D rfl runs.2.1,
    bitsMaxAsserts_eq_true D rfl runs.2.2⟩

end Init

theorem genInitRange_assertions_x1 :
    GenEnumerable ⟨⟨1#2, 3#2⟩, by decide⟩ (some 2#2) none ∧
      (1#2 ≤ genClipMin ⟨1#2, 3#2⟩ (some 2#2) ∧ genClipMax ⟨1#2, 3#2⟩ none ≤ 3#2 ∧
        bitsMinAsserts ⟨1#2, 3#2⟩ (genClipMin ⟨1#2, 3#2⟩ (some 2#2))
          (BvDomain.mk 1#2 3#2).freeCount = true ∧
        bitsMaxAsserts ⟨1#2, 3#2⟩ (genClipMax ⟨1#2, 3#2⟩ none) (BvDomain.mk 1#2 3#2).freeCount =
          true) :=
  have runs : GenEnumerable ⟨⟨1#2, 3#2⟩, by decide⟩ (some 2#2) none := by
    unfold GenEnumerable
    decide
  ⟨runs, genInitRange_assertions ⟨⟨1#2, 3#2⟩, by decide⟩ (some 2#2) none runs⟩

section Enumerable

variable {D : ValidDomain w} {min max : Option (BitVec w)}

theorem inGenRange_composeBits_iff (enumerable : GenEnumerable D min max) (b : BitVec D.freeCount) :
    InGenRange D.toBvDomain min max (D.composeBits b) ↔
      bitsMin D.toBvDomain (genClipMin D.toBvDomain min) D.freeCount ≤ b ∧
        b ≤ bitsMax D.toBvDomain (genClipMax D.toBvDomain max) D.freeCount := by
  obtain ⟨inv, -⟩ := genInitRange_inv D min max enumerable
  rw [inGenRange_iff, ← inv.reachMin, ← inv.reachMax, genInitRange_min, genInitRange_max]
  exact and_iff_right (D.composeBits_mem b)

theorem exists_between_of_inGenRange (enumerable : GenEnumerable D min max) {x : BitVec w}
    (inRange : InGenRange D.toBvDomain min max x) :
    ∃ b, bitsMin D.toBvDomain (genClipMin D.toBvDomain min) D.freeCount ≤ b ∧
      b ≤ bitsMax D.toBvDomain (genClipMax D.toBvDomain max) D.freeCount ∧ D.composeBits b = x := by
  obtain ⟨b, rfl⟩ := D.exists_composeBits_eq rfl inRange.1
  exact ⟨b, (inGenRange_composeBits_iff enumerable b).mp inRange |>.1,
    (inGenRange_composeBits_iff enumerable b).mp inRange |>.2, rfl⟩

theorem exists_between_iff (enumerable : GenEnumerable D min max) (y : BitVec w) :
    (∃ b, bitsMin D.toBvDomain (genClipMin D.toBvDomain min) D.freeCount ≤ b ∧
        b ≤ bitsMax D.toBvDomain (genClipMax D.toBvDomain max) D.freeCount ∧ D.composeBits b = y) ↔
      InGenRange D.toBvDomain min max y :=
  ⟨fun ⟨b, low, high, value⟩ => value ▸ (inGenRange_composeBits_iff enumerable b).mpr ⟨low, high⟩,
    exists_between_of_inGenRange enumerable⟩

theorem exists_above_iff (enumerable : GenEnumerable D min max) {b : BitVec D.freeCount}
    (low : bitsMin D.toBvDomain (genClipMin D.toBvDomain min) D.freeCount ≤ b) (y : BitVec w) :
    (∃ k, b < k ∧ k ≤ bitsMax D.toBvDomain (genClipMax D.toBvDomain max) D.freeCount ∧
        D.composeBits k = y) ↔
      InGenRange D.toBvDomain min max y ∧ D.composeBits b < y := by
  constructor
  · rintro ⟨k, above, high, rfl⟩
    exact ⟨(inGenRange_composeBits_iff enumerable k).mpr
      ⟨BitVec.le_trans low (le_of_lt_bv above), high⟩, D.composeBits_lt_composeBits rfl above⟩
  · rintro ⟨inRange, above⟩
    obtain ⟨k, -, high, rfl⟩ := exists_between_of_inGenRange enumerable inRange
    exact ⟨k, BitVec.not_le.mp fun le =>
      BitVec.not_le.mpr above ((D.composeBits_le_composeBits_iff rfl).mpr le), high, rfl⟩

theorem forall_le_composeBits_iff (enumerable : GenEnumerable D min max) {b : BitVec D.freeCount}
    (low : bitsMin D.toBvDomain (genClipMin D.toBvDomain min) D.freeCount ≤ b)
    (high : b ≤ bitsMax D.toBvDomain (genClipMax D.toBvDomain max) D.freeCount) :
    (∀ z, InGenRange D.toBvDomain min max z → z ≤ D.composeBits b) ↔
      b = bitsMax D.toBvDomain (genClipMax D.toBvDomain max) D.freeCount := by
  constructor
  · intro greatest
    by_contra below
    have top := greatest _ ((inGenRange_composeBits_iff enumerable _).mpr
      ⟨BitVec.le_trans low high, BitVec.le_refl _⟩)
    exact BitVec.not_le.mpr (D.composeBits_lt_composeBits rfl (BitVec.lt_of_le_ne high below)) top
  · rintro rfl z inRange
    obtain ⟨k, -, below, rfl⟩ := exists_between_of_inGenRange enumerable inRange
    exact (D.composeBits_le_composeBits_iff rfl).mpr below

end Enumerable

/-! ### Whole runs -/

section Runs

variable {D : ValidDomain w}

theorem composeBits_range_sorted (lower upper : BitVec D.freeCount) :
    ((List.range' lower.toNat (upper.toNat - lower.toNat + 1)).map
      fun k => D.composeBits (BitVec.ofNat D.freeCount k)).Sorted (· < ·) := by
  rw [List.Sorted, List.pairwise_map]
  refine (List.pairwise_lt_range' _ _).imp_of_mem fun {a b} memA memB lt => ?_
  rw [List.mem_range'_1] at memA memB
  have bound := upper.isLt
  apply D.composeBits_lt_composeBits rfl
  rw [BitVec.lt_def, BitVec.toNat_ofNat, BitVec.toNat_ofNat, Nat.mod_eq_of_lt (by omega),
    Nat.mod_eq_of_lt (by omega)]
  exact lt

theorem mem_composeBits_range_iff {lower upper : BitVec D.freeCount} (ordered : lower ≤ upper)
    {x : BitVec w} :
    x ∈ (List.range' lower.toNat (upper.toNat - lower.toNat + 1)).map
        (fun k => D.composeBits (BitVec.ofNat D.freeCount k)) ↔
      ∃ b, lower ≤ b ∧ b ≤ upper ∧ D.composeBits b = x := by
  rw [BitVec.le_def] at ordered
  simp only [List.mem_map, List.mem_range'_1]
  constructor
  · rintro ⟨k, ⟨low, high⟩, rfl⟩
    have bound := upper.isLt
    have value : (BitVec.ofNat D.freeCount k).toNat = k := by
      rw [BitVec.toNat_ofNat, Nat.mod_eq_of_lt (by omega)]
    refine ⟨_, ?_, ?_, rfl⟩ <;> rw [BitVec.le_def, value] <;> omega
  · rintro ⟨b, low, high, rfl⟩
    rw [BitVec.le_def] at low high
    refine ⟨b.toNat, ⟨low, by omega⟩, ?_⟩
    rw [show BitVec.ofNat D.freeCount b.toNat = b from
      BitVec.eq_of_toNat_eq (by simp [Nat.mod_eq_of_lt b.isLt])]

/-- Draining a fresh generator returns `γ(D) ∩ [min, max]`, strictly ascending, and leaves no
next value. -/
theorem genInitRange_drain (D : ValidDomain w) (min max : Option (BitVec w))
    (free : 0 < D.freeCount) {fuel : Nat} (enough : 2 ^ D.freeCount ≤ fuel) :
    ∃ xs g', genDrain fuel (genInitRange D.toBvDomain min max) = some (xs, g') ∧
      xs.Sorted (· < ·) ∧ (∀ x, x ∈ xs ↔ InGenRange D.toBvDomain min max x) ∧
      genHasNext g' = false := by
  by_cases enumerable : GenEnumerable D min max
  · obtain ⟨inv, start⟩ := genInitRange_inv D min max enumerable
    by_cases ordered : bitsMin D.toBvDomain (genClipMin D.toBvDomain min) D.freeCount ≤
        bitsMax D.toBvDomain (genClipMax D.toBvDomain max) D.freeCount
    · rw [if_pos ordered] at start
      have bound := (bitsMax D.toBvDomain (genClipMax D.toBvDomain max) D.freeCount).isLt
      obtain ⟨g', drained, done⟩ := inv.genDrain_eq start fuel (by omega)
      refine ⟨_, g', drained, composeBits_range_sorted _ _, fun x => ?_, done⟩
      rw [mem_composeBits_range_iff ordered, exists_between_iff enumerable]
    · rw [if_neg ordered] at start
      refine ⟨[], _, genDrain_of_not_hasNext _ (genHasNext_of_bits_none start), by simp,
        fun x => ⟨by simp, fun inRange => ?_⟩, genHasNext_of_bits_none start⟩
      obtain ⟨b, low, high, -⟩ := exists_between_of_inGenRange enumerable inRange
      exact absurd (BitVec.le_trans low high) ordered
  · have start := genInitRange_bits_of_not D min max enumerable
    refine ⟨[], _, genDrain_of_not_hasNext _ (genHasNext_of_bits_none start), by simp,
      fun x => ⟨by simp, fun inRange => ?_⟩, genHasNext_of_bits_none start⟩
    exact absurd (genEnumerable_of_mem D min max free inRange) enumerable

/-- On a generator whose range is not empty, every interleaving of `gen_next` and `gen_random`
passes the assertions and returns values of `γ(D) ∩ [min, max]`. -/
theorem genInitRange_run (D : ValidDomain w) (min max : Option (BitVec w))
    (free : 0 < D.freeCount) {x : BitVec w} (inRange : InGenRange D.toBvDomain min max x)
    (calls : List (Option Nat)) :
    ∃ xs g', genRun calls (genInitRange D.toBvDomain min max) = some (xs, g') ∧
      ∀ y ∈ xs, InGenRange D.toBvDomain min max y := by
  have enumerable := genEnumerable_of_mem D min max free inRange
  obtain ⟨inv, -⟩ := genInitRange_inv D min max enumerable
  obtain ⟨b, low, high, -⟩ := exists_between_of_inGenRange enumerable inRange
  obtain ⟨xs, g', run, values, -⟩ := inv.genRun_between (BitVec.le_trans low high) calls
  refine ⟨xs, g', run, fun y member => ?_⟩
  obtain ⟨b, low, high, rfl⟩ := values y member
  exact (inGenRange_composeBits_iff enumerable b).mpr ⟨low, high⟩

/-- Draining a fresh generator ends within `2 ^ cnt` iterations, also when no bit is free. -/
theorem genDrain_genInitRange_some (D : ValidDomain w) (min max : Option (BitVec w)) :
    ∃ xs g', genDrain (2 ^ D.freeCount) (genInitRange D.toBvDomain min max) = some (xs, g') := by
  by_cases free : 0 < D.freeCount
  · obtain ⟨xs, g', drained, -⟩ := genInitRange_drain D min max free (le_refl _)
    exact ⟨xs, g', drained⟩
  · have start := genInitRange_bits_of_not D min max fun enumerable => free (by
      have := enumerable.1
      omega)
    exact ⟨[], _, genDrain_of_not_hasNext _ (genHasNext_of_bits_none start)⟩

/-- The domain generator enumerates `γ(D) ∩ [min, max]`: a drain returns each of its values once,
strictly ascending, and ends with `has_next` false; on a non-empty range, any interleaving of
`gen_next` and `gen_random` passes the assertions and stays in the range. -/
theorem genInitRange_exact (D : ValidDomain w) (min max : Option (BitVec w))
    (free : 0 < D.freeCount) :
    (∀ fuel, 2 ^ D.freeCount ≤ fuel →
      ∃ xs g', genDrain fuel (genInitRange D.toBvDomain min max) = some (xs, g') ∧
        xs.Sorted (· < ·) ∧ xs.Nodup ∧ (∀ x, x ∈ xs ↔ InGenRange D.toBvDomain min max x) ∧
        genHasNext g' = false) ∧
    ((∃ x, InGenRange D.toBvDomain min max x) → ∀ calls : List (Option Nat),
      ∃ xs g', genRun calls (genInitRange D.toBvDomain min max) = some (xs, g') ∧
        ∀ y ∈ xs, InGenRange D.toBvDomain min max y) := by
  refine ⟨fun fuel enough => ?_,
    fun ⟨x, inRange⟩ calls => genInitRange_run D min max free inRange calls⟩
  obtain ⟨xs, g', drained, sorted, members, done⟩ := genInitRange_drain D min max free enough
  exact ⟨xs, g', drained, sorted, sorted.imp BitVec.ne_of_lt, members, done⟩

theorem genInitRange_exact_x1 :
    (∀ fuel, 2 ^ (BvDomain.mk 1#2 3#2).freeCount ≤ fuel →
      ∃ xs g', genDrain fuel (genInitRange ⟨1#2, 3#2⟩ none none) = some (xs, g') ∧
        xs.Sorted (· < ·) ∧ xs.Nodup ∧ (∀ x, x ∈ xs ↔ InGenRange ⟨1#2, 3#2⟩ none none x) ∧
        genHasNext g' = false) ∧
    ((∃ x, InGenRange ⟨1#2, 3#2⟩ none none x) → ∀ calls : List (Option Nat),
      ∃ xs g', genRun calls (genInitRange ⟨1#2, 3#2⟩ none none) = some (xs, g') ∧
        ∀ y ∈ xs, InGenRange ⟨1#2, 3#2⟩ none none y) :=
  genInitRange_exact ⟨⟨1#2, 3#2⟩, by decide⟩ none none (by decide)

/-- A draw moves the enumeration (the comments of `gen_next_bits`: random resets `bits` and never
terminates). On a generator that any calls have reached from `gen_init_range`, a `gen_random`
returns a value `r` of the range and leaves a next value, and a drain after it returns, strictly
ascending, the values of `γ(D) ∩ [min, max]` above `r`, or all of them again when `r` is the
greatest. -/
theorem genRandom_restarts (D : ValidDomain w) (min max : Option (BitVec w))
    (free : 0 < D.freeCount) {x : BitVec w} (inRange : InGenRange D.toBvDomain min max x)
    (calls : List (Option Nat)) (seed : Nat) {fuel : Nat} (enough : 2 ^ D.freeCount ≤ fuel) :
    ∃ xs g₁ r g₂ ys g₃, genRun calls (genInitRange D.toBvDomain min max) = some (xs, g₁) ∧
      genRandom g₁ seed = some (r, g₂) ∧ InGenRange D.toBvDomain min max r ∧
      genHasNext g₂ = true ∧ genDrain fuel g₂ = some (ys, g₃) ∧ ys.Sorted (· < ·) ∧
      ∀ y, y ∈ ys ↔ InGenRange D.toBvDomain min max y ∧
        (r < y ∨ ∀ z, InGenRange D.toBvDomain min max z → z ≤ r) := by
  have enumerable := genEnumerable_of_mem D min max free inRange
  obtain ⟨inv, -⟩ := genInitRange_inv D min max enumerable
  obtain ⟨b₀, low₀, high₀, -⟩ := exists_between_of_inGenRange enumerable inRange
  have nonempty := BitVec.le_trans low₀ high₀
  obtain ⟨xs, g₁, run, -, inv₁⟩ := inv.genRun_between nonempty calls
  obtain ⟨b, g₂, low, high, drawn, next, inv₂⟩ := inv₁.genRandom_some nonempty seed
  -- the counter the draw leaves, and the values of the counters from it to the upper bound
  obtain ⟨c, current, ordered, values⟩ : ∃ c, g₂.bits = some c ∧
      c ≤ bitsMax D.toBvDomain (genClipMax D.toBvDomain max) D.freeCount ∧ ∀ y,
        (∃ k, c ≤ k ∧ k ≤ bitsMax D.toBvDomain (genClipMax D.toBvDomain max) D.freeCount ∧
          D.composeBits k = y) ↔ InGenRange D.toBvDomain min max y ∧
          (D.composeBits b < y ∨
            b = bitsMax D.toBvDomain (genClipMax D.toBvDomain max) D.freeCount) := by
    by_cases last : b = bitsMax D.toBvDomain (genClipMax D.toBvDomain max) D.freeCount
    · rw [if_pos last] at next
      exact ⟨_, next, nonempty, fun y => by
        simp only [last, or_true, and_true, exists_between_iff enumerable]⟩
    · have below := BitVec.lt_of_le_ne high last
      rw [if_neg last] at next
      refine ⟨_, next, (add_one_le_iff_lt below).mpr below, fun y => ?_⟩
      simp only [add_one_le_iff_lt below, last, or_false]
      exact exists_above_iff enumerable low y
  have bound := (bitsMax D.toBvDomain (genClipMax D.toBvDomain max) D.freeCount).isLt
  obtain ⟨g₃, drained, -⟩ := inv₂.genDrain_eq current fuel (by omega)
  refine ⟨xs, g₁, _, g₂, _, g₃, run, drawn,
    (inGenRange_composeBits_iff enumerable b).mpr ⟨low, high⟩,
    by simp [genHasNext, current, inv₂.hasMax, ordered], drained, composeBits_range_sorted _ _,
    fun y => ?_⟩
  rw [mem_composeBits_range_iff ordered, values, forall_le_composeBits_iff enumerable low high]

theorem genRandom_restarts_x1 :
    0 < (BvDomain.mk 1#2 3#2).freeCount ∧ InGenRange ⟨1#2, 3#2⟩ none none 1#2 ∧
      2 ^ (BvDomain.mk 1#2 3#2).freeCount ≤ 4 ∧
      ∃ xs g₁ r g₂ ys g₃, genRun [none] (genInitRange ⟨1#2, 3#2⟩ none none) = some (xs, g₁) ∧
        genRandom g₁ 7 = some (r, g₂) ∧ InGenRange ⟨1#2, 3#2⟩ none none r ∧
        genHasNext g₂ = true ∧ genDrain 4 g₂ = some (ys, g₃) ∧ ys.Sorted (· < ·) ∧
        ∀ y, y ∈ ys ↔ InGenRange ⟨1#2, 3#2⟩ none none y ∧
          (r < y ∨ ∀ z, InGenRange ⟨1#2, 3#2⟩ none none z → z ≤ r) :=
  have inRange : InGenRange ⟨1#2, 3#2⟩ none none 1#2 := ⟨by decide, by simp, by simp⟩
  ⟨by decide, inRange, by decide,
    genRandom_restarts ⟨⟨1#2, 3#2⟩, by decide⟩ none none (by decide) inRange [none] 7 (by decide)⟩

end Runs

end Bzla
