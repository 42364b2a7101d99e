import BzlaInv.Domain

/-!
# Domains as strings

`char_to_bv`, `bzla_bvdomain_new_from_char` and `bzla_bvdomain_to_char` of `bzlabvdomain.c`. A
domain of width `w` is written as `w` characters, most significant bit first: `0` and `1` for
fixed bits, `x` for a free bit and `?` for a bit with `lo = 1` and `hi = 0`. A C string is
modelled as its list of characters, and its length is the width of what is read from it.

Printing the domain read from a string over `0`, `1` and `x` gives the string back, and reading
the string printed from a valid domain gives a domain equal to it.
-/

namespace Bzla

variable {w : Nat}

/-! ### The model -/

/-- Modelled from the spec: `bzla_bv_char_to_bv`, a binary string read most significant bit
first. The spec hands it strings of `0` and `1` only; the model reads any other character as a
zero bit, a choice that no theorem here depends on. -/
def bvCharToBv : (cs : List Char) → BitVec cs.length
  | [] => 0#0
  | c :: cs => BitVec.cons (c == '1') (bvCharToBv cs)

/-- Modelled from the spec: `bzla_bv_to_char`, the bits most significant first. -/
def bvToChar (bv : BitVec w) : List Char :=
  List.ofFn fun (j : Fin w) => if bv.getLsbD (w - 1 - j) then '1' else '0'

/-- `char_to_bv`: the string with each `x` replaced by `bit`, read as a bit-vector of the
string's width. -/
def charToBv (c : List Char) (bit : Char) : BitVec c.length :=
  (bvCharToBv (c.map fun ch => if ch = 'x' then bit else ch)).cast (List.length_map _ _)

def charToLo (val : List Char) : BitVec val.length :=
  charToBv val '0'

def charToHi (val : List Char) : BitVec val.length :=
  charToBv val '1'

namespace BvDomain

def newFromChar (val : List Char) : BvDomain val.length :=
  ⟨charToLo val, charToHi val⟩

/-- `bzla_bvdomain_to_char`: the string of `lo`, where it differs from the string of `hi`
overwritten by `x` for `0` under `1` and by `?` otherwise (the assertion there, that the
characters are then `1` over `0`, holds since both strings are binary). -/
def toChar (d : BvDomain w) : List Char :=
  List.zipWith (fun l h => if l ≠ h then (if l = '0' ∧ h = '1' then 'x' else '?') else l)
    (bvToChar d.lo) (bvToChar d.hi)

/-- `bzla_bvdomain_print`: the text it writes to standard output, the string of `to_char` in the
short form and the strings of both bounds otherwise. -/
def print (d : BvDomain w) (printShort : Bool) : List Char :=
  if printShort then d.toChar ++ ['\n']
  else "lo: ".toList ++ bvToChar d.lo ++ ", hi: ".toList ++ bvToChar d.hi ++ ['\n']

/-- A domain of width `w` read at a width `v` that is `w`. -/
def cast {v : Nat} (same : w = v) (d : BvDomain w) : BvDomain v :=
  ⟨d.lo.cast same, d.hi.cast same⟩

end BvDomain

/-! ### Reading and printing one bit -/

/-- The character `bzla_bvdomain_to_char` writes for a bit with bounds `l` and `h`. -/
def bitChar : Bool → Bool → Char
  | false, false => '0'
  | true, true => '1'
  | false, true => 'x'
  | true, false => '?'

theorem getLsbD_bvCharToBv (cs : List Char) {i : Nat} (inRange : i < cs.length) :
    (bvCharToBv cs).getLsbD i = (cs[cs.length - 1 - i] == '1') := by
  induction cs with
  | nil => simp at inRange
  | cons c cs ih =>
      rw [bvCharToBv, BitVec.getLsbD_cons]
      by_cases top : i = cs.length
      · simp [top]
      · have below : i < cs.length := by simp at inRange; omega
        have index : (c :: cs).length - 1 - i = cs.length - 1 - i + 1 := by simp; omega
        simp only [if_neg top, ih below, index, List.getElem_cons_succ]

theorem getElem_bvToChar (bv : BitVec w) {j : Nat} (inRange : j < (bvToChar bv).length) :
    (bvToChar bv)[j] = if bv.getLsbD (w - 1 - j) then '1' else '0' :=
  List.getElem_ofFn _ j inRange

@[simp] theorem length_toChar (d : BvDomain w) : d.toChar.length = w := by
  simp [BvDomain.toChar, bvToChar]

theorem getElem_toChar (d : BvDomain w) {j : Nat} (inRange : j < d.toChar.length) :
    d.toChar[j] = bitChar (d.lo.getLsbD (w - 1 - j)) (d.hi.getLsbD (w - 1 - j)) := by
  simp only [BvDomain.toChar, List.getElem_zipWith, getElem_bvToChar]
  cases d.lo.getLsbD (w - 1 - j) <;> cases d.hi.getLsbD (w - 1 - j) <;> decide

theorem getLsbD_charToBv (val : List Char) (bit : Char) {i : Nat} (inRange : i < val.length) :
    (charToBv val bit).getLsbD i =
      ((if val[val.length - 1 - i] = 'x' then bit else val[val.length - 1 - i]) == '1') := by
  rw [charToBv, BitVec.getLsbD_cast, getLsbD_bvCharToBv _ (by simpa using inRange)]
  simp

example : BvDomain.newFromChar ['1', 'x', '0', 'x'] = ⟨8#4, 13#4⟩ := by decide

/-! ### What a string denotes -/

/-- The bounds read from a string at the bit of its character `j`: at an `x` they are `0` and
`1`, elsewhere both are the bit the character gives. -/
theorem getLsbD_newFromChar (val : List Char) {j : Nat} (inRange : j < val.length) :
    (BvDomain.newFromChar val).lo.getLsbD (val.length - 1 - j) =
        (val[j] != 'x' && val[j] == '1') ∧
      (BvDomain.newFromChar val).hi.getLsbD (val.length - 1 - j) =
        (val[j] == 'x' || val[j] == '1') := by
  have index : val.length - 1 - (val.length - 1 - j) = j := by omega
  simp only [BvDomain.newFromChar, charToLo, charToHi,
    getLsbD_charToBv _ _ (show val.length - 1 - j < val.length by omega), index]
  by_cases x : val[j] = 'x' <;> simp [x]

theorem newFromChar_valid_mem (val : List Char) :
    (BvDomain.newFromChar val).isValid = true ∧
      ∀ b : BitVec val.length, b ∈ BvDomain.newFromChar val ↔
        ∀ j (inRange : j < val.length), val[j] ≠ 'x' →
          b.getLsbD (val.length - 1 - j) = (val[j] == '1') := by
  -- the bit `i` is read from the character `val.length - 1 - i`
  have position : ∀ i < val.length, ∃ j, ∃ _ : j < val.length, val.length - 1 - j = i :=
    fun i lt => ⟨val.length - 1 - i, by omega, by omega⟩
  refine ⟨BvDomain.isValid_iff.mpr fun i low => ?_, fun b => ?_⟩
  · obtain ⟨j, inRange, rfl⟩ := position i (BitVec.lt_of_getLsbD low)
    obtain ⟨lo, hi⟩ := getLsbD_newFromChar val inRange
    rw [lo, Bool.and_eq_true] at low
    simp [hi, low.2]
  rw [BvDomain.mem_iff_getLsbD]
  constructor
  · intro member j inRange marked
    obtain ⟨lo, hi⟩ := getLsbD_newFromChar val inRange
    have bits := member (val.length - 1 - j)
    have notX : (val[j] == 'x') = false := beq_eq_false_iff_ne.mpr marked
    simp only [lo, hi, bne, notX, Bool.not_false, Bool.true_and, Bool.false_or] at bits
    exact Bool.eq_iff_iff.mpr ⟨bits.2, bits.1⟩
  · intro agree i
    by_cases inRange : i < val.length
    · obtain ⟨j, within, rfl⟩ := position i inRange
      obtain ⟨lo, hi⟩ := getLsbD_newFromChar val within
      rw [lo, hi]
      by_cases x : val[j] = 'x'
      · simp [x]
      · simp [x, agree j within x]
    · simp [BitVec.getLsbD_ge _ _ (Nat.le_of_not_lt inRange)]

/-- A string over `0`, `1` and `x` reads as a valid domain whose values are the vectors with a
one under each `1` and a zero under each `0`, most significant bit first. -/
theorem newFromChar_denotes (val : List Char) (ternary : ∀ c ∈ val, c = '0' ∨ c = '1' ∨ c = 'x') :
    (BvDomain.newFromChar val).isValid = true ∧
      ∀ b : BitVec val.length, b ∈ BvDomain.newFromChar val ↔
        ∀ j (inRange : j < val.length),
          (val[j] = '1' → b.getLsbD (val.length - 1 - j) = true) ∧
            (val[j] = '0' → b.getLsbD (val.length - 1 - j) = false) := by
  obtain ⟨valid, mem⟩ := newFromChar_valid_mem val
  refine ⟨valid, fun b => (mem b).trans (forall₂_congr fun j inRange => ?_)⟩
  rcases ternary _ (List.getElem_mem inRange) with c | c | c <;> simp [c]

theorem newFromChar_denotes_1x0x :
    (∀ c ∈ ['1', 'x', '0', 'x'], c = '0' ∨ c = '1' ∨ c = 'x') ∧
      (BvDomain.newFromChar ['1', 'x', '0', 'x']).isValid = true ∧
      ∀ b : BitVec 4, b ∈ BvDomain.newFromChar ['1', 'x', '0', 'x'] ↔
        ∀ j (inRange : j < 4),
          (['1', 'x', '0', 'x'][j] = '1' → b.getLsbD (4 - 1 - j) = true) ∧
            (['1', 'x', '0', 'x'][j] = '0' → b.getLsbD (4 - 1 - j) = false) :=
  ⟨by decide, newFromChar_denotes ['1', 'x', '0', 'x'] (by decide)⟩

/-! ### Round trips -/

theorem toChar_newFromChar_of_ternary (str : List Char)
    (ternary : ∀ c ∈ str, c = '0' ∨ c = '1' ∨ c = 'x') :
    (BvDomain.newFromChar str).toChar = str := by
  refine List.ext_getElem (by simp) fun j inRange below => ?_
  have index : str.length - 1 - (str.length - 1 - j) = j := by omega
  have back : str.length - 1 - j < str.length := by omega
  rw [getElem_toChar, BvDomain.newFromChar, charToLo, charToHi]
  simp only [getLsbD_charToBv _ _ back, index]
  rcases ternary _ (List.getElem_mem below) with bit | bit | bit <;> rw [bit] <;> decide

theorem isEqual_newFromChar_toChar (D : ValidDomain w) :
    ∃ same : D.toBvDomain.toChar.length = w,
      ((BvDomain.newFromChar D.toBvDomain.toChar).cast same).isEqual D.toBvDomain = true := by
  refine ⟨length_toChar _, ?_⟩
  have bits : ∀ bit i, (charToBv D.toBvDomain.toChar bit).getLsbD i =
      (decide (i < w) && ((if bitChar (D.lo.getLsbD i) (D.hi.getLsbD i) = 'x' then bit
        else bitChar (D.lo.getLsbD i) (D.hi.getLsbD i)) == '1')) := by
    intro bit i
    by_cases inRange : i < w
    · have index : w - 1 - (w - 1 - i) = i := by omega
      rw [getLsbD_charToBv _ _ (by simpa using inRange), getElem_toChar]
      simp only [length_toChar, index, inRange, decide_True, Bool.true_and]
    · simp [inRange, BitVec.getLsbD_ge _ _ (show D.toBvDomain.toChar.length ≤ i by simp; omega)]
  have agree : ∀ i, (charToBv D.toBvDomain.toChar '1').getLsbD i = D.hi.getLsbD i ∧
      (charToBv D.toBvDomain.toChar '0').getLsbD i = D.lo.getLsbD i := by
    intro i
    by_cases inRange : i < w
    · have valid := D.lo_imp_hi i
      rw [bits, bits]
      revert valid
      cases D.lo.getLsbD i <;> cases D.hi.getLsbD i <;> simp [inRange, bitChar]
    · simp [bits, inRange, BitVec.getLsbD_ge _ _ (Nat.le_of_not_lt inRange)]
  simp only [BvDomain.isEqual, BvDomain.cast, BvDomain.newFromChar, charToLo, charToHi,
    Bool.and_eq_true, beq_iff_eq, eq_iff_getLsbD, BitVec.getLsbD_cast]
  exact ⟨fun i => (agree i).1, fun i => (agree i).2⟩

/-- The string printed from a valid domain reads back as a domain of the same width, equal to
it. -/
theorem newFromChar_toChar (D : ValidDomain w) :
    ∃ same : D.toBvDomain.toChar.length = w,
      ((BvDomain.newFromChar D.toBvDomain.toChar).cast same).isEqual D.toBvDomain = true :=
  isEqual_newFromChar_toChar D

/-- Both round trips between strings and domains: a string over `0`, `1` and `x` is printed back
from the domain read from it, and the string printed from a valid domain of any width reads back
as a domain of that width, equal to it. -/
theorem toChar_newFromChar :
    (∀ str : List Char, (∀ c ∈ str, c = '0' ∨ c = '1' ∨ c = 'x') →
      (BvDomain.newFromChar str).toChar = str) ∧
    ∀ (w : Nat) (D : ValidDomain w), ∃ same : D.toBvDomain.toChar.length = w,
      ((BvDomain.newFromChar D.toBvDomain.toChar).cast same).isEqual D.toBvDomain = true :=
  ⟨toChar_newFromChar_of_ternary, fun _ => isEqual_newFromChar_toChar⟩

end Bzla
