import BzlaInv.Text

/-!
# The rotating print buffer

`bzla_bvdomain_to_str` of `bzlabvdomain.c` prints a domain into the static buffer `s_buf` of
`PRINT_BUFFER_SIZE = 1024` characters, from the static position `s_buf_pos` on, and returns a
pointer into the buffer. When the domain and its `NUL` do not fit after `s_buf_pos`, it starts
again at `0`. A domain of `PRINT_BUFFER_SIZE - 1` bits or more is meant to be cut to
`width - 3` characters and `...`. The static variables are `PrintBuffer`, and a call returns the
index of its string or the fault that stops it: an assertion that fails, or a write past the end
of `s_buf`. The file is modelled in both of its builds: with assertions, and under `NDEBUG`,
where every `assert` is compiled out.

A domain that fits is printed as `bzla_bvdomain_to_char` prints it, at every position earlier
calls left, and a run of such calls keeps `s_buf_pos` within the buffer. With assertions no call
ever writes past the end of the buffer, but every domain of 1023 bits or more stops at an
assertion: the `width - 3` characters alone reach position 1020, where
`s_buf_pos < PRINT_BUFFER_SIZE - 4` fails, and from 1026 bits on the loop's own assertion fails
first. Under `NDEBUG` the domain of 1023 bits is printed cut within the buffer, and every domain
of 1024 bits or more writes past its end.
-/

namespace Bzla

variable {w : Nat}

/-! ### The model -/

def printBufferSize : Nat := 1024

/-- The static variables of `bzla_bvdomain_to_str`: the buffer `s_buf` and the position
`s_buf_pos`. -/
structure PrintBuffer where
  sBuf : Nat → Char
  sBufPos : Nat

/-- The static variables before the first call: a zeroed buffer at position `0`. -/
def PrintBuffer.init : PrintBuffer :=
  ⟨fun _ => Char.ofNat 0, 0⟩

/-- What stops a call: an assertion that fails, or a write past the end of `s_buf`. -/
inductive ToStrFault
  | assertion
  | outOfBounds
deriving DecidableEq, Repr

/-- `assert (cond)`: in a build with assertions (`assertions = true`) it stops the call when
`cond` fails; under `NDEBUG` it is compiled out. -/
def toStrAssert (assertions : Bool) (cond : Prop) [Decidable cond] : Except ToStrFault Unit :=
  if assertions && !decide cond then .error .assertion else pure ()

/-- `s_buf[s_buf_pos++] = c`. -/
def PrintBuffer.push (b : PrintBuffer) (c : Char) : Except ToStrFault PrintBuffer :=
  if b.sBufPos < printBufferSize then pure ⟨Function.update b.sBuf b.sBufPos c, b.sBufPos + 1⟩
  else .error .outOfBounds

/-- The character `bzla_bvdomain_to_str` writes for a bit with bounds `bit_lo` and `bit_hi`. -/
def toStrChar (assertions : Bool) (bitLo bitHi : Bool) : Except ToStrFault Char :=
  if bitLo != bitHi then
    if bitLo = false ∧ bitHi = true then pure 'x'
    else do
      toStrAssert assertions (bitLo = true)
      toStrAssert assertions (bitHi = false)
      pure '?'
  else pure (if bitLo = false then '0' else '1')

/-- The loop `for (i = 1; i <= print_width; i++)` of `bzla_bvdomain_to_str` from `i`, with `n`
iterations left: the character of bit `width - i`, its write, and the assertion
`s_buf_pos < PRINT_BUFFER_SIZE - 1`. -/
def toStrLoop (assertions : Bool) (d : BvDomain w) (width : Nat) : (n i : Nat) → PrintBuffer →
    Except ToStrFault PrintBuffer
  | 0, _, b => pure b
  | n + 1, i, b => do
    let c ← toStrChar assertions (d.lo.getLsbD (width - i)) (d.hi.getLsbD (width - i))
    let b ← b.push c
    toStrAssert assertions (b.sBufPos < printBufferSize - 1)
    toStrLoop assertions d width n (i + 1) b

/-- `bzla_bvdomain_to_str` in the build with assertions or under `NDEBUG`: the index `buf_start`
of the returned string in `s_buf`, and the static variables after the call. The `size_t`
difference `PRINT_BUFFER_SIZE - s_buf_pos` is read on `Nat`; it does not wrap at the positions
`s_buf_pos ≤ PRINT_BUFFER_SIZE` that the calls leave. -/
def bvdomainToStrIn (assertions : Bool) (d : BvDomain w) (b : PrintBuffer) :
    Except ToStrFault (Nat × PrintBuffer) := do
  let width := w
  let tooLong := decide (width + 1 ≥ printBufferSize)
  toStrAssert assertions (b.sBufPos ≤ printBufferSize)
  let b := if width + 1 ≥ printBufferSize - b.sBufPos then { b with sBufPos := 0 } else b
  let printWidth := if tooLong then width - 3 else width
  let bufStart := b.sBufPos
  let b ← toStrLoop assertions d width printWidth 1 b
  let b ← if tooLong then do
      toStrAssert assertions (b.sBufPos < printBufferSize - 4)
      let b ← b.push '.'
      let b ← b.push '.'
      b.push '.'
    else pure b
  let b ← b.push (Char.ofNat 0)
  pure (bufStart, b)

/-- `bzla_bvdomain_to_str` as built with assertions. -/
def bvdomainToStr (d : BvDomain w) (b : PrintBuffer) : Except ToStrFault (Nat × PrintBuffer) :=
  bvdomainToStrIn true d b

/-- The C string at index `start` of a buffer: its characters before the first `NUL`, with at
most `fuel` of them read. -/
def cStringAt (buf : Nat → Char) : (fuel start : Nat) → List Char
  | 0, _ => []
  | fuel + 1, start =>
    if buf start = Char.ofNat 0 then [] else buf start :: cStringAt buf fuel (start + 1)

/-- The string `s_buf + buf_start` that a call returns, read within the buffer. -/
def toStrResult (r : Nat × PrintBuffer) : List Char :=
  cStringAt r.2.sBuf (printBufferSize - r.1) r.1

/-- Calls of `bzla_bvdomain_to_str` one after another, each on the static variables the one
before left. -/
def toStrRunIn (assertions : Bool) : List (Σ w, BvDomain w) → PrintBuffer →
    Except ToStrFault PrintBuffer
  | [], b => pure b
  | ⟨_, d⟩ :: ds, b => do
    let r ← bvdomainToStrIn assertions d b
    toStrRunIn assertions ds r.2

/-- A run of calls in the build with assertions. -/
def toStrRun (ds : List (Σ w, BvDomain w)) (b : PrintBuffer) : Except ToStrFault PrintBuffer :=
  toStrRunIn true ds b

/-! ### One call -/

@[simp] theorem ok_bind {α β : Type} (a : α) (f : α → Except ToStrFault β) :
    (Except.ok a >>= f) = f a := rfl

@[simp] theorem error_bind {α β : Type} (e : ToStrFault) (f : α → Except ToStrFault β) :
    (Except.error e >>= f) = Except.error e := rfl

theorem toStrAssert_of {assertions : Bool} {cond : Prop} [Decidable cond]
    (holds : assertions = true → cond) : toStrAssert assertions cond = .ok () :=
  if_neg fun fails => by
    rw [Bool.and_eq_true, Bool.not_eq_true', decide_eq_false_iff_not] at fails
    exact fails.2 (holds fails.1)

theorem toStrAssert_of_not {cond : Prop} [Decidable cond] (fails : ¬cond) :
    toStrAssert true cond = .error .assertion :=
  if_pos (by simpa using fails)

theorem toStrAssert_ndebug (cond : Prop) [Decidable cond] : toStrAssert false cond = .ok () :=
  rfl

theorem push_of_lt (b : PrintBuffer) (c : Char) (room : b.sBufPos < printBufferSize) :
    b.push c = .ok ⟨Function.update b.sBuf b.sBufPos c, b.sBufPos + 1⟩ := if_pos room

theorem push_of_ge (b : PrintBuffer) (c : Char) (full : printBufferSize ≤ b.sBufPos) :
    b.push c = .error .outOfBounds := if_neg (Nat.not_lt.mpr full)

theorem toStrChar_eq (assertions bitLo bitHi : Bool) :
    toStrChar assertions bitLo bitHi = .ok (bitChar bitLo bitHi) := by
  cases assertions <;> cases bitLo <;> cases bitHi <;> rfl

/-- The character the loop writes at `i`. -/
def toStrLoopChar (d : BvDomain w) (width i : Nat) : Char :=
  bitChar (d.lo.getLsbD (width - i)) (d.hi.getLsbD (width - i))

/-- With room for `n` more characters, and with assertions for the final `NUL` too, the loop
writes the characters of `i .. i + n - 1` from `s_buf_pos` on and changes nothing else. -/
theorem toStrLoop_ok (assertions : Bool) (d : BvDomain w) (width n i : Nat) (b : PrintBuffer)
    (slack : Nat) (room : b.sBufPos + n + slack ≤ printBufferSize)
    (guard : assertions = true → 2 ≤ slack) :
    ∃ b', toStrLoop assertions d width n i b = .ok b' ∧ b'.sBufPos = b.sBufPos + n ∧
      ∀ j, b'.sBuf j = if b.sBufPos ≤ j ∧ j < b.sBufPos + n then
        toStrLoopChar d width (i + (j - b.sBufPos)) else b.sBuf j := by
  induction n generalizing i b with
  | zero => exact ⟨b, rfl, rfl, fun j => by rw [if_neg (by omega)]⟩
  | succ n ih =>
      obtain ⟨b', run, pos, buf⟩ :=
        ih (i + 1) ⟨Function.update b.sBuf b.sBufPos (toStrLoopChar d width i), b.sBufPos + 1⟩
          (by simp only; omega)
      refine ⟨b', ?_, by simp only at pos; omega, fun j => ?_⟩
      · rw [toStrLoop, toStrChar_eq, ok_bind, push_of_lt _ _ (by omega), ok_bind,
          toStrAssert_of fun enabled => by have := guard enabled; simp only; omega, ok_bind]
        exact run
      · rw [buf j]
        simp only [Function.update]
        by_cases here : j = b.sBufPos
        · subst here
          rw [if_neg (by omega), dif_pos rfl, if_pos (by omega), Nat.sub_self, Nat.add_zero]
        · by_cases inside : b.sBufPos ≤ j ∧ j < b.sBufPos + (n + 1)
          · rw [if_pos (by omega), if_pos inside,
              show i + 1 + (j - (b.sBufPos + 1)) = i + (j - b.sBufPos) by omega]
          · rw [if_neg (by omega), if_neg inside, dif_neg here]

/-- With assertions and room for the final `NUL` only below position `PRINT_BUFFER_SIZE - 1`,
the loop stops at the assertion before it writes past the end. -/
theorem toStrLoop_assertion (d : BvDomain w) (width n i : Nat) (b : PrintBuffer)
    (room : b.sBufPos ≤ printBufferSize - 2) (over : printBufferSize - 1 ≤ b.sBufPos + n) :
    toStrLoop true d width n i b = .error .assertion := by
  induction n generalizing i b with
  | zero => simp only [printBufferSize] at room over; omega
  | succ n ih =>
      rw [toStrLoop, toStrChar_eq, ok_bind,
        push_of_lt _ _ (by simp only [printBufferSize] at room ⊢; omega), ok_bind]
      by_cases last : b.sBufPos + 1 < printBufferSize - 1
      · rw [toStrAssert_of fun _ => by simp only; omega, ok_bind]
        exact ih _ _ (by simp only; omega) (by simp only; omega)
      · rw [toStrAssert_of_not (by simp only; omega), error_bind]

theorem toStrLoop_outOfBounds (d : BvDomain w) (width n i : Nat) (b : PrintBuffer)
    (inside : b.sBufPos ≤ printBufferSize) (over : printBufferSize < b.sBufPos + n) :
    toStrLoop false d width n i b = .error .outOfBounds := by
  induction n generalizing i b with
  | zero => omega
  | succ n ih =>
      rw [toStrLoop, toStrChar_eq, ok_bind]
      by_cases room : b.sBufPos < printBufferSize
      · rw [push_of_lt _ _ room, ok_bind, toStrAssert_ndebug, ok_bind]
        exact ih _ _ (by simp only; omega) (by simp only; omega)
      · rw [push_of_ge _ _ (by omega), error_bind]

theorem bvdomainToStr_ok (assertions : Bool) (d : BvDomain w) (b : PrintBuffer)
    (fits : w + 1 < printBufferSize) (pos : b.sBufPos ≤ printBufferSize) :
    ∃ start b', bvdomainToStrIn assertions d b = .ok (start, b') ∧ b'.sBufPos = start + w + 1 ∧
      b'.sBufPos < printBufferSize ∧
      (∀ k, k < w → b'.sBuf (start + k) =
        bitChar (d.lo.getLsbD (w - 1 - k)) (d.hi.getLsbD (w - 1 - k))) ∧
      b'.sBuf (start + w) = Char.ofNat 0 ∧
      (∀ j, (j < start ∨ start + w < j) → b'.sBuf j = b.sBuf j) ∧
      start = if w + 1 ≥ printBufferSize - b.sBufPos then 0 else b.sBufPos := by
  simp only [bvdomainToStrIn, toStrAssert_of fun _ => pos, ok_bind,
    show ¬w + 1 ≥ printBufferSize by omega, decide_False, Bool.false_eq_true, ↓reduceIte]
  have reset : ∀ b1,
      (if w + 1 ≥ printBufferSize - b.sBufPos then { b with sBufPos := 0 } else b) = b1 →
        b1.sBufPos + w + 1 < printBufferSize ∧ b1.sBuf = b.sBuf := by
    rintro b1 rfl
    split
    · exact ⟨by simp only; omega, rfl⟩
    · exact ⟨by omega, rfl⟩
  generalize hb1 : (if w + 1 ≥ printBufferSize - b.sBufPos then { b with sBufPos := 0 } else b) = b1
  obtain ⟨room, same⟩ := reset b1 hb1
  obtain ⟨b2, loop, pos2, buf2⟩ :=
    toStrLoop_ok assertions d w w 1 b1 2 (by omega) fun _ => le_refl _
  rw [loop, ok_bind, pure_bind, push_of_lt _ _ (by omega)]
  refine ⟨_, _, rfl, by simp only; omega, by simp only; omega, fun k below => ?_, ?_,
    fun j outside => ?_, by rw [← hb1]; split <;> rfl⟩
  · simp only [Function.update_noteq (show b1.sBufPos + k ≠ b2.sBufPos by omega), buf2,
      if_pos (show b1.sBufPos ≤ b1.sBufPos + k ∧ b1.sBufPos + k < b1.sBufPos + w by omega),
      toStrLoopChar, show w - (1 + (b1.sBufPos + k - b1.sBufPos)) = w - 1 - k by omega]
  · rw [show b1.sBufPos + w = b2.sBufPos by omega]
    exact Function.update_same _ _ _
  · simp only [Function.update_noteq (show j ≠ b2.sBufPos by omega), buf2, same,
      if_neg (show ¬(b1.sBufPos ≤ j ∧ j < b1.sBufPos + w) by omega)]

/-- With assertions, a domain of `PRINT_BUFFER_SIZE - 1` bits or more stops at an assertion:
after the reset to `0`, its `width - 3` characters and the three dots do not fit. -/
theorem bvdomainToStr_long (d : BvDomain w) (b : PrintBuffer) (long : printBufferSize ≤ w + 1) :
    bvdomainToStr d b = .error .assertion := by
  have size : printBufferSize = 1024 := rfl
  by_cases pos : b.sBufPos ≤ printBufferSize
  · simp only [bvdomainToStr, bvdomainToStrIn, toStrAssert_of fun _ => pos, ok_bind, ge_iff_le,
      long, decide_True, ↓reduceIte, if_pos (show printBufferSize - b.sBufPos ≤ w + 1 by omega)]
    by_cases many : printBufferSize - 1 ≤ w - 3
    · rw [toStrLoop_assertion d w (w - 3) 1 ⟨b.sBuf, 0⟩ (by simp only; omega) (by simp only; omega),
        error_bind]
    · obtain ⟨b2, loop, pos2, -⟩ :=
        toStrLoop_ok true d w (w - 3) 1 ⟨b.sBuf, 0⟩ 2 (by simp only; omega) fun _ => le_refl _
      rw [loop, ok_bind, toStrAssert_of_not (by simp only at pos2; omega), error_bind]
  · simp only [bvdomainToStr, bvdomainToStrIn, toStrAssert_of_not pos, error_bind]

/-- Under `NDEBUG` the cut string of a domain of `PRINT_BUFFER_SIZE - 1` bits or more is written
from `0`: it fits at 1023 bits and writes past the end from 1024 bits on. -/
theorem bvdomainToStrIn_ndebug_long (d : BvDomain w) (b : PrintBuffer)
    (long : printBufferSize ≤ w + 1) :
    (w < printBufferSize → ∃ r, bvdomainToStrIn false d b = .ok r ∧
        r.2.sBufPos ≤ printBufferSize) ∧
      (printBufferSize ≤ w → bvdomainToStrIn false d b = .error .outOfBounds) := by
  have size : printBufferSize = 1024 := rfl
  simp only [bvdomainToStrIn, toStrAssert_ndebug, ok_bind, ge_iff_le, long, decide_True,
    ↓reduceIte, if_pos (show printBufferSize - b.sBufPos ≤ w + 1 by omega)]
  by_cases many : printBufferSize < w - 3
  · rw [toStrLoop_outOfBounds d w (w - 3) 1 ⟨b.sBuf, 0⟩ (by simp only; omega)
      (by simp only; omega), error_bind]
    exact ⟨fun _ => by omega, fun _ => rfl⟩
  · obtain ⟨b2, loop, pos2, -⟩ :=
      toStrLoop_ok false d w (w - 3) 1 ⟨b.sBuf, 0⟩ 0 (by simp only; omega) nofun
    simp only at pos2
    rw [loop, ok_bind]
    -- the three dots and the `NUL` go to `w - 3 .. w`
    rcases (by omega : b2.sBufPos = 1020 ∨ b2.sBufPos = 1021 ∨ b2.sBufPos = 1022 ∨
        b2.sBufPos = 1023 ∨ b2.sBufPos = 1024) with p | p | p | p | p <;>
      simp only [PrintBuffer.push, p, size, Nat.reduceAdd, Nat.reduceLT, ↓reduceIte, pure_bind,
        error_bind] <;>
      first
      | exact ⟨fun _ => ⟨_, rfl, by simp only; omega⟩, fun _ => by omega⟩
      | exact ⟨fun _ => by omega, fun _ => by trivial⟩

/-- With assertions every call either returns, with `s_buf_pos` inside the buffer, or stops at
an assertion: no write goes past the end of `s_buf`. -/
theorem bvdomainToStr_outcome (d : BvDomain w) (b : PrintBuffer) :
    (∃ r, bvdomainToStr d b = .ok r ∧ r.2.sBufPos < printBufferSize) ∨
      bvdomainToStr d b = .error .assertion := by
  by_cases fits : w + 1 < printBufferSize
  · by_cases pos : b.sBufPos ≤ printBufferSize
    · obtain ⟨start, b', run, -, inside, -⟩ := bvdomainToStr_ok true d b fits pos
      exact .inl ⟨_, run, inside⟩
    · exact .inr (by simp only [bvdomainToStr, bvdomainToStrIn, toStrAssert_of_not pos, error_bind])
  · exact .inr (bvdomainToStr_long d b (by omega))

/-- Under `NDEBUG`, from a position inside the buffer, a call returns, with `s_buf_pos` inside
the buffer, exactly for the domains narrower than the buffer, and writes past its end for all
others. -/
theorem bvdomainToStrIn_ndebug (d : BvDomain w) (b : PrintBuffer)
    (pos : b.sBufPos ≤ printBufferSize) :
    (w < printBufferSize → ∃ r, bvdomainToStrIn false d b = .ok r ∧
        r.2.sBufPos ≤ printBufferSize) ∧
      (printBufferSize ≤ w → bvdomainToStrIn false d b = .error .outOfBounds) := by
  by_cases fits : w + 1 < printBufferSize
  · obtain ⟨start, b', run, -, inside, -⟩ := bvdomainToStr_ok false d b fits pos
    exact ⟨fun _ => ⟨_, run, inside.le⟩, fun wide => by omega⟩
  · exact bvdomainToStrIn_ndebug_long d b (by omega)

/-! ### The string returned -/

theorem cStringAt_eq (buf : Nat → Char) (s : List Char) (start fuel : Nat)
    (chars : ∀ k (h : k < s.length), buf (start + k) = s[k])
    (nul : buf (start + s.length) = Char.ofNat 0) (noNul : ∀ c ∈ s, c ≠ Char.ofNat 0)
    (enough : s.length < fuel) : cStringAt buf fuel start = s := by
  induction s generalizing start fuel with
  | nil =>
      obtain ⟨fuel, rfl⟩ : ∃ f, fuel = f + 1 := ⟨fuel - 1, by rw [List.length_nil] at enough; omega⟩
      simpa [cStringAt] using nul
  | cons c s ih =>
      rw [List.length_cons] at enough
      obtain ⟨fuel, rfl⟩ : ∃ f, fuel = f + 1 := ⟨fuel - 1, by omega⟩
      have first : buf start = c := chars 0 (Nat.succ_pos _)
      rw [cStringAt, first, if_neg (noNul c (List.mem_cons_self c s))]
      refine congrArg (c :: ·) (ih (start + 1) fuel (fun k h => ?_) ?_
        (fun c' mem => noNul c' (List.mem_cons_of_mem c mem)) (by omega))
      · simpa [Nat.add_assoc, Nat.add_comm 1 k] using chars (k + 1) (by simp; omega)
      · simpa [Nat.add_assoc, Nat.add_comm 1] using nul

theorem bitChar_ne_nul (l h : Bool) : bitChar l h ≠ Char.ofNat 0 := by
  cases l <;> cases h <;> decide

theorem toStrResult_eq_toChar (d : BvDomain w) (start : Nat) (b : PrintBuffer)
    (chars : ∀ k, k < w →
      b.sBuf (start + k) = bitChar (d.lo.getLsbD (w - 1 - k)) (d.hi.getLsbD (w - 1 - k)))
    (nul : b.sBuf (start + w) = Char.ofNat 0) (room : start + w < printBufferSize) :
    toStrResult (start, b) = d.toChar := by
  refine cStringAt_eq _ _ _ _ (fun k h => ?_) ?_ (fun c mem => ?_) ?_
  · rw [getElem_toChar, chars k (by simpa using h)]
  · simpa using nul
  · obtain ⟨k, h, rfl⟩ := List.getElem_of_mem mem
    rw [getElem_toChar]
    exact bitChar_ne_nul _ _
  · simp only [length_toChar]
    omega

/-- For a domain that fits the buffer with its `NUL`, the call returns, and returns the string of
`bzla_bvdomain_to_char`, at every position that earlier calls left. -/
theorem bvdomainToStr_eq_toChar (d : BvDomain w) (b : PrintBuffer) (fits : w + 1 < printBufferSize)
    (pos : b.sBufPos ≤ printBufferSize) :
    ∃ r, bvdomainToStr d b = .ok r ∧ toStrResult r = d.toChar := by
  obtain ⟨start, b', run, posAfter, inside, chars, nul, -⟩ := bvdomainToStr_ok true d b fits pos
  exact ⟨_, run, toStrResult_eq_toChar d start b' chars nul (by omega)⟩

theorem bvdomainToStr_eq_toChar_1x0x :
    (4 + 1 < printBufferSize ∧ PrintBuffer.init.sBufPos ≤ printBufferSize) ∧
      ∃ r, bvdomainToStr (⟨8#4, 13#4⟩ : BvDomain 4) PrintBuffer.init = .ok r ∧
        toStrResult r = BvDomain.toChar ⟨8#4, 13#4⟩ :=
  ⟨by decide, bvdomainToStr_eq_toChar _ _ (by decide) (by decide)⟩

/-- The buffer round-robins: a call whose string fits after the string of the call before
leaves that string in place, so both can be used together. -/
theorem bvdomainToStr_keeps_previous {w1 w2 : Nat} (d1 : BvDomain w1) (d2 : BvDomain w2)
    (b : PrintBuffer) (fits : w1 + 1 < printBufferSize) (pos : b.sBufPos ≤ printBufferSize) :
    ∃ r1, bvdomainToStr d1 b = .ok r1 ∧ (w2 + 1 < printBufferSize - r1.2.sBufPos →
      ∃ r2, bvdomainToStr d2 r1.2 = .ok r2 ∧ toStrResult (r1.1, r2.2) = d1.toChar ∧
        toStrResult r2 = d2.toChar) := by
  obtain ⟨start1, b1, call1, pos1, -, chars1, nul1, -⟩ := bvdomainToStr_ok true d1 b fits pos
  refine ⟨_, call1, fun after => ?_⟩
  change w2 + 1 < printBufferSize - b1.sBufPos at after
  obtain ⟨start2, b2, call2, pos2, -, chars2, nul2, frame, start⟩ :=
    bvdomainToStr_ok true d2 b1 (by omega) (by omega)
  rw [if_neg (by omega)] at start
  refine ⟨_, call2, toStrResult_eq_toChar d1 start1 b2 (fun k below => ?_) ?_ (by omega),
    toStrResult_eq_toChar d2 start2 b2 chars2 nul2 (by omega)⟩
  · rw [frame _ (.inl (by omega)), chars1 k below]
  · rw [frame _ (.inl (by omega)), nul1]

theorem bvdomainToStr_keeps_previous_two :
    (4 + 1 < printBufferSize ∧ PrintBuffer.init.sBufPos ≤ printBufferSize) ∧
      ∃ r1, bvdomainToStr (⟨8#4, 13#4⟩ : BvDomain 4) PrintBuffer.init = .ok r1 ∧
        (2 + 1 < printBufferSize - r1.2.sBufPos →
          ∃ r2, bvdomainToStr (⟨0#2, 3#2⟩ : BvDomain 2) r1.2 = .ok r2 ∧
            toStrResult (r1.1, r2.2) = BvDomain.toChar ⟨8#4, 13#4⟩ ∧
            toStrResult r2 = BvDomain.toChar ⟨0#2, 3#2⟩) :=
  ⟨by decide, bvdomainToStr_keeps_previous _ _ _ (by decide) (by decide)⟩

/-! ### Runs of calls -/

/-- The two builds over any run of calls. With assertions no write goes past the end of `s_buf`,
whatever the widths and the static state: each call returns or stops at an assertion first.
Under `NDEBUG`, from a position inside the buffer, the run writes past the end of `s_buf`
exactly when one of its domains is as wide as the buffer. -/
theorem toStrRun_bounds (ds : List (Σ w, BvDomain w)) (b : PrintBuffer) :
    toStrRun ds b ≠ .error .outOfBounds ∧
      (b.sBufPos ≤ printBufferSize →
        (toStrRunIn false ds b = .error .outOfBounds ↔ ∃ e ∈ ds, printBufferSize ≤ e.1)) := by
  induction ds generalizing b with
  | nil => exact ⟨nofun, fun _ => ⟨nofun, fun ⟨_, mem, _⟩ => nomatch mem⟩⟩
  | cons e ds ih =>
      obtain ⟨v, d⟩ := e
      refine ⟨?_, fun pos => ?_⟩
      · rcases bvdomainToStr_outcome d b with ⟨r, call, -⟩ | call
        · rw [toStrRun, toStrRunIn, show bvdomainToStrIn true d b = .ok r from call, ok_bind]
          exact (ih r.2).1
        · rw [toStrRun, toStrRunIn, show bvdomainToStrIn true d b = .error .assertion from call,
            error_bind]
          exact nofun
      · obtain ⟨narrow, wide⟩ := bvdomainToStrIn_ndebug d b pos
        simp only [List.mem_cons, exists_eq_or_imp]
        by_cases fits : v < printBufferSize
        · obtain ⟨r, call, inside⟩ := narrow fits
          rw [toStrRunIn, call, ok_bind, (ih r.2).2 inside]
          simp only [Nat.not_le.mpr fits, false_or]
        · rw [toStrRunIn, wide (Nat.le_of_not_lt fits), error_bind]
          simp only [Nat.le_of_not_lt fits, true_or]

/-- A run of calls on domains that fit the buffer returns, and keeps `s_buf_pos` within it. -/
theorem toStrRun_safe (ds : List (Σ w, BvDomain w)) (b : PrintBuffer)
    (small : ∀ e ∈ ds, e.1 + 1 < printBufferSize) (pos : b.sBufPos ≤ printBufferSize) :
    ∃ b', toStrRun ds b = .ok b' ∧ b'.sBufPos ≤ printBufferSize := by
  induction ds generalizing b with
  | nil => exact ⟨b, rfl, pos⟩
  | cons e ds ih =>
      obtain ⟨_, d⟩ := e
      obtain ⟨start, b', call, -, inside, -⟩ :=
        bvdomainToStr_ok true d b (small _ (List.mem_cons_self _ _)) pos
      rw [toStrRun, toStrRunIn, call, ok_bind]
      exact ih b' (fun e mem => small e (List.mem_cons_of_mem _ mem)) inside.le

theorem toStrRun_safe_two :
    ((∀ e ∈ ([⟨4, ⟨8#4, 13#4⟩⟩, ⟨2, ⟨0#2, 3#2⟩⟩] : List (Σ w, BvDomain w)),
        e.1 + 1 < printBufferSize) ∧ PrintBuffer.init.sBufPos ≤ printBufferSize) ∧
      ∃ b', toStrRun [⟨4, ⟨8#4, 13#4⟩⟩, ⟨2, ⟨0#2, 3#2⟩⟩] PrintBuffer.init = .ok b' ∧
        b'.sBufPos ≤ printBufferSize :=
  ⟨⟨by decide, by decide⟩, toStrRun_safe _ _ (by decide) (by decide)⟩

/-- The width 1023 and every larger one stop at an assertion, whatever the buffer. -/
theorem bvdomainToStr_too_long_assertion (n : Nat) (d : BvDomain (1023 + n)) (b : PrintBuffer) :
    bvdomainToStr d b = .error .assertion :=
  bvdomainToStr_long d b (by simp only [printBufferSize]; omega)

end Bzla
