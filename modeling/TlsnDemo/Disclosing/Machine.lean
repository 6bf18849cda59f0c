import TlsnDemo.Reveal
import Mathlib.Algebra.Order.Ring.Int

/-!
# Ranges on a 32-bit machine

The disclosure ranges as wasm32 computes them, on 32-bit `usize` and
`isize`: an addition that does not fit is `none`, and a conversion keeps
the low bits. Where every sum fits, these are the ranges of the model.
-/

namespace TlsnDemo

/-- `a + b` on `usize`. -/
def addUsize (a b : ℕ) : Option ℕ := if a + b < 2 ^ 32 then some (a + b) else none

/-- `a as isize`. -/
def asIsize (a : ℕ) : ℤ := if a < 2 ^ 31 then a else a - 2 ^ 32

/-- `a + b` on `isize`. -/
def addIsize (a b : ℤ) : Option ℤ :=
  if -2 ^ 31 ≤ a + b ∧ a + b < 2 ^ 31 then some (a + b) else none

/-- `x as usize`. -/
def asUsize (x : ℤ) : ℕ := (x % 2 ^ 32).toNat

theorem addUsize_eq_some {a b c : ℕ} : addUsize a b = some c ↔ a + b < 2 ^ 32 ∧ c = a + b := by
  unfold addUsize
  split
  · next h => exact ⟨fun hc => ⟨h, (Option.some.inj hc).symm⟩, fun hc => by rw [hc.2]⟩
  · next h => exact ⟨fun hc => absurd hc (by simp), fun hc => absurd hc.1 h⟩

theorem addIsize_eq_some {a b c : ℤ} :
    addIsize a b = some c ↔ (-2 ^ 31 ≤ a + b ∧ a + b < 2 ^ 31) ∧ c = a + b := by
  unfold addIsize
  split
  · next h => exact ⟨fun hc => ⟨h, (Option.some.inj hc).symm⟩, fun hc => by rw [hc.2]⟩
  · next h => exact ⟨fun hc => absurd hc (by simp), fun hc => absurd hc.1 h⟩

theorem asIsize_of_lt {a : ℕ} (h : a < 2 ^ 31) : asIsize a = a := if_pos h

theorem asUsize_of_nonneg {x : ℤ} (h : 0 ≤ x) (h' : x < 2 ^ 32) : asUsize x = x.toNat := by
  rw [asUsize, Int.emod_eq_of_lt h h']

namespace Range

variable {self value r : Range} {startOff endOff : ℤ}

def adjust? (self : Range) (startOff endOff : ℤ) : Option Range := do
  let start ← addIsize (asIsize self.start) startOff
  let stop ← addIsize (asIsize self.stop) endOff
  return ⟨asUsize (max start 0), asUsize stop⟩

def withQuotesAndColon? (self : Range) : Option Range := self.adjust? (-1) 2

def withNewline? (self : Range) : Option Range := self.adjust? 0 1

def fullPairQuoted? (self value : Range) : Option Range :=
  (addUsize value.stop 1).map self.extendTo

def headerFullRange? (self value : Range) : Option Range :=
  (addUsize value.stop 1).map self.spanTo

/-- Inside a message of a given length. -/
def Fits (self : Range) (length : ℕ) : Prop := self.start ≤ self.stop ∧ self.stop ≤ length

/-- The offsets of a range that stays below `2 ^ 31` are computed exactly. -/
theorem adjust?_eq (hstart : (self.start : ℤ) + startOff < 2 ^ 31)
    (hoff : -1 ≤ startOff) (hself : self.start < 2 ^ 31) (hself' : self.stop < 2 ^ 31)
    (hend : 0 ≤ endOff) (hstop : (self.stop : ℤ) + endOff < 2 ^ 31) :
    self.adjust? startOff endOff = some (self.adjust startOff endOff) := by
  have h1 : addIsize (asIsize self.start) startOff = some (self.start + startOff) := by
    rw [asIsize_of_lt hself, addIsize_eq_some]
    exact ⟨⟨by omega, hstart⟩, rfl⟩
  have h2 : addIsize (asIsize self.stop) endOff = some (self.stop + endOff) := by
    rw [asIsize_of_lt hself', addIsize_eq_some]
    exact ⟨⟨by omega, hstop⟩, rfl⟩
  rw [adjust?, h1, h2]
  simp only [Option.bind_eq_bind, Option.bind_some, Option.pure_def, Option.some.injEq, adjust]
  rw [asUsize_of_nonneg (by omega) (by omega), asUsize_of_nonneg (by omega) (by omega)]

end Range

/-- The value's range, padded on `usize`. -/
def KeyValueCommitConfig.valueRange? (self : KeyValueCommitConfig) (value : Range) :
    Option Range :=
  match self.commitmentLength with
  | some len =>
    if value.stop - value.start < len then
      (addUsize value.start len).map fun stop => ⟨value.start, stop⟩
    else some value
  | none => some value

def BodyFieldConfig.selectionRange? : BodyFieldConfig → StandardBody → Option Range
  | .quoted _, .keyValue key value => key.fullPairQuoted? value
  | .unquoted _, .keyValue key value => some (key.fullPairUnquoted value)
  | _, .value range => some range

/-- The start line from its first field to the byte after its last. -/
def startLineRange? (first last : Range) : Option Range :=
  last.withNewline?.map fun r => ⟨first.start, r.stop⟩

end TlsnDemo
