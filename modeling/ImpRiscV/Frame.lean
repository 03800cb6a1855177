/-!
# The layout of a frame

The frame of a running function consists of header words and its arguments, and slots are
addressed from the frame pointer at word distances. Slots and argument counts are 64-bit numbers
without sign, but addresses are computed in 64-bit arithmetic with sign, where a result outside
the range is an error and a number of `2⁶³` or more stands for itself minus `2⁶⁴`. So the
offset of slot `2⁶⁴ - 1` is `-4`, and slots in the middle of the range have no offset at all.

## Main definitions

* `ImpRiscV.Overflow` — the step of a computation that left the range.
* `ImpRiscV.wordSize` — the number of bytes of a word.
* `ImpRiscV.slotOffset` — the distance of a slot from the frame pointer, in bytes.
* `ImpRiscV.frameSize` — the number of bytes that a function releases when it returns.
* `ImpRiscV.arityLimit` — the number of arguments from which on sizes are not exact.

## Main results

* `ImpRiscV.checked_eq_ok_iff` — a checked result is the exact result, and it is in range.
* `ImpRiscV.signed_eq` — how a number without sign is read as one with sign.
* `ImpRiscV.slotOffset_eq_ok_iff` — which slots have an offset, and which one.
* `ImpRiscV.frameSize_eq_ok_iff` — which arities have a frame size, and which one.
-/

set_option relaxedAutoImplicit false
set_option autoImplicit false

namespace ImpRiscV

/-- An arithmetic step whose exact result does not fit into the bits it is computed with. -/
inductive Overflow where
  | addition
  | multiplication
deriving DecidableEq, Repr

/-- The wording of an overflow. -/
def Overflow.message : Overflow → String
  | .addition => "attempt to add with overflow"
  | .multiplication => "attempt to multiply with overflow"

/-- The number of bytes of a word. -/
def wordSize : Int := 4

/-- The number of words of a frame beside the arguments: the saved return address and the saved
frame pointer. -/
def headerWords : Int := 2

/-- A number has a 64-bit representation with sign: it is at least `-2⁶³` and less than `2⁶³`. -/
def InRange (x : Int) : Prop := -0x8000000000000000 ≤ x ∧ x < 0x8000000000000000

/-- Being in range is decided by two comparisons. -/
instance instDecidableInRange (x : Int) : Decidable (InRange x) :=
  inferInstanceAs (Decidable (_ ∧ _))

/-- The exact result of an arithmetic step, or the overflow it causes. -/
def checked (step : Overflow) (value : Int) : Except Overflow Int :=
  if InRange value then .ok value else .error step

/-- A checked result is the exact result, and it is in range. -/
theorem checked_eq_ok_iff {step : Overflow} {x y : Int} :
    checked step x = .ok y ↔ x = y ∧ InRange x := by
  unfold checked
  split <;> simp_all

/-- A step overflows exactly when its exact result is out of range. -/
theorem checked_eq_error_iff {step fault : Overflow} {x : Int} :
    checked step x = .error fault ↔ step = fault ∧ ¬InRange x := by
  unfold checked
  split <;> simp_all

/-- A 64-bit number without sign, read as one with sign: the bits are kept. -/
def signed (n : UInt64) : Int := n.toInt64.toInt

/-- The lower half of the numbers stand for themselves, and the upper half are shifted down to
the negative numbers. -/
theorem signed_eq (n : UInt64) :
    signed n = if n.toNat < 0x8000000000000000 then (n.toNat : Int)
      else n.toNat - 0x10000000000000000 := by
  change n.toBitVec.toInt = _
  rw [BitVec.toInt_eq_toNat_cond, UInt64.toNat_toBitVec]
  split <;> split <;> omega

/-- The distance of a slot from the frame pointer, in bytes. -/
def slotOffset (slot : UInt64) : Except Overflow Int :=
  checked .multiplication (signed slot * wordSize)

/-- A slot has an offset exactly when four times its number, read with sign, is in range. -/
theorem slotOffset_eq_ok_iff {slot : UInt64} {offset : Int} :
    slotOffset slot = .ok offset ↔ signed slot * 4 = offset ∧ InRange offset := by
  unfold slotOffset
  rw [checked_eq_ok_iff]
  constructor
  · rintro ⟨rfl, h⟩
    exact ⟨rfl, h⟩
  · rintro ⟨rfl, h⟩
    exact ⟨rfl, h⟩

/-- The number of bytes that a function of the given arity releases when it returns: its
arguments and the header. The addition is checked before the multiplication. -/
def frameSize (arity : UInt64) : Except Overflow Int :=
  (checked .addition (headerWords + signed arity)).bind fun words =>
    checked .multiplication (words * wordSize)

/-- A function has a frame size exactly when four times its arity, read with sign, and the header
is in range. -/
theorem frameSize_eq_ok_iff {arity : UInt64} {size : Int} :
    frameSize arity = .ok size ↔ 4 * (signed arity + 2) = size ∧ InRange size := by
  unfold frameSize
  cases hw : checked .addition (headerWords + signed arity) with
  | error fault =>
    have hrange := (checked_eq_error_iff.mp hw).2
    simp only [Except.bind, reduceCtorEq, false_iff]
    rintro ⟨rfl, hsize⟩
    simp only [InRange, headerWords] at hrange hsize
    omega
  | ok words =>
    obtain ⟨rfl, -⟩ := checked_eq_ok_iff.mp hw
    simp only [Except.bind, checked_eq_ok_iff, headerWords, wordSize]
    constructor
    · rintro ⟨rfl, hsize⟩
      exact ⟨by omega, hsize⟩
    · rintro ⟨rfl, hsize⟩
      have heq : (2 + signed arity) * 4 = 4 * (signed arity + 2) := by omega
      rw [heq]
      exact ⟨rfl, hsize⟩

/-! ### Arities without overflow -/

/-- The number of arguments from which on the size of a frame is out of range, or the number is read
as negative. -/
def arityLimit : Nat := 0x1ffffffffffffffe

example : arityLimit = 2 ^ 61 - 2 := rfl

/-- Below the limit, numbers stand for themselves. -/
theorem signed_of_lt {n : UInt64} (h : n.toNat < arityLimit) : signed n = n.toNat := by
  unfold arityLimit at h
  rw [signed_eq, if_pos (by omega)]

/-- Below the limit, the offset of a slot is four times its number. -/
theorem slotOffset_of_lt {slot : UInt64} (h : slot.toNat < arityLimit) :
    slotOffset slot = .ok (4 * slot.toNat) := by
  rw [slotOffset_eq_ok_iff, signed_of_lt h, InRange]
  unfold arityLimit at h
  omega

/-- Below the limit, the size of a frame is four times the number of its words. -/
theorem frameSize_of_lt {arity : UInt64} (h : arity.toNat < arityLimit) :
    frameSize arity = .ok (4 * (arity.toNat + 2)) := by
  rw [frameSize_eq_ok_iff, signed_of_lt h, InRange]
  unfold arityLimit at h
  omega

end ImpRiscV
