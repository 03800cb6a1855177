import ImpRiscV.Fragment

/-!
# Stack and slots

Intermediate results wait on the stack. The stack pointer is kept at the first free word, so a
push stores at the pointer and then lowers it, and the word pushed last is one word above it.

## Main definitions

* `ImpRiscV.Fragment.push`, `ImpRiscV.Fragment.pop` — move a register to the stack and back.
* `ImpRiscV.Fragment.operands` — evaluate two operands, the first into the scratch register and
  the second into the accumulator.
* `ImpRiscV.Fragment.load`, `ImpRiscV.Fragment.store` — move the accumulator from and to a slot of
  the frame.
-/

set_option relaxedAutoImplicit false
set_option autoImplicit false

namespace ImpRiscV

namespace Fragment

/-- Push a register. -/
def push (r : Register) : Fragment :=
  code [.sw r 0 .stackPointer, .adjustStack (-wordSize)] ++ grow 1

/-- Pop a register. -/
def pop (r : Register) : Fragment :=
  code [.lw r wordSize .stackPointer, .adjustStack wordSize] ++ shrink 1

/-- Evaluate `lhs` and then `rhs`. The first value waits on the stack for the second; then the
scratch register holds the first and the accumulator the second. -/
def operands (lhs rhs : Fragment) : Fragment :=
  concat [lhs, push .accumulator, rhs, pop .scratch]

/-- Load a slot of the frame into the accumulator. -/
def load (slot : UInt64) : Fragment :=
  withAddress (slotOffset slot) fun offset => code [.lw .accumulator offset .framePointer]

/-- Store the accumulator in a slot of the frame. -/
def store (slot : UInt64) : Fragment :=
  withAddress (slotOffset slot) fun offset => code [.sw .accumulator offset .framePointer]

/-! ### The cursor -/

/-- A push is one word deeper. -/
@[simp] theorem advance_push (r : Register) (c : Cursor) :
    (push r).advance c = { c with depth := c.depth + 1 } := rfl

/-- A pop is one word shallower. -/
@[simp] theorem advance_pop (r : Register) (c : Cursor) :
    (pop r).advance c = { c with depth := c.depth - 1 } := rfl

/-- A load leaves the cursor alone, also where the slot has no offset. -/
@[simp] theorem advance_load (slot : UInt64) (c : Cursor) : (load slot).advance c = c := by
  unfold load withAddress
  split <;> rfl

/-- A store leaves the cursor alone, also where the slot has no offset. -/
@[simp] theorem advance_store (slot : UInt64) (c : Cursor) : (store slot).advance c = c := by
  unfold store withAddress
  split <;> rfl

end Fragment

end ImpRiscV
