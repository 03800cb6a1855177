import ImpRiscV.Fragment.Stack

/-!
# Control flow

A conditional branches over its second body to its first. A loop pushes the addresses of its exit
and of its head before it starts, so that an escape, however deep in half-evaluated operands and
half-built calls, only has to drop what was pushed since and to jump through the word it finds
there. A call pushes the frame pointer and its arguments, and the callee releases them when it
returns.

## Main definitions

* `ImpRiscV.Fragment.test` — jump if a comparison holds.
* `ImpRiscV.Fragment.conditional`, `ImpRiscV.Fragment.whileLoop`, `ImpRiscV.Fragment.repeatLoop` —
  the constructs.
* `ImpRiscV.Fragment.escape` — leave or restart the innermost loop.
* `ImpRiscV.Fragment.call`, `ImpRiscV.Fragment.function` — the two sides of a call.
-/

set_option relaxedAutoImplicit false
set_option autoImplicit false

namespace ImpRiscV

/-- The branch that is taken when the scratch register compares with the accumulator as asked. -/
def Comparison.branchTo (target : Label) : Comparison → Instruction Label
  | .eq => .branch .eq .accumulator .scratch target
  | cmp => .branch cmp .scratch .accumulator target

namespace Escape

/-- The register through which an escape jumps. -/
def register : Escape → Register
  | .exit => .exitTarget
  | .restart => .restartTarget

/-- The distance from the stack pointer, in bytes, of the word that holds the target of an
escape, once all that the loop's inside has pushed is dropped. The exit is pushed first. -/
def offset : Escape → Int
  | .exit => 2 * wordSize
  | .restart => wordSize

/-- The lines that perform an escape after dropping `pending` words. -/
def jump (how : Escape) (pending : Nat) : List (Instruction Label) :=
  (if pending = 0 then [] else [.adjustStack (pending * wordSize)]) ++
    [.lw how.register how.offset .stackPointer, .jr how.register]

end Escape

namespace Fragment

/-! ### Conditionals -/

/-- Evaluate two operands and jump to `target` if they compare as asked. -/
def test (lhs : Fragment) (cmp : Comparison) (rhs : Fragment) (target : Label) : Fragment :=
  operands lhs rhs ++ code [cmp.branchTo target]

/-- Run `thenBody` if the test jumps and `elseBody` if it does not; the code of `elseBody` comes
first. -/
def conditional (test : Label → Fragment) (thenBody elseBody : Fragment) : Fragment :=
  numbered .conditional fun a =>
    concat [
      test (a.label .thenBody),
      code [.label (a.label .elseBody)],
      elseBody,
      code [.b (a.label .join), .label (a.label .thenBody)],
      thenBody,
      code [.label (a.label .join)]]

/-! ### Loops -/

/-- Push the addresses of a loop's exit and head around the loop. The head comes first and its
exit last, and the end of `round` jumps back to the head. -/
def staged (exit head : Label) (round : Fragment) : Fragment :=
  concat [
    code [.la .exitTarget exit], push .exitTarget,
    code [.la .restartTarget head], push .restartTarget,
    inLoop (concat [code [.label head], round, code [.j head, .label exit]]),
    pop .restartTarget, pop .exitTarget]

/-- Run `body` as long as the test jumps. -/
def whileLoop (test : Label → Fragment) (body : Fragment) : Fragment :=
  numbered .whileLoop fun a =>
    staged (a.label .whileExit) (a.label .whileHead) <| concat [
      test (a.label .whileBody),
      code [.j (a.label .whileExit), .label (a.label .whileBody)],
      body]

/-- Run `body` until the test jumps. -/
def repeatLoop (body : Fragment) (test : Label → Fragment) : Fragment :=
  numbered .repeatLoop fun a =>
    staged (a.label .repeatExit) (a.label .repeatHead) <| concat [
      body,
      test (a.label .repeatExit)]

/-- Leave or restart the innermost loop: drop what was pushed since it staged its targets, and
jump through the staged word. -/
def escape (how : Escape) : Fragment where
  steps s c :=
    match s.loop? with
    | none => [.fail (.mistake (.escapeOutsideLoop how s.function))]
    | some depth => Step.emits (how.jump (c.depth - depth))
  advance c := c

/-- An escape leaves the cursor alone: the code after it is laid out as if it were reached. -/
@[simp] theorem advance_escape (how : Escape) (c : Cursor) : (escape how).advance c = c := rfl

/-! ### Calls -/

/-- Give up unless the callee takes `found` arguments. Nothing is known of a callee that is not
declared. -/
def checkArity (callee : String) (found : Nat) : Fragment where
  steps s _ :=
    match s.arity? callee with
    | none => []
    | some expected =>
      if expected.toNat = found then []
      else [.fail (.mistake (.arityMismatch s.function callee expected.toNat found))]
  advance c := c

/-- Checking a call leaves the cursor alone. -/
@[simp] theorem advance_checkArity (callee : String) (found : Nat) (c : Cursor) :
    (checkArity callee found).advance c = c := rfl

/-- Call a function with `count` arguments, which `args` pushes. The callee releases them and the
saved frame pointer. -/
def call (callee : String) (count : Nat) (args : Fragment) : Fragment :=
  concat [
    checkArity callee count,
    push .framePointer,
    args,
    code [.jal (.entry callee)],
    shrink (count + 1)]

/-- The code of a function: save the return address and set the frame pointer, evaluate the body,
then restore both registers, release the frame and return. -/
def function (name : String) (arity : UInt64) (body : Fragment) : Fragment :=
  record (.entered name arity.toNat) ++
  inFunction name (withAddress (frameSize arity) fun size => concat [
    code [.label (.entry name), .mv .framePointer .stackPointer,
      .sw .returnAddress 0 .stackPointer, .adjustStack (-wordSize)],
    body,
    code [.lw .returnAddress wordSize .stackPointer, .adjustStack size,
      .lw .framePointer 0 .stackPointer, .li .serviceNumber exitService, .ecall,
      .jr .returnAddress]])

end Fragment

end ImpRiscV
