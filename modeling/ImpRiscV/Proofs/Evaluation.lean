import ImpRiscV.Lowering.Cursor

/-!
# What programs mean

The meaning of an expression is what its evaluation does to the slots of the running function. An
evaluation is *done* with a value, if the expression has one, or it *escapes* from the loop around
it. It is *undefined* where the language gives no meaning: where a value is used that no expression
specifies, a slot outside of the frame is touched, or a function is called that is not declared.
Loops and calls may go on forever, so an evaluation is given fuel. The fuel counts rounds of loops
and calls of functions, one inside the other; all else is structural in the expression.

## Main definitions

* `ImpRiscV.Arithmetic` — what operators compute and which comparisons hold; the source language
  and the machine share it.
* `ImpRiscV.Outcome`, `ImpRiscV.Eval` — how an evaluation ends, and evaluations over a frame.
* `ImpRiscV.Program.eval` — the evaluation of an expression of a program.
-/

set_option relaxedAutoImplicit false
set_option autoImplicit false

namespace ImpRiscV

/-- The arithmetic of words. It is total: also a division by zero has some result. -/
structure Arithmetic where
  /-- The result of an operator. -/
  compute : ArithOp → Int → Int → Int
  /-- Whether a comparison holds. -/
  holds : Comparison → Int → Int → Bool
  /-- Being equal does not depend on the order. -/
  holds_eq_comm : ∀ x y, holds .eq x y = holds .eq y x

namespace Arithmetic

/-- Two's complement arithmetic on words of 32 bits. The quotient by zero is minus one. -/
def twosComplement : Arithmetic where
  compute
    | .add, x, y => (x + y).bmod 0x100000000
    | .sub, x, y => (x - y).bmod 0x100000000
    | .mul, x, y => (x * y).bmod 0x100000000
    | .div, x, y => if y = 0 then -1 else (x.tdiv y).bmod 0x100000000
  holds
    | .eq, x, y => x == y
    | .lt, x, y => x < y
    | .gt, x, y => x > y
    | .le, x, y => x ≤ y
    | .ge, x, y => x ≥ y
  holds_eq_comm x y := by
    simp only [Bool.beq_eq_decide_eq, eq_comm]

end Arithmetic

/-! ### Evaluations -/

/-- The slots of a running function: its arguments, from slot `1` on. -/
abbrev Frame := List Int

/-- How an evaluation ends, with the slots it leaves. -/
inductive Outcome (α : Type) where
  /-- It delivers a value. -/
  | done (value : α) (frame : Frame)
  /-- It jumps out of the innermost loop around it. -/
  | escaped (how : Escape) (frame : Frame)
  /-- It does what has no meaning. -/
  | undefined
  /-- It does not end within its fuel. -/
  | exhausted
deriving DecidableEq, Repr

/-- Go on with the value of an evaluation that is done. -/
def Outcome.bind {α β : Type} (o : Outcome α) (k : α → Frame → Outcome β) : Outcome β :=
  match o with
  | .done x frame => k x frame
  | .escaped how frame => .escaped how frame
  | .undefined => .undefined
  | .exhausted => .exhausted

/-- An evaluation over the slots of the running function. -/
def Eval (α : Type) : Type := Frame → Outcome α

namespace Eval

variable {α β : Type}

/-- Evaluations are sequenced; what ends the first one ends the whole. -/
instance instMonadEval : Monad Eval where
  pure x := fun frame => .done x frame
  bind m k := fun frame => (m frame).bind k

/-- The evaluation that has no meaning. -/
def undefined : Eval α := fun _ => .undefined

/-- The value of an expression, where one is needed. -/
def value (m : Eval (Option Int)) : Eval Int := do
  match ← m with
  | some x => pure x
  | none => undefined

/-- The values of two operands, the left one first. -/
def operands (lhs rhs : Eval (Option Int)) : Eval (Int × Int) := do
  let x ← lhs.value
  let y ← rhs.value
  pure (x, y)

/-- Whether two operands compare as asked. -/
def test (A : Arithmetic) (lhs : Eval (Option Int)) (cmp : Comparison) (rhs : Eval (Option Int)) :
    Eval Bool := do
  let values ← operands lhs rhs
  pure (A.holds cmp values.1 values.2)

/-- The value held by a slot. -/
def read (slot : UInt64) : Eval Int := fun frame =>
  if slot = 0 then .undefined
  else match frame[slot.toNat - 1]? with
    | some x => .done x frame
    | none => .undefined

/-- Store a value in a slot. -/
def write (slot : UInt64) (x : Int) : Eval Unit := fun frame =>
  if slot = 0 ∨ frame.length < slot.toNat then .undefined
  else .done () (frame.set (slot.toNat - 1) x)

/-- A round of a loop that tests before its body. It tells whether there is another one. -/
def whileRound (test : Eval Bool) (body : Eval (Option Int)) : Eval Bool := do
  if ← test then
    let _ ← body
    pure true
  else pure false

/-- A round of a loop that tests after its body, and ends when the test holds. -/
def repeatRound (body : Eval (Option Int)) (test : Eval Bool) : Eval Bool := do
  let _ ← body
  let ends ← test
  pure !ends

/-- A round out of which an escape goes no further. -/
def caught (m : Eval Bool) : Eval Bool := fun frame =>
  match m frame with
  | .escaped .exit frame => .done false frame
  | .escaped .restart frame => .done true frame
  | o => o

/-- A loop: a round, and the loop again if there is another one. -/
def loop (m : Eval Bool) (again : Eval (Option Int)) : Eval (Option Int) := do
  if ← caught m then again else pure none

/-- The evaluation of a function's body on slots of its own. An escape cannot leave a function. -/
def within (slots : Frame) (m : Eval α) : Eval α := fun frame =>
  match m slots with
  | .done x _ => .done x frame
  | .escaped _ _ => .undefined
  | .undefined => .undefined
  | .exhausted => .exhausted

end Eval

/-! ### Expressions -/

/-- The declaration of a function. -/
def Program.decl? (p : Program) (name : String) : Option Declaration :=
  p.decls.find? (·.name == name)

namespace Expr

open Eval

variable (A : Arithmetic) (p : Program) (again : Expr → Eval (Option Int))

mutual

/-- The evaluation of an expression, in which `again` evaluates the further rounds of loops and
the bodies of called functions. -/
def evalWith : Expr → Eval (Option Int)
  | .literal value => pure (some value.toInt)
  | .var slot => some <$> read slot
  | .assign slot e => do
    let x ← (evalWith e).value
    write slot x
    pure none
  | .binary lhs op rhs => do
    let values ← operands (evalWith lhs) (evalWith rhs)
    pure (some (A.compute op values.1 values.2))
  | .ifElse ⟨lhs, cmp, rhs⟩ thenBody elseBody => do
    if ← test A (evalWith lhs) cmp (evalWith rhs) then evalWith thenBody else evalWith elseBody
  | .whileDo ⟨lhs, cmp, rhs⟩ body =>
    loop (whileRound (test A (evalWith lhs) cmp (evalWith rhs)) (evalWith body))
      (again (.whileDo ⟨lhs, cmp, rhs⟩ body))
  | .repeatUntil body ⟨lhs, cmp, rhs⟩ =>
    loop (repeatRound (evalWith body) (test A (evalWith lhs) cmp (evalWith rhs)))
      (again (.repeatUntil body ⟨lhs, cmp, rhs⟩))
  | .call callee args => do
    let xs ← evalArgsWith args
    match p.decl? callee with
    | some d => (again d.body).within xs
    | none => undefined
  | .seq first second => do
    let _ ← evalWith first
    evalWith second
  | .skip => pure none
  | .escape how => fun frame => .escaped how frame

/-- The evaluation of an argument list, from the last argument to the first. -/
def evalArgsWith : List Expr → Eval (List Int)
  | [] => pure []
  | arg :: args => do
    let xs ← evalArgsWith args
    let x ← (evalWith arg).value
    pure (x :: xs)

end

end Expr

/-- The evaluation of an expression of a program, whose loops and calls nest at most `fuel`
deep. -/
def Program.eval (A : Arithmetic) (p : Program) : Nat → Expr → Eval (Option Int)
  | 0, e => e.evalWith A p fun _ _ => .exhausted
  | fuel + 1, e => e.evalWith A p (p.eval A fuel)

end ImpRiscV
