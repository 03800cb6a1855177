import ImpRiscV.Operator

/-!
# Expressions of the source language

The source language is imperative, and everything in it is an expression. Names are resolved:
a variable is the number of a slot in the frame of the running function, and a call names its
callee and lists its arguments. Expressions nest through the two operands of a `Condition` and
through argument lists, so the file also provides the induction principle that a proof over
expressions wants: one case per constructor, with a hypothesis for every operand of a condition
and for every member of an argument list.

## Main definitions

* `ImpRiscV.Condition` — the test that conditionals and both loop forms share.
* `ImpRiscV.Escape` — the two ways out of the body of a loop.
* `ImpRiscV.Expr` — expressions; `Expr.block` is a list of them run in order.

## Main results

* `ImpRiscV.Expr.induct` — induction over expressions, the default of the `induction` tactic.
-/

set_option relaxedAutoImplicit false
set_option autoImplicit false

namespace ImpRiscV

/-- A test: the left operand compared with the right one. -/
structure Condition (ε : Type) where
  /-- The operand evaluated first. -/
  lhs : ε
  /-- The comparison that the test asks for. -/
  cmp : Comparison
  /-- The operand evaluated second. -/
  rhs : ε
deriving DecidableEq, Repr

/-- A jump out of the body of the innermost loop. -/
inductive Escape where
  /-- Leave the loop through its exit. -/
  | exit
  /-- Go back to the head of the loop. -/
  | restart
deriving DecidableEq, Repr

/-- The keyword that writes an escape in the source language. -/
def Escape.keyword : Escape → String
  | .exit => "break"
  | .restart => "continue"

/-- An expression. A form that computes nothing (`skip`, an assignment, a loop) has no
specified value. -/
inductive Expr where
  /-- A constant. -/
  | literal (value : Int64)
  /-- The value held by a slot of the frame. -/
  | var (slot : UInt64)
  /-- Store a value in a slot of the frame. -/
  | assign (slot : UInt64) (value : Expr)
  /-- Combine two operands, evaluated left to right. -/
  | binary (lhs : Expr) (op : ArithOp) (rhs : Expr)
  /-- Run one of two bodies. -/
  | ifElse (cond : Condition Expr) (thenBody elseBody : Expr)
  /-- Run the body as long as the condition, tested before each round, holds. -/
  | whileDo (cond : Condition Expr) (body : Expr)
  /-- Run the body until the condition, tested after each round, holds. -/
  | repeatUntil (body : Expr) (cond : Condition Expr)
  /-- Call a function. -/
  | call (callee : String) (args : List Expr)
  /-- Run one expression after another. -/
  | seq (first second : Expr)
  /-- Do nothing. -/
  | skip
  /-- Jump out of the body of the innermost loop. -/
  | escape (how : Escape)
deriving Repr, Inhabited

namespace Expr

/-- **Induction over expressions.** A condition contributes a hypothesis for each of its two
operands, and an argument list one for each of its members. -/
@[elab_as_elim, induction_eliminator]
theorem induct {motive : Expr → Prop}
    (literal : ∀ value, motive (.literal value))
    (var : ∀ slot, motive (.var slot))
    (assign : ∀ slot value, motive value → motive (.assign slot value))
    (binary : ∀ lhs op rhs, motive lhs → motive rhs → motive (.binary lhs op rhs))
    (ifElse : ∀ lhs cmp rhs thenBody elseBody, motive lhs → motive rhs → motive thenBody →
      motive elseBody → motive (.ifElse ⟨lhs, cmp, rhs⟩ thenBody elseBody))
    (whileDo : ∀ lhs cmp rhs body, motive lhs → motive rhs → motive body →
      motive (.whileDo ⟨lhs, cmp, rhs⟩ body))
    (repeatUntil : ∀ body lhs cmp rhs, motive body → motive lhs → motive rhs →
      motive (.repeatUntil body ⟨lhs, cmp, rhs⟩))
    (call : ∀ callee args, (∀ arg ∈ args, motive arg) → motive (.call callee args))
    (seq : ∀ first second, motive first → motive second → motive (.seq first second))
    (skip : motive .skip)
    (escape : ∀ how, motive (.escape how)) (e : Expr) : motive e :=
  @Expr.rec motive (fun cond => motive cond.lhs ∧ motive cond.rhs)
    (fun args => ∀ arg ∈ args, motive arg)
    literal var assign
    (fun lhs op rhs => binary lhs op rhs)
    (fun cond thenBody elseBody hc => ifElse cond.lhs cond.cmp cond.rhs thenBody elseBody hc.1 hc.2)
    (fun cond body hc => whileDo cond.lhs cond.cmp cond.rhs body hc.1 hc.2)
    (fun body cond hb hc => repeatUntil body cond.lhs cond.cmp cond.rhs hb hc.1 hc.2)
    call seq skip escape
    (fun _ _ _ hl hr => ⟨hl, hr⟩)
    (fun _ h => absurd h List.not_mem_nil)
    (fun _ _ ha has arg harg => (List.mem_cons.mp harg).elim (· ▸ ha) (has arg))
    e

/-! ### Blocks -/

/-- The members of a list, run in order: sequencing nested to the right. The empty block does
nothing, and a block of one expression is that expression. -/
def block : List Expr → Expr
  | [] => .skip
  | [e] => e
  | e :: es => .seq e (block es)

/-- The empty block does nothing. -/
@[simp] theorem block_nil : block [] = .skip := rfl

/-- A block of one expression is that expression. -/
@[simp] theorem block_singleton (e : Expr) : block [e] = e := rfl

/-- A longer block runs its first member and then the block of the others. -/
@[simp] theorem block_cons_cons (e f : Expr) (es : List Expr) :
    block (e :: f :: es) = .seq e (block (f :: es)) := rfl

end Expr

end ImpRiscV
