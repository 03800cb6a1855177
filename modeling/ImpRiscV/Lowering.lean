import ImpRiscV.Fragment.Control
import ImpRiscV.Program

/-!
# From programs to assembly

Each expression becomes a fragment that leaves its value in the accumulator, put together from
the fragments of its parts. A program is lowered declaration by declaration, after its names have
been found to differ; construct numbers run on from one declaration to the next and start anew
with every program.

## Main definitions

* `ImpRiscV.Expr.lower` — the fragment of an expression.
* `ImpRiscV.Program.emission` — everything that generating a program's code leaves behind.
* `ImpRiscV.Program.log` — the log of a program's generation, and `Program.records` as it is shown.
* `ImpRiscV.Program.compile` — the listing of a program, or the failure that refused it.
* `ImpRiscV.Program.assembly` — the listing as text.
-/

set_option relaxedAutoImplicit false
set_option autoImplicit false

namespace ImpRiscV

open Fragment

/-! ### Expressions -/

namespace Expr

mutual

/-- The fragment of an expression. It leaves the value of the expression, if it has one, in the
accumulator. -/
def lower : Expr → Fragment
  | .literal value => code [.li .accumulator value.toInt]
  | .var slot => load slot
  | .assign slot value => value.lower ++ store slot
  | .binary lhs op rhs =>
    operands lhs.lower rhs.lower ++ code [.arith op .accumulator .scratch .accumulator]
  | .ifElse ⟨lhs, cmp, rhs⟩ thenBody elseBody =>
    conditional (test lhs.lower cmp rhs.lower) thenBody.lower elseBody.lower
  | .whileDo ⟨lhs, cmp, rhs⟩ body => whileLoop (test lhs.lower cmp rhs.lower) body.lower
  | .repeatUntil body ⟨lhs, cmp, rhs⟩ => repeatLoop body.lower (test lhs.lower cmp rhs.lower)
  | .call callee args => Fragment.call callee args.length (lowerArgs args)
  | .seq first second => first.lower ++ second.lower
  | .skip => code [.nop]
  | .escape how => Fragment.escape how

/-- The fragment of an argument list: the arguments are evaluated and pushed from the last to the
first. -/
def lowerArgs : List Expr → Fragment
  | [] => nil
  | arg :: args => concat [lowerArgs args, arg.lower, push .accumulator]

end

end Expr

/-! ### Programs -/

/-- The fragment of a declaration. -/
def Declaration.lower (d : Declaration) : Fragment :=
  Fragment.function d.name d.arity d.body.lower

namespace Program

/-- The fragment of all declarations, in program order. -/
def lower (p : Program) : Fragment := concat (p.decls.map Declaration.lower)

/-- What generating the code of a program leaves behind. A name declared twice is reported before
any code is generated. -/
def emission (p : Program) : Emission :=
  .event (.begun p.decls.length) ++
    match p.duplicate? with
    | some name => .failure (.mistake (.duplicateFunction name))
    | none => (p.lower.emission { arity? := p.arity? } {}).finish

/-- The log of a program's generation. -/
def log (p : Program) : List Event := p.emission.events

/-- The log as it is shown. -/
def records (p : Program) : List Record := p.log.map Event.record

/-- The listing of a program, or the failure that refused it. -/
def compile (p : Program) : Except Failure (List (Instruction Label)) := p.emission.result

/-- The assembly text of a program, or the failure that refused it. -/
def assembly (p : Program) : Except Failure String :=
  p.compile.map fun code => Assembly.render (code.map (·.map Label.text))

end Program

end ImpRiscV
