import ImpRiscV.Expr
import ImpRiscV.Label

/-!
# Counting constructs

Conditionals and loops are numbered kind by kind, so the number of constructs of each kind in an
expression says how far its code moves the numbering.

## Main definitions

* `ImpRiscV.Expr.count`, `ImpRiscV.Expr.countList` — the number of constructs of a kind in an
  expression and in an argument list.
-/

set_option relaxedAutoImplicit false
set_option autoImplicit false

namespace ImpRiscV

namespace Expr

mutual

/-- The number of constructs of a kind in an expression. -/
def count (k : Construct) : Expr → Nat
  | .literal _ | .var _ | .skip | .escape _ => 0
  | .assign _ value => value.count k
  | .binary lhs _ rhs => lhs.count k + rhs.count k
  | .ifElse ⟨lhs, _, rhs⟩ thenBody elseBody =>
    (if k = .conditional then 1 else 0) +
      (lhs.count k + rhs.count k + thenBody.count k + elseBody.count k)
  | .whileDo ⟨lhs, _, rhs⟩ body =>
    (if k = .whileLoop then 1 else 0) + (lhs.count k + rhs.count k + body.count k)
  | .repeatUntil body ⟨lhs, _, rhs⟩ =>
    (if k = .repeatLoop then 1 else 0) + (body.count k + lhs.count k + rhs.count k)
  | .call _ args => countList k args
  | .seq first second => first.count k + second.count k

/-- The number of constructs of a kind in an argument list. -/
def countList (k : Construct) : List Expr → Nat
  | [] => 0
  | arg :: args => arg.count k + countList k args

end

end Expr

end ImpRiscV
