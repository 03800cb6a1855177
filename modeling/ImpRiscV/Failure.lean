import ImpRiscV.Expr
import ImpRiscV.Frame

/-!
# Why a program has no code

A program is refused for a mistake in it, which a `Diagnostic` reports, or because a number leaves
its range: that of the 64 bits of an address, or of the 32 bits that constructs are counted with.
The first failure met ends the generation, and no part of the listing is returned.

## Main definitions

* `ImpRiscV.Diagnostic` — the mistakes; `Diagnostic.message` words one, and
  `Diagnostic.function` is the function it was found in.
* `ImpRiscV.Failure` — a diagnostic or an overflow.
-/

set_option relaxedAutoImplicit false
set_option autoImplicit false

namespace ImpRiscV

/-- A mistake in a program. -/
inductive Diagnostic where
  /-- An escape stands outside of every loop of its function. -/
  | escapeOutsideLoop (how : Escape) (function : String)
  /-- A name is declared a second time. -/
  | duplicateFunction (function : String)
  /-- A call in `function` supplies another number of arguments than its callee declares. -/
  | arityMismatch (function callee : String) (expected found : Nat)
deriving DecidableEq, Repr

namespace Diagnostic

/-- The function that the mistake was found in. -/
def function : Diagnostic → String
  | .escapeOutsideLoop _ f | .duplicateFunction f | .arityMismatch f _ _ _ => f

/-- The wording of a mistake. -/
def message : Diagnostic → String
  | .escapeOutsideLoop how f =>
    "in `" ++ f ++ "`: `" ++ how.keyword ++ "` used outside of a loop"
  | .duplicateFunction f => "`" ++ f ++ "` is declared more than once"
  | .arityMismatch f callee expected found =>
    "in `" ++ f ++ "`: `" ++ callee ++ "` takes " ++ toString expected ++
      " argument(s) but " ++ toString found ++ " were supplied"

end Diagnostic

/-- The reason why the generation of code ended early. -/
inductive Failure where
  /-- The program has a mistake. -/
  | mistake (diagnostic : Diagnostic)
  /-- An address or the number of a construct left its range. -/
  | overflow (step : Overflow)
deriving DecidableEq, Repr

/-- The wording of a failure. -/
def Failure.message : Failure → String
  | .mistake d => d.message
  | .overflow o => o.message

end ImpRiscV
