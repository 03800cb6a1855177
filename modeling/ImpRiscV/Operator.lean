/-!
# Arithmetic operators and comparisons

The operators of the source language and of the target machine are the same two families, so
one pair of types serves both: an expression and an arithmetic instruction carry an `ArithOp`,
a condition and a branch carry a `Comparison`.

## Main definitions

* `ImpRiscV.ArithOp` — the four arithmetic operators; `ArithOp.mnemonic` is the name of the
  instruction that computes one.
* `ImpRiscV.Comparison` — the five comparisons; `Comparison.mnemonic` is the name of the branch
  that is taken when one holds.
-/

set_option relaxedAutoImplicit false
set_option autoImplicit false

namespace ImpRiscV

/-- An arithmetic operator on two words. -/
inductive ArithOp where
  | add
  | sub
  | mul
  | div
deriving DecidableEq, Repr, Inhabited

namespace ArithOp

/-- The name of the three-register instruction that computes the operator. -/
def mnemonic : ArithOp → String
  | .add => "add"
  | .sub => "sub"
  | .mul => "mul"
  | .div => "div"

end ArithOp

/-- A comparison of two words. -/
inductive Comparison where
  | eq
  | lt
  | gt
  | le
  | ge
deriving DecidableEq, Repr, Inhabited

namespace Comparison

/-- The name of the branch instruction that is taken when the comparison holds. -/
def mnemonic : Comparison → String
  | .eq => "beq"
  | .lt => "blt"
  | .gt => "bgt"
  | .le => "ble"
  | .ge => "bge"

end Comparison

end ImpRiscV
