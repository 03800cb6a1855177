/-!
# Registers and their roles

The generated code is an accumulator machine: each expression leaves its value in one register,
and seven more have fixed duties. Code is written in terms of the duties, so that the choice of
registers is made here once.

## Main definitions

* `ImpRiscV.Register` — the eight registers in use; `Register.name` is how assembly writes one.
* `Register.accumulator`, `Register.scratch`, `Register.exitTarget`, `Register.restartTarget`,
  `Register.framePointer`, `Register.stackPointer`, `Register.returnAddress`,
  `Register.serviceNumber` — the duties.
* `ImpRiscV.exitService` — the number of the environment service that ends the program.
-/

set_option relaxedAutoImplicit false
set_option autoImplicit false

namespace ImpRiscV

/-- A register that generated code uses. -/
inductive Register where
  | a0
  | a7
  | t1
  | t2
  | t3
  | s0
  | sp
  | ra
deriving DecidableEq, Repr, Inhabited

namespace Register

/-- The name of a register in assembly text. -/
def name : Register → String
  | .a0 => "a0"
  | .a7 => "a7"
  | .t1 => "t1"
  | .t2 => "t2"
  | .t3 => "t3"
  | .s0 => "s0"
  | .sp => "sp"
  | .ra => "ra"

/-! ### Duties -/

/-- Holds the value of the expression evaluated last. -/
@[match_pattern] abbrev accumulator : Register := .a0

/-- Receives the left operand of an operator or a comparison. -/
@[match_pattern] abbrev scratch : Register := .t1

/-- Holds the address of a loop's exit. -/
@[match_pattern] abbrev exitTarget : Register := .t2

/-- Holds the address of a loop's head. -/
@[match_pattern] abbrev restartTarget : Register := .t3

/-- Points at the first word of the frame of the running function. -/
@[match_pattern] abbrev framePointer : Register := .s0

/-- Points at the first free word of the stack, which grows towards lower addresses. -/
@[match_pattern] abbrev stackPointer : Register := .sp

/-- Holds the address to which the running function returns. -/
@[match_pattern] abbrev returnAddress : Register := .ra

/-- Holds the number of the service that an environment call asks for. -/
@[match_pattern] abbrev serviceNumber : Register := .a7

end Register

/-- The number of the environment service that ends the program. -/
def exitService : Int := 10

end ImpRiscV
