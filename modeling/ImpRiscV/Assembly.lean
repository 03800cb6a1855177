import ImpRiscV.Instruction

/-!
# Assembly text

Each line of code is one line of text. Operands are separated by single spaces, a memory operand
is written `offset(base)`, and the definition of a label ends in a colon. Labels are written as
they are, whatever characters they hold.

## Main definitions

* `ImpRiscV.Instruction.text` — the text of a line, without its end of line.
* `ImpRiscV.Assembly.render` — the text of a listing, each line ended by a newline.

## Main results

* `ImpRiscV.Assembly.render_append` — the text of a listing is put together from the texts of
  its parts.
-/

set_option relaxedAutoImplicit false
set_option autoImplicit false

namespace ImpRiscV

namespace Instruction

/-- A memory operand: the constant offset, then the base register in parentheses. -/
def memoryOperand (offset : Int) (base : Register) : String :=
  toString offset ++ "(" ++ base.name ++ ")"

/-- The text of a line, without its end of line. -/
def text : Instruction String → String
  | .label l => l ++ ":"
  | .li rd imm => "li " ++ rd.name ++ " " ++ toString imm
  | .la rd l => "la " ++ rd.name ++ " " ++ l
  | .lw rd offset base => "lw " ++ rd.name ++ " " ++ memoryOperand offset base
  | .sw rs offset base => "sw " ++ rs.name ++ " " ++ memoryOperand offset base
  | .mv rd rs => "mv " ++ rd.name ++ " " ++ rs.name
  | .addi rd rs imm => "addi " ++ rd.name ++ " " ++ rs.name ++ " " ++ toString imm
  | .arith op rd rs₁ rs₂ =>
    op.mnemonic ++ " " ++ rd.name ++ " " ++ rs₁.name ++ " " ++ rs₂.name
  | .branch cmp rs₁ rs₂ l => cmp.mnemonic ++ " " ++ rs₁.name ++ " " ++ rs₂.name ++ " " ++ l
  | .b l => "b " ++ l
  | .j l => "j " ++ l
  | .jal l => "jal " ++ l
  | .jr rs => "jr " ++ rs.name
  | .ecall => "ecall"
  | .nop => "nop"

end Instruction

namespace Assembly

/-- The text of a listing: the text of each line, ended by a newline. -/
def render (is : List (Instruction String)) : String :=
  String.join (is.map fun i => i.text ++ "\n")

/-- An empty listing has no text. -/
@[simp] theorem render_nil : render [] = "" := rfl

/-- The text of a listing begins with its first line. -/
@[simp] theorem render_cons (i : Instruction String) (is : List (Instruction String)) :
    render (i :: is) = i.text ++ "\n" ++ render is := by
  simp [render]

/-- The text of a listing is put together from the texts of its parts. -/
@[simp] theorem render_append (is js : List (Instruction String)) :
    render (is ++ js) = render is ++ render js := by
  simp [render]

end Assembly

end ImpRiscV
