import ImpRiscV.Operator
import ImpRiscV.Register

/-!
# Instructions of the target machine

The part of RISC-V that generated code uses, one constructor per form of line. A line of
assembly is an instruction or the definition of a label, and both are an `Instruction`. The type
of labels is a parameter: the lowering works with structured labels, assembly text with strings.

## Main definitions

* `ImpRiscV.Instruction` — a line of code over a type of labels.
* `ImpRiscV.Instruction.map` — the same line over other labels.
* `ImpRiscV.Instruction.definedLabel?`, `ImpRiscV.Instruction.target?` — the label that a line
  defines, and the label that it refers to.
* `ImpRiscV.Instruction.adjustStack` — move the stack pointer.

## Main results

* `ImpRiscV.Instruction.map_id`, `ImpRiscV.Instruction.map_map` — renaming is functorial.
* `ImpRiscV.Instruction.definedLabel?_map`, `ImpRiscV.Instruction.target?_map` — renaming acts
  on definitions and references alike.
-/

set_option relaxedAutoImplicit false
set_option autoImplicit false

namespace ImpRiscV

/-- A line of code whose labels are of type `α`. -/
inductive Instruction (α : Type) where
  /-- The definition of a label. -/
  | label (name : α)
  /-- Load a constant. -/
  | li (rd : Register) (imm : Int)
  /-- Load the address of a label. -/
  | la (rd : Register) (target : α)
  /-- Load a word from memory. -/
  | lw (rd : Register) (offset : Int) (base : Register)
  /-- Store a word to memory. -/
  | sw (rs : Register) (offset : Int) (base : Register)
  /-- Copy a register. -/
  | mv (rd rs : Register)
  /-- Add a constant. -/
  | addi (rd rs : Register) (imm : Int)
  /-- Combine two registers. -/
  | arith (op : ArithOp) (rd rs₁ rs₂ : Register)
  /-- Jump if two registers compare as asked. -/
  | branch (cmp : Comparison) (rs₁ rs₂ : Register) (target : α)
  /-- Jump to a label, in the form that conditionals use. -/
  | b (target : α)
  /-- Jump to a label, in the form that loops use. -/
  | j (target : α)
  /-- Call a function: jump, and keep the address of the next line. -/
  | jal (target : α)
  /-- Jump to the address held by a register. -/
  | jr (rs : Register)
  /-- Call the environment. -/
  | ecall
  /-- Do nothing. -/
  | nop
deriving DecidableEq, Repr

namespace Instruction

variable {α β γ : Type}

/-- Move the stack pointer by a number of bytes; a negative number makes the stack grow. -/
def adjustStack (bytes : Int) : Instruction α :=
  .addi .stackPointer .stackPointer bytes

/-- The label that a line defines, if it is the definition of a label. -/
def definedLabel? : Instruction α → Option α
  | .label l => some l
  | _ => none

/-- The label that a line refers to, if it refers to one. -/
def target? : Instruction α → Option α
  | .la _ l | .branch _ _ _ l | .b l | .j l | .jal l => some l
  | _ => none

/-! ### Renaming labels -/

/-- The line with every label replaced by its image. -/
def map (f : α → β) : Instruction α → Instruction β
  | .label l => .label (f l)
  | .li rd imm => .li rd imm
  | .la rd l => .la rd (f l)
  | .lw rd offset base => .lw rd offset base
  | .sw rs offset base => .sw rs offset base
  | .mv rd rs => .mv rd rs
  | .addi rd rs imm => .addi rd rs imm
  | .arith op rd rs₁ rs₂ => .arith op rd rs₁ rs₂
  | .branch cmp rs₁ rs₂ l => .branch cmp rs₁ rs₂ (f l)
  | .b l => .b (f l)
  | .j l => .j (f l)
  | .jal l => .jal (f l)
  | .jr rs => .jr rs
  | .ecall => .ecall
  | .nop => .nop

/-- Renaming by the identity changes nothing. -/
@[simp] theorem map_id (i : Instruction α) : i.map id = i := by cases i <;> rfl

/-- Renaming twice is renaming by the composite. -/
@[simp] theorem map_map (f : α → β) (g : β → γ) (i : Instruction α) :
    (i.map f).map g = i.map (g ∘ f) := by cases i <;> rfl

/-- Moving the stack pointer involves no label. -/
@[simp] theorem map_adjustStack (f : α → β) (n : Int) :
    (adjustStack n).map f = adjustStack n := rfl

/-- A renamed line defines the renamed label. -/
@[simp] theorem definedLabel?_map (f : α → β) (i : Instruction α) :
    (i.map f).definedLabel? = i.definedLabel?.map f := by cases i <;> rfl

/-- A renamed line refers to the renamed label. -/
@[simp] theorem target?_map (f : α → β) (i : Instruction α) :
    (i.map f).target? = i.target?.map f := by cases i <;> rfl

end Instruction

end ImpRiscV
