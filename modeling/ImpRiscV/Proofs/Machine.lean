import Mathlib.Logic.Function.Basic
import ImpRiscV.Proofs.DefinedLabels
import ImpRiscV.Proofs.Evaluation

/-!
# The machine that runs a listing

A machine has a program counter, which is a position of the listing, the registers, and a memory
that holds a word at every address. Labels stand for the positions that define them, and a
position is also what a register holds as a code address. The machine is stuck where a label is
not defined, where it jumps to an address that is no position, or where the listing ends; the
environment call does nothing.

## Main definitions

* `ImpRiscV.Machine`, `ImpRiscV.Machine.step`, `ImpRiscV.Machine.run` — states, steps and runs.
* `ImpRiscV.Machine.Reaches` — some run leads from one state to another.

## Main results

* `ImpRiscV.Machine.step_plain`, `ImpRiscV.Machine.step_jal`, `ImpRiscV.Machine.step_branchTo` and
  others — what the lines do.
-/

set_option relaxedAutoImplicit false
set_option autoImplicit false

namespace ImpRiscV

/-- A state of the machine. -/
structure Machine where
  /-- The position of the line executed next. -/
  pc : Nat
  /-- What the registers hold. -/
  regs : Register → Int
  /-- What the memory holds. -/
  mem : Int → Int

namespace Machine

/-- Go on to the next line. -/
def next (σ : Machine) : Machine := { σ with pc := σ.pc + 1 }

/-- Set a register and go on. -/
def set (σ : Machine) (r : Register) (x : Int) : Machine :=
  { σ.next with regs := Function.update σ.regs r x }

/-- Store a word and go on. -/
def store (σ : Machine) (a x : Int) : Machine :=
  { σ.next with mem := Function.update σ.mem a x }

/-- Go on at a position. -/
def goto (σ : Machine) (a : Nat) : Machine := { σ with pc := a }

variable (A : Arithmetic) (listing : List (Instruction Label))

/-- What a line does that neither jumps nor needs the address of a label. -/
def effect (σ : Machine) : Instruction Label → Machine
  | .li rd n => σ.set rd n
  | .lw rd n base => σ.set rd (σ.mem (σ.regs base + n))
  | .sw rs n base => σ.store (σ.regs base + n) (σ.regs rs)
  | .mv rd rs => σ.set rd (σ.regs rs)
  | .addi rd rs n => σ.set rd (σ.regs rs + n)
  | .arith op rd rs₁ rs₂ => σ.set rd (A.compute op (σ.regs rs₁) (σ.regs rs₂))
  | _ => σ.next

/-- One step: execute the line at the program counter. -/
def step (σ : Machine) : Option Machine :=
  match listing[σ.pc]? with
  | none => none
  | some (.la rd l) => (address listing l).map fun a => σ.set rd a
  | some (.branch cmp rs₁ rs₂ l) =>
    if A.holds cmp (σ.regs rs₁) (σ.regs rs₂) then (address listing l).map σ.goto
    else some σ.next
  | some (.b l) | some (.j l) => (address listing l).map σ.goto
  | some (.jal l) => (address listing l).map (σ.set .returnAddress (σ.pc + 1 : Nat)).goto
  | some (.jr rs) => (σ.regs rs).toNat?.map σ.goto
  | some i => some (σ.effect A i)

/-- A number of steps. -/
def run : Nat → Machine → Option Machine
  | 0, σ => some σ
  | n + 1, σ => (σ.step A listing).bind (run n)

/-- Some run leads from one state to another. -/
def Reaches (σ τ : Machine) : Prop := ∃ n, run A listing n σ = some τ

variable {A listing} {σ τ υ : Machine}

/-- Steps may be taken in two goes. -/
lemma run_add {m n : Nat} (h : run A listing m σ = some τ) :
    run A listing (m + n) σ = run A listing n τ := by
  induction m generalizing σ with
  | zero =>
    obtain rfl : σ = τ := by simpa [run] using h
    rw [Nat.zero_add]
  | succ m ih =>
    rw [run] at h
    obtain ⟨σ', hstep, hrun⟩ := Option.bind_eq_some_iff.mp h
    rw [Nat.add_right_comm, run, hstep, Option.bind_some, ih hrun]

/-- What is reached from a reached state is reached. -/
lemma Reaches.trans (h : Reaches A listing σ τ) (h' : Reaches A listing τ υ) :
    Reaches A listing σ υ := by
  obtain ⟨m, hm⟩ := h
  obtain ⟨n, hn⟩ := h'
  exact ⟨m + n, by rw [run_add hm, hn]⟩

/-- The next state is reached. -/
lemma Reaches.of_step (h : σ.step A listing = some τ) : Reaches A listing σ τ :=
  ⟨1, by simp [run, h]⟩

/-! ### What the lines do -/

section fields

variable (r r' : Register) (a a' : Nat) (x y : Int)

/-- A register is set on the way to the next line. -/
@[simp] lemma pc_set : (σ.set r x).pc = σ.pc + 1 := rfl

/-- Only one register is set. -/
@[simp] lemma regs_set : (σ.set r x).regs = Function.update σ.regs r x := rfl

/-- Setting a register leaves the memory alone. -/
@[simp] lemma mem_set : (σ.set r x).mem = σ.mem := rfl

/-- A word is stored on the way to the next line. -/
@[simp] lemma pc_store : (σ.store x y).pc = σ.pc + 1 := rfl

/-- A store leaves the registers alone. -/
@[simp] lemma regs_store : (σ.store x y).regs = σ.regs := rfl

/-- Only one word is stored. -/
@[simp] lemma mem_store : (σ.store x y).mem = Function.update σ.mem x y := rfl

/-- A jump leads to its target. -/
@[simp] lemma pc_goto : (σ.goto a).pc = a := rfl

/-- A jump leaves the registers alone. -/
@[simp] lemma regs_goto : (σ.goto a).regs = σ.regs := rfl

/-- A jump leaves the memory alone. -/
@[simp] lemma mem_goto : (σ.goto a).mem = σ.mem := rfl

/-- The next line follows. -/
@[simp] lemma pc_next : σ.next.pc = σ.pc + 1 := rfl

/-- Going on leaves the registers alone. -/
@[simp] lemma regs_next : σ.next.regs = σ.regs := rfl

/-- Going on leaves the memory alone. -/
@[simp] lemma mem_next : σ.next.mem = σ.mem := rfl

end fields

/-- The line neither jumps nor needs the address of a label. -/
def Plain : Instruction Label → Prop
  | .la _ _ | .branch _ _ _ _ | .b _ | .j _ | .jal _ | .jr _ => False
  | _ => True

/-- A line that does not jump is carried out. -/
lemma step_plain {i : Instruction Label} (h : listing[σ.pc]? = some i) (hi : Plain i) :
    σ.step A listing = some (σ.effect A i) := by
  unfold step
  rw [h]
  cases i <;> first | rfl | exact hi.elim

/-- After a line that does not jump, the next line follows. -/
@[simp] lemma pc_effect (i : Instruction Label) : (σ.effect A i).pc = σ.pc + 1 := by
  cases i <;> rfl

/-- The address of a label is the position that defines it. -/
lemma step_la {r : Register} {l : Label} {a : Nat} (h : listing[σ.pc]? = some (.la r l))
    (ha : address listing l = some a) : σ.step A listing = some (σ.set r a) := by
  simp [step, h, ha]

/-- A jump leads to the definition of its label. -/
lemma step_j {l : Label} {a : Nat} (h : listing[σ.pc]? = some (.j l))
    (ha : address listing l = some a) : σ.step A listing = some (σ.goto a) := by
  simp [step, h, ha]

/-- A jump in the form of conditionals leads to the definition of its label. -/
lemma step_b {l : Label} {a : Nat} (h : listing[σ.pc]? = some (.b l))
    (ha : address listing l = some a) : σ.step A listing = some (σ.goto a) := by
  simp [step, h, ha]

/-- A call keeps the position after itself and jumps. -/
lemma step_jal {l : Label} {a : Nat} (h : listing[σ.pc]? = some (.jal l))
    (ha : address listing l = some a) :
    σ.step A listing = some ((σ.set .returnAddress (σ.pc + 1 : Nat)).goto a) := by
  simp [step, h, ha]

/-- A jump through a register leads to the address that the register holds. -/
lemma step_jr {r : Register} {a : Nat} (h : listing[σ.pc]? = some (.jr r))
    (ha : σ.regs r = a) : σ.step A listing = some (σ.goto a) := by
  simp [step, h, ha, Int.toNat?]

/-- A branch compares the scratch register with the accumulator, also where it is written the
other way round. -/
lemma step_branchTo {cmp : Comparison} {l : Label} {a : Nat}
    (h : listing[σ.pc]? = some (cmp.branchTo l)) (ha : address listing l = some a) :
    σ.step A listing =
      some (if A.holds cmp (σ.regs .scratch) (σ.regs .accumulator) then σ.goto a else σ.next) := by
  have hsplit : ∀ t : Bool, (if t then (address listing l).map σ.goto else some σ.next) =
      some (if t then σ.goto a else σ.next) := by
    intro t
    cases t <;> simp [ha]
  cases cmp <;> simp only [Comparison.branchTo] at h <;> simp only [step, h, hsplit]
  rw [A.holds_eq_comm]

end Machine

end ImpRiscV
