import Mathlib.Logic.Function.Basic
import ImpRiscV.Proofs.DefinedLabels

/-!
# Walks through a listing

A walk follows the lines of a function without computing anything. It only tracks where the stack
pointer stands and which registers and stack words hold the address of which label, and at a branch
it may go either way. A call is stepped over: the callee releases what was pushed for it. So that a
walk knows what a call releases and which escape a jump belongs to, the calls and escapes of a
program are listed in the order in which their code is laid out.

## Main definitions

* `ImpRiscV.Site`, `ImpRiscV.Program.sites` — the calls and escapes of a program, in order.
* `ImpRiscV.Program.callees` — the functions that a program calls.
* `ImpRiscV.Program.siteAt` — the call or escape to which a line belongs.
* `ImpRiscV.Knowledge`, `ImpRiscV.Knowledge.exec` — what a walk knows, and what a line changes.
* `ImpRiscV.Program.successors` — the next states of a walk; none if it is stuck.
* `ImpRiscV.Program.Walked` — a walk from the entry of a function gets to a state.
-/

set_option relaxedAutoImplicit false
set_option autoImplicit false

namespace ImpRiscV

/-! ### Calls and escapes -/

/-- A call or an escape of a program. -/
inductive Site where
  /-- A call, with the number of its arguments. -/
  | call (callee : String) (args : Nat)
  /-- An escape, with the label to which it leads. -/
  | escape (how : Escape) (target : Label)
deriving DecidableEq, Repr

/-- The line that performs the call or the escape. -/
def Site.line : Site → Instruction Label
  | .call callee _ => .jal (.entry callee)
  | .escape .exit _ => .jr .t2
  | .escape .restart _ => .jr .t3

/-- The line of an escape is the one that is lowered. -/
lemma Site.line_escape (how : Escape) (l : Label) :
    (Site.escape how l).line = .jr how.register := by
  cases how <;> rfl

/-- The callee of a call. -/
def Site.callee? : Site → Option String
  | .call callee _ => some callee
  | .escape _ _ => none

/-- The line performs a call or an escape. -/
def Instruction.isSite : Instruction Label → Bool
  | .jal _ => true
  | .jr r => r ≠ .returnAddress
  | _ => false

/-- The numbering after an expression. -/
def Numbering.past (m : Numbering) (e : Expr) : Numbering where
  conditionals := m.conditionals + e.count .conditional
  whileLoops := m.whileLoops + e.count .whileLoop
  repeatLoops := m.repeatLoops + e.count .repeatLoop

namespace Escape

/-- Where an escape out of the `while` loop with the given number leads. -/
def whileTarget (n : Nat) : Escape → Label
  | .exit => .numbered .whileExit n
  | .restart => .numbered .whileHead n

/-- Where an escape out of the `repeat` loop with the given number leads. -/
def repeatTarget (n : Nat) : Escape → Label
  | .exit => .numbered .repeatExit n
  | .restart => .numbered .repeatHead n

end Escape

namespace Expr

mutual

/-- The calls and escapes of an expression, in the order in which their lines are laid out. The
targets are those of the innermost loop around the expression; constructs are numbered on from
`m`. -/
def sites (targets? : Option (Escape → Label)) (m : Numbering) : Expr → List Site
  | .literal _ | .var _ | .skip => []
  | .assign _ value => value.sites targets? m
  | .binary lhs _ rhs => lhs.sites targets? m ++ rhs.sites targets? (m.past lhs)
  | .ifElse ⟨lhs, _, rhs⟩ thenBody elseBody =>
    let m₁ := m.next .conditional
    let m₂ := (m₁.past lhs).past rhs
    lhs.sites targets? m₁ ++ rhs.sites targets? (m₁.past lhs) ++ elseBody.sites targets? m₂ ++
      thenBody.sites targets? (m₂.past elseBody)
  | .whileDo ⟨lhs, _, rhs⟩ body =>
    let m₁ := m.next .whileLoop
    let inside := some (Escape.whileTarget (m₁.count .whileLoop))
    lhs.sites inside m₁ ++ rhs.sites inside (m₁.past lhs) ++
      body.sites inside ((m₁.past lhs).past rhs)
  | .repeatUntil body ⟨lhs, _, rhs⟩ =>
    let m₁ := m.next .repeatLoop
    let inside := some (Escape.repeatTarget (m₁.count .repeatLoop))
    body.sites inside m₁ ++ lhs.sites inside (m₁.past body) ++
      rhs.sites inside ((m₁.past body).past lhs)
  | .call callee args => sitesArgs targets? m args ++ [.call callee args.length]
  | .seq first second => first.sites targets? m ++ second.sites targets? (m.past first)
  | .escape how => (targets?.map fun target => .escape how (target how)).toList

/-- The calls and escapes of an argument list, whose last argument comes first. -/
def sitesArgs (targets? : Option (Escape → Label)) (m : Numbering) : List Expr → List Site
  | [] => []
  | arg :: args =>
    sitesArgs targets? m args ++ arg.sites targets? (args.foldr (fun e m => m.past e) m)

end

end Expr

namespace Program

/-- The calls and escapes of a list of functions. -/
def sitesFrom (m : Numbering) : List Declaration → List Site
  | [] => []
  | d :: ds => d.body.sites none m ++ sitesFrom (m.past d.body) ds

/-- The calls and escapes of a program, in the order in which their lines are laid out. -/
def sites (p : Program) : List Site := sitesFrom {} p.decls

/-- The names of the functions that a program calls, in order. -/
def callees (p : Program) : List String := p.sites.filterMap Site.callee?

/-- The call or escape to which the line at a position belongs: as many come before it as there are
such lines before the position. -/
def siteAt (p : Program) (listing : List (Instruction Label)) (pos : Nat) : Option Site :=
  p.sites[(listing.take pos).countP Instruction.isSite]?

end Program

/-! ### What a walk knows -/

/-- What is known on a walk. -/
structure Knowledge where
  /-- The stack pointer, relative to what it was before the function was called. -/
  sp : Int
  /-- The registers that hold the address of a label. -/
  regs : Register → Option Label := fun _ => none
  /-- The stack words that hold the address of a label. -/
  words : Int → Option Label := fun _ => none

namespace Knowledge

/-- What is known at the entry of a function: its caller has pushed the arguments and its own frame
pointer. -/
def atEntry (arity : UInt64) : Knowledge where
  sp := -4 * (arity.toNat + 1)

/-- What a register holds after a line has set it. Only additions may set the stack pointer. -/
def learn (k : Knowledge) (r : Register) (l? : Option Label) : Option Knowledge :=
  if r = .stackPointer then none else some { k with regs := Function.update k.regs r l? }

/-- What is known after a line that does not jump. A store relative to the frame pointer goes to a
slot of the frame, not to a word that the function has pushed. -/
def exec (k : Knowledge) : Instruction Label → Option Knowledge
  | .label _ | .ecall | .nop => some k
  | .li rd _ | .mv rd _ | .arith _ rd _ _ => k.learn rd none
  | .la rd l => k.learn rd (some l)
  | .lw rd n base => k.learn rd (if base = .stackPointer then k.words (k.sp + n) else none)
  | .sw rs n base =>
    if base = .stackPointer then
      some { k with words := Function.update k.words (k.sp + n) (k.regs rs) }
    else if base = .framePointer then some k else none
  | .addi rd rs n =>
    if rd = .stackPointer ∧ rs = .stackPointer then some { k with sp := k.sp + n }
    else k.learn rd none
  | _ => none

/-- What is known after a call with `args` arguments. They are released together with the frame
pointer pushed before them, and the callee may have used all other registers and all words below. -/
def release (k : Knowledge) (args : Nat) : Knowledge where
  sp := k.sp + 4 * (args + 1)
  regs r := if r = .framePointer then k.regs r else none
  words a := if a ≤ k.sp + 4 * (args + 1) then none else k.words a

end Knowledge

/-! ### Walks -/

/-- A state of a walk. -/
structure Walker where
  /-- The position of the line that comes next. -/
  pc : Nat
  /-- What is known there. -/
  known : Knowledge

namespace Program

variable (p : Program) (listing : List (Instruction Label))

/-- The number of arguments that the callee of the call at a position releases: as many as it is
declared with, or, if there is no declaration of its name, as many as it is called with. -/
def released (pos : Nat) : Label → Option Nat
  | .entry callee =>
    match p.decls.find? (·.name == callee), p.siteAt listing pos with
    | some d, _ => some d.arity.toNat
    | none, some (.call _ args) => some args
    | none, _ => none
  | .numbered _ _ => none

/-- The states that may come next on a walk; nothing if the walk is stuck. A walk that has come to a
return has no next state. -/
def successors (w : Walker) : Option (List Walker) :=
  match listing[w.pc]? with
  | none => none
  | some (.branch _ _ _ l) =>
    (address listing l).map fun a => [{ w with pc := a }, { w with pc := w.pc + 1 }]
  | some (.b l) | some (.j l) => (address listing l).map fun a => [{ w with pc := a }]
  | some (.jal l) => (p.released listing w.pc l).map fun n => [⟨w.pc + 1, w.known.release n⟩]
  | some (.jr .returnAddress) => some []
  | some (.jr r) =>
    (w.known.regs r).bind fun l => (address listing l).map fun a => [{ w with pc := a }]
  | some i => (w.known.exec i).map fun k => [⟨w.pc + 1, k⟩]

/-- Some walk from the entry of a function gets to a state. -/
inductive Walked (d : Declaration) : Walker → Prop
  /-- Walks start at the entry. -/
  | entry {a : Nat} (ha : address listing (.entry d.name) = some a) :
    Walked d ⟨a, .atEntry d.arity⟩
  /-- Walks go on to a state that may come next. -/
  | step {w w' : Walker} {next : List Walker} (hw : Walked d w)
    (hnext : p.successors listing w = some next) (hmem : w' ∈ next) : Walked d w'

end Program

end ImpRiscV
