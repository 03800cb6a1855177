import Mathlib.Data.List.Basic
import Mathlib.Tactic.Common
import ImpRiscV.Lowering.Cursor

/-!
# The steps of an expression

Everything that is said of a listing or a log is said of the steps that generate it. This file
spells out, once for every form of expression, which steps these are: the lines of the form itself,
and the steps of its parts between them, each where it stands. What a theorem about all expressions
is about (the failures, the labels, the uses of slots, the numbers) is then read off from these
equations, since a sequence of steps fails, defines and uses what its parts do.

## Main definitions

* `ImpRiscV.Step.lines`, `ImpRiscV.Step.failures`, `ImpRiscV.Step.events` — what steps add to the
  listing, how they give up, and what they record.
* `ImpRiscV.Step.addressed` — steps after an address computation.

## Main results

* `ImpRiscV.Emission.failure?_run`, `ImpRiscV.Emission.run_of_success` — what steps leave behind.
* `ImpRiscV.Expr.steps_lower_binary`, `ImpRiscV.Expr.steps_lower_whileDo` and others — the steps of
  each form of expression.
* `ImpRiscV.Declaration.steps_lower` — the steps of a declaration.
-/

set_option relaxedAutoImplicit false
set_option autoImplicit false

namespace ImpRiscV

/-! ### Views of steps -/

namespace Step

/-- The line that a step adds to the listing. -/
def line? : Step → Option (Instruction Label)
  | .emit i => some i
  | _ => none

/-- The failure with which a step gives up. -/
def failure? : Step → Option Failure
  | .fail f => some f
  | _ => none

/-- The event that a step records. -/
def event? : Step → Option Event
  | .note e => some e
  | .emit i => some (.emitted i)
  | .fail _ => none

/-- The lines that steps add to the listing. -/
def lines (ss : List Step) : List (Instruction Label) := ss.filterMap line?

/-- The failures among steps. -/
def failures (ss : List Step) : List Failure := ss.filterMap failure?

/-- The events that steps record. -/
def events (ss : List Step) : List Event := ss.filterMap event?

/-- No steps add no line. -/
@[simp] lemma lines_nil : lines [] = [] := rfl

/-- No steps have no failure. -/
@[simp] lemma failures_nil : failures [] = [] := rfl

/-- No steps record nothing. -/
@[simp] lemma events_nil : events [] = [] := rfl

/-- The line of a first step comes first. -/
@[simp] lemma lines_cons (st : Step) (ss : List Step) :
    lines (st :: ss) = st.line?.toList ++ lines ss := by
  cases st <;> rfl

/-- The failure of a first step comes first. -/
@[simp] lemma failures_cons (st : Step) (ss : List Step) :
    failures (st :: ss) = st.failure?.toList ++ failures ss := by
  cases st <;> rfl

/-- The event of a first step comes first. -/
@[simp] lemma events_cons (st : Step) (ss : List Step) :
    events (st :: ss) = st.event?.toList ++ events ss := by
  cases st <;> rfl

/-- Lines are added part by part. -/
@[simp] lemma lines_append (ss ts : List Step) : lines (ss ++ ts) = lines ss ++ lines ts :=
  List.filterMap_append

/-- Failures are those of the parts. -/
@[simp] lemma failures_append (ss ts : List Step) :
    failures (ss ++ ts) = failures ss ++ failures ts := List.filterMap_append

/-- Events are recorded part by part. -/
@[simp] lemma events_append (ss ts : List Step) : events (ss ++ ts) = events ss ++ events ts :=
  List.filterMap_append

/-- The lines of lines of code are these lines. -/
@[simp] lemma lines_emits (is : List (Instruction Label)) : lines (emits is) = is := by
  induction is with
  | nil => rfl
  | cons i is ih => exact congrArg (i :: ·) ih

/-- Adding lines does not fail. -/
@[simp] lemma failures_emits (is : List (Instruction Label)) : failures (emits is) = [] := by
  induction is with
  | nil => rfl
  | cons i is ih => exact ih

/-- The steps that follow an address computation, or its failure. -/
def addressed (address : Except Overflow Int) (rest : Int → List Step) : List Step :=
  match address with
  | .ok x => rest x
  | .error overflow => [.fail (.overflow overflow)]

/-- Steps that follow an address computation do not fail when it succeeds and they do not. -/
@[simp] lemma failures_addressed_eq_nil_iff {address : Except Overflow Int}
    {rest : Int → List Step} : failures (addressed address rest) = [] ↔
      ∃ x, address = .ok x ∧ failures (rest x) = [] := by
  cases address <;> simp [addressed, Step.failure?]

end Step

/-! ### What steps leave behind -/

namespace Emission

open Step

/-- The failure that steps leave behind is the first one. -/
theorem failure?_run (ss : List Step) : (run ss).failure? = (failures ss).head? := by
  induction ss with
  | nil => rfl
  | cons st ss ih => cases st <;> simp [ofStep, event, failure, Step.failure?, ih]

/-- Steps leave no failure exactly when there is none among them. -/
lemma failure?_run_eq_none_iff {ss : List Step} : (run ss).failure? = none ↔ failures ss = [] := by
  rw [failure?_run, List.head?_eq_none_iff]

/-- Without failure, all steps leave their events and their lines. -/
theorem run_of_success {ss : List Step} (h : failures ss = []) :
    run ss = { events := Step.events ss, code := lines ss } := by
  induction ss with
  | nil => rfl
  | cons st ss ih =>
    rw [failures_cons, List.append_eq_nil_iff] at h
    cases st with
    | note e | emit i =>
      rw [run_cons, ih h.2, append_of_success rfl]
      rfl
    | fail f => cases h.1

/-- Steps after others that do not fail add to what these record. -/
lemma events_run_append {ss : List Step} (h : failures ss = []) (ts : List Step) :
    (run (ss ++ ts)).events = Step.events ss ++ (run ts).events := by
  rw [run_append, run_of_success h, append_of_success rfl]

end Emission

namespace Fragment

open Step

variable {f : Fragment} {s : Scope} {c : Cursor}

/-- A fragment leaves no failure exactly when there is none among its steps. -/
lemma failure?_emission_eq_none_iff :
    (f.emission s c).failure? = none ↔ failures (f.steps s c) = [] :=
  Emission.failure?_run_eq_none_iff

/-- Without failure, a fragment leaves the lines of its steps. -/
lemma code_emission (h : (f.emission s c).failure? = none) :
    (f.emission s c).code = lines (f.steps s c) := by
  rw [emission, Emission.run_of_success (failure?_emission_eq_none_iff.mp h)]

/-- The steps that follow an address computation. -/
@[simp] lemma steps_withAddress (address : Except Overflow Int) (rest : Int → Fragment) :
    (withAddress address rest).steps s c = addressed address fun x => (rest x).steps s c := by
  cases address <;> rfl

/-! ### Numbers -/

section numbering

variable {k : Construct} {m : Numbering} {rest : Allocated → Numbering → List Step}

/-- A construct takes the number after those of its kind, while there is one. -/
lemma numbering_of_lt (h : m.count k + 1 < counterLimit) :
    numbering k m rest = .note (.numbered k (m.count k + 1)) :: rest (m.upcoming k) (m.next k) := by
  have hallocate : m.allocate k = .ok (m.upcoming k, m.next k) :=
    Numbering.allocate_eq_ok_iff.mpr ⟨h, rfl, rfl⟩
  simp [numbering, hallocate, Numbering.upcoming]

/-- A construct is refused when its counter is full, and nothing else is done. -/
lemma numbering_of_le (h : counterLimit ≤ m.count k + 1) :
    numbering k m rest = [.fail (.overflow .addition)] := by
  have hallocate : m.allocate k = .error .addition :=
    Numbering.allocate_eq_error_iff.mpr ⟨h, rfl⟩
  simp [numbering, hallocate]

/-- A construct does not fail when there is a number for it and the rest does not fail. -/
@[simp] lemma failures_numbering_eq_nil_iff : failures (numbering k m rest) = [] ↔
    m.count k + 1 < counterLimit ∧ failures (rest (m.upcoming k) (m.next k)) = [] := by
  by_cases h : m.count k + 1 < counterLimit
  · simp [numbering_of_lt h, h, Step.failure?]
  · simp [numbering_of_le (Nat.le_of_not_lt h), h, Step.failure?]

end numbering

/-! ### Lines of constructs -/

/-- The lines of a push. -/
def pushLines (r : Register) : List (Instruction Label) :=
  [.sw r 0 .stackPointer, .adjustStack (-wordSize)]

/-- The lines of a pop. -/
def popLines (r : Register) : List (Instruction Label) :=
  [.lw r wordSize .stackPointer, .adjustStack wordSize]

/-- The lines before the round of a loop. -/
def stageLines (exit head : Label) : List (Instruction Label) :=
  .la .exitTarget exit :: pushLines .exitTarget ++
    .la .restartTarget head :: pushLines .restartTarget ++ [.label head]

/-- The lines after the round of a loop. -/
def unstageLines (exit head : Label) : List (Instruction Label) :=
  [.j head, .label exit] ++ popLines .restartTarget ++ popLines .exitTarget

/-- The lines before the body of a function. -/
def prologue (name : String) : List (Instruction Label) :=
  [.label (.entry name), .mv .framePointer .stackPointer, .sw .returnAddress 0 .stackPointer,
    .adjustStack (-wordSize)]

/-- The lines that restore the registers of the caller and release `size` bytes. -/
def restore (size : Int) : List (Instruction Label) :=
  [.lw .returnAddress wordSize .stackPointer, .adjustStack size,
    .lw .framePointer 0 .stackPointer, .li .serviceNumber exitService, .ecall]

/-- The lines after the body of a function that releases `size` bytes. -/
def epilogue (size : Int) : List (Instruction Label) := restore size ++ [.jr .returnAddress]

/-- A function is its body between the two. -/
lemma function_eq (name : String) (arity : UInt64) (body : Fragment) :
    function name arity body = record (.entered name arity.toNat) ++
      inFunction name (withAddress (frameSize arity) fun size =>
        concat [code (prologue name), body, code (epilogue size)]) := rfl

end Fragment

/-! ### Expressions -/

namespace Expr

open Step Fragment

variable (s : Scope) (c : Cursor)

/-- A constant is one line. -/
@[simp] lemma steps_lower_literal (value : Int64) :
    (literal value).lower.steps s c = emits [.li .accumulator value.toInt] := by
  simp [lower]

/-- A variable is one line at the offset of its slot. -/
@[simp] lemma steps_lower_var (slot : UInt64) : (var slot).lower.steps s c =
    addressed (slotOffset slot) fun x => emits [.lw .accumulator x .framePointer] := by
  simp [lower, load]

/-- An assignment stores the value that it has evaluated. -/
@[simp] lemma steps_lower_assign (slot : UInt64) (value : Expr) :
    (assign slot value).lower.steps s c = value.lower.steps s c ++
      addressed (slotOffset slot) fun x => emits [.sw .accumulator x .framePointer] := by
  simp [lower, store]

/-- The first operand waits on the stack while the second one is evaluated. -/
@[simp] lemma steps_lower_binary (lhs : Expr) (op : ArithOp) (rhs : Expr) :
    (binary lhs op rhs).lower.steps s c =
      lhs.lower.steps s c ++ emits (pushLines .accumulator) ++
      rhs.lower.steps s ⟨c.numbering + lhs.constructs, c.depth + 1⟩ ++
      emits (popLines .scratch ++ [.arith op .accumulator .scratch .accumulator]) := by
  simp [lower, operands, push, pop, advance_lower, emits, pushLines, popLines]

/-- The branch over the second body of a conditional stands between the operands and that body. -/
@[simp] lemma steps_lower_ifElse (lhs : Expr) (cmp : Comparison) (rhs thenBody elseBody : Expr) :
    (ifElse ⟨lhs, cmp, rhs⟩ thenBody elseBody).lower.steps s c =
      numbering .conditional c.numbering fun a m =>
        lhs.lower.steps s ⟨m, c.depth⟩ ++ emits (pushLines .accumulator) ++
        rhs.lower.steps s ⟨m + lhs.constructs, c.depth + 1⟩ ++
        emits (popLines .scratch ++
          [cmp.branchTo (a.label .thenBody), .label (a.label .elseBody)]) ++
        elseBody.lower.steps s ⟨m + lhs.constructs + rhs.constructs, c.depth⟩ ++
        emits [.b (a.label .join), .label (a.label .thenBody)] ++
        thenBody.lower.steps s
          ⟨m + lhs.constructs + rhs.constructs + elseBody.constructs, c.depth⟩ ++
        emits [.label (a.label .join)] := by
  simp [lower, conditional, test, operands, push, pop, advance_lower, emits, pushLines, popLines]

/-- A loop stages its targets before its head; what comes after is in the scope of the loop. -/
@[simp] lemma steps_lower_whileDo (lhs : Expr) (cmp : Comparison) (rhs body : Expr) :
    (whileDo ⟨lhs, cmp, rhs⟩ body).lower.steps s c =
      numbering .whileLoop c.numbering fun a m =>
        emits (stageLines (a.label .whileExit) (a.label .whileHead)) ++
        lhs.lower.steps { s with loop? := some (c.depth + 2) } ⟨m, c.depth + 2⟩ ++
        emits (pushLines .accumulator) ++
        rhs.lower.steps { s with loop? := some (c.depth + 2) }
          ⟨m + lhs.constructs, c.depth + 3⟩ ++
        emits (popLines .scratch ++ [cmp.branchTo (a.label .whileBody),
          .j (a.label .whileExit), .label (a.label .whileBody)]) ++
        body.lower.steps { s with loop? := some (c.depth + 2) }
          ⟨m + lhs.constructs + rhs.constructs, c.depth + 2⟩ ++
        emits (unstageLines (a.label .whileExit) (a.label .whileHead)) := by
  simp [lower, whileLoop, staged, test, operands, push, pop, advance_lower, emits, pushLines,
    popLines, stageLines, unstageLines]

/-- A loop that tests last has its body before its operands. -/
@[simp] lemma steps_lower_repeatUntil (body lhs : Expr) (cmp : Comparison) (rhs : Expr) :
    (repeatUntil body ⟨lhs, cmp, rhs⟩).lower.steps s c =
      numbering .repeatLoop c.numbering fun a m =>
        emits (stageLines (a.label .repeatExit) (a.label .repeatHead)) ++
        body.lower.steps { s with loop? := some (c.depth + 2) } ⟨m, c.depth + 2⟩ ++
        lhs.lower.steps { s with loop? := some (c.depth + 2) }
          ⟨m + body.constructs, c.depth + 2⟩ ++
        emits (pushLines .accumulator) ++
        rhs.lower.steps { s with loop? := some (c.depth + 2) }
          ⟨m + body.constructs + lhs.constructs, c.depth + 3⟩ ++
        emits (popLines .scratch ++ [cmp.branchTo (a.label .repeatExit)]) ++
        emits (unstageLines (a.label .repeatExit) (a.label .repeatHead)) := by
  simp [lower, repeatLoop, staged, test, operands, push, pop, advance_lower, emits, pushLines,
    popLines, stageLines, unstageLines]

/-- A call pushes the frame pointer and its arguments before it jumps. -/
@[simp] lemma steps_lower_call (callee : String) (args : List Expr) :
    (call callee args).lower.steps s c =
      (checkArity callee args.length).steps s c ++ emits (pushLines .framePointer) ++
      (lowerArgs args).steps s ⟨c.numbering, c.depth + 1⟩ ++ emits [.jal (.entry callee)] := by
  simp [lower, Fragment.call, push, emits, pushLines]

/-- One expression after another. -/
@[simp] lemma steps_lower_seq (first second : Expr) : (seq first second).lower.steps s c =
    first.lower.steps s c ++
      second.lower.steps s ⟨c.numbering + first.constructs, c.depth⟩ := by
  simp [lower, advance_lower]

/-- Doing nothing is one line. -/
@[simp] lemma steps_lower_skip : skip.lower.steps s c = emits [.nop] := by
  simp [lower]

/-- The steps of an escape are those of its fragment. -/
@[simp] lemma steps_lower_escape (how : Escape) :
    (escape how).lower.steps s c = (Fragment.escape how).steps s c := by
  simp [lower]

/-- No arguments take no steps. -/
@[simp] lemma steps_lowerArgs_nil : (lowerArgs []).steps s c = [] := by
  simp [lowerArgs]

/-- The first argument is evaluated and pushed after the others. -/
@[simp] lemma steps_lowerArgs_cons (arg : Expr) (args : List Expr) :
    (lowerArgs (arg :: args)).steps s c =
      (lowerArgs args).steps s c ++
      arg.lower.steps s ⟨c.numbering + constructsList args, c.depth + args.length⟩ ++
      emits (pushLines .accumulator) := by
  simp [lowerArgs, push, advance_lowerArgs, emits, pushLines]

end Expr

/-! ### Declarations -/

namespace Declaration

open Step Fragment

/-- The steps of a function after it has been announced: once the size of its frame is known, its
body stands between prologue and epilogue, in the scope of the function and with nothing pushed. -/
def inside (d : Declaration) (s : Scope) (c : Cursor) : List Step :=
  addressed (frameSize d.arity) fun size => emits (prologue d.name) ++
    d.body.lower.steps { s with function := d.name, loop? := none } ⟨c.numbering, 0⟩ ++
    emits (epilogue size)

/-- A function is announced before anything else of it is done. -/
lemma steps_lower (d : Declaration) (s : Scope) (c : Cursor) :
    d.lower.steps s c = .note (.entered d.name d.arity.toNat) :: d.inside s c := by
  simp [lower, inside, function_eq]

/-- **A declaration without failure:** its frame has a size, its body does not fail, and its lines
are the body between prologue and epilogue. It leaves the cursor where its body does. -/
theorem lower_of_success {d : Declaration} {s : Scope} {c : Cursor}
    (h : failures (d.lower.steps s c) = []) : ∃ size, frameSize d.arity = .ok size ∧
      failures (d.body.lower.steps { s with function := d.name, loop? := none }
        ⟨c.numbering, 0⟩) = [] ∧
      d.lower.steps s c = .note (.entered d.name d.arity.toNat) :: (emits (prologue d.name) ++
        d.body.lower.steps { s with function := d.name, loop? := none } ⟨c.numbering, 0⟩ ++
        emits (epilogue size)) ∧
      d.lower.advance c = ⟨c.numbering + d.body.constructs, 0⟩ := by
  rw [steps_lower, inside] at h
  obtain ⟨size, hsize, hbody⟩ : ∃ size, frameSize d.arity = .ok size ∧
      failures (d.body.lower.steps { s with function := d.name, loop? := none }
        ⟨c.numbering, 0⟩) = [] := by simpa [failure?] using h
  refine ⟨size, hsize, hbody, ?_, ?_⟩
  · rw [steps_lower, inside, hsize]
    rfl
  · simp [lower, function_eq, hsize, withAddress, Expr.advance_lower]

end Declaration

end ImpRiscV
