import ImpRiscV.Assembly
import ImpRiscV.Failure
import ImpRiscV.Label

/-!
# Emissions

Code is generated in steps. A step may be noted in the log, or it adds a line to the listing, or it
gives up, and then no further step is taken. An `Emission` is what steps leave behind: the log, the
listing and the failure that ended them, if one did. The log and the listing are kept apart, and a
line is put into each of them on its own; that they agree is a fact about what the steps leave
behind and not about how it is stored.

## Main definitions

* `ImpRiscV.Event` — what the log records; `Event.record` is how the log shows it.
* `ImpRiscV.Step` — a step of the generation of code.
* `ImpRiscV.Emission` — a log, a listing and the failure that ended them.
* `ImpRiscV.Emission.run` — what a list of steps leaves behind.

## Main results

* `ImpRiscV.Emission.append_assoc` — emissions form a monoid, in which a failure absorbs all that
  comes after it (`ImpRiscV.Emission.append_of_failure`).
* `ImpRiscV.Emission.run_append` — steps may be taken one part after another.
* `ImpRiscV.Emission.filterMap_line?_run` — the lines of the log are those of the listing.
-/

set_option relaxedAutoImplicit false
set_option autoImplicit false

namespace ImpRiscV

/-! ### Records -/

/-- How much detail a record of the log gives. -/
inductive Level where
  /-- A milestone of the run. -/
  | debug
  /-- A single step. -/
  | trace
deriving DecidableEq, Repr

/-- The activity that a record of the log comes from. -/
inductive Origin where
  /-- The generation of code. -/
  | generation
  /-- The numbering of constructs. -/
  | numbering
deriving DecidableEq, Repr

/-- A record of the log. -/
structure Record where
  /-- How much detail it gives. -/
  level : Level
  /-- The activity that it comes from. -/
  origin : Origin
  /-- Its text. -/
  message : String
deriving DecidableEq, Repr

/-- Something that the log records. -/
inductive Event where
  /-- A run over some number of declarations begins. -/
  | begun (declarations : Nat)
  /-- The code of a function begins. -/
  | entered (function : String) (arity : Nat)
  /-- A construct receives its number. -/
  | numbered (construct : Construct) (number : Nat)
  /-- A line of code is added to the listing. -/
  | emitted (line : Instruction Label)
  /-- A run ends with a listing of some number of lines. -/
  | finished (lines : Nat)
deriving DecidableEq, Repr

namespace Event

/-- How much detail the event's record gives. -/
def level : Event → Level
  | .begun _ | .entered _ _ | .finished _ => .debug
  | .numbered _ _ | .emitted _ => .trace

/-- The activity that the event belongs to. -/
def origin : Event → Origin
  | .numbered _ _ => .numbering
  | .begun _ | .entered _ _ | .emitted _ | .finished _ => .generation

/-- The wording of the event's record. -/
def message : Event → String
  | .begun n => "generating " ++ toString n ++ " declaration(s)"
  | .entered f n => "compiling `" ++ f ++ "` (" ++ toString n ++ " argument(s))"
  | .numbered c n => "allocated " ++ c.keyword ++ " labels #" ++ toString n
  | .emitted i => (i.map Label.text).text
  | .finished n => "emitted " ++ toString n ++ " line(s)"

/-- The event as the log shows it. -/
def record (e : Event) : Record := ⟨e.level, e.origin, e.message⟩

/-- The line of code that the event records, if it records one. -/
def line? : Event → Option (Instruction Label)
  | .emitted i => some i
  | _ => none

end Event

/-! ### Steps -/

/-- A step of the generation of code. -/
inductive Step where
  /-- Record an event. -/
  | note (e : Event)
  /-- Record a line of code and add it to the listing. -/
  | emit (line : Instruction Label)
  /-- Give up. -/
  | fail (f : Failure)
deriving DecidableEq, Repr

/-- The steps that add lines of code. -/
def Step.emits (is : List (Instruction Label)) : List Step := is.map .emit

/-! ### Emissions -/

/-- What steps leave behind. -/
@[ext] structure Emission where
  /-- The events in the log, in order. -/
  events : List Event := []
  /-- The lines of the listing, in order. -/
  code : List (Instruction Label) := []
  /-- The failure after which no further step was taken. -/
  failure? : Option Failure := none
deriving DecidableEq, Repr

namespace Emission

/-- A single event. -/
def event (e : Event) : Emission := { events := [e] }

/-- An immediate failure. -/
def failure (f : Failure) : Emission := { failure? := some f }

/-- What a step leaves behind. -/
def ofStep : Step → Emission
  | .note e => event e
  | .emit i => { events := [.emitted i], code := [i] }
  | .fail f => failure f

/-- One emission after another. A failure of the first leaves nothing of the second. -/
protected def append (a b : Emission) : Emission :=
  match a.failure? with
  | some _ => a
  | none => { events := a.events ++ b.events, code := a.code ++ b.code, failure? := b.failure? }

/-- Emissions are sequenced by `++`. -/
instance instAppendEmission : Append Emission := ⟨Emission.append⟩

/-- What a list of steps leaves behind, up to the first that gives up. -/
def run : List Step → Emission
  | [] => {}
  | st :: sts => ofStep st ++ run sts

/-- After an emission without failure, all of the second follows. -/
theorem append_of_success {a : Emission} (h : a.failure? = none) (b : Emission) :
    a ++ b =
      { events := a.events ++ b.events, code := a.code ++ b.code, failure? := b.failure? } := by
  change Emission.append a b = _
  simp [Emission.append, h]

/-- A failure absorbs all that comes after it. -/
theorem append_of_failure {a : Emission} {f : Failure} (h : a.failure? = some f) (b : Emission) :
    a ++ b = a := by
  change Emission.append a b = _
  simp [Emission.append, h]

/-- Nothing before an emission. -/
@[simp] theorem empty_append (a : Emission) : ({} : Emission) ++ a = a := by
  simp [append_of_success]

/-- Nothing after an emission. -/
@[simp] theorem append_empty (a : Emission) : a ++ ({} : Emission) = a := by
  rcases h : a.failure? with _ | f
  · rw [append_of_success h]
    ext1 <;> simp [h]
  · exact append_of_failure h _

/-- The failure of a sequence is the first one. -/
@[simp] theorem failure?_append (a b : Emission) :
    (a ++ b).failure? = a.failure?.or b.failure? := by
  rcases h : a.failure? with _ | f
  · simp [append_of_success h]
  · simp [append_of_failure h, h]

/-- The listing of a sequence without failure is put together from those of its parts. -/
theorem code_append {a : Emission} (h : a.failure? = none) (b : Emission) :
    (a ++ b).code = a.code ++ b.code := by
  simp [append_of_success h]

/-- **Emissions form a monoid.** -/
theorem append_assoc (a b c : Emission) : a ++ b ++ c = a ++ (b ++ c) := by
  rcases ha : a.failure? with _ | f
  · rcases hb : b.failure? with _ | g
    · simp [append_of_success, ha, hb, List.append_assoc]
    · rw [append_of_failure hb, append_of_failure (f := g)]
      simp [ha, hb]
  · rw [append_of_failure ha, append_of_failure ha, append_of_failure ha]

/-! ### Runs -/

/-- No steps leave nothing. -/
@[simp] theorem run_nil : run [] = {} := rfl

/-- The first step is taken first. -/
@[simp] theorem run_cons (st : Step) (sts : List Step) : run (st :: sts) = ofStep st ++ run sts :=
  rfl

/-- A recorded event comes before those of the other steps. -/
theorem events_run_note (e : Event) (ss : List Step) :
    (run (.note e :: ss)).events = e :: (run ss).events := by
  rw [run_cons, append_of_success rfl]
  rfl

/-- The record of a line comes before those of the other steps. -/
theorem events_run_emit (i : Instruction Label) (ss : List Step) :
    (run (.emit i :: ss)).events = .emitted i :: (run ss).events := by
  rw [run_cons, append_of_success rfl]
  rfl

/-- After a failure nothing is recorded. -/
theorem events_run_fail (f : Failure) (ss : List Step) : (run (.fail f :: ss)).events = [] := by
  rw [run_cons, append_of_failure (f := f) rfl]
  rfl

/-- **Steps may be taken one part after another.** -/
@[simp] theorem run_append (ss ts : List Step) : run (ss ++ ts) = run ss ++ run ts := by
  induction ss with
  | nil => simp
  | cons s ss ih => simp [ih, append_assoc]

/-- Lines are recorded and added to the listing alike. -/
@[simp] theorem run_emits (is : List (Instruction Label)) :
    run (Step.emits is) = { events := is.map .emitted, code := is } := by
  induction is with
  | nil => rfl
  | cons i is ih =>
    change ofStep (.emit i) ++ run (Step.emits is) = _
    rw [ih, append_of_success rfl]
    rfl

/-- **The log agrees with the listing:** its lines are those of the listing, in the same order. -/
theorem filterMap_line?_run (ss : List Step) (h : ∀ e, .note e ∈ ss → e.line? = none) :
    (run ss).events.filterMap Event.line? = (run ss).code := by
  induction ss with
  | nil => rfl
  | cons st ss ih =>
    have hrest := ih fun e he => h e (List.mem_cons_of_mem _ he)
    cases st with
    | note e =>
      have he := h e List.mem_cons_self
      rw [run_cons, append_of_success rfl]
      simp [ofStep, event, List.filterMap_cons_none he, hrest]
    | emit i =>
      rw [run_cons, append_of_success rfl]
      simp [ofStep, Event.line?, hrest]
    | fail f =>
      rw [run_cons, append_of_failure (f := f) rfl]
      rfl

/-! ### Results -/

/-- The listing of an emission without failure, or its failure. -/
def result (a : Emission) : Except Failure (List (Instruction Label)) :=
  match a.failure? with
  | some f => .error f
  | none => .ok a.code

/-- An emission followed by the record of how many lines it has. -/
def finish (a : Emission) : Emission := a ++ event (.finished a.code.length)

end Emission

end ImpRiscV
