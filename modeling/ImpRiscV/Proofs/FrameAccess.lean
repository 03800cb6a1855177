import Mathlib.Algebra.Group.Int.Defs
import Mathlib.Algebra.Group.Nat.Defs
import ImpRiscV.Proofs.DefinedLabels
import ImpRiscV.Proofs.Layout

/-!
# The lines that touch the frame

The slots of a program are only seen in the lines that load or store relative to the frame pointer.
This file lists the uses of slots in the order in which their lines are laid out and finds the lines
of a listing again from this list. Between prologue and epilogue nothing else has to do with the
frame: no line there moves the frame pointer, asks the environment for a service, or returns.

A slot is a number without sign, and its offset is computed from the same number read with sign. So
the offset is four times the slot only for slots below `2⁶¹`; the last `2⁶¹` slots have offsets
below zero, and those between have none and are refused. The same holds for the number of arguments
and the size of the frame.

## Main definitions

* `ImpRiscV.SlotUse`, `ImpRiscV.Program.slotUses` — the uses of slots, in order.
* `ImpRiscV.Instruction.handlesFrame` — the line accesses the frame, moves the frame pointer or
  leaves the function.

## Main results

* `ImpRiscV.Expr.usesSlots_lower` — the code of an expression handles the frame only where the
  expression uses a slot.
* `ImpRiscV.Program.frameOffsets_of_compile` — the offsets of all accesses and the sizes of all
  frames of a listing.
-/

set_option relaxedAutoImplicit false
set_option autoImplicit false

namespace ImpRiscV

/-! ### Uses of slots -/

/-- A use of a slot. -/
inductive SlotUse where
  /-- The value of the slot is read. -/
  | load (slot : UInt64)
  /-- The slot is assigned to. -/
  | store (slot : UInt64)
deriving DecidableEq, Repr

namespace SlotUse

/-- The slot that is used. -/
def slot : SlotUse → UInt64
  | .load slot | .store slot => slot

/-- The line that uses the slot at the given offset. -/
def line (u : SlotUse) (offset : Int) : Instruction Label :=
  match u with
  | .load _ => .lw .accumulator offset .framePointer
  | .store _ => .sw .accumulator offset .framePointer

end SlotUse

namespace Expr

mutual

/-- The uses of slots in an expression, in the order in which their lines are laid out: a value
comes before the slot it is assigned to, operands come from left to right, the second body of a
conditional comes before the first, and the body of a `repeat` before its condition. -/
def slotUses : Expr → List SlotUse
  | .literal _ | .skip | .escape _ => []
  | .var slot => [.load slot]
  | .assign slot value => value.slotUses ++ [.store slot]
  | .binary lhs _ rhs => lhs.slotUses ++ rhs.slotUses
  | .ifElse ⟨lhs, _, rhs⟩ thenBody elseBody =>
    lhs.slotUses ++ rhs.slotUses ++ elseBody.slotUses ++ thenBody.slotUses
  | .whileDo ⟨lhs, _, rhs⟩ body => lhs.slotUses ++ rhs.slotUses ++ body.slotUses
  | .repeatUntil body ⟨lhs, _, rhs⟩ => body.slotUses ++ (lhs.slotUses ++ rhs.slotUses)
  | .call _ args => slotUsesArgs args
  | .seq first second => first.slotUses ++ second.slotUses

/-- The uses of slots in an argument list, from the last argument to the first. -/
def slotUsesArgs : List Expr → List SlotUse
  | [] => []
  | arg :: args => slotUsesArgs args ++ arg.slotUses

end

end Expr

/-- The uses of slots in a program, declaration by declaration. -/
def Program.slotUses (p : Program) : List SlotUse := p.decls.flatMap (·.body.slotUses)

/-! ### Lines that handle the frame -/

namespace Instruction

variable {α : Type}

/-- The line loads or stores relative to the frame pointer. -/
def accessesFrame : Instruction α → Bool
  | .lw _ _ base | .sw _ _ base => base = .framePointer
  | _ => false

/-- The register that a line sets, if it sets one. A call sets the return address. -/
def sets? : Instruction α → Option Register
  | .li rd _ | .la rd _ | .lw rd _ _ | .mv rd _ | .addi rd _ _ | .arith _ rd _ _ => some rd
  | .jal _ => some .returnAddress
  | _ => none

/-- The line sets the frame pointer, asks the environment for a service, or returns. -/
def leavesFrame : Instruction α → Bool
  | .ecall => true
  | .jr r => r = .returnAddress
  | i => i.sets? = some .framePointer

/-- The line accesses the frame or leaves it. -/
def handlesFrame (i : Instruction α) : Bool := i.accessesFrame || i.leavesFrame

end Instruction

/-- The line of a use accesses the frame. -/
lemma SlotUse.accessesFrame_line (u : SlotUse) (x : Int) : (u.line x).accessesFrame := by
  cases u <;> rfl

/-- The line of a use does not leave the frame. -/
lemma SlotUse.leavesFrame_line (u : SlotUse) (x : Int) : (u.line x).leavesFrame = false := by
  cases u <;> rfl

/-! ### Expressions -/

/-- If the steps do not fail, their lines that handle the frame are those of the uses, in order, and
all uses have an offset. -/
def UsesSlots (ss : List Step) (uses : List SlotUse) : Prop :=
  Step.failures ss = [] →
    (Step.lines ss).filter Instruction.handlesFrame =
      uses.map (fun u => u.line (4 * signed u.slot)) ∧
    ∀ u ∈ uses, InRange (4 * signed u.slot)

namespace UsesSlots

open Step Fragment

variable {ss ts : List Step} {us vs : List SlotUse} {s : Scope} {c : Cursor}

/-- In a sequence the uses of the second part follow those of the first. -/
lemma append (hss : UsesSlots ss us) (hts : UsesSlots ts vs) : UsesSlots (ss ++ ts) (us ++ vs) := by
  intro h
  rw [failures_append, List.append_eq_nil_iff] at h
  obtain ⟨hlines, hrange⟩ := hss h.1
  obtain ⟨hlines', hrange'⟩ := hts h.2
  refine ⟨by rw [lines_append, List.filter_append, hlines, hlines', List.map_append],
    fun u hu => ?_⟩
  rcases List.mem_append.mp hu with hu | hu
  · exact hrange u hu
  · exact hrange' u hu

/-- Steps before and after which the frame is not handled use what the others do. -/
lemma append_nil (hss : UsesSlots ss us) (hts : UsesSlots ts []) : UsesSlots (ss ++ ts) us := by
  simpa using hss.append hts

/-- Lines that have nothing to do with the frame. -/
lemma emits (is : List (Instruction Label)) (h : is.filter Instruction.handlesFrame = []) :
    UsesSlots (emits is) [] := fun _ =>
  ⟨(congrArg _ (lines_emits is)).trans h, fun _ hu => absurd hu List.not_mem_nil⟩

/-- A construct uses what the steps after its number use. -/
lemma numbering {k : Construct} {m : Numbering} {rest : Allocated → Numbering → List Step}
    (h : ∀ a m', UsesSlots (rest a m') us) : UsesSlots (numbering k m rest) us := by
  intro hs
  obtain ⟨hlt, hrest⟩ := failures_numbering_eq_nil_iff.mp hs
  rw [numbering_of_lt hlt]
  exact h _ _ hrest

/-- The lines between the operands of a test and what follows do not handle the frame. -/
lemma testLines (cmp : Comparison) (target : Label) {is : List (Instruction Label)}
    (h : is.filter Instruction.handlesFrame = []) :
    UsesSlots (Step.emits (popLines .scratch ++ cmp.branchTo target :: is)) [] := by
  have hbranch : (cmp.branchTo target).handlesFrame = false := by cases cmp <;> rfl
  have hpop : (popLines .scratch).filter Instruction.handlesFrame = [] := rfl
  exact .emits _ (by simp [List.filter_append, hpop, hbranch, h])

/-- The check of a call is no line. -/
lemma checkArity (callee : String) (found : Nat) :
    UsesSlots ((checkArity callee found).steps s c) [] := by
  refine fun _ => ⟨?_, fun _ hu => absurd hu List.not_mem_nil⟩
  unfold Fragment.checkArity
  dsimp only
  split
  · rfl
  · split_ifs <;> rfl

/-- An escape jumps through the register of a target, never through the return address. -/
lemma escape (how : Escape) : UsesSlots ((Fragment.escape how).steps s c) [] := by
  unfold Fragment.escape
  dsimp only
  split
  · exact fun _ => ⟨rfl, fun _ hu => absurd hu List.not_mem_nil⟩
  · refine .emits _ ?_
    unfold Escape.jump
    split_ifs <;> cases how <;> rfl

/-- A use of a slot is one line, at the offset that the slot has. -/
lemma use (u : SlotUse) :
    UsesSlots (addressed (slotOffset u.slot) fun x => Step.emits [u.line x]) [u] := by
  intro h
  obtain ⟨x, hx, -⟩ := failures_addressed_eq_nil_iff.mp h
  obtain ⟨hvalue, hrange⟩ := slotOffset_eq_ok_iff.mp hx
  obtain rfl : x = 4 * signed u.slot := by omega
  have hline : (u.line (4 * signed u.slot)).handlesFrame := by
    rw [Instruction.handlesFrame, u.accessesFrame_line, Bool.true_or]
  refine ⟨by simp [addressed, hx, hline], fun v hv => ?_⟩
  obtain rfl := List.mem_singleton.mp hv
  exact hrange

end UsesSlots

namespace Expr

open Step Fragment

/-- If each argument uses its slots, so does the argument list. -/
lemma usesSlots_lowerArgs {args : List Expr} {s : Scope}
    (h : ∀ arg ∈ args, ∀ c : Cursor, UsesSlots (arg.lower.steps s c) arg.slotUses) (c : Cursor) :
    UsesSlots ((lowerArgs args).steps s c) (slotUsesArgs args) := by
  induction args with
  | nil => exact .emits [] rfl
  | cons arg args ih =>
    have hargs := ih fun a ha => h a (List.mem_cons_of_mem _ ha)
    rw [steps_lowerArgs_cons]
    exact (hargs.append (h arg List.mem_cons_self _)).append_nil (.emits _ (by rfl))

/-- **The code of an expression handles the frame only where the expression uses a slot.**

**Proof sketch.** Induction over the expression: the uses of its parts are listed in the order in
which their steps are taken, and only variables and assignments add one. -/
theorem usesSlots_lower (e : Expr) (s : Scope) (c : Cursor) :
    UsesSlots (e.lower.steps s c) e.slotUses := by
  induction e generalizing s c with
  | literal value | skip => exact .emits _ rfl
  | var slot =>
    rw [steps_lower_var]
    exact .use (.load slot)
  | assign slot value ih =>
    rw [steps_lower_assign]
    exact (ih s c).append (.use (.store slot))
  | binary lhs op rhs ihl ihr =>
    rw [steps_lower_binary]
    exact (((ihl s c).append_nil (.emits _ (by rfl))).append (ihr s _)).append_nil
      (.emits _ (by rfl))
  | ifElse lhs cmp rhs thenBody elseBody ihl ihr iht ihe =>
    rw [steps_lower_ifElse]
    exact .numbering fun a m => ((((((((ihl s _).append_nil (.emits _ (by rfl))).append
      (ihr s _)).append_nil (.testLines cmp _ (by rfl))).append (ihe s _)).append_nil
      (.emits _ (by rfl))).append (iht s _)).append_nil (.emits _ (by rfl)))
  | whileDo lhs cmp rhs body ihl ihr ihb =>
    rw [steps_lower_whileDo]
    refine .numbering fun a m => ?_
    have hstage := UsesSlots.emits (stageLines (a.label .whileExit) (a.label .whileHead)) rfl
    exact ((((((hstage.append (ihl _ _)).append_nil (.emits _ (by rfl))).append
      (ihr _ _)).append_nil (.testLines cmp _ (by rfl))).append (ihb _ _)).append_nil
      (.emits _ (by rfl)))
  | repeatUntil body lhs cmp rhs ihb ihl ihr =>
    rw [steps_lower_repeatUntil, slotUses, ← List.append_assoc]
    refine .numbering fun a m => ?_
    have hstage :=
      UsesSlots.emits (stageLines (a.label .repeatExit) (a.label .repeatHead)) rfl
    exact (((((hstage.append (ihb _ _)).append (ihl _ _)).append_nil (.emits _ (by rfl))).append
      (ihr _ _)).append_nil (.testLines cmp _ (by rfl))).append_nil (.emits _ (by rfl))
  | call callee args ih =>
    rw [steps_lower_call]
    have hcheck := UsesSlots.checkArity (s := s) (c := c) callee args.length
    exact ((hcheck.append_nil (.emits _ (by rfl))).append
      (usesSlots_lowerArgs (fun arg harg => ih arg harg s) _)).append_nil (.emits _ (by rfl))
  | seq first second ihf ihs =>
    rw [steps_lower_seq]
    exact (ihf s c).append (ihs s _)
  | escape how =>
    rw [steps_lower_escape]
    exact .escape how

end Expr

namespace Program

open Fragment

variable {p : Program} {listing : List (Instruction Label)}

/-- Of the lines that handle the frame, those of uses are the accesses. -/
lemma filter_accessesFrame_of_handlesFrame {is : List (Instruction Label)} {us : List SlotUse}
    (h : is.filter Instruction.handlesFrame = us.map fun u => u.line (4 * signed u.slot)) :
    is.filter Instruction.accessesFrame = us.map fun u => u.line (4 * signed u.slot) := by
  have hsub : ∀ i : Instruction Label, (i.accessesFrame && i.handlesFrame) = i.accessesFrame := by
    intro i
    cases hi : i.accessesFrame <;> simp [Instruction.handlesFrame, hi]
  have hall : ∀ i ∈ us.map fun u => u.line (4 * signed u.slot), i.accessesFrame := by
    intro i hi
    obtain ⟨use, -, rfl⟩ := List.mem_map.mp hi
    exact use.accessesFrame_line _
  calc is.filter Instruction.accessesFrame
      = (is.filter Instruction.handlesFrame).filter Instruction.accessesFrame := by
        simp only [List.filter_filter, hsub]
    _ = us.map fun u => u.line (4 * signed u.slot) := by rw [h, List.filter_eq_self.mpr hall]

/-- The accesses of declarations that are lowered without failure are their uses of slots, and
these have offsets. -/
lemma filter_accessesFrame_decls {ds : List Declaration} {s : Scope} {c : Cursor}
    (h : Step.failures ((concat (ds.map Declaration.lower)).steps s c) = []) :
    (Step.lines ((concat (ds.map Declaration.lower)).steps s c)).filter Instruction.accessesFrame =
      (ds.flatMap (·.body.slotUses)).map (fun u => u.line (4 * signed u.slot)) ∧
    ∀ u ∈ ds.flatMap (·.body.slotUses), InRange (4 * signed u.slot) := by
  induction ds generalizing c with
  | nil => exact ⟨rfl, fun _ hu => absurd hu List.not_mem_nil⟩
  | cons d ds ih =>
    rw [List.map_cons, concat_cons, steps_append, Step.failures_append,
      List.append_eq_nil_iff] at h
    obtain ⟨size, -, hbody, hsteps, -⟩ := Declaration.lower_of_success h.1
    obtain ⟨hhandles, hrange⟩ := d.body.usesSlots_lower _ _ hbody
    have hprologue : (prologue d.name).filter Instruction.accessesFrame = [] := rfl
    have hepilogue : (epilogue size).filter Instruction.accessesFrame = [] := rfl
    have hd : (Step.lines (d.lower.steps s c)).filter Instruction.accessesFrame =
        d.body.slotUses.map fun u => u.line (4 * signed u.slot) := by
      rw [hsteps]
      simp [Step.line?, hprologue, hepilogue, filter_accessesFrame_of_handlesFrame hhandles]
    obtain ⟨hlines, hrange'⟩ := ih h.2
    refine ⟨?_, fun u hu => ?_⟩
    · rw [List.map_cons, concat_cons, steps_append, Step.lines_append, List.filter_append, hd,
        hlines, List.flatMap_cons, List.map_append]
    · rcases List.mem_append.mp hu with hu | hu
      · exact hrange u hu
      · exact hrange' u hu

/-- **The accesses of a listing are the uses of slots of its program**, in order, and these have
offsets. -/
theorem filter_accessesFrame (h : p.compile = .ok listing) :
    listing.filter Instruction.accessesFrame =
      p.slotUses.map (fun u => u.line (4 * signed u.slot)) ∧
    ∀ u ∈ p.slotUses, InRange (4 * signed u.slot) := by
  obtain ⟨-, hs, rfl⟩ := compile_eq_ok_iff.mp h
  rw [code_emission hs]
  exact filter_accessesFrame_decls (failure?_emission_eq_none_iff.mp hs)

/-! ### Sizes in bytes -/

/-- `x` is the number of bytes of `n` words and a header of `header` words, or, for very large `n`,
it is too small by `2⁶⁶`. -/
def IsSize (header : Nat) (n : UInt64) (x : Int) : Prop :=
  n.toNat + header < 2 ^ 61 ∧ x = 4 * (header + n.toNat) ∨
    2 ^ 64 ≤ n.toNat + header + 2 ^ 61 ∧ x = 4 * (header + n.toNat) - 2 ^ 66

/-- A number of words whose bytes are in range is one of the first or of the last `2⁶¹`. -/
lemma isSize_of_inRange (header : Nat) {n : UInt64} (h : InRange (4 * (header + signed n))) :
    IsSize header n (4 * (header + signed n)) := by
  have hsigned := signed_eq n
  unfold InRange at h
  unfold IsSize
  split_ifs at hsigned <;> omega

/-- **The offsets of a listing.** The accesses of a listing are those of the uses of slots of its
program, in order, and the epilogue of each declaration releases the words of its frame. Offsets
and sizes are exact up to `2⁶¹` words; slots and arities near `2⁶⁴` are accepted, too, but there
they are too small by `2⁶⁶`, so that such a slot lies below the frame. -/
theorem frameOffsets_of_compile (h : p.compile = .ok listing) :
    listing.filter Instruction.accessesFrame =
      p.slotUses.map (fun u => u.line (4 * signed u.slot)) ∧
    (∀ u ∈ p.slotUses, IsSize 0 u.slot (4 * signed u.slot)) ∧
    ∀ P ∈ p.placements, ∃ size, IsSize 2 P.decl.arity size ∧
      listing[(P.body p).stop + 1]? = some (.adjustStack size) := by
  obtain ⟨hlines, hrange⟩ := filter_accessesFrame h
  refine ⟨hlines, fun u hu => ?_, fun P hP => ?_⟩
  · have hbytes := hrange u hu
    rw [← Int.zero_add (signed u.slot)] at hbytes ⊢
    exact isSize_of_inRange 0 hbytes
  · obtain ⟨size, hsize, -, -, hepilogue⟩ := Placement.spans_body h hP
    obtain ⟨hvalue, hsizeRange⟩ := frameSize_eq_ok_iff.mp hsize
    obtain rfl : size = 4 * ((2 : Nat) + signed P.decl.arity) := by omega
    refine ⟨_, isSize_of_inRange 2 hsizeRange, ?_⟩
    obtain ⟨-, hrest⟩ := spans_code_cons.mp hepilogue
    exact (spans_code_cons.mp hrest).1

/-- A function with as many arguments as an arity can say, which assigns its first argument to its
last one. -/
def topSlot : Program where
  decls := [
    { name := "f", arity := 0xffffffffffffffff, body := .assign 0xffffffffffffffff (.var 1) }]

/-- The slot of the first argument is one word above the frame pointer, and that of the last one is
one word below. -/
theorem frameOffsets_of_compile_topSlot :
    ∃ listing, topSlot.compile = .ok listing ∧ listing.filter Instruction.accessesFrame =
      [.lw .accumulator 4 .framePointer, .sw .accumulator (-4) .framePointer] := by
  obtain ⟨listing, hlisting⟩ : ∃ listing, topSlot.compile = .ok listing := ⟨_, rfl⟩
  exact ⟨listing, hlisting, (frameOffsets_of_compile hlisting).1⟩

/-- The offset of the last slot is not four times the slot, and only one of all the words of the
frame is released. -/
theorem not_exact_topSlot :
    ∃ listing, topSlot.compile = .ok listing ∧
      listing.filter Instruction.accessesFrame ≠
        topSlot.slotUses.map (fun u => u.line (4 * u.slot.toNat)) ∧
      ∃ P ∈ topSlot.placements, listing[(P.body topSlot).stop + 1]? = some (.adjustStack 4) ∧
        (4 : Int) ≠ 4 * (2 + P.decl.arity.toNat) := by
  refine ⟨_, rfl, by decide, _, List.mem_cons_self, rfl, by decide⟩

end Program

end ImpRiscV
