import ImpRiscV.Proofs.StackBalance

/-!
# How deep the stack gets

An activation has one word for its return address, and its body pushes at most as many words as the
peak of the body says: operands and arguments that wait, and the targets of the loops around. Rounds
of a loop do not add up, and neither do escapes out of the middle of an operation, because all walks
through a function follow one outline. Stores relative to the stack pointer are pushes, so they stay
between the entry and the deepest word.

At the end the stack pointer is moved past the frame. An arity that is read as a negative number
moves it down instead, and then it may come to stand below the deepest word.

## Main results

* `ImpRiscV.Expr.peak_call` — the peak of a call.
* `ImpRiscV.Program.stackPeak_of_walked` — the stack pointer stays above the deepest word, and
  stores relative to it stay between the entry and the deepest word.
-/

set_option relaxedAutoImplicit false
set_option autoImplicit false

namespace ImpRiscV

namespace Expr

/-- **The peak of a call.** The frame pointer is pushed first, and each argument is evaluated on top
of it and of the arguments after it. -/
theorem peak_call (callee : String) (args : List Expr) :
    (Expr.call callee args).peak = max (1 + args.length)
      ((args.mapIdx fun i arg => 1 + (args.length - 1 - i) + arg.peak).foldr max 0) := by
  rw [peak]
  induction args with
  | nil => rfl
  | cons arg args ih =>
    have hshift : (args.mapIdx fun i arg' =>
        1 + ((arg :: args).length - 1 - (i + 1)) + arg'.peak) =
        args.mapIdx fun i arg' => 1 + (args.length - 1 - i) + arg'.peak := by
      congr 1
      funext i arg'
      rw [List.length_cons]
      omega
    rw [List.mapIdx_cons, List.foldr_cons, hshift, peakArgs, List.length_cons]
    omega

end Expr

namespace Program

variable {p : Program} {listing : List (Instruction Label)} {d : Declaration}

/-- From a state with one next state, walks go on there. -/
lemma Walked.next {w w' : Walker} (hw : p.Walked listing d w)
    (h : p.successors listing w = some [w']) : p.Walked listing d w' :=
  .step hw h List.mem_cons_self

/-- Every walk through a function keeps to the bounds of the function. -/
lemma bounds_of_walked (hp : p.compile = .ok listing) (hd : d ∈ p.decls) {w : Walker}
    (hw : p.Walked listing d w) :
    ∃ y : Mark, d.Bounds y ∧ listing[w.pc]? = some y.line ∧ y.before.sp = w.known.sp := by
  obtain ⟨xs, hchart, hall⟩ := exists_chart_closed hp
  obtain ⟨a, ys, hclosed, hys⟩ := hall d hd
  obtain ⟨i, y, hpc, hy, hle⟩ := hclosed.follows hchart hp hys.entry hw
  refine ⟨y, hys.bounds y (List.mem_of_getElem? hy), ?_, hle.sp⟩
  rw [hpc]
  exact hchart.getElem?_listing (hclosed.marks i y hy)

/-- **How deep the stack gets.** Walks from the entry of a function never get stuck. The stack
pointer never goes below the word of the return address and the peak of the body, unless the arity
is read as a negative number that is too small for the release of the frame; and every word stored
relative to the stack pointer is between the deepest word and the entry.

**Proof sketch.** All walks follow one outline of the function, which keeps to its bounds. Only the
lines after the release are outside of them, where the stack pointer is as far above the entry as
the arity says, and these lines do not store. -/
theorem stackPeak_of_walked (hp : p.compile = .ok listing) (hd : d ∈ p.decls) :
    (∃ a, address listing (.entry d.name) = some a) ∧
    ∀ w, p.Walked listing d w →
      (∃ next, p.successors listing w = some next) ∧
      (-(2 + d.body.peak) ≤ signed d.arity →
        d.entrySp - 4 - 4 * d.body.peak ≤ w.known.sp) ∧
      ∀ r n, listing[w.pc]? = some (.sw r n .stackPointer) →
        d.entrySp - 4 * d.body.peak ≤ w.known.sp + n ∧ w.known.sp + n ≤ d.entrySp := by
  refine ⟨exists_address_entry hp hd, fun w hw => ⟨exists_successors hp hd hw, ?_, ?_⟩⟩
  · intro harity
    obtain ⟨y, hwithin | ⟨hreleased, -⟩, -, hsp⟩ := bounds_of_walked hp hd hw
    · exact hsp ▸ hwithin.before.low_le
    · omega
  · intro r n hstore
    obtain ⟨y, hbounds, hline, hsp⟩ := bounds_of_walked hp hd hw
    have hy : y.line = .sw r n .stackPointer := Option.some_inj.mp (hline.symm.trans hstore)
    rcases hbounds with hwithin | ⟨-, hno⟩
    · have := hwithin.store r n hy
      omega
    · rw [hy] at hno
      cases hno

/-- In the program with two loops, the deepest word is the second argument of the call in the inner
loop: below it are the frame pointer, the left operand of the subtraction and four targets. -/
theorem stackPeak_of_walked_nestedLoops :
    ∃ listing d, nestedLoops.compile = .ok listing ∧ d ∈ nestedLoops.decls ∧ d.body.peak = 8 ∧
      ∀ w, nestedLoops.Walked listing d w → d.entrySp - 36 ≤ w.known.sp ∧
        ∀ r n, listing[w.pc]? = some (.sw r n .stackPointer) →
          d.entrySp - 32 ≤ w.known.sp + n ∧ w.known.sp + n ≤ d.entrySp := by
  obtain ⟨listing, hlisting⟩ : ∃ listing, nestedLoops.compile = .ok listing := ⟨_, rfl⟩
  obtain ⟨-, hpeak⟩ := stackPeak_of_walked (d := nestedLoops.decls[0]) hlisting (by decide)
  refine ⟨listing, nestedLoops.decls[0], hlisting, by decide, by decide, fun w hw => ?_⟩
  obtain ⟨-, hlow, hstores⟩ := hpeak w hw
  exact ⟨hlow (by decide), hstores⟩

/-- A function whose arity is read as `-3`. -/
def sunken : Program where
  decls := [{ name := "f", arity := 0xfffffffffffffffd, body := .literal 0 }]

/-- The function pushes nothing beside its return address, and yet the stack pointer goes below it
when the frame is released. -/
theorem not_stackPeak_sunken :
    ∃ listing d w, sunken.compile = .ok listing ∧ d ∈ sunken.decls ∧
      sunken.Walked listing d w ∧ w.known.sp < d.entrySp - 4 - 4 * d.body.peak := by
  have hlisting : sunken.compile =
      .ok (Fragment.prologue "f" ++ [.li .accumulator 0] ++ Fragment.epilogue (-4)) := rfl
  have hentry : sunken.Walked (Fragment.prologue "f" ++ [.li .accumulator 0] ++
      Fragment.epilogue (-4)) sunken.decls[0] ⟨0, .atEntry 0xfffffffffffffffd⟩ := .entry rfl
  -- four lines before the body, one of the body, and two up to the release
  have hbody := hentry.next rfl |>.next rfl |>.next rfl |>.next rfl
  have hreleased := hbody.next rfl |>.next rfl |>.next rfl
  exact ⟨_, sunken.decls[0], _, hlisting, by decide, hreleased, by decide⟩

end Program

end ImpRiscV
