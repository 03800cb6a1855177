import ImpRiscV.Proofs.FunctionOutline

/-!
# The stack is balanced on every walk

Walks through a function may be of any length and branch in any way, and there are infinitely many
of them as soon as there is a loop. All of them keep to one outline, so the stack pointer is the
same whenever a walk comes to a position, and a jump through a register leads where the innermost
loop around the escape has staged it to lead.

## Main results

* `ImpRiscV.Program.balanced_of_walked` — a position is reached with one stack pointer, and a
  function returns with that of its caller.
* `ImpRiscV.Program.escapes_of_walked` — an escape leads out of, or to the head of, the innermost
  loop around it.
-/

set_option relaxedAutoImplicit false
set_option autoImplicit false

namespace ImpRiscV

/-- A program whose inner loop is escaped from out of the argument of a call, in the middle of a
subtraction, to a function that is not declared. -/
def nestedLoops : Program where
  decls := [
    { name := "main", arity := 1, body :=
      .whileDo ⟨.var 1, .gt, .literal 0⟩ (.seq
        (.repeatUntil
          (.assign 1 (.binary (.var 1) .sub (.call "step" [.literal 1,
            .ifElse ⟨.var 1, .eq, .literal 3⟩ (.escape .exit) (.escape .restart)])))
          ⟨.var 1, .lt, .literal 0⟩)
        (.escape .restart)) }]

namespace Program

variable {p : Program} {listing : List (Instruction Label)} {d : Declaration}

/-- Every function has an entry. -/
lemma exists_address_entry (hp : p.compile = .ok listing) (hd : d ∈ p.decls) :
    ∃ a, address listing (.entry d.name) = some a := by
  obtain ⟨xs, hchart, hentry⟩ := exists_chart hp
  obtain ⟨i, hi⟩ := List.mem_iff_getElem?.mp (hentry d hd)
  exact ⟨i, p.address_eq hp (hchart.getElem?_listing hi)⟩

/-- No walk gets stuck. -/
lemma exists_successors (hp : p.compile = .ok listing) (hd : d ∈ p.decls) {w : Walker}
    (hw : p.Walked listing d w) : ∃ next, p.successors listing w = some next := by
  obtain ⟨xs, hchart, hentry⟩ := exists_chart hp
  obtain ⟨x, hx, hle⟩ := hchart.follows hp (hentry d hd) hw
  exact hchart.exists_successors_of_le hp hx hle

/-- **The stack is balanced on every walk.** Let no function take as many as `2⁶¹ - 2` arguments.
Walks from the entry of a function never get stuck; whenever they come to a position, the stack
pointer is the same; and where the function returns, it is what it was before the call.

**Proof sketch.** All walks follow one outline of the listing. It fixes the stack pointer at each
position, and before a return it is off by the difference between the arity and the arity read with
sign, which is zero. -/
theorem balanced_of_walked (hp : p.compile = .ok listing)
    (hsize : ∀ d ∈ p.decls, d.arity.toNat < arityLimit) (hd : d ∈ p.decls) :
    (∃ a, address listing (.entry d.name) = some a) ∧
    (∀ w, p.Walked listing d w → ∃ next, p.successors listing w = some next) ∧
    (∀ w w', p.Walked listing d w → p.Walked listing d w' → w.pc = w'.pc →
      w.known.sp = w'.known.sp) ∧
    (∀ w, p.Walked listing d w → listing[w.pc]? = some (.jr .returnAddress) →
      w.known.sp = 0) := by
  obtain ⟨xs, hchart, hentry⟩ := exists_chart hp
  refine ⟨exists_address_entry hp hd, fun w hw => exists_successors hp hd hw, ?_, ?_⟩
  · intro w w' hw hw' hpc
    obtain ⟨x, hx, hle⟩ := hchart.follows hp (hentry d hd) hw
    obtain ⟨x', hx', hle'⟩ := hchart.follows hp (hentry d hd) hw'
    obtain rfl : x = x' := by
      rw [hpc] at hx
      exact Option.some_inj.mp (hx.symm.trans hx')
    exact hle.sp.symm.trans hle'.sp
  · intro w hw hline
    obtain ⟨x, hx, hle⟩ := hchart.follows hp (hentry d hd) hw
    obtain ⟨after, hpass, -⟩ := hchart.flows.passes hx
    have hret : x.line = .jr .returnAddress :=
      Option.some_inj.mp ((hchart.getElem?_listing hx).symm.trans hline)
    obtain ⟨d', hd', hsp⟩ := hpass.sp_of_return hret
    rw [← hle.sp, hsp, signed_of_lt (hsize d' hd')]
    omega

/-- Both loops of the program keep the stack balanced. -/
theorem balanced_of_walked_nestedLoops :
    ∃ listing d, nestedLoops.compile = .ok listing ∧ d ∈ nestedLoops.decls ∧
      (∃ a, address listing (.entry d.name) = some a) ∧
      ∀ w, nestedLoops.Walked listing d w → listing[w.pc]? = some (.jr .returnAddress) →
        w.known.sp = 0 := by
  obtain ⟨listing, hlisting⟩ : ∃ listing, nestedLoops.compile = .ok listing := ⟨_, rfl⟩
  have hbalanced := balanced_of_walked (d := nestedLoops.decls[0]) hlisting (by decide) (by decide)
  exact ⟨listing, _, hlisting, by decide, hbalanced.1, hbalanced.2.2.2⟩

/-- **Escapes lead to the innermost loop.** The lines of calls and escapes in a listing are those of
the calls and escapes of the program, one by one. Walks from the entry of a function never get
stuck, and whenever they come to a jump through another register than the return address, it is the
jump of an escape, and the register holds the address of the label to which this escape leads in the
innermost loop around it.

**Proof sketch.** All walks follow one outline of the listing, which says this before each such
jump. -/
theorem escapes_of_walked (hp : p.compile = .ok listing) (hd : d ∈ p.decls) :
    listing.filter Instruction.isSite = p.sites.map Site.line ∧
    (∃ a, address listing (.entry d.name) = some a) ∧
    (∀ w, p.Walked listing d w → ∃ next, p.successors listing w = some next) ∧
    ∀ w r, p.Walked listing d w → listing[w.pc]? = some (.jr r) → r ≠ .returnAddress →
      ∃ how l, p.siteAt listing w.pc = some (.escape how l) ∧
        (how = .exit ∧ r = .t2 ∨ how = .restart ∧ r = .t3) ∧ w.known.regs r = some l := by
  obtain ⟨xs, hchart, hentry⟩ := exists_chart hp
  refine ⟨hchart.filter_isSite, exists_address_entry hp hd,
    fun w hw => exists_successors hp hd hw, ?_⟩
  intro w r hw hline hr
  obtain ⟨x, hx, hle⟩ := hchart.follows hp (hentry d hd) hw
  obtain ⟨after, hpass, -⟩ := hchart.flows.passes hx
  have hjump : x.line = .jr r :=
    Option.some_inj.mp ((hchart.getElem?_listing hx).symm.trans hline)
  obtain ⟨how, l, hsite, rfl, hl⟩ := hpass.escape_of_jump hjump hr
  refine ⟨how, l, hchart.siteAt_eq hx hsite, ?_, hle.regs _ l hl⟩
  cases how with
  | exit => exact .inl ⟨rfl, rfl⟩
  | restart => exact .inr ⟨rfl, rfl⟩

/-- The two escapes of the inner loop lead to that loop, and the third one to the outer loop. -/
theorem escapes_of_walked_nestedLoops :
    ∃ listing d, nestedLoops.compile = .ok listing ∧ d ∈ nestedLoops.decls ∧
      nestedLoops.sites = [.escape .restart (.numbered .repeatHead 1),
        .escape .exit (.numbered .repeatExit 1), .call "step" 2,
        .escape .restart (.numbered .whileHead 1)] ∧
      ∀ w r, nestedLoops.Walked listing d w → listing[w.pc]? = some (.jr r) →
        r ≠ .returnAddress → ∃ how l, nestedLoops.siteAt listing w.pc = some (.escape how l) ∧
          (how = .exit ∧ r = .t2 ∨ how = .restart ∧ r = .t3) ∧ w.known.regs r = some l := by
  obtain ⟨listing, hlisting⟩ : ∃ listing, nestedLoops.compile = .ok listing := ⟨_, rfl⟩
  have hescapes := escapes_of_walked (d := nestedLoops.decls[0]) hlisting (by decide)
  exact ⟨listing, _, hlisting, by decide, by decide, hescapes.2.2.2⟩

end Program

end ImpRiscV
