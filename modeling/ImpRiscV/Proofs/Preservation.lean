import ImpRiscV.Proofs.Calls

/-!
# Listings compute what programs mean

Whatever fuel an evaluation is given, the machine follows it. The fuel bounds how deep rounds of
loops and calls of functions nest, so the proof is an induction on it; at a given amount it is an
induction over the expression, with one fragment of code for each construct.

## Main definitions

* `ImpRiscV.Continues` — the machine follows bodies of functions and rests of loops.

## Main results

* `ImpRiscV.simulates_evalWith` — the machine follows the evaluation of an expression.
* `ImpRiscV.Program.compile_preserves_evaluation` — a called function returns the value that its
  body has.
-/

set_option relaxedAutoImplicit false
set_option autoImplicit false

namespace ImpRiscV

open Machine Fragment

section induction

variable (A : Arithmetic) (p : Program) (listing : List (Instruction Label)) (steps : Nat)

/-- The machine follows what is evaluated `again`: the bodies of functions from their start, and
loops from their head. -/
structure Continues (again : Expr → Eval (Option Int)) : Prop where
  /-- Bodies of functions. -/
  body : ∀ e : Expr, Simulates A p listing steps e.lower (again e)
  /-- Loops that test first. -/
  whileHead : ∀ (lhs : Expr) (cmp : Comparison) (rhs body : Expr) (i : Nat),
    SimulatesFrom A p listing steps (.numbered .whileExit i) (.numbered .whileHead i)
      (whileRound (test lhs.lower cmp rhs.lower) body.lower i)
      (again (.whileDo ⟨lhs, cmp, rhs⟩ body))
  /-- Loops that test last. -/
  repeatHead : ∀ (body lhs : Expr) (cmp : Comparison) (rhs : Expr) (i : Nat),
    SimulatesFrom A p listing steps (.numbered .repeatExit i) (.numbered .repeatHead i)
      (repeatRound body.lower (test lhs.lower cmp rhs.lower) i)
      (again (.repeatUntil body ⟨lhs, cmp, rhs⟩))

variable {A p listing steps} {again : Expr → Eval (Option Int)}

/-- **The machine follows the evaluation of an expression**, and for one more step than what is
evaluated again.

**Proof sketch.** Induction over the expression, with one lemma for each construct. A loop runs a
round from its head and the rest of the loop is followed by assumption, and so is the body of a
called function. -/
theorem simulates_evalWith (hp : p.compile = .ok listing)
    (hsize : ∀ d ∈ p.decls, d.arity.toNat < arityLimit) (h : Continues A p listing steps again)
    (e : Expr) : Simulates A p listing (steps + 1) e.lower (e.evalWith A p again) := by
  induction e with
  | literal value => exact simulates_li value.toInt
  | var slot => exact simulates_load slot
  | assign slot value ih => exact simulates_store ih slot
  | binary lhs op rhs ihl ihr => exact simulates_arith ihl ihr op
  | ifElse lhs cmp rhs thenBody elseBody ihl ihr iht ihe =>
    exact simulates_conditional hp cmp ihl ihr iht ihe
  | whileDo lhs cmp rhs body ihl ihr ihb =>
    rw [Expr.lower, whileLoop_eq]
    refine simulates_numbered fun i => ?_
    have hround := simulatesRound_while hp cmp ihl ihr ihb i
    exact simulates_staged hp hround.depth
      (simulatesFrom_loop hp hround (h.whileHead lhs cmp rhs body i))
  | repeatUntil body lhs cmp rhs ihb ihl ihr =>
    rw [Expr.lower, repeatLoop_eq]
    refine simulates_numbered fun i => ?_
    have hround := simulatesRound_repeat hp cmp ihl ihr ihb i
    exact simulates_staged hp hround.depth
      (simulatesFrom_loop hp hround (h.repeatHead body lhs cmp rhs i))
  | call callee args ih => exact simulates_call hp hsize (fun d _ => h.body d.body) ih
  | seq first second ihf ihs => exact simulates_append ihf ihs
  | skip => exact simulates_nop
  | escape how => exact simulates_escape how

/-- One more level of loops and calls is followed as well. -/
lemma continues_evalWith (hp : p.compile = .ok listing)
    (hsize : ∀ d ∈ p.decls, d.arity.toNat < arityLimit) (h : Continues A p listing steps again) :
    Continues A p listing (steps + 1) (Expr.evalWith A p again) := by
  have hexpr := simulates_evalWith hp hsize h
  refine ⟨hexpr, ?_, ?_⟩
  · intro lhs cmp rhs body i
    exact simulatesFrom_loop hp
      (simulatesRound_while hp cmp (hexpr lhs) (hexpr rhs) (hexpr body) i)
      (h.whileHead lhs cmp rhs body i)
  · intro body lhs cmp rhs i
    exact simulatesFrom_loop hp
      (simulatesRound_repeat hp cmp (hexpr lhs) (hexpr rhs) (hexpr body) i)
      (h.repeatHead body lhs cmp rhs i)

/-- Without fuel there is no step to follow. -/
lemma continues_exhausted : Continues A p listing 0 fun _ _ => .exhausted := by
  refine ⟨fun e => ⟨e.depth_advance_lower, ?_⟩, ?_, ?_⟩
  · intro K c b frame σ _ _ _
    exact lasts_zero σ
  · intro lhs cmp rhs body i K c a b frame σ _ _ _ _ _ _ _ _ _
    exact lasts_zero σ
  · intro body lhs cmp rhs i K c a b frame σ _ _ _ _ _ _ _ _ _
    exact lasts_zero σ

/-- The machine makes more steps than an evaluation has fuel before the fuel is used up. -/
lemma continues_eval (hp : p.compile = .ok listing)
    (hsize : ∀ d ∈ p.decls, d.arity.toNat < arityLimit) (fuel : Nat) :
    Continues A p listing (fuel + 1) (p.eval A fuel) := by
  induction fuel with
  | zero => exact continues_evalWith hp hsize continues_exhausted
  | succ fuel ih => exact continues_evalWith hp hsize ih

end induction

/-- **Listings compute what programs mean.** Let no function take as many as `2⁶¹ - 2` arguments.
If the body of a function, evaluated on as many arguments as the function takes, is done, then the
machine that calls the function with these arguments returns: the value of the body, if it has one,
is in the accumulator, the stack pointer and the frame pointer are the caller's again, and the
memory above the arguments is as before.

**Proof sketch.** The machine follows the body by `continues_eval`, and `returns_of_simulates` adds
the code around it. -/
theorem Program.compile_preserves_evaluation {A : Arithmetic} {p : Program}
    {listing : List (Instruction Label)} (hp : p.compile = .ok listing)
    (hsize : ∀ d ∈ p.decls, d.arity.toNat < arityLimit) {d : Declaration} (hd : d ∈ p.decls)
    {args : List Int} (hargs : args.length = d.arity.toNat) {fuel : Nat} {v : Option Int}
    {frame : Frame} (heval : p.eval A fuel d.body args = .done v frame) {ret : Nat} {σ : Machine}
    (hcalled : Called listing d.name ret args σ) :
    ∃ τ, Reaches A listing σ τ ∧ Returned args.length ret v σ τ := by
  have hbody := (continues_eval (A := A) hp hsize fuel).body d.body
  obtain ⟨c, a, b, hspans⟩ := spans_of_compile hp hd
  exact returns_of_simulates hp (hsize d hd) hargs hspans hbody hcalled heval

/-- A program that adds up the numbers from its first argument down, leaves the loop out of a
half-evaluated sum, and has the result doubled by a call. -/
def doubledSum : Program where
  decls := [
    { name := "double", arity := 1, body := .binary (.var 1) .add (.var 1) },
    { name := "sum", arity := 2, body :=
      .seq
        (.whileDo ⟨.literal 0, .eq, .literal 0⟩ (.seq
          (.assign 2 (.binary (.var 2) .add
            (.ifElse ⟨.var 1, .le, .literal 0⟩ (.escape .exit) (.var 1))))
          (.assign 1 (.binary (.var 1) .sub (.literal 1)))))
        (.call "double" [.var 2]) }]

/-- Called with `3` and `0`, the second function returns `12`. -/
theorem Program.compile_preserves_evaluation_doubledSum :
    ∃ (listing : List (Instruction Label)) (σ τ : Machine), doubledSum.compile = .ok listing ∧
      Called listing "sum" 100 [3, 0] σ ∧ Reaches .twosComplement listing σ τ ∧
      Returned 2 100 (some 12) σ τ := by
  obtain ⟨listing, hlisting, haddr⟩ : ∃ listing, doubledSum.compile = .ok listing ∧
      address listing (.entry "sum") = some 17 := ⟨_, rfl, by decide⟩
  have hcalled : Called listing "sum" 100 [3, 0]
      ⟨17, fun r => if r = .returnAddress then 100 else 0, fun a => if a = 4 then 3 else 0⟩ := by
    refine ⟨haddr, rfl, ?_⟩
    intro i x hx
    match i, hx with
    | 0, hx => simpa using hx
    | 1, hx => simpa using hx
  have heval : doubledSum.eval .twosComplement 5 doubledSum.decls[1].body [3, 0] =
      .done (some 12) [0, 6] := by decide
  obtain ⟨τ, hreach, hret⟩ := compile_preserves_evaluation (d := doubledSum.decls[1]) hlisting
    (by decide) (by decide) (by decide) heval hcalled
  exact ⟨listing, _, τ, hlisting, hcalled, hreach, hret⟩

end ImpRiscV
