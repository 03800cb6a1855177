import ImpRiscV.Proofs.Preservation

/-!
# Listings run on where programs do not end

An evaluation without end is out of fuel for every amount of fuel. Each round of a loop and each
call uses up some fuel and is a line of the listing at least, so the machine, which follows the
evaluation, has made as many steps before the fuel is used up. It is still inside of the activation
then: an activation that returns has followed an evaluation to its end.

## Main results

* `ImpRiscV.Program.lasts_of_eval_exhausted` — an evaluation that is out of fuel keeps the machine
  busy.
* `ImpRiscV.Program.compile_preserves_divergence` — where the body of a function has no end, its
  call runs on forever.
-/

set_option relaxedAutoImplicit false
set_option autoImplicit false

namespace ImpRiscV

open Machine

namespace Program

variable {A : Arithmetic} {p : Program} {listing : List (Instruction Label)} {d : Declaration}
  {args : List Int} {ret : Nat} {σ : Machine}

/-- A compiled function cannot be left by an escape. -/
lemma eval_ne_escaped (hp : p.compile = .ok listing)
    (hsize : ∀ d ∈ p.decls, d.arity.toNat < arityLimit) (hd : d ∈ p.decls)
    (hargs : args.length = d.arity.toNat) (hcalled : Called listing d.name ret args σ) (fuel : Nat)
    (how : Escape) (frame : Frame) : p.eval A fuel d.body args ≠ .escaped how frame := by
  intro heval
  have hbody := (continues_eval (A := A) hp hsize fuel).body d.body
  obtain ⟨c, a, b, hspans⟩ := spans_of_compile hp hd
  have hlands := lands_function hp (hsize d hd) hargs hspans hbody hcalled
  rw [heval] at hlands
  obtain ⟨depth, τ, hloop, -⟩ := hlands
  cases hloop

/-- **An evaluation that is out of fuel keeps the machine busy** for at least as many steps as it
has had fuel. -/
theorem lasts_of_eval_exhausted (hp : p.compile = .ok listing)
    (hsize : ∀ d ∈ p.decls, d.arity.toNat < arityLimit) (hd : d ∈ p.decls)
    (hargs : args.length = d.arity.toNat) (hcalled : Called listing d.name ret args σ) {fuel : Nat}
    (heval : p.eval A fuel d.body args = .exhausted) : Lasts A listing (fuel + 1) σ := by
  have hbody := (continues_eval (A := A) hp hsize fuel).body d.body
  obtain ⟨c, a, b, hspans⟩ := spans_of_compile hp hd
  have hlands := lands_function hp (hsize d hd) hargs hspans hbody hcalled
  rw [heval] at hlands
  exact hlands

/-- **Listings run on where programs do not end.** Let no function take as many as `2⁶¹ - 2`
arguments. If the body of a function, evaluated on as many arguments as the function takes, is not
done with any amount of fuel and has a meaning with every amount, then the machine that calls the
function with these arguments runs forever: after any number of steps it has not returned from this
call, it is at a line of the listing, and it can make the next step.

**Proof sketch.** The evaluation cannot escape either, so it is out of fuel however much it gets,
and `lasts_of_eval_exhausted` bounds from below how long the call lasts. -/
theorem compile_preserves_divergence (hp : p.compile = .ok listing)
    (hsize : ∀ d ∈ p.decls, d.arity.toNat < arityLimit) (hd : d ∈ p.decls)
    (hargs : args.length = d.arity.toNat) (hcalled : Called listing d.name ret args σ)
    (hdone : ∀ fuel v frame, p.eval A fuel d.body args ≠ .done v frame)
    (hmeaning : ∀ fuel, p.eval A fuel d.body args ≠ .undefined) (n : Nat) :
    ∃ (τ τ' : Machine) (inner : List Machine), run A listing n σ = some τ ∧
      Traced.run A listing n ⟨σ, [σ]⟩ = some ⟨τ, inner ++ [σ]⟩ ∧ τ.pc < listing.length ∧
      τ.step A listing = some τ' := by
  have heval : p.eval A n d.body args = .exhausted := by
    cases h : p.eval A n d.body args with
    | done v frame => exact absurd h (hdone n v frame)
    | escaped how frame =>
      exact absurd h (eval_ne_escaped hp hsize hd hargs hcalled n how frame)
    | undefined => exact absurd h (hmeaning n)
    | exhausted => rfl
  have hlasts := lasts_of_eval_exhausted hp hsize hd hargs hcalled heval
  obtain ⟨τ, inner, hrun⟩ := hlasts n (Nat.le_succ n) σ []
  obtain ⟨υ, inner', hrun'⟩ := hlasts (n + 1) (Nat.le_refl _) σ []
  have hmachine := Traced.run_machine hrun
  -- the run goes on for one more step, so the state after `n` steps is not stuck
  have hnext := Traced.run_machine hrun'
  rw [run_add hmachine, run] at hnext
  obtain ⟨τ', hstep, -⟩ := Option.bind_eq_some_iff.mp hnext
  have hpc : τ.pc < listing.length := by
    by_contra hge
    have hnone : listing[τ.pc]? = none := List.getElem?_eq_none (by omega)
    rw [step, hnone] at hstep
    cases hstep
  exact ⟨τ, τ', inner, hmachine, hrun, hpc, hstep⟩

/-- A program with a function that loops forever on a positive argument, and otherwise calls itself
forever. -/
def spinning : Program where
  decls := [
    { name := "spin", arity := 1, body :=
      .seq (.whileDo ⟨.var 1, .gt, .literal 0⟩ .skip) (.call "spin" [.var 1]) }]

/-- The loop does not come to an end, however much fuel it has. -/
lemma eval_spinning_zero (fuel : Nat) :
    spinning.eval .twosComplement fuel spinning.decls[0].body [0] = .exhausted := by
  induction fuel with
  | zero => rfl
  | succ fuel ih =>
    have hcall : spinning.eval .twosComplement (fuel + 1) spinning.decls[0].body [0] =
        (spinning.eval .twosComplement fuel spinning.decls[0].body).within [0] [0] := rfl
    rw [hcall, Eval.within, ih]

/-- Called with `0`, the function nests one call in another without end. -/
theorem compile_preserves_divergence_spinning :
    ∃ (listing : List (Instruction Label)) (σ : Machine), spinning.compile = .ok listing ∧
      Called listing "spin" 100 [0] σ ∧ ∀ n, ∃ (τ τ' : Machine) (inner : List Machine),
        run .twosComplement listing n σ = some τ ∧
        Traced.run .twosComplement listing n ⟨σ, [σ]⟩ = some ⟨τ, inner ++ [σ]⟩ ∧
        τ.pc < listing.length ∧ τ.step .twosComplement listing = some τ' := by
  obtain ⟨listing, hlisting, haddr⟩ : ∃ listing, spinning.compile = .ok listing ∧
      address listing (.entry "spin") = some 0 := ⟨_, rfl, by decide⟩
  have hcalled : Called listing "spin" 100 [0]
      ⟨0, fun r => if r = .returnAddress then 100 else 0, fun _ => 0⟩ := by
    refine ⟨haddr, rfl, ?_⟩
    intro i x hx
    match i, hx with
    | 0, hx => simpa using hx
  have hdiverges := compile_preserves_divergence (d := spinning.decls[0]) hlisting (by decide)
    (by decide) (by decide) hcalled (fun fuel v frame => by rw [eval_spinning_zero]; simp)
    (fun fuel => by rw [eval_spinning_zero]; simp)
  exact ⟨listing, _, hlisting, hcalled, hdiverges⟩

end Program

end ImpRiscV
