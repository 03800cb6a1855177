import ImpRiscV.Proofs.Machine

/-!
# Runs and the activations in them

A machine knows nothing of calls; it jumps and keeps an address. This file traces its calls from
outside: beside the state of the machine it keeps the states in which the running activations were
entered. So a run can be said to stay inside of an activation, or to come to an end of it.

## Main definitions

* `ImpRiscV.Traced`, `ImpRiscV.Traced.run` — a machine with its running activations, and its runs.
* `ImpRiscV.Machine.Lasts` — an activation goes on for a number of steps.
* `ImpRiscV.Machine.Crosses` — a run inside of an activation, whose calls have all returned.

## Main results

* `ImpRiscV.Machine.crosses_code` — lines without jumps are executed one after another.
* `ImpRiscV.Machine.Crosses.of_call`, `ImpRiscV.Machine.Lasts.of_call` — what a callee does happens
  inside of the caller's activation.
-/

set_option relaxedAutoImplicit false
set_option autoImplicit false

namespace ImpRiscV

open Machine

/-! ### Traced machines -/

/-- A machine with the states in which its running activations were entered, the last one first. -/
structure Traced where
  /-- The state of the machine. -/
  machine : Machine
  /-- The states at the entries of the running activations. -/
  entries : List Machine

namespace Traced

/-- The entries after a line that leads to state `τ`. A call adds one, and a return removes one. -/
def entriesAfter (i? : Option (Instruction Label)) (τ : Machine) (entries : List Machine) :
    List Machine :=
  match i? with
  | some (.jal _) => τ :: entries
  | some (.jr .returnAddress) => entries.tail
  | _ => entries

variable (A : Arithmetic) (listing : List (Instruction Label))

/-- One step. There is none when the first activation has returned. -/
def step (t : Traced) : Option Traced :=
  if t.entries.isEmpty then none
  else (t.machine.step A listing).map fun τ =>
    ⟨τ, entriesAfter listing[t.machine.pc]? τ t.entries⟩

/-- A number of steps. -/
def run : Nat → Traced → Option Traced
  | 0, t => some t
  | n + 1, t => (t.step A listing).bind (run n)

variable {A listing} {t t' : Traced} {n : Nat}

/-- A step of the traced machine is a step of the machine. -/
lemma exists_of_step (h : step A listing t = some t') :
    ∃ τ, t.machine.step A listing = some τ ∧
      t' = ⟨τ, entriesAfter listing[t.machine.pc]? τ t.entries⟩ := by
  unfold step at h
  split_ifs at h
  obtain ⟨τ, hτ, rfl⟩ := Option.map_eq_some_iff.mp h
  exact ⟨τ, hτ, rfl⟩

/-- Tracing does not change what the machine does. -/
lemma run_machine (h : run A listing n t = some t') :
    Machine.run A listing n t.machine = some t'.machine := by
  induction n generalizing t with
  | zero =>
    obtain rfl := Option.some_inj.mp h
    rfl
  | succ n ih =>
    obtain ⟨u, hu, hrest⟩ := Option.bind_eq_some_iff.mp h
    obtain ⟨τ, hτ, rfl⟩ := exists_of_step hu
    rw [Machine.run, hτ]
    exact ih hrest

/-- Steps may be taken in two goes. -/
lemma run_add {m : Nat} (h : run A listing m t = some t') :
    run A listing (m + n) t = run A listing n t' := by
  induction m generalizing t with
  | zero =>
    obtain rfl := Option.some_inj.mp h
    rw [Nat.zero_add]
  | succ m ih =>
    obtain ⟨u, hu, hrest⟩ := Option.bind_eq_some_iff.mp h
    rw [Nat.add_right_comm, run, hu]
    exact ih hrest

/-- A step of the machine is a step of the traced machine. -/
lemma step_of_step {σ τ e : Machine} {outer : List Machine} (h : σ.step A listing = some τ) :
    step A listing ⟨σ, e :: outer⟩ = some ⟨τ, entriesAfter listing[σ.pc]? τ (e :: outer)⟩ := by
  simp [step, h]

/-- The first of several steps may be taken apart from the others. -/
lemma run_succ_of_step {σ τ e : Machine} {outer : List Machine} (h : σ.step A listing = some τ) :
    run A listing (n + 1) ⟨σ, e :: outer⟩ =
      run A listing n ⟨τ, entriesAfter listing[σ.pc]? τ (e :: outer)⟩ := by
  rw [run, step_of_step h, Option.bind_some]

end Traced

/-! ### Staying inside of an activation -/

namespace Machine

variable (A : Arithmetic) (listing : List (Instruction Label))

/-- The machine makes `n` steps, and the activation in which it is does not return. -/
def Lasts (n : Nat) (σ : Machine) : Prop :=
  ∀ m ≤ n, ∀ (e : Machine) (outer : List Machine), ∃ (τ : Machine) (inner : List Machine),
    Traced.run A listing m ⟨σ, e :: outer⟩ = some ⟨τ, inner ++ e :: outer⟩

/-- Some run leads from one state to another inside of the same activation. -/
def Crosses (σ τ : Machine) : Prop :=
  ∃ n, Lasts A listing n σ ∧ ∀ (e : Machine) (outer : List Machine),
    Traced.run A listing n ⟨σ, e :: outer⟩ = some ⟨τ, e :: outer⟩

/-- The line neither calls nor returns. -/
def Stays : Instruction Label → Prop
  | .jal _ | .jr .returnAddress => False
  | _ => True

variable {A listing} {σ τ υ ω : Machine} {m n : Nat} {i : Instruction Label}

/-- A line that stays in the function neither enters nor leaves one. -/
lemma entriesAfter_of_stays (hi : Stays i) (entries : List Machine) :
    Traced.entriesAfter (some i) τ entries = entries := by
  unfold Traced.entriesAfter
  split <;> simp_all [Stays]

/-- What lasts for some steps lasts for fewer. -/
lemma Lasts.mono (h : Lasts A listing n σ) (hm : m ≤ n) : Lasts A listing m σ :=
  fun k hk => h k (Nat.le_trans hk hm)

/-- Nothing has to last for no steps. -/
lemma lasts_zero (σ : Machine) : Lasts A listing 0 σ := by
  intro m hm e outer
  obtain rfl := Nat.le_zero.mp hm
  exact ⟨σ, [], rfl⟩

/-- A line that stays in the activation is one more step. -/
lemma Lasts.of_step (hi : listing[σ.pc]? = some i) (hstay : Stays i)
    (hstep : σ.step A listing = some τ) (h : Lasts A listing n τ) :
    Lasts A listing (n + 1) σ := by
  intro m hm e outer
  cases m with
  | zero => exact ⟨σ, [], rfl⟩
  | succ m =>
    rw [Traced.run_succ_of_step hstep, hi, entriesAfter_of_stays hstay]
    exact h m (by omega) e outer

/-- A run inside of the activation comes before the steps that follow it. -/
lemma Lasts.of_run (h : Lasts A listing m σ)
    (hrun : ∀ e outer, Traced.run A listing m ⟨σ, e :: outer⟩ = some ⟨τ, e :: outer⟩)
    (h' : Lasts A listing n τ) : Lasts A listing (m + n) σ := by
  intro k hk e outer
  by_cases hkm : k ≤ m
  · exact h k hkm e outer
  · obtain ⟨j, rfl⟩ : ∃ j, k = m + j := ⟨k - m, by omega⟩
    rw [Traced.run_add (hrun e outer)]
    exact h' j (by omega) e outer

/-- What lasts from where a stretch has been crossed to lasts from its start. -/
lemma Lasts.of_crosses (h : Crosses A listing σ τ) (h' : Lasts A listing n τ) :
    Lasts A listing n σ := by
  obtain ⟨m, hlasts, hrun⟩ := h
  exact (hlasts.of_run hrun h').mono (Nat.le_add_left n m)

/-- No steps cross from a state to itself. -/
@[refl] lemma Crosses.refl (σ : Machine) : Crosses A listing σ σ :=
  ⟨0, lasts_zero σ, fun _ _ => rfl⟩

/-- Stretches are crossed one after another. -/
lemma Crosses.trans (h : Crosses A listing σ τ) (h' : Crosses A listing τ υ) :
    Crosses A listing σ υ := by
  obtain ⟨m, hlasts, hrun⟩ := h
  obtain ⟨n, hlasts', hrun'⟩ := h'
  refine ⟨m + n, hlasts.of_run hrun hlasts', ?_⟩
  intro e outer
  rw [Traced.run_add (hrun e outer), hrun' e outer]

/-- A step that stays in the function crosses to the next state. -/
lemma Crosses.of_step (hi : listing[σ.pc]? = some i) (hstay : Stays i)
    (hstep : σ.step A listing = some τ) : Crosses A listing σ τ := by
  refine ⟨1, (lasts_zero τ).of_step hi hstay hstep, ?_⟩
  intro e outer
  rw [Traced.run_succ_of_step hstep, hi, entriesAfter_of_stays hstay]
  rfl

/-- What is crossed to is reached. -/
lemma Crosses.reaches (h : Crosses A listing σ τ) : Reaches A listing σ τ := by
  obtain ⟨n, -, hrun⟩ := h
  exact ⟨n, Traced.run_machine (hrun σ [])⟩

/-! ### Calls -/

/-- While a callee goes on, so does its caller. -/
lemma Lasts.of_call {l : Label} (hi : listing[σ.pc]? = some (.jal l))
    (hstep : σ.step A listing = some τ) (h : Lasts A listing n τ) :
    Lasts A listing (n + 1) σ := by
  intro m hm e outer
  cases m with
  | zero => exact ⟨σ, [], rfl⟩
  | succ m =>
    obtain ⟨υ, inner, hrun⟩ := h m (by omega) τ (e :: outer)
    refine ⟨υ, inner ++ [τ], ?_⟩
    rw [Traced.run_succ_of_step hstep, hi, List.append_assoc]
    exact hrun

/-- **A call is crossed** when its callee comes to its return and returns. -/
theorem Crosses.of_call {l : Label} (hi : listing[σ.pc]? = some (.jal l))
    (hstep : σ.step A listing = some τ) (h : Crosses A listing τ υ)
    (hret : listing[υ.pc]? = some (.jr .returnAddress)) (hback : υ.step A listing = some ω) :
    Crosses A listing σ ω := by
  obtain ⟨n, hlasts, hrun⟩ := h
  have hend : ∀ e outer, Traced.run A listing (n + 1 + 1) ⟨σ, e :: outer⟩ =
      some ⟨ω, e :: outer⟩ := by
    intro e outer
    rw [Traced.run_succ_of_step hstep, hi]
    change Traced.run A listing (n + 1) ⟨τ, τ :: e :: outer⟩ = _
    rw [Traced.run_add (hrun τ (e :: outer)), Traced.run_succ_of_step hback, hret]
    rfl
  refine ⟨n + 1 + 1, ?_, hend⟩
  intro m hm e outer
  by_cases hlast : m ≤ n + 1
  · exact hlasts.of_call hi hstep m hlast e outer
  · obtain rfl : m = n + 1 + 1 := by omega
    exact ⟨ω, [], hend e outer⟩

/-! ### Lines without jumps -/

/-- A line that does not jump stays in the function. -/
lemma Stays.of_plain (h : Plain i) : Stays i := by
  cases i <;> trivial

/-- **Lines without jumps are executed one after another.** -/
theorem crosses_code {s : Scope} {c : Cursor} {b : Nat} {is : List (Instruction Label)}
    (h : (Fragment.code is).Spans listing s c σ.pc b) (his : ∀ i ∈ is, Plain i) :
    Crosses A listing σ (is.foldl (effect A) σ) ∧ (is.foldl (effect A) σ).pc = b := by
  induction is generalizing σ with
  | nil => exact ⟨.refl σ, by simpa using h⟩
  | cons i is ih =>
    rw [Fragment.spans_code_cons] at h
    have hplain := his i List.mem_cons_self
    have hstep := step_plain (A := A) h.1 hplain
    have hrest : (Fragment.code is).Spans listing s c (σ.effect A i).pc b := by
      rw [pc_effect]
      exact h.2
    obtain ⟨hcross, hpc⟩ := ih hrest fun j hj => his j (List.mem_cons_of_mem _ hj)
    exact ⟨(Crosses.of_step h.1 (.of_plain hplain) hstep).trans hcross, hpc⟩

end Machine

end ImpRiscV
