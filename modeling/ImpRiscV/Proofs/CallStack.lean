import ImpRiscV.Proofs.CallTrace
import ImpRiscV.Proofs.Layout

/-!
# The stack of calls

Each running activation owns the words from its arguments downwards. The word above the arguments
is its caller's: the caller has saved its frame pointer there. This file says what it means that the
running activation keeps to its own words, that the stack of calls below it is in order, and that a
run is safe, which is to say that all its states are of this kind.

## Main definitions

* `ImpRiscV.Call` — a call of a declaration, and the addresses that belong to it.
* `ImpRiscV.Call.Isolated` — the running activation keeps to its own words.
* `ImpRiscV.CallStack` — the calls of the running activations, each one below its caller.
* `ImpRiscV.Safe` — all states of a run for a number of steps are isolated.

## Main results

* `ImpRiscV.CallStack.keeps_outer` — what the running activation leaves alone includes all that the
  outer activations rely on.
* `ImpRiscV.CallStack.safe_code` — lines of a body without jumps are safe, if each one is allowed.
-/

set_option relaxedAutoImplicit false
set_option autoImplicit false

namespace ImpRiscV

open Machine

/-! ### Calls -/

/-- A call of a declaration. -/
structure Call where
  /-- Where the code of the declaration stands. -/
  place : Placement
  /-- The state at the entry. -/
  entry : Machine

namespace Call

variable (K : Call)

/-- The stack pointer at the entry. The return address is saved in this word. -/
def base : Int := K.entry.regs .stackPointer

/-- The return address at the entry. -/
def ret : Int := K.entry.regs .returnAddress

/-- The number of arguments. -/
def size : Nat := K.place.decl.arity.toNat

/-- The address of the word above the arguments, in which the caller has saved its frame pointer. -/
def top : Int := K.base + 4 * (K.size + 1)

/-- The word is that of one of the arguments. -/
def IsSlot (x : Int) : Prop := ∃ i : Nat, 1 ≤ i ∧ i ≤ K.size ∧ x = K.base + 4 * i

/-- The memory has the return address in its word, and nothing from the saved frame pointer on has
changed since the entry. -/
structure Keeps (m : Int → Int) : Prop where
  /-- The return address is saved. -/
  ret : m K.base = K.ret
  /-- The words from the saved frame pointer on are as they were. -/
  above : ∀ x, K.top ≤ x → m x = K.entry.mem x

/-- The activation that the call has started is running, and it keeps to its own words. -/
structure Isolated (p : Program) (listing : List (Instruction Label)) (τ : Machine) : Prop where
  /-- The program counter is in the code of the declaration. -/
  pc : K.place.start ≤ τ.pc ∧ τ.pc < K.place.stop p
  /-- In the body, the frame pointer is what the stack pointer was at the entry. -/
  fp : (K.place.body p).start ≤ τ.pc → τ.pc < (K.place.body p).stop →
    τ.regs .framePointer = K.base
  /-- What is loaded or stored relative to the frame pointer is an argument. -/
  slot : ∀ r n, listing[τ.pc]? = some (.lw r n .framePointer) ∨
    listing[τ.pc]? = some (.sw r n .framePointer) → K.IsSlot (τ.regs .framePointer + n)
  /-- What is stored goes below the saved frame pointer. -/
  store : ∀ r n b, listing[τ.pc]? = some (.sw r n b) → τ.regs b + n < K.top
  /-- The words from the saved frame pointer on are as they were at the entry. -/
  above : ∀ x, K.top ≤ x → τ.mem x = K.entry.mem x
  /-- After the line of the prologue that saves it, the return address is in its word. -/
  saved : K.place.start + 3 ≤ τ.pc → τ.mem K.base = K.ret
  /-- At the return, the registers are as the caller expects them. -/
  returns : listing[τ.pc]? = some (.jr .returnAddress) →
    τ.regs .returnAddress = K.ret ∧ τ.regs .stackPointer = K.top ∧
      τ.regs .framePointer = K.entry.mem K.top

/-- A call has been made by the activation of another one: it lies below the words of its caller,
whose frame pointer is saved, and whose own call was in order. -/
structure Nested (K J : Call) : Prop where
  /-- The words from the saved frame pointer on are below the return address of the caller. -/
  below : K.top < J.base
  /-- The frame pointer of the caller is saved. -/
  saved : K.entry.mem K.top = J.base
  /-- The caller has kept what it has to keep. -/
  keeps : J.Keeps K.entry.mem

variable {K} {J : Call} {m m' : Int → Int}

/-- The base of a frame is below its top. -/
lemma base_lt_top : K.base < K.top := by
  unfold top
  omega

/-- Slots lie inside of the frame. -/
lemma IsSlot.bounds {x : Int} (h : K.IsSlot x) : K.base < x ∧ x < K.top := by
  obtain ⟨i, hpos, hle, rfl⟩ := h
  unfold top
  omega

/-- What is kept does not depend on words below the return address, nor on the arguments. -/
lemma Keeps.congr (h : K.Keeps m) (hret : m' K.base = m K.base)
    (habove : ∀ x, K.top ≤ x → m' x = m x) : K.Keeps m' := by
  refine ⟨hret.trans h.ret, ?_⟩
  intro x hx
  rw [habove x hx, h.above x hx]

/-- A caller relies on words only that its callee leaves alone. -/
lemma Nested.keeps_of_above (h : Nested K J) (habove : ∀ x, K.top ≤ x → m x = K.entry.mem x) :
    J.Keeps m := by
  have hlt := h.below
  have htop := J.base_lt_top
  refine h.keeps.congr (habove _ (by omega)) ?_
  intro x hx
  exact habove x (by omega)

/-- So do all callers up to the first one. -/
lemma keeps_of_isChain {outer : List Call} (h : (K :: outer).IsChain Nested)
    (habove : ∀ x, K.top ≤ x → m x = K.entry.mem x) :
    ∀ J ∈ outer, K.top < J.base ∧ J.Keeps m := by
  induction outer generalizing K with
  | nil => simp
  | cons J outer ih =>
    obtain ⟨hJ, hrest⟩ := List.isChain_cons_cons.mp h
    have hkeeps := hJ.keeps_of_above habove
    have hlt := hJ.below
    have htop := J.base_lt_top
    refine List.forall_mem_cons.mpr ⟨⟨hlt, hkeeps⟩, ?_⟩
    intro I hI
    obtain ⟨hI', hkeeps'⟩ := ih hrest hkeeps.above I hI
    exact ⟨by omega, hkeeps'⟩

end Call

/-! ### Stacks of calls -/

/-- The calls of the running activations, the last one first. -/
structure CallStack (p : Program) where
  /-- The call of the running activation. -/
  call : Call
  /-- The calls of the activations that wait for it. -/
  outer : List Call
  /-- Each call goes to the entry of a declaration. -/
  placed : ∀ J ∈ call :: outer, J.place ∈ p.placements ∧ J.entry.pc = J.place.start
  /-- Each call is made by the next one. -/
  nested : (call :: outer).IsChain Call.Nested

namespace CallStack

variable {p : Program} (S : CallStack p)

/-- The states at the entries of the calls. -/
def entries : List Machine := (S.call :: S.outer).map Call.entry

/-- The stack of calls after the running activation has made a call. -/
def enter (K : Call) (hplace : K.place ∈ p.placements) (hentry : K.entry.pc = K.place.start)
    (hnested : K.Nested S.call) : CallStack p where
  call := K
  outer := S.call :: S.outer
  placed := List.forall_mem_cons.mpr ⟨⟨hplace, hentry⟩, S.placed⟩
  nested := .cons_cons hnested S.nested

/-- **What an activation leaves alone includes all that the outer activations rely on.** -/
theorem keeps_outer {m : Int → Int} (habove : ∀ x, S.call.top ≤ x → m x = S.call.entry.mem x) :
    ∀ J ∈ S.outer, S.call.top < J.base ∧ J.Keeps m :=
  Call.keeps_of_isChain S.nested habove

end CallStack

/-! ### Safe runs -/

section safe

variable (A : Arithmetic) (p : Program) (listing : List (Instruction Label))

/-- For `n` steps, each state of the run is isolated, or the first activation has returned. -/
def Safe (n : Nat) (t : Traced) : Prop :=
  ∀ m ≤ n, ∀ t', Traced.run A listing m t = some t' →
    t'.entries = [] ∨ ∃ S : CallStack p, t'.entries = S.entries ∧
      S.call.Isolated p listing t'.machine

/-- The same while a given stack of calls is running. -/
def CallStack.Safe {p : Program} (S : CallStack p) (n : Nat) (σ : Machine) : Prop :=
  ImpRiscV.Safe A p listing n ⟨σ, S.entries⟩

variable {A p listing} {n k : Nat} {t : Traced} {σ τ : Machine}

/-- What is safe for some steps is safe for fewer. -/
lemma Safe.mono (h : Safe A p listing n t) (hk : k ≤ n) : Safe A p listing k t :=
  fun m hm => h m (Nat.le_trans hm hk)

/-- Without activations, nothing can go wrong. -/
lemma safe_of_entries_eq_nil (h : t.entries = []) : Safe A p listing n t := by
  intro m _ t' hrun
  left
  cases m with
  | zero =>
    obtain rfl := Option.some_inj.mp hrun
    exact h
  | succ m =>
    rw [Traced.run, Traced.step, h] at hrun
    cases hrun

namespace CallStack

variable {S : CallStack p} {i : Instruction Label}

/-- **One step.** An isolated state is safe if the next one is, for one step less. -/
theorem safe_of_step (hiso : S.call.Isolated p listing σ)
    (h : ∀ k < n, ∀ t, Traced.step A listing ⟨σ, S.entries⟩ = some t →
      ImpRiscV.Safe A p listing k t) : S.Safe A listing n σ := by
  intro m hm t' hrun
  cases m with
  | zero =>
    obtain rfl := Option.some_inj.mp hrun
    exact .inr ⟨S, rfl, hiso⟩
  | succ m =>
    obtain ⟨t, ht, hrest⟩ := Option.bind_eq_some_iff.mp hrun
    exact h m (by omega) t ht m (Nat.le_refl m) t' hrest

/-- The same for a line that stays in the activation. -/
lemma safe_of_stays (hiso : S.call.Isolated p listing σ) (hi : listing[σ.pc]? = some i)
    (hstay : Stays i) (hstep : σ.step A listing = some τ) (h : ∀ k < n, S.Safe A listing k τ) :
    S.Safe A listing n σ := by
  refine safe_of_step hiso fun k hk t ht => ?_
  obtain ⟨τ', hτ', rfl⟩ := Traced.exists_of_step ht
  obtain rfl := Option.some_inj.mp (hstep.symm.trans hτ')
  rw [hi, entriesAfter_of_stays hstay]
  exact h k hk

end CallStack

/-! ### Lines of a body -/

/-- What a line in the body of a declaration may do: it does not set the frame pointer, it stores to
an argument or below the return address, and it does not return. -/
def Call.Allows (K : Call) (σ : Machine) : Instruction Label → Prop
  | .lw rd n .framePointer => rd ≠ .framePointer ∧ K.IsSlot (σ.regs .framePointer + n)
  | .sw _ n .framePointer => K.IsSlot (σ.regs .framePointer + n)
  | .sw _ n b => σ.regs b + n < K.base
  | .li rd _ | .la rd _ | .lw rd _ _ | .mv rd _ | .addi rd _ _ | .arith _ rd _ _ =>
    rd ≠ .framePointer
  | .jr r => r ≠ .returnAddress
  | _ => True

/-- The stack pointer may always be moved. -/
lemma Call.allows_adjustStack (K : Call) (σ : Machine) (x : Int) :
    K.Allows σ (.adjustStack x) := by
  change Register.stackPointer ≠ .framePointer
  decide

/-- The activation is in its body: the frame pointer is set, and nothing is spoilt. -/
structure Call.Steady (K : Call) (σ : Machine) : Prop where
  /-- The frame pointer. -/
  fp : σ.regs .framePointer = K.base
  /-- What is kept. -/
  keeps : K.Keeps σ.mem

/-- An allowed line leaves the activation steady. -/
lemma Call.Steady.effect {K : Call} {i : Instruction Label} (h : K.Steady σ)
    (hi : K.Allows σ i) : K.Steady (σ.effect A i) := by
  have hset : ∀ (r : Register) (x : Int), r ≠ .framePointer → K.Steady (σ.set r x) := by
    intro r x hr
    refine ⟨?_, h.keeps⟩
    rw [regs_set, Function.update_of_ne hr.symm, h.fp]
  have hstore : ∀ a x : Int, a ≠ K.base → a < K.top → K.Steady (σ.store a x) := by
    intro a x hne hlt
    refine ⟨h.fp, h.keeps.congr (Function.update_of_ne hne.symm _ _) ?_⟩
    intro y hy
    exact Function.update_of_ne (by omega) _ _
  cases i with
  | label | la | branch | b | j | jal | jr | ecall | nop => exact ⟨h.fp, h.keeps⟩
  | li | mv | addi | arith => exact hset _ _ hi
  | lw rd n base =>
    refine hset _ _ ?_
    cases base <;> first | exact hi | exact hi.1
  | sw rs n base =>
    have hlt := K.base_lt_top
    by_cases hbase : base = .framePointer
    · subst hbase
      have hbounds := Call.IsSlot.bounds hi
      exact hstore _ _ (by omega) (by omega)
    · have hlow : σ.regs base + n < K.base := by
        cases base <;> first | exact hi | exact absurd rfl hbase
      exact hstore _ _ (by omega) (by omega)

namespace CallStack

variable {S : CallStack p} {i : Instruction Label} {b : Nat}

/-- The lines from position `a` up to position `b` are lines of the running body. -/
def Covers (S : CallStack p) (a b : Nat) : Prop :=
  (S.call.place.body p).start ≤ a ∧ b ≤ (S.call.place.body p).stop

/-- A smaller stretch is covered as well. -/
lemma Covers.mono {a a' b' : Nat} (h : S.Covers a b) (ha : a ≤ a') (hb : b' ≤ b) :
    S.Covers a' b' := by
  unfold Covers at *
  omega

/-- A steady activation is isolated at an allowed line of its body. -/
lemma isolated_of_steady (hp : p.compile = .ok listing) (hcov : S.Covers σ.pc b) (hlt : σ.pc < b)
    (hsteady : S.call.Steady σ) (hi : listing[σ.pc]? = some i) (hallow : S.call.Allows σ i) :
    S.call.Isolated p listing σ := by
  obtain ⟨hlo, hhi⟩ := hcov
  obtain ⟨size, -, -, -, hepilogue⟩ :=
    Placement.spans_body hp (S.placed S.call List.mem_cons_self).1
  have hstop := hepilogue.le
  have hstart : (S.call.place.body p).start = S.call.place.start + 4 := rfl
  have htop := S.call.base_lt_top
  refine ⟨⟨by omega, by omega⟩, fun _ _ => hsteady.fp, ?_, ?_, hsteady.keeps.above,
    fun _ => hsteady.keeps.ret, ?_⟩
  · rintro r n (hline | hline)
    · obtain rfl := Option.some_inj.mp (hline.symm.trans hi)
      exact hallow.2
    · obtain rfl := Option.some_inj.mp (hline.symm.trans hi)
      exact hallow
  · intro r n base hline
    obtain rfl := Option.some_inj.mp (hline.symm.trans hi)
    by_cases hbase : base = .framePointer
    · subst hbase
      exact (Call.IsSlot.bounds hallow).2
    · have hlow : σ.regs base + n < S.call.base := by
        cases base <;> first | exact hallow | exact absurd rfl hbase
      omega
  · intro hline
    obtain rfl := Option.some_inj.mp (hline.symm.trans hi)
    exact absurd rfl hallow

/-- An allowed line of the body is safe if the next state is, for one step less. -/
lemma safe_of_line (hp : p.compile = .ok listing) (hcov : S.Covers σ.pc b) (hlt : σ.pc < b)
    (hsteady : S.call.Steady σ) (hi : listing[σ.pc]? = some i) (hallow : S.call.Allows σ i)
    (hstay : Stays i) (hstep : σ.step A listing = some τ) (h : ∀ k < n, S.Safe A listing k τ) :
    S.Safe A listing n σ :=
  safe_of_stays (isolated_of_steady hp hcov hlt hsteady hi hallow) hi hstay hstep h

variable (A) in
/-- Each of the lines, executed one after another, is allowed and does not jump. -/
def Allowed (S : CallStack p) : List (Instruction Label) → Machine → Prop
  | [], _ => True
  | i :: is, σ => Plain i ∧ S.call.Allows σ i ∧ Allowed S is (σ.effect A i)

/-- **Lines of a body without jumps are safe**, if each one is allowed and what follows is safe. -/
theorem safe_code {s : Scope} {c : Cursor} {is : List (Instruction Label)}
    (hp : p.compile = .ok listing) (h : (Fragment.code is).Spans listing s c σ.pc b)
    (hcov : S.Covers σ.pc b) (hsteady : S.call.Steady σ) (hallow : S.Allowed A is σ)
    (hnext : (is.foldl (effect A) σ).pc = b → S.Safe A listing n (is.foldl (effect A) σ)) :
    S.Safe A listing n σ := by
  induction is generalizing σ with
  | nil => exact hnext (Fragment.spans_code_nil.mp h)
  | cons i is ih =>
    obtain ⟨hplain, hi, hrest⟩ := hallow
    obtain ⟨hline, hlines⟩ := Fragment.spans_code_cons.mp h
    have hle := hlines.le
    refine safe_of_line hp hcov (by omega) hsteady hline hi (.of_plain hplain)
      (step_plain hline hplain) ?_
    intro k hk
    rw [← pc_effect (A := A) i] at hlines
    refine (ih hlines ?_ (hsteady.effect hi) hrest hnext).mono (Nat.le_of_lt hk)
    rw [pc_effect]
    exact hcov.mono (Nat.le_succ _) (Nat.le_refl _)

end CallStack

end safe

end ImpRiscV
