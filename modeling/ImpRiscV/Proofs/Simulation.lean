import ImpRiscV.Proofs.CallTrace

/-!
# What the machine keeps while it evaluates

The code of an expression runs inside of an activation: the frame pointer stands at the saved
return address, the slots lie above it, and the words that the activation has pushed lie below.
This file says what such a state looks like at a given depth, which words a run leaves alone, and
what it means that a run follows an evaluation to its end, be it done or escaped, or goes on while
the evaluation has no end. The small pieces of code, from pushes to tests, are shown to follow
theirs.

## Main definitions

* `ImpRiscV.Activation` — an activation, with the innermost loop around the running code.
* `ImpRiscV.Activation.Ready`, `ImpRiscV.Activation.Kept` — its states, and what a run keeps.
* `ImpRiscV.Activation.Lands` — the machine follows an evaluation to its end.
* `ImpRiscV.Simulates` — wherever a fragment stands, the machine follows an evaluation.

## Main results

* `ImpRiscV.lands_operands`, `ImpRiscV.lands_test` — operands and tests follow theirs.
-/

set_option relaxedAutoImplicit false
set_option autoImplicit false

namespace ImpRiscV

open Machine Fragment

/-- The targets of a loop are in the two words above the stack pointer. -/
lemma Escape.offset_bounds (how : Escape) : 0 < how.offset ∧ how.offset ≤ 8 := by
  cases how <;> simp [offset, wordSize]

/-- An activation of a function. -/
structure Activation where
  /-- The function that is running. -/
  function : String
  /-- What the frame pointer holds. -/
  base : Int
  /-- The number of slots. -/
  size : Nat
  /-- Offsets of slots are exact. -/
  size_lt : size < arityLimit
  /-- The depth of the innermost loop around the running code. -/
  loop? : Option Nat
  /-- The positions to which its escapes jump. -/
  target : Escape → Nat

namespace Activation

variable (K : Activation)

/-- The scope of the running code. -/
def scope (p : Program) : Scope where
  arity? := p.arity?
  function := K.function
  loop? := K.loop?

/-- Where the stack pointer stands when `depth` words are pushed: below them and below the saved
return address. -/
def sp (depth : Nat) : Int := K.base - 4 * (depth + 1)

/-- The two words of the innermost loop are among the pushed ones. -/
def Fits (depth : Nat) : Prop := ∀ d, K.loop? = some d → 2 ≤ d ∧ d ≤ depth

/-- The machine is inside of the activation, which has pushed `depth` words and whose slots are
those of `frame`. -/
structure Ready (depth : Nat) (frame : Frame) (σ : Machine) : Prop where
  /-- The frame pointer. -/
  fp : σ.regs .framePointer = K.base
  /-- The stack pointer. -/
  sp : σ.regs .stackPointer = K.sp depth
  /-- The slots are all there. -/
  size : frame.length = K.size
  /-- They are in memory. -/
  slots : ∀ (i : Nat) (x : Int), frame[i]? = some x → σ.mem (K.base + 4 * (i + 1)) = x
  /-- The targets of the innermost loop are in memory. -/
  staged : ∀ d, K.loop? = some d → ∀ how, σ.mem (K.sp d + how.offset) = K.target how

/-- All words above `low` are the same, except for the slots. -/
def Kept (low : Int) (m m' : Int → Int) : Prop :=
  ∀ a, low < a → (a ≤ K.base ∨ K.base + 4 * K.size < a) → m' a = m a

/-- The machine has come to position `b` at a given depth, and above that depth the memory is as it
was in `m`. -/
structure Arrives (m : Int → Int) (depth b : Nat) (frame : Frame) (σ : Machine) : Prop where
  pc : σ.pc = b
  ready : K.Ready depth frame σ
  kept : K.Kept (K.sp depth) m σ.mem

variable {K} {low low' : Int} {m m' m'' : Int → Int} {depth d : Nat} {frame : Frame}
  {σ τ : Machine}

/-- A memory keeps itself. -/
lemma Kept.refl : K.Kept low m m := fun _ _ _ => rfl

/-- What is kept twice is kept. -/
lemma Kept.trans (h : K.Kept low m m') (h' : K.Kept low m' m'') : K.Kept low m m'' :=
  fun a ha hs => (h' a ha hs).trans (h a ha hs)

/-- Fewer words are kept as well. -/
lemma Kept.mono (h : K.Kept low m m') (hl : low ≤ low') : K.Kept low' m m' :=
  fun a ha hs => h a (by omega) hs

variable (K) in
/-- The stack pointer is lower where more is pushed. -/
lemma sp_le_sp (h : d ≤ depth) : K.sp depth ≤ K.sp d := by
  unfold sp
  omega

/-- The words of a loop stay among the pushed ones when more are pushed. -/
lemma Fits.mono (h : K.Fits d) (hle : d ≤ depth) : K.Fits depth := by
  intro d' hd'
  obtain ⟨h2, hle'⟩ := h d' hd'
  exact ⟨h2, Nat.le_trans hle' hle⟩

/-- The word pushed last is kept by all that happens below it. -/
lemma Kept.pushed (h : K.Kept (K.sp (depth + 1)) m m') : m' (K.sp depth) = m (K.sp depth) := by
  refine h _ ?_ (.inl ?_)
  all_goals
    unfold sp
    omega

/-- Being ready depends on two registers and on the memory. -/
lemma Ready.congr (h : K.Ready depth frame σ)
    (hfp : τ.regs .framePointer = σ.regs .framePointer)
    (hsp : τ.regs .stackPointer = σ.regs .stackPointer) (hmem : τ.mem = σ.mem) :
    K.Ready depth frame τ := by
  refine ⟨hfp.trans h.fp, hsp.trans h.sp, h.size, ?_, ?_⟩
  · rw [hmem]
    exact h.slots
  · rw [hmem]
    exact h.staged

/-- A machine that is ready has arrived where it is. -/
lemma Ready.arrives (h : K.Ready depth frame σ) : K.Arrives σ.mem depth σ.pc frame σ :=
  ⟨rfl, h, .refl⟩

/-- Nothing but the program counter has to change for the machine to arrive elsewhere. -/
lemma Arrives.congr {b b' : Nat} (h : K.Arrives m depth b frame σ) (hpc : τ.pc = b')
    (hfp : τ.regs .framePointer = σ.regs .framePointer)
    (hsp : τ.regs .stackPointer = σ.regs .stackPointer) (hmem : τ.mem = σ.mem) :
    K.Arrives m depth b' frame τ := by
  refine ⟨hpc, h.ready.congr hfp hsp hmem, ?_⟩
  rw [hmem]
  exact h.kept

/-- A machine that has arrived may jump. -/
lemma Arrives.goto {b : Nat} (h : K.Arrives m depth b frame σ) (b' : Nat) :
    K.Arrives m depth b' frame (σ.goto b') := h.congr rfl rfl rfl rfl

/-- A machine that has arrived may go on. -/
lemma Arrives.next {b : Nat} (h : K.Arrives m depth b frame σ) :
    K.Arrives m depth (b + 1) frame σ.next := h.congr (by simp [h.pc]) rfl rfl rfl

/-- The definition of a label is crossed. -/
lemma Arrives.crosses_label {A : Arithmetic} {listing : List (Instruction Label)} {b : Nat}
    {l : Label} (h : K.Arrives m depth b frame σ) (hl : listing[b]? = some (.label l)) :
    Crosses A listing σ σ.next := by
  rw [← h.pc] at hl
  exact .of_step hl trivial (step_plain hl trivial)

/-- A jump is crossed to its target. -/
lemma Arrives.crosses_jump {A : Arithmetic} {listing : List (Instruction Label)} {b t : Nat}
    {l : Label} (h : K.Arrives m depth b frame σ)
    (hl : listing[b]? = some (.b l) ∨ listing[b]? = some (.j l))
    (ht : address listing l = some t) : Crosses A listing σ (σ.goto t) := by
  rw [← h.pc] at hl
  rcases hl with hl | hl
  · exact .of_step hl trivial (step_b hl ht)
  · exact .of_step hl trivial (step_j hl ht)

/-- A run that keeps the words of the innermost loop keeps its targets. -/
lemma Ready.staged_of_kept (h : K.Ready depth frame σ) (hfits : K.Fits depth) {m' : Int → Int}
    (hk : K.Kept (K.sp depth) σ.mem m') :
    ∀ d, K.loop? = some d → ∀ how, m' (K.sp d + how.offset) = K.target how := by
  intro d hd how
  obtain ⟨h2, hle⟩ := hfits d hd
  obtain ⟨hpos, hoff⟩ := how.offset_bounds
  rw [hk, h.staged d hd how]
  · have := K.sp_le_sp hle
    omega
  · left
    unfold Activation.sp
    omega

/-! ### Following an evaluation -/

variable (A : Arithmetic) (listing : List (Instruction Label)) (steps : Nat)

/-- From state `σ` the machine follows an evaluation with the given outcome: if it is done, to a
state as `Q` asks for; if it escapes, to the target in the innermost loop, at the depth of that
loop and with the memory above as it was in `m`; and if it does not end within its fuel, for a
number of steps. -/
def Lands (K : Activation) (m : Int → Int) {α : Type} (Q : α → Frame → Machine → Prop)
    (σ : Machine) : Outcome α → Prop
  | .done x frame => ∃ τ, Crosses A listing σ τ ∧ Q x frame τ
  | .escaped how frame => ∃ d τ, K.loop? = some d ∧ Crosses A listing σ τ ∧
      K.Arrives m d (K.target how) frame τ
  | .undefined => True
  | .exhausted => Lasts A listing steps σ

variable {A listing steps} {α β : Type} {Q : α → Frame → Machine → Prop}
  {R : β → Frame → Machine → Prop} {o : Outcome α}

/-- What is crossed to is where a finished evaluation lands. -/
lemma Lands.done {x : α} (hr : Crosses A listing σ τ) (h : Q x frame τ) :
    K.Lands A listing steps m Q σ (.done x frame) := ⟨τ, hr, h⟩

/-- An evaluation lands where it lands after a stretch that is crossed. -/
lemma Lands.of_crosses (hr : Crosses A listing σ τ) (h : K.Lands A listing steps m Q τ o) :
    K.Lands A listing steps m Q σ o := by
  cases o with
  | done x frame =>
    obtain ⟨υ, hυ, hq⟩ := h
    exact ⟨υ, hr.trans hυ, hq⟩
  | escaped how frame =>
    obtain ⟨d, υ, hd, hυ, harr⟩ := h
    exact ⟨d, υ, hd, hr.trans hυ, harr⟩
  | undefined => trivial
  | exhausted => exact Lasts.of_crosses hr h

/-- A line that stays in the activation is one more step. -/
lemma Lands.of_step {i : Instruction Label} (hi : listing[σ.pc]? = some i) (hstay : Stays i)
    (hstep : σ.step A listing = some τ) (h : K.Lands A listing steps m Q τ o) :
    K.Lands A listing (steps + 1) m Q σ o := by
  have hr := Crosses.of_step hi hstay hstep
  cases o with
  | done x frame => exact Lands.of_crosses (o := .done x frame) hr h
  | escaped how frame => exact Lands.of_crosses (o := .escaped how frame) hr h
  | undefined => trivial
  | exhausted => exact h.of_step hi hstay hstep

/-- Fewer steps may be asked for. -/
lemma Lands.fewer {steps' : Nat} (h : K.Lands A listing steps m Q σ o) (hle : steps' ≤ steps) :
    K.Lands A listing steps' m Q σ o := by
  cases o with
  | done x frame => exact h
  | escaped how frame => exact h
  | undefined => trivial
  | exhausted => exact h.mono hle

/-- What follows an evaluation that is done starts where it has landed. -/
lemma Lands.bind {k : α → Frame → Outcome β} (h : K.Lands A listing steps m Q σ o)
    (hk : ∀ x frame τ, Q x frame τ → K.Lands A listing steps m R τ (k x frame)) :
    K.Lands A listing steps m R σ (o.bind k) := by
  cases o with
  | done x frame =>
    obtain ⟨τ, hτ, hq⟩ := h
    exact (hk x frame τ hq).of_crosses hτ
  | escaped how frame => exact h
  | undefined => trivial
  | exhausted => exact h

/-- A run that is done may be followed by more steps. -/
lemma Lands.extend {Q' : α → Frame → Machine → Prop} (h : K.Lands A listing steps m Q σ o)
    (hq : ∀ x frame τ, Q x frame τ → ∃ υ, Crosses A listing τ υ ∧ Q' x frame υ) :
    K.Lands A listing steps m Q' σ o := by
  cases o with
  | done x frame =>
    obtain ⟨τ, hτ, h⟩ := h
    obtain ⟨υ, hυ, h'⟩ := hq x frame τ h
    exact ⟨υ, hτ.trans hυ, h'⟩
  | escaped how frame => exact h
  | undefined => trivial
  | exhausted => exact h

/-- Less may be asked of the end. -/
lemma Lands.mono {Q' : α → Frame → Machine → Prop} (h : K.Lands A listing steps m Q σ o)
    (hq : ∀ x frame τ, Q x frame τ → Q' x frame τ) : K.Lands A listing steps m Q' σ o :=
  h.extend fun x frame τ hτ => ⟨τ, .refl τ, hq x frame τ hτ⟩

/-- The memory with which an escape is compared may be an earlier one. -/
lemma Lands.rebase (hfits : K.Fits depth) (hk : K.Kept (K.sp depth) m m')
    (h : K.Lands A listing steps m' Q σ o) : K.Lands A listing steps m Q σ o := by
  cases o with
  | done x frame => exact h
  | escaped how frame =>
    obtain ⟨d, υ, hd, hυ, hpc, hready, hkept⟩ := h
    have hle := K.sp_le_sp (hfits d hd).2
    exact ⟨d, υ, hd, hυ, hpc, hready, (hk.mono hle).trans hkept⟩
  | undefined => trivial
  | exhausted => exact h

end Activation

/-! ### Fragments that follow evaluations -/

section simulation

variable (A : Arithmetic) (p : Program) (listing : List (Instruction Label)) (steps : Nat)

/-- Wherever the fragment stands and an activation is ready, the machine follows the evaluation to
the end of the fragment, with the value in the accumulator. -/
structure Simulates (f : Fragment) (m : Eval (Option Int)) : Prop where
  /-- The fragment pops what it pushes. -/
  depth : ∀ c, (f.advance c).depth = c.depth
  /-- The machine follows the evaluation. -/
  lands : ∀ (K : Activation) (c : Cursor) (b : Nat) (frame : Frame) (σ : Machine),
    f.Spans listing (K.scope p) c σ.pc b → K.Fits c.depth → K.Ready c.depth frame σ →
    K.Lands A listing steps σ.mem (fun v frame' τ => K.Arrives σ.mem c.depth b frame' τ ∧
      ∀ x, v = some x → τ.regs .accumulator = x) σ (m frame)

variable {A p listing steps} {K : Activation} {c : Cursor} {b depth : Nat} {frame : Frame}
  {σ : Machine}

/-- A push moves a register to the first free word. -/
lemma Activation.Ready.push (hready : K.Ready depth frame σ) (hfits : K.Fits depth)
    (r : Register) :
    let τ := (pushLines r).foldl (effect A) σ
    K.Ready (depth + 1) frame τ ∧ K.Kept (K.sp depth) σ.mem τ.mem ∧
      τ.mem (K.sp depth) = σ.regs r ∧ ∀ r', r' ≠ .stackPointer → τ.regs r' = σ.regs r' := by
  simp only [pushLines, List.foldl_cons, List.foldl_nil, effect, Instruction.adjustStack]
  have hmem : ∀ a, a ≠ K.sp depth →
      Function.update σ.mem (K.sp depth) (σ.regs r) a = σ.mem a :=
    fun a ha => Function.update_of_ne ha _ _
  have hkept : K.Kept (K.sp depth) σ.mem
      (Function.update σ.mem (K.sp depth) (σ.regs r)) := by
    intro a ha _
    exact hmem a (by omega)
  refine ⟨⟨?_, ?_, hready.size, ?_, ?_⟩, ?_, ?_, ?_⟩
  · simpa using hready.fp
  · simp [hready.sp, Activation.sp, wordSize]
    omega
  · intro i x hx
    simp only [mem_set, mem_store, hready.sp, Int.add_zero]
    rw [hmem _ (by simp only [Activation.sp]; omega), hready.slots i x hx]
  · simp only [mem_set, mem_store, hready.sp, Int.add_zero]
    exact hready.staged_of_kept hfits hkept
  · simpa [hready.sp] using hkept
  · simp [hready.sp]
  · intro r' hr'
    simp [hr']

/-- A pop moves the word pushed last to a register. -/
lemma Activation.Ready.pop {r : Register} (hready : K.Ready (depth + 1) frame σ)
    (hr : r ≠ .stackPointer) (hr' : r ≠ .framePointer) :
    let τ := (popLines r).foldl (effect A) σ
    K.Ready depth frame τ ∧ τ.mem = σ.mem ∧ τ.regs r = σ.mem (K.sp depth) ∧
      ∀ r', r' ≠ .stackPointer → r' ≠ r → τ.regs r' = σ.regs r' := by
  simp only [popLines, List.foldl_cons, List.foldl_nil, effect, Instruction.adjustStack]
  have hword : K.sp (depth + 1) + wordSize = K.sp depth := by
    simp only [Activation.sp, wordSize]
    omega
  refine ⟨⟨?_, ?_, hready.size, ?_, ?_⟩, rfl, ?_, ?_⟩
  · simpa [hr'.symm] using hready.fp
  · simp [hr.symm, hready.sp, hword]
  · exact hready.slots
  · exact hready.staged
  · simp [hr, hready.sp, hword]
  · intro r'' h₁ h₂
    simp [h₁, h₂]

/-- A push is crossed: the register is in the next word, and all others are kept. -/
lemma crosses_push {r : Register} (h : (push r).Spans listing (K.scope p) c σ.pc b)
    (hfits : K.Fits c.depth) (hready : K.Ready c.depth frame σ) :
    ∃ τ, Crosses A listing σ τ ∧ τ.pc = b ∧ K.Ready (c.depth + 1) frame τ ∧
      K.Kept (K.sp c.depth) σ.mem τ.mem ∧ τ.mem (K.sp c.depth) = σ.regs r ∧
      ∀ r', r' ≠ .stackPointer → τ.regs r' = σ.regs r' := by
  obtain ⟨hcross, hpc⟩ := crosses_code (A := A) (spans_push.mp h)
    (by simp [pushLines, Plain, Instruction.adjustStack])
  exact ⟨_, hcross, hpc, hready.push hfits r⟩

/-- A pop is crossed: the register holds the word that was pushed last. -/
lemma crosses_pop {r : Register} (hr : r ≠ .stackPointer) (hr' : r ≠ .framePointer)
    (h : (pop r).Spans listing (K.scope p) c σ.pc b) (hready : K.Ready (depth + 1) frame σ) :
    ∃ τ, Crosses A listing σ τ ∧ τ.pc = b ∧ K.Ready depth frame τ ∧ τ.mem = σ.mem ∧
      τ.regs r = σ.mem (K.sp depth) ∧
      ∀ r', r' ≠ .stackPointer → r' ≠ r → τ.regs r' = σ.regs r' := by
  obtain ⟨hcross, hpc⟩ := crosses_code (A := A) (spans_pop.mp h)
    (by simp [popLines, Plain, Instruction.adjustStack])
  exact ⟨_, hcross, hpc, hready.pop hr hr'⟩

/-- A fragment simulates in the middle of a larger one, which has started with memory `m₀`. -/
lemma Simulates.lands_after {f : Fragment} {m : Eval (Option Int)} {m₀ : Int → Int} {depth a : Nat}
    (hf : Simulates A p listing steps f m) (h : f.Spans listing (K.scope p) c a b)
    (hc : c.depth = depth) (hfits : K.Fits depth) (harr : K.Arrives m₀ depth a frame σ) :
    K.Lands A listing steps m₀ (fun v frame' τ => K.Arrives m₀ depth b frame' τ ∧
      ∀ x, v = some x → τ.regs .accumulator = x) σ (m frame) := by
  obtain ⟨rfl, hready, hkept⟩ := harr
  obtain rfl := hc
  refine (Activation.Lands.rebase hfits hkept (hf.lands K c b frame σ h hfits hready)).mono ?_
  intro v frame' τ hτ
  obtain ⟨hpc, hready', hkept'⟩ := hτ.1
  exact ⟨⟨hpc, hready', hkept.trans hkept'⟩, hτ.2⟩

/-- The same where the value is needed. -/
lemma Simulates.lands_value {f : Fragment} {m : Eval (Option Int)} {m₀ : Int → Int} {depth a : Nat}
    (hf : Simulates A p listing steps f m) (h : f.Spans listing (K.scope p) c a b)
    (hc : c.depth = depth) (hfits : K.Fits depth) (harr : K.Arrives m₀ depth a frame σ) :
    K.Lands A listing steps m₀ (fun x frame' τ => K.Arrives m₀ depth b frame' τ ∧
      τ.regs .accumulator = x) σ (m.value frame) := by
  refine (hf.lands_after h hc hfits harr).bind ?_
  intro v frame' τ hτ
  cases v with
  | some x => exact .done (.refl τ) ⟨hτ.1, hτ.2 x rfl⟩
  | none => trivial

/-- **Operands.** The left value waits on the stack while the right one is evaluated. -/
lemma lands_operands {f g : Fragment} {m n : Eval (Option Int)}
    (hf : Simulates A p listing steps f m) (hg : Simulates A p listing steps g n)
    (h : (operands f g).Spans listing (K.scope p) c σ.pc b) (hfits : K.Fits c.depth)
    (hready : K.Ready c.depth frame σ) :
    K.Lands A listing steps σ.mem (fun v frame' τ => K.Arrives σ.mem c.depth b frame' τ ∧
      τ.regs .scratch = v.1 ∧ τ.regs .accumulator = v.2) σ (Eval.operands m n frame) := by
  obtain ⟨b₁, hl, b₂, hpush, b₃, hr, hpop⟩ := spans_operands.mp h
  have hdepth := hf.depth c
  have hle := K.sp_le_sp (Nat.le_add_right c.depth 1)
  have hfits' := hfits.mono (Nat.le_add_right c.depth 1)
  refine (hf.lands_value hl rfl hfits hready.arrives).bind ?_
  intro x frame₁ τ₁ hτ₁
  obtain ⟨⟨rfl, hready₁, hkept₁⟩, hx⟩ := hτ₁
  rw [← hdepth] at hfits hready₁
  obtain ⟨τ₂, hcross₂, rfl, hready₂, hkept₂, hword, -⟩ := crosses_push hpush hfits hready₁
  rw [hdepth] at hfits hready₁ hready₂ hkept₂ hword
  refine Activation.Lands.of_crosses hcross₂
    (Activation.Lands.rebase hfits (hkept₁.trans hkept₂) ?_)
  refine (hg.lands_value hr (by simp [hdepth]) hfits' hready₂.arrives).bind ?_
  intro y frame₃ τ₃ hτ₃
  obtain ⟨⟨rfl, hready₃, hkept₃⟩, hy⟩ := hτ₃
  obtain ⟨τ₄, hcross₄, hpc₄, hready₄, hmem₄, hscratch, hregs⟩ :=
    crosses_pop (by decide) (by decide) hpop hready₃
  refine .done hcross₄ ⟨⟨hpc₄, hready₄, ?_⟩, ?_, ?_⟩
  · rw [hmem₄]
    exact (hkept₁.trans hkept₂).trans (hkept₃.mono hle)
  · rw [hscratch, hkept₃.pushed, hword, hx]
  · rw [hregs _ (by decide) (by decide), hy]

/-- **Tests.** The branch is taken exactly when the comparison holds. -/
lemma lands_test {f g : Fragment} {m n : Eval (Option Int)} {cmp : Comparison} {l : Label} {t : Nat}
    (hf : Simulates A p listing steps f m) (hg : Simulates A p listing steps g n)
    (h : (test f cmp g l).Spans listing (K.scope p) c σ.pc b) (ht : address listing l = some t)
    (hfits : K.Fits c.depth) (hready : K.Ready c.depth frame σ) :
    K.Lands A listing steps σ.mem (fun taken frame' τ =>
      K.Arrives σ.mem c.depth (if taken then t else b) frame' τ) σ
      (Eval.test A m cmp n frame) := by
  obtain ⟨b₁, hops, hline, rfl⟩ := spans_test.mp h
  refine (lands_operands hf hg hops hfits hready).bind ?_
  intro v frame₁ τ₁ hτ₁
  obtain ⟨harr, hx, hy⟩ := hτ₁
  obtain rfl := harr.pc
  have hstep := step_branchTo (A := A) hline ht
  rw [hx, hy] at hstep
  refine .done (.of_step hline (by cases cmp <;> trivial) hstep) ?_
  split
  · exact harr.goto t
  · exact harr.next

end simulation

end ImpRiscV
