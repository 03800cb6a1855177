import ImpRiscV.Proofs.Simulation

/-!
# Slots, conditionals and loops follow their evaluations

The fragments of the constructs that stay inside of one activation are shown to follow the
evaluations of the constructs, given that their parts do. A loop is followed round by round: from
its head, a round either comes back to the head or leaves through the exit, whether it gets there
by its own jumps or by an escape from deep inside.

## Main definitions

* `ImpRiscV.SimulatesRound` — the machine follows a round to its end or to the exit.
* `ImpRiscV.SimulatesFrom` — the machine follows a loop from its head to its exit.

## Main results

* `ImpRiscV.simulates_conditional` — conditionals.
* `ImpRiscV.simulatesFrom_loop` — one more round at the head of a loop.
* `ImpRiscV.simulates_staged` — a loop with its targets staged around it.
-/

set_option relaxedAutoImplicit false
set_option autoImplicit false

namespace ImpRiscV

open Machine Fragment

variable {A : Arithmetic} {p : Program} {listing : List (Instruction Label)} {steps : Nat}

/-! ### Constants and slots -/

/-- The code of a constant. -/
lemma simulates_li (n : Int) :
    Simulates A p listing steps (code [.li .accumulator n]) (pure (some n)) := by
  refine ⟨fun _ => rfl, fun K c b frame σ h _ hready => ?_⟩
  obtain ⟨hcross, hpc⟩ := crosses_code (A := A) h (by simp [Plain])
  refine .done hcross ⟨hready.arrives.congr hpc rfl rfl rfl, ?_⟩
  intro x hx
  obtain rfl : n = x := by simpa using hx
  simp [effect]

/-- The code of doing nothing. -/
lemma simulates_nop : Simulates A p listing steps (code [.nop]) (pure none) := by
  refine ⟨fun _ => rfl, fun K c b frame σ h _ hready => ?_⟩
  obtain ⟨hcross, hpc⟩ := crosses_code (A := A) h (by simp [Plain])
  exact .done hcross ⟨hready.arrives.congr hpc rfl rfl rfl, by simp⟩

/-- The code that reads a slot. -/
lemma simulates_load (slot : UInt64) :
    Simulates A p listing steps (load slot) (some <$> Eval.read slot) := by
  refine ⟨by simp, fun K c b frame σ h _ hready => ?_⟩
  have hread : (some <$> Eval.read slot : Eval (Option Int)) frame =
      (Eval.read slot frame).bind fun x frame' => .done (some x) frame' := rfl
  rw [hread, Eval.read]
  by_cases h0 : slot = 0
  · rw [if_pos h0]
    trivial
  rw [if_neg h0]
  cases hx : frame[slot.toNat - 1]? with
  | none => trivial
  | some x =>
    have hpos : slot.toNat ≠ 0 := fun h => h0 (UInt64.toNat_inj.mp h)
    have hlt := (List.getElem?_eq_some_iff.mp hx).1
    rw [hready.size] at hlt
    have hsize := K.size_lt
    obtain ⟨offset, hoffset, hcode⟩ := spans_withAddress.mp h
    rw [slotOffset_of_lt (by omega)] at hoffset
    obtain rfl : 4 * (slot.toNat : Int) = offset := by simpa using hoffset
    obtain ⟨hcross, hpc⟩ := crosses_code (A := A) hcode (by simp [Plain])
    refine .done hcross ⟨hready.arrives.congr hpc rfl rfl rfl, ?_⟩
    intro y hy
    obtain rfl : x = y := by simpa using hy
    have hslot := hready.slots _ _ hx
    rw [show K.base + 4 * ((slot.toNat - 1 : Nat) + 1) = K.base + 4 * (slot.toNat : Int) by omega]
      at hslot
    simpa [effect, hready.fp] using hslot

/-- A slot holds what was stored there last, and nothing else has changed. -/
lemma Activation.Ready.set {K : Activation} {depth i : Nat} {frame : Frame} {σ τ : Machine}
    {x : Int} (h : K.Ready depth frame σ) (hregs : τ.regs = σ.regs)
    (hmem : τ.mem = Function.update σ.mem (K.base + 4 * (i + 1)) x) (hfits : K.Fits depth) :
    K.Ready depth (frame.set i x) τ := by
  refine ⟨by rw [hregs, h.fp], by rw [hregs, h.sp], by rw [List.length_set, h.size], ?_, ?_⟩
  · intro j y hy
    rw [hmem]
    by_cases hj : i = j
    · subst hj
      obtain ⟨hlt, hset⟩ := List.getElem?_eq_some_iff.mp hy
      rw [List.getElem_set_self] at hset
      rw [Function.update_self, hset]
    · rw [List.getElem?_set_ne hj] at hy
      rw [Function.update_of_ne (by omega), h.slots j y hy]
  · intro d hd how
    obtain ⟨h2, -⟩ := hfits d hd
    obtain ⟨-, hoff⟩ := how.offset_bounds
    rw [hmem, Function.update_of_ne, h.staged d hd how]
    unfold Activation.sp
    omega

/-- The code that evaluates a value and writes it to a slot. -/
lemma simulates_store {f : Fragment} {m : Eval (Option Int)} (hf : Simulates A p listing steps f m)
    (slot : UInt64) :
    Simulates A p listing steps (f ++ store slot) (do
      let x ← m.value
      Eval.write slot x
      pure none) := by
  refine ⟨fun c => by simp [hf.depth], fun K c b frame σ h hfits hready => ?_⟩
  obtain ⟨b₁, hvalue, h⟩ := spans_append.mp h
  refine (hf.lands_value hvalue rfl hfits hready.arrives).bind ?_
  intro x frame₁ τ₁ hτ₁
  obtain ⟨⟨rfl, hready₁, hkept₁⟩, hx⟩ := hτ₁
  have hwrite : (do Eval.write slot x; pure none : Eval (Option Int)) frame₁ =
      (Eval.write slot x frame₁).bind fun _ frame' => .done none frame' := rfl
  rw [hwrite, Eval.write]
  split_ifs with hbad
  · trivial
  · rw [not_or, hready₁.size] at hbad
    have hpos : slot.toNat ≠ 0 := fun h => hbad.1 (UInt64.toNat_inj.mp h)
    have hsize := K.size_lt
    obtain ⟨offset, hoffset, hcode⟩ := spans_withAddress.mp h
    rw [slotOffset_of_lt (by omega)] at hoffset
    obtain rfl : 4 * (slot.toNat : Int) = offset := by simpa using hoffset
    obtain ⟨hcross, hpc⟩ := crosses_code (A := A) hcode (by simp [Plain])
    simp only [List.foldl_cons, List.foldl_nil, effect, hready₁.fp, hx] at hcross hpc
    have haddr : K.base + 4 * (slot.toNat : Int) = K.base + 4 * ((slot.toNat - 1 : Nat) + 1) := by
      omega
    rw [haddr] at hcross hpc
    refine .done hcross ⟨⟨hpc, hready₁.set rfl rfl hfits, ?_⟩, by simp⟩
    refine hkept₁.trans fun a _ ha => ?_
    rw [mem_store, Function.update_of_ne (by omega)]

/-- The code of an operator, after that of its operands. -/
lemma simulates_arith {f g : Fragment} {m n : Eval (Option Int)}
    (hf : Simulates A p listing steps f m) (hg : Simulates A p listing steps g n) (op : ArithOp) :
    Simulates A p listing steps
      (operands f g ++ code [.arith op .accumulator .scratch .accumulator]) (do
      let values ← Eval.operands m n
      pure (some (A.compute op values.1 values.2))) := by
  refine ⟨fun c => by simp [operands, hf.depth, hg.depth], fun K c b frame σ h hfits hready => ?_⟩
  obtain ⟨b₁, hops, h⟩ := spans_append.mp h
  refine (lands_operands hf hg hops hfits hready).bind ?_
  intro v frame₁ τ₁ hτ₁
  obtain ⟨harr, hx, hy⟩ := hτ₁
  obtain rfl := harr.pc
  obtain ⟨hcross, hpc⟩ := crosses_code (A := A) h (by simp [Plain])
  refine .done hcross ⟨harr.congr hpc rfl rfl rfl, ?_⟩
  intro x hx'
  simpa [effect, hx, hy] using hx'

/-- The code of one expression after another. -/
lemma simulates_append {f g : Fragment} {m n : Eval (Option Int)}
    (hf : Simulates A p listing steps f m) (hg : Simulates A p listing steps g n) :
    Simulates A p listing steps (f ++ g) (do
      let _ ← m
      n) := by
  refine ⟨fun c => by simp [hf.depth, hg.depth], fun K c b frame σ h hfits hready => ?_⟩
  obtain ⟨b₁, hfirst, h⟩ := spans_append.mp h
  refine (hf.lands_after hfirst rfl hfits hready.arrives).bind ?_
  intro v frame₁ τ₁ hτ₁
  exact hg.lands_after h (hf.depth c) hfits hτ₁.1

/-- A construct is followed if it is followed under every number. -/
lemma simulates_numbered {k : Construct} {rest : Allocated → Fragment} {m : Eval (Option Int)}
    (h : ∀ n, Simulates A p listing steps (rest ⟨k, n⟩) m) :
    Simulates A p listing steps (numbered k rest) m := by
  refine ⟨fun c => (h _).depth _, fun K c b frame σ hspans hfits hready => ?_⟩
  exact (h _).lands K { c with numbering := c.numbering.next k } b frame σ
    (spans_numbered.mp hspans).2 hfits hready

/-! ### Conditionals -/

/-- **Conditionals.** The test jumps over the second body, and the second body over the first. -/
theorem simulates_conditional {f g f' g' : Fragment} {m n m' n' : Eval (Option Int)}
    (hp : p.compile = .ok listing) (cmp : Comparison) (hf : Simulates A p listing steps f m)
    (hg : Simulates A p listing steps g n) (hthen : Simulates A p listing steps f' m')
    (helse : Simulates A p listing steps g' n') :
    Simulates A p listing steps (conditional (test f cmp g) f' g') (do
      if ← Eval.test A m cmp n then m' else n') := by
  refine simulates_numbered fun i => ⟨fun c => ?_, fun K c b frame σ h hfits hready => ?_⟩
  · simp [test, operands, hf.depth, hg.depth, hthen.depth, helse.depth]
  obtain ⟨b₁, htest, hline₁, b₂, hsecond, hjump, hline₂, b₃, hfirst, hline₃, rfl⟩ :=
    spans_branches.mp h
  have hd : ((test f cmp g (.numbered .thenBody i)).advance c).depth = c.depth := by
    simp [test, operands, hf.depth, hg.depth]
  refine (lands_test hf hg htest (p.address_eq hp hline₂) hfits hready).bind ?_
  intro taken frame₁ τ₁ harr₁
  cases taken with
  | true =>
    refine Activation.Lands.of_crosses (harr₁.crosses_label hline₂) ?_
    have hd' := (helse.depth _).trans hd
    refine (hthen.lands_after hfirst hd' hfits harr₁.next).extend ?_
    intro v frame₂ τ₂ hτ₂
    exact ⟨_, hτ₂.1.crosses_label hline₃, hτ₂.1.next, hτ₂.2⟩
  | false =>
    refine Activation.Lands.of_crosses (harr₁.crosses_label hline₁) ?_
    refine (helse.lands_after hsecond hd hfits harr₁.next).extend ?_
    intro v frame₂ τ₂ hτ₂
    have hcross := hτ₂.1.crosses_jump (A := A) (.inl hjump) (p.address_eq hp hline₃)
    have harr₃ := hτ₂.1.goto b₃
    exact ⟨_, hcross.trans (harr₃.crosses_label hline₃), harr₃.next, hτ₂.2⟩

/-! ### Escapes -/

/-- Dropping no words takes no line, but it does what the line would do. -/
lemma crosses_drop {s : Scope} {c : Cursor} {b pending : Nat} {σ : Machine}
    {rest : List (Instruction Label)}
    (h : (code ((if pending = 0 then [] else [.adjustStack (pending * wordSize)]) ++ rest)).Spans
      listing s c σ.pc b) :
    ∃ τ, Crosses A listing σ τ ∧ τ.mem = σ.mem ∧
      τ.regs = Function.update σ.regs .stackPointer (σ.regs .stackPointer + 4 * pending) ∧
      (code rest).Spans listing s c τ.pc b := by
  by_cases hpending : pending = 0
  · subst hpending
    refine ⟨σ, .refl σ, rfl, by simp, by simpa using h⟩
  · rw [if_neg hpending, List.singleton_append, spans_code_cons] at h
    refine ⟨_, .of_step h.1 trivial (step_plain h.1 trivial), rfl, ?_, h.2⟩
    simp [Instruction.adjustStack, effect, wordSize, Int.mul_comm]

/-- Once all that the loop's inside has pushed is dropped, the word at the offset of an escape is
its target, and the activation is ready there. -/
lemma Activation.Ready.unwind {K : Activation} {depth d : Nat} {frame : Frame} {σ τ : Machine}
    (h : K.Ready depth frame σ) (hd : K.loop? = some d) (hle : d ≤ depth) (hmem : τ.mem = σ.mem)
    (hregs : τ.regs = Function.update σ.regs .stackPointer
      (σ.regs .stackPointer + 4 * (depth - d : Nat))) (how : Escape) :
    let υ := τ.effect A (.lw how.register how.offset .stackPointer)
    υ.regs how.register = K.target how ∧
      K.Arrives σ.mem d (K.target how) frame (υ.goto (K.target how)) := by
  have hsp : τ.regs .stackPointer = K.sp d := by
    rw [hregs, Function.update_self, h.sp]
    unfold Activation.sp
    omega
  have hfp : τ.regs .framePointer = K.base := by
    rw [hregs, Function.update_of_ne (by decide), h.fp]
  have hne : Register.stackPointer ≠ how.register ∧ Register.framePointer ≠ how.register := by
    cases how <;> decide
  refine ⟨?_, rfl, ⟨?_, ?_, h.size, ?_, ?_⟩, ?_⟩
  · simp [effect, hsp, hmem, h.staged d hd how]
  · simp [effect, hne, hfp]
  · simp [effect, hne, hsp]
  · simpa [effect, hmem] using h.slots
  · simpa [effect, hmem] using h.staged
  · rw [mem_goto, effect, mem_set, hmem]
    exact .refl

/-- **Escapes.** What was pushed inside of the loop is dropped, and the word found then is the
target. -/
theorem simulates_escape (how : Escape) :
    Simulates A p listing steps (escape how) fun frame => .escaped how frame := by
  refine ⟨fun _ => rfl, fun K c b frame σ h hfits hready => ?_⟩
  obtain ⟨d, hd, hcode⟩ := spans_escape.mp h
  obtain ⟨τ, hcross, hmem, hregs, hload⟩ := crosses_drop (A := A) hcode
  obtain ⟨hlw, hjr⟩ : listing[τ.pc]? = some (.lw how.register how.offset .stackPointer) ∧
      listing[τ.pc + 1]? = some (.jr how.register) := by
    simp only [spans_code_cons] at hload
    exact ⟨hload.1, hload.2.1⟩
  obtain ⟨htarget, harr⟩ := hready.unwind (A := A) hd (hfits d hd).2 hmem hregs how
  set υ := τ.effect A (.lw how.register how.offset .stackPointer) with hυ
  have hload : Crosses A listing τ υ := .of_step hlw trivial (step_plain hlw trivial)
  have hjump : Crosses A listing υ (υ.goto (K.target how)) :=
    .of_step hjr (by cases how <;> trivial) (step_jr hjr htarget)
  exact ⟨d, _, hd, hcross.trans (hload.trans hjump), harr⟩

/-! ### Rounds of a loop -/

section loops

variable (A p listing steps)

/-- Wherever the round stands, the machine follows it to its end, if there is another round, or to
the exit of the loop. -/
structure SimulatesRound (exit : Label) (f : Fragment) (m : Eval Bool) : Prop where
  /-- The round pops what it pushes. -/
  depth : ∀ c, (f.advance c).depth = c.depth
  /-- The machine follows the evaluation. -/
  lands : ∀ (K : Activation) (c : Cursor) (b e : Nat) (frame : Frame) (σ : Machine),
    f.Spans listing (K.scope p) c σ.pc b → listing[e]? = some (.label exit) →
    K.Fits c.depth → K.Ready c.depth frame σ →
    K.Lands A listing steps σ.mem (fun more frame' τ =>
      K.Arrives σ.mem c.depth (if more then b else e) frame' τ) σ (m frame)

variable {A p listing steps}

/-- The round of a loop that tests first. -/
lemma simulatesRound_while {f g body : Fragment} {m n r : Eval (Option Int)}
    (hp : p.compile = .ok listing) (cmp : Comparison) (hf : Simulates A p listing steps f m)
    (hg : Simulates A p listing steps g n) (hbody : Simulates A p listing steps body r) (i : Nat) :
    SimulatesRound A p listing steps (.numbered .whileExit i) (whileRound (test f cmp g) body i)
      (Eval.whileRound (Eval.test A m cmp n) r) := by
  refine ⟨fun c => ?_, fun K c b e frame σ h he hfits hready => ?_⟩
  · simp [whileRound, test, operands, hf.depth, hg.depth, hbody.depth]
  obtain ⟨b₁, htest, hjump, hline, hrest⟩ := spans_whileRound.mp h
  have hd : ((test f cmp g (.numbered .whileBody i)).advance c).depth = c.depth := by
    simp [test, operands, hf.depth, hg.depth]
  refine (lands_test hf hg htest (p.address_eq hp hline) hfits hready).bind ?_
  intro taken frame₁ τ₁ harr₁
  cases taken with
  | true =>
    refine Activation.Lands.of_crosses (harr₁.crosses_label hline) ?_
    refine (hbody.lands_after hrest hd hfits harr₁.next).bind ?_
    intro v frame₂ τ₂ hτ₂
    exact .done (.refl τ₂) hτ₂.1
  | false =>
    exact .done (harr₁.crosses_jump (.inr hjump) (p.address_eq hp he)) (harr₁.goto e)

/-- The round of a loop that tests last. -/
lemma simulatesRound_repeat {f g body : Fragment} {m n r : Eval (Option Int)}
    (hp : p.compile = .ok listing) (cmp : Comparison) (hf : Simulates A p listing steps f m)
    (hg : Simulates A p listing steps g n) (hbody : Simulates A p listing steps body r) (i : Nat) :
    SimulatesRound A p listing steps (.numbered .repeatExit i) (repeatRound body (test f cmp g) i)
      (Eval.repeatRound r (Eval.test A m cmp n)) := by
  refine ⟨fun c => ?_, fun K c b e frame σ h he hfits hready => ?_⟩
  · simp [repeatRound, test, operands, hf.depth, hg.depth, hbody.depth]
  obtain ⟨b₁, hfirst, htest⟩ := spans_repeatRound.mp h
  have hd := hbody.depth c
  refine (hbody.lands_after hfirst rfl hfits hready.arrives).bind ?_
  intro v frame₁ τ₁ hτ₁
  obtain ⟨⟨rfl, hready₁, hkept₁⟩, -⟩ := hτ₁
  rw [← hd] at hfits hready₁
  have hlands := lands_test hf hg htest (p.address_eq hp he) hfits hready₁
  rw [hd] at hfits hlands
  refine (Activation.Lands.rebase hfits hkept₁ hlands).bind ?_
  intro ends frame₂ τ₂ harr₂
  refine .done (.refl τ₂) ⟨?_, harr₂.ready, hkept₁.trans harr₂.kept⟩
  rw [harr₂.pc]
  cases ends <;> rfl

/-! ### Loops -/

/-- The activation while it runs a loop that has staged the positions of its exit and head. -/
def Activation.enter (K : Activation) (depth exit head : Nat) : Activation :=
  { K with
    loop? := some depth
    target := fun how => match how with
      | .exit => exit
      | .restart => head }

/-- The activation is ready for the loop when the two words pushed last are its targets. -/
lemma Activation.Ready.enter {K : Activation} {depth exit head : Nat} {frame : Frame} {σ : Machine}
    (h : K.Ready (depth + 2) frame σ) (hexit : σ.mem (K.sp depth) = exit)
    (hhead : σ.mem (K.sp (depth + 1)) = head) :
    (K.enter (depth + 2) exit head).Ready (depth + 2) frame σ := by
  refine ⟨h.fp, h.sp, h.size, h.slots, ?_⟩
  intro d hd how
  obtain rfl : depth + 2 = d := by simpa [Activation.enter] using hd
  change σ.mem (K.sp (depth + 2) + how.offset) = _
  cases how with
  | exit =>
    have haddr : K.sp (depth + 2) + Escape.exit.offset = K.sp depth := by
      simp only [Activation.sp, Escape.offset, wordSize]
      omega
    rw [haddr, hexit]
    rfl
  | restart =>
    have haddr : K.sp (depth + 2) + Escape.restart.offset = K.sp (depth + 1) := by
      simp only [Activation.sp, Escape.offset, wordSize]
      omega
    rw [haddr, hhead]
    rfl

/-- Where the loop ends, its two words are still pushed, and all above them is as before the
loop. -/
lemma Activation.Arrives.leave {K : Activation} {depth exit head b : Nat} {m : Int → Int}
    {frame frame' : Frame} {σ τ : Machine}
    (h : (K.enter (depth + 2) exit head).Arrives m (depth + 2) b frame' τ) (hfits : K.Fits depth)
    (hready : K.Ready depth frame σ) (hkept : K.Kept (K.sp depth) σ.mem m) :
    K.Arrives m (depth + 2) b frame' τ ∧ K.Kept (K.sp depth) σ.mem τ.mem := by
  obtain ⟨hpc, ⟨hfp, hsp, hsize, hslots, -⟩, hinside⟩ := h
  have houter : K.Kept (K.sp depth) m τ.mem :=
    hinside.mono (K.sp_le_sp (Nat.le_add_right depth 2))
  have hstaged := hready.staged_of_kept hfits (hkept.trans houter)
  exact ⟨⟨hpc, ⟨hfp, hsp, hsize, hslots, hstaged⟩, hinside⟩, hkept.trans houter⟩

/-- The activation as seen from where no escape can come. -/
def Activation.closed (K : Activation) : Activation := { K with loop? := none }

/-- An evaluation that cannot escape is followed in the same way whatever loop is around it. -/
lemma Activation.Lands.of_closed {K K' : Activation} {m m' : Int → Int} {α : Type}
    {Q : α → Frame → Machine → Prop} {σ : Machine} {o : Outcome α}
    (h : K.closed.Lands A listing steps m Q σ o) : K'.Lands A listing steps m' Q σ o := by
  cases o with
  | done x frame => exact h
  | escaped how frame =>
    obtain ⟨d, τ, hd, -⟩ := h
    cases hd
  | undefined => trivial
  | exhausted => exact h

/-- A round out of which an escape goes no further ends at one of the two targets. -/
lemma lands_caught {K : Activation} {d : Nat} {m₀ : Int → Int} {σ : Machine} {frame : Frame}
    {m : Eval Bool} (hd : K.loop? = some d)
    (h : K.Lands A listing steps m₀ (fun more frame' τ =>
      K.Arrives m₀ d (K.target (if more then .restart else .exit)) frame' τ) σ (m frame)) :
    K.closed.Lands A listing steps m₀ (fun more frame' τ =>
      K.Arrives m₀ d (K.target (if more then .restart else .exit)) frame' τ) σ
      (m.caught frame) := by
  unfold Eval.caught
  cases hm : m frame with
  | done more frame' =>
    rw [hm] at h
    exact h
  | escaped how frame' =>
    rw [hm] at h
    obtain ⟨d', τ, hd', hcross, harr⟩ := h
    obtain rfl : d = d' := by simpa [hd] using hd'
    cases how with
    | exit => exact .done hcross harr
    | restart => exact .done hcross harr
  | undefined => trivial
  | exhausted =>
    rw [hm] at h
    exact h

variable (A p listing steps)

/-- Wherever the loop stands, with its head before and a jump back after the round, and has staged
its targets, the machine follows the evaluation from the head to the exit. -/
def SimulatesFrom (exit head : Label) (round : Fragment) (m : Eval (Option Int)) : Prop :=
  ∀ (K : Activation) (c : Cursor) (a b : Nat) (frame : Frame) (σ : Machine),
    listing[a]? = some (.label head) → round.Spans listing (K.scope p) c (a + 1) b →
    listing[b]? = some (.j head) → listing[b + 1]? = some (.label exit) →
    K.loop? = some c.depth → 2 ≤ c.depth → K.target .restart = a → K.target .exit = b + 1 →
    K.Arrives σ.mem c.depth a frame σ →
    K.closed.Lands A listing steps σ.mem (fun v frame' τ => v = none ∧
      K.Arrives σ.mem c.depth (b + 1) frame' τ) σ (m frame)

variable {A p listing steps}

/-- **One more round.** Where the machine follows a round and the rest of a loop, it follows the
loop, and for one more step. -/
theorem simulatesFrom_loop {exit head : Label} {round : Fragment} {m : Eval Bool}
    {again : Eval (Option Int)} (hp : p.compile = .ok listing)
    (hround : SimulatesRound A p listing (steps + 1) exit round m)
    (hagain : SimulatesFrom A p listing steps exit head round again) :
    SimulatesFrom A p listing (steps + 1) exit head round (Eval.loop m again) := by
  intro K c a b frame σ hhead hspans hback hexit hloop hdepth hrestart hleave harr
  have hfits : K.Fits c.depth := by
    intro d hd
    obtain rfl : c.depth = d := by simpa [hloop] using hd
    exact ⟨hdepth, Nat.le_refl _⟩
  have hnext := harr.next
  rw [← hnext.pc] at hspans
  have hlands := (hround.lands K c b (b + 1) frame σ.next hspans hexit hfits hnext.ready).fewer
    (Nat.le_succ steps)
  have hends : K.Lands A listing steps σ.mem (fun more frame' τ =>
      K.Arrives σ.mem c.depth (K.target (if more then .restart else .exit)) frame' τ) σ.next
      (m frame) := by
    refine hlands.extend ?_
    intro more frame₁ τ₁ harr₁
    cases more with
    | true =>
      -- the end of the round jumps back to the head
      refine ⟨_, harr₁.crosses_jump (.inr hback) (p.address_eq hp hhead), ?_⟩
      rw [if_pos rfl, hrestart]
      exact harr₁.goto a
    | false =>
      refine ⟨τ₁, .refl τ₁, ?_⟩
      rw [if_neg (by decide), hleave]
      exact harr₁
  -- the line of the head is the one more step
  have hline : listing[σ.pc]? = some (.label head) := by rw [harr.pc, hhead]
  refine Activation.Lands.of_step hline trivial (step_plain hline trivial) ?_
  refine (lands_caught hloop hends).bind ?_
  intro more frame₁ τ₁ harr₁
  cases more with
  | true =>
    rw [if_pos rfl, hrestart] at harr₁
    have hrest := hagain K c a b frame₁ τ₁ hhead (hnext.pc ▸ hspans) hback hexit hloop hdepth
      hrestart hleave ⟨harr₁.pc, harr₁.ready, .refl⟩
    refine Activation.Lands.of_closed (K := K) (m := τ₁.mem) (hrest.mono ?_)
    intro v frame₂ τ₂ hτ₂
    exact ⟨hτ₂.1, hτ₂.2.pc, hτ₂.2.ready, harr₁.kept.trans hτ₂.2.kept⟩
  | false =>
    rw [if_neg (by decide), hleave] at harr₁
    exact .done (.refl τ₁) ⟨rfl, harr₁⟩

/-- Staging a target moves its position to the first free word. -/
lemma crosses_stage {K : Activation} {c : Cursor} {b t : Nat} {frame : Frame} {σ : Machine}
    {r : Register} {l : Label} (hr : .framePointer ≠ r ∧ .stackPointer ≠ r)
    (hline : listing[σ.pc]? = some (.la r l)) (ht : address listing l = some t)
    (hpush : (push r).Spans listing (K.scope p) c (σ.pc + 1) b) (hfits : K.Fits c.depth)
    (hready : K.Ready c.depth frame σ) :
    ∃ τ, Crosses A listing σ τ ∧ τ.pc = b ∧ K.Ready (c.depth + 1) frame τ ∧
      K.Kept (K.sp c.depth) σ.mem τ.mem ∧ τ.mem (K.sp c.depth) = t := by
  have hready₁ : K.Ready c.depth frame (σ.set r t) :=
    hready.congr (by simp [hr.1]) (by simp [hr.2]) rfl
  obtain ⟨τ, hcross, hpc, hready₂, hkept, hword, -⟩ :=
    crosses_push (A := A) (σ := σ.set r t) hpush hfits hready₁
  have hla := Crosses.of_step (A := A) hline trivial (step_la hline ht)
  refine ⟨τ, hla.trans hcross, hpc, hready₂, hkept, ?_⟩
  rw [hword, regs_set, Function.update_self]

/-- **Loops.** The targets are staged, the loop runs from its head to its exit, and the targets are
popped. -/
theorem simulates_staged {exit head : Label} {round : Fragment} {m : Eval (Option Int)}
    (hp : p.compile = .ok listing) (hd : ∀ c, (round.advance c).depth = c.depth)
    (h : SimulatesFrom A p listing steps exit head round m) :
    Simulates A p listing steps (staged exit head round) m := by
  refine ⟨fun c => by simp [staged, hd], fun K c b frame σ hspans hfits hready => ?_⟩
  obtain ⟨hla, b₁, hpush, hla', a, hpush', hhead, e, hround, hback, hexit, b₂, hpop, hpop'⟩ :=
    spans_staged.mp hspans
  have hfits₁ := hfits.mono (Nat.le_add_right c.depth 1)
  have hle₁ := K.sp_le_sp (Nat.le_add_right c.depth 1)
  obtain ⟨τ₁, hcross₁, rfl, hready₁, hkept₁, hword₁⟩ := crosses_stage (A := A) (by decide) hla
    (p.address_eq hp hexit) hpush hfits hready
  obtain ⟨τ₂, hcross₂, rfl, hready₂, hkept₂, hword₂⟩ := crosses_stage (A := A)
    (c := { c with depth := c.depth + 1 }) (by decide) hla' (p.address_eq hp hhead) hpush' hfits₁
    hready₁
  -- inside of the loop the staged words are the targets
  set K' := K.enter (c.depth + 2) (e + 1) τ₂.pc with hK'
  have hkept : K.Kept (K.sp c.depth) σ.mem τ₂.mem := hkept₁.trans (hkept₂.mono hle₁)
  have hready' : K'.Ready (c.depth + 2) frame τ₂ :=
    hready₂.enter (hkept₂.pushed.trans hword₁) hword₂
  have hlands := h K' { c with depth := c.depth + 2 } τ₂.pc e frame τ₂ hhead hround hback hexit rfl
    (by simp) rfl rfl hready'.arrives
  refine Activation.Lands.of_crosses (hcross₁.trans hcross₂)
    (Activation.Lands.of_closed (K := K') (m := τ₂.mem) (hlands.extend ?_))
  intro v frame' τ₃ hτ₃
  obtain ⟨rfl, harr₃⟩ := hτ₃
  obtain ⟨harr, hkept'⟩ := harr₃.leave hfits hready hkept
  rw [← harr.next.pc] at hpop
  obtain ⟨τ₄, hcross₄, rfl, hready₄, hmem₄, -⟩ :=
    crosses_pop (A := A) (by decide) (by decide) hpop harr.next.ready
  obtain ⟨τ₅, hcross₅, hpc₅, hready₅, hmem₅, -⟩ :=
    crosses_pop (A := A) (by decide) (by decide) hpop' hready₄
  have hcross₃ := harr.crosses_label (A := A) hexit
  refine ⟨τ₅, hcross₃.trans (hcross₄.trans hcross₅), ⟨hpc₅, hready₅, ?_⟩, by simp⟩
  rw [hmem₅, hmem₄, mem_next]
  exact hkept'

end loops

end ImpRiscV
