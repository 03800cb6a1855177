import ImpRiscV.Proofs.Constructs

/-!
# Calls follow the evaluation of the called body

A caller pushes its frame pointer and the arguments, the last one first, so that the callee finds
them in its slots. The callee saves the return address, runs its body in an activation of its own,
and releases all that its caller has pushed. What the caller relies on is that the words above its
own stack pointer are as before.

## Main definitions

* `ImpRiscV.Machine.Called` — a state at the entry of a function.
* `ImpRiscV.Machine.Returned` — the state after the call, compared with that at the entry.

## Main results

* `ImpRiscV.lands_function` — a function follows the evaluation of its body.
* `ImpRiscV.returns_of_simulates` — it returns the value of the body.
* `ImpRiscV.simulates_call` — a call follows the evaluation of its arguments and of the body.
-/

set_option relaxedAutoImplicit false
set_option autoImplicit false

namespace ImpRiscV

open Machine Fragment

namespace Machine

/-- The machine is at the entry of a function: it will return to position `ret`, and the arguments
lie above the stack pointer, the first one lowest. -/
structure Called (listing : List (Instruction Label)) (name : String) (ret : Nat) (args : List Int)
    (σ : Machine) : Prop where
  /-- The entry of the function. -/
  pc : address listing (.entry name) = some σ.pc
  /-- The position after the call. -/
  ra : σ.regs .returnAddress = ret
  /-- The arguments. -/
  words : ∀ (i : Nat) (x : Int), args[i]? = some x → σ.mem (σ.regs .stackPointer + 4 * (i + 1)) = x

/-- The function called in state `σ` has returned to position `ret` in state `τ`. The arguments and
the frame pointer saved above them are released, and all other words that the caller has pushed are
as they were. -/
structure Returned (arity ret : Nat) (value : Option Int) (σ τ : Machine) : Prop where
  /-- The position after the call. -/
  pc : τ.pc = ret
  /-- The arguments and the saved frame pointer are released. -/
  sp : τ.regs .stackPointer = σ.regs .stackPointer + 4 * (arity + 1)
  /-- The frame pointer of the caller is restored. -/
  fp : τ.regs .framePointer = σ.mem (σ.regs .stackPointer + 4 * (arity + 1))
  /-- The value is in the accumulator. -/
  value : ∀ x, value = some x → τ.regs .accumulator = x
  /-- Nothing above the arguments has changed. -/
  mem : ∀ a, σ.regs .stackPointer + 4 * arity < a → τ.mem a = σ.mem a

end Machine

variable {A : Arithmetic} {p : Program} {listing : List (Instruction Label)} {steps : Nat}

/-! ### The callee -/

/-- The entry of a function is where its code starts. -/
lemma address_entry {s : Scope} {c : Cursor} {d : Declaration} {a b : Nat}
    (hp : p.compile = .ok listing) (h : d.lower.Spans listing s c a b) :
    address listing (.entry d.name) = some a := by
  obtain ⟨size, -, b₁, hprologue, -⟩ := spans_declaration.mp h
  exact p.address_eq hp (spans_code_cons.mp hprologue).1

/-- The activation that a call starts: its frame pointer is the stack pointer at the entry. -/
def Activation.ofCall (d : Declaration) (hd : d.arity.toNat < arityLimit) (σ : Machine) :
    Activation where
  function := d.name
  base := σ.regs .stackPointer
  size := d.arity.toNat
  size_lt := hd
  loop? := none
  target _ := 0

/-- The prologue makes the activation ready. -/
lemma Activation.ready_prologue {d : Declaration} {args : List Int} {σ : Machine}
    (hd : d.arity.toNat < arityLimit) (hargs : args.length = d.arity.toNat)
    (hwords : ∀ (i : Nat) (x : Int), args[i]? = some x →
      σ.mem (σ.regs .stackPointer + 4 * (i + 1)) = x) :
    let τ := (prologue d.name).foldl (effect A) σ
    (Activation.ofCall d hd σ).Ready 0 args τ ∧
      τ.mem = Function.update σ.mem (σ.regs .stackPointer) (σ.regs .returnAddress) := by
  simp only [prologue, List.foldl_cons, List.foldl_nil, effect, Instruction.adjustStack]
  refine ⟨⟨?_, ?_, hargs, ?_, ?_⟩, ?_⟩
  · simp [Activation.ofCall]
  · simp [Activation.ofCall, Activation.sp, wordSize]
    omega
  · intro i x hx
    simp only [Activation.ofCall, mem_set, mem_store, regs_set, regs_next, mem_next]
    rw [Function.update_of_ne]
    · exact hwords i x hx
    · rw [Function.update_of_ne (by decide)]
      omega
  · intro d hd
    cases hd
  · simp

/-- The prologue runs to the body, and the frame of the call is set up. -/
lemma crosses_prologue {s : Scope} {c : Cursor} {d : Declaration} {ret b : Nat} {args : List Int}
    {σ : Machine} (hd : d.arity.toNat < arityLimit) (hargs : args.length = d.arity.toNat)
    (hcalled : Called listing d.name ret args σ)
    (h : (code (prologue d.name)).Spans listing s c σ.pc b) :
    ∃ τ, Crosses A listing σ τ ∧ τ.pc = b ∧ (Activation.ofCall d hd σ).Ready 0 args τ ∧
      τ.mem = Function.update σ.mem (σ.regs .stackPointer) ret := by
  obtain ⟨hcross, hpc⟩ :=
    crosses_code (A := A) h (by simp [prologue, Plain, Instruction.adjustStack])
  have hready := Activation.ready_prologue (A := A) hd hargs hcalled.words
  rw [hcalled.ra] at hready
  exact ⟨_, hcross, hpc, hready⟩

/-- The epilogue takes the return address and the frame pointer from their words and releases the
frame. -/
lemma Machine.restore_spec {arity : Nat} {base : Int} {τ : Machine}
    (hsp : τ.regs .stackPointer = base - 4) :
    let υ := (restore (4 * (arity + 2))).foldl (effect A) τ
    υ.mem = τ.mem ∧ υ.regs .returnAddress = τ.mem base ∧
      υ.regs .stackPointer = base + 4 * (arity + 1) ∧
      υ.regs .framePointer = τ.mem (base + 4 * (arity + 1)) ∧
      υ.regs .accumulator = τ.regs .accumulator := by
  have haddr : base - 4 + 4 * ((arity : Int) + 2) = base + 4 * (arity + 1) := by omega
  simp [restore, effect, Instruction.adjustStack, wordSize, hsp, haddr]

/-- The epilogue comes to a return, with the frame released. -/
lemma crosses_epilogue {s : Scope} {c : Cursor} {arity b ret : Nat} {base : Int} {τ : Machine}
    (h : (code (epilogue (4 * (arity + 2)))).Spans listing s c τ.pc b)
    (hsp : τ.regs .stackPointer = base - 4) (hra : τ.mem base = ret) :
    ∃ υ, Crosses A listing τ υ ∧ listing[υ.pc]? = some (.jr .returnAddress) ∧
      υ.step A listing = some (υ.goto ret) ∧ υ.mem = τ.mem ∧
      υ.regs .stackPointer = base + 4 * (arity + 1) ∧
      υ.regs .framePointer = τ.mem (base + 4 * (arity + 1)) ∧
      υ.regs .accumulator = τ.regs .accumulator := by
  obtain ⟨b₁, hrestore, hreturn⟩ := spans_code_append.mp h
  obtain ⟨hcross, hpc⟩ :=
    crosses_code (A := A) hrestore (by simp [restore, Plain, Instruction.adjustStack])
  obtain ⟨hmem, hra', hregs⟩ := restore_spec (A := A) hsp
  rw [← hpc, spans_code_cons] at hreturn
  exact ⟨_, hcross, hreturn.1, step_jr hreturn.1 (hra'.trans hra), hmem, hregs⟩

/-- **A function follows the evaluation of its body**: if that is done, the function comes to a
return, and returns with the value of the body.

**Proof sketch.** The body runs in an activation without loops, so it cannot escape. It starts
where the prologue ends, and it leaves the saved return address and all that the caller has pushed
alone, since these are above its stack pointer and are not slots. -/
theorem lands_function {c : Cursor} {d : Declaration} {ret a b : Nat} {args : List Int}
    {σ : Machine} {m : Eval (Option Int)} (hp : p.compile = .ok listing)
    (hd : d.arity.toNat < arityLimit) (hargs : args.length = d.arity.toNat)
    (hspans : d.lower.Spans listing { arity? := p.arity? } c a b)
    (hbody : Simulates A p listing steps d.body.lower m)
    (hcalled : Called listing d.name ret args σ) :
    (Activation.ofCall d hd σ).Lands A listing steps σ.mem (fun v _ υ =>
      listing[υ.pc]? = some (.jr .returnAddress) ∧
      ∃ τ, υ.step A listing = some τ ∧ Returned args.length ret v σ τ) σ (m args) := by
  have hentry := address_entry hp hspans
  obtain ⟨size, hsize, b₁, hprologue, b₂, hrun, hepilogue⟩ := spans_declaration.mp hspans
  rw [frameSize_of_lt hd] at hsize
  obtain rfl : 4 * ((d.arity.toNat : Int) + 2) = size := by simpa using hsize
  have hpc : σ.pc = a := Option.some_inj.mp (hcalled.pc.symm.trans hentry)
  obtain ⟨τ₁, hcross₁, rfl, hready₁, hmem₁⟩ :=
    crosses_prologue (A := A) hd hargs hcalled (hpc ▸ hprologue)
  set K := Activation.ofCall d hd σ with hK
  have hbase : K.base = σ.regs .stackPointer := rfl
  have hfits : K.Fits 0 := fun _ h => by cases h
  have hlands := hbody.lands K { c with depth := 0 } b₂ args τ₁ hrun hfits hready₁
  refine Activation.Lands.of_crosses hcross₁
    (Activation.Lands.of_closed (K := K) (m := τ₁.mem) (hlands.extend ?_))
  intro v frame τ₂ hτ₂
  obtain ⟨⟨rfl, hready₂, hkept₂⟩, hvalue⟩ := hτ₂
  replace hready₂ : K.Ready 0 frame τ₂ := hready₂
  -- the body has left all words alone that the caller has pushed above the arguments
  have hmem₂ : ∀ x, K.base + 4 * d.arity.toNat < x → τ₂.mem x = σ.mem x := by
    intro x hx
    have hlow : K.sp 0 < x := by
      unfold Activation.sp
      omega
    rw [hkept₂ x hlow (.inr hx), hmem₁, Function.update_of_ne (by omega)]
  have hra : τ₂.mem K.base = ret := by
    have hlow : K.sp 0 < K.base := by
      unfold Activation.sp
      omega
    rw [hkept₂ _ hlow (.inl (Int.le_refl _)), hmem₁, hbase, Function.update_self]
  have hsp : τ₂.regs .stackPointer = K.base - 4 := by
    rw [hready₂.sp, Activation.sp]
    omega
  obtain ⟨τ₃, hcross₃, hline₃, hstep₃, hmem₃, hsp₃, hfp₃, hacc₃⟩ :=
    crosses_epilogue (A := A) hepilogue hsp hra
  refine ⟨τ₃, hcross₃, hline₃, _, hstep₃, rfl, ?_, ?_, ?_, ?_⟩
  · rw [regs_goto, hsp₃, hargs, hbase]
  · rw [regs_goto, hfp₃, hmem₂ _ (by omega), hargs, hbase]
  · intro x hx
    rw [regs_goto, hacc₃, hvalue x hx]
  · intro x hx
    rw [hargs] at hx
    rw [mem_goto, hmem₃, hmem₂ x hx]

/-- **A function returns the value of its body**, if the machine follows the body. -/
theorem returns_of_simulates {c : Cursor} {d : Declaration} {ret a b : Nat} {args : List Int}
    {σ : Machine} {m : Eval (Option Int)} (hp : p.compile = .ok listing)
    (hd : d.arity.toNat < arityLimit) (hargs : args.length = d.arity.toNat)
    (hspans : d.lower.Spans listing { arity? := p.arity? } c a b)
    (hbody : Simulates A p listing steps d.body.lower m)
    (hcalled : Called listing d.name ret args σ) {v : Option Int} {frame : Frame}
    (hm : m args = .done v frame) :
    ∃ τ, Reaches A listing σ τ ∧ Returned args.length ret v σ τ := by
  have hlands := lands_function hp hd hargs hspans hbody hcalled
  rw [hm] at hlands
  obtain ⟨υ, hcross, -, τ, hstep, hret⟩ := hlands
  exact ⟨τ, hcross.reaches.trans (.of_step hstep), hret⟩

/-! ### The caller -/

/-- The arguments are pushed from the last to the first, so that the first one lies lowest. -/
lemma lands_args {again : Expr → Eval (Option Int)} {K : Activation} {args : List Expr}
    (hargs : ∀ arg ∈ args, Simulates A p listing steps arg.lower (arg.evalWith A p again))
    {c : Cursor} {b : Nat} {frame : Frame} {σ : Machine}
    (h : (Expr.lowerArgs args).Spans listing (K.scope p) c σ.pc b) (hfits : K.Fits c.depth)
    (hready : K.Ready c.depth frame σ) :
    K.Lands A listing steps σ.mem (fun xs frame' τ => τ.pc = b ∧ xs.length = args.length ∧
      K.Ready (c.depth + args.length) frame' τ ∧ K.Kept (K.sp c.depth) σ.mem τ.mem ∧
      ∀ (i : Nat) (x : Int), xs[i]? = some x →
        τ.mem (K.sp (c.depth + args.length) + 4 * (i + 1)) = x) σ
      (Expr.evalArgsWith A p again args frame) := by
  induction args generalizing b with
  | nil =>
    rw [Expr.lowerArgs, spans_nil] at h
    exact .done (.refl σ) ⟨h, rfl, hready, .refl, by simp⟩
  | cons arg args ih =>
    obtain ⟨b₁, hrest, b₂, harg, hpush⟩ := spans_lowerArgs_cons.mp h
    have hdepth : ((Expr.lowerArgs args).advance c).depth = c.depth + args.length := by simp
    have hfits₁ := hfits.mono (Nat.le_add_right c.depth args.length)
    have hle := K.sp_le_sp (Nat.le_add_right c.depth args.length)
    refine (ih (fun a ha => hargs a (List.mem_cons_of_mem _ ha)) hrest).bind ?_
    intro xs frame₁ τ₁ hτ₁
    obtain ⟨rfl, hlen, hready₁, hkept₁, hwords₁⟩ := hτ₁
    refine Activation.Lands.rebase hfits hkept₁ ?_
    refine ((hargs arg List.mem_cons_self).lands_value harg hdepth hfits₁ hready₁.arrives).bind ?_
    intro x frame₂ τ₂ hτ₂
    obtain ⟨⟨rfl, hready₂, hkept₂⟩, hx⟩ := hτ₂
    have hdepth₂ : (arg.lower.advance ((Expr.lowerArgs args).advance c)).depth =
        c.depth + args.length := by simp
    rw [← hdepth₂] at hfits₁ hready₂
    obtain ⟨τ₃, hcross₃, hpc₃, hready₃, hkept₃, hword₃, -⟩ :=
      crosses_push (A := A) hpush hfits₁ hready₂
    rw [hdepth₂] at hready₃ hkept₃ hword₃
    have hkept : K.Kept (K.sp (c.depth + args.length)) τ₁.mem τ₃.mem := hkept₂.trans hkept₃
    refine .done hcross₃ ⟨hpc₃, by simp [hlen], hready₃, hkept₁.trans (hkept.mono hle), ?_⟩
    intro i y hy
    cases i with
    | zero =>
      obtain rfl : x = y := by simpa using hy
      have haddr : K.sp (c.depth + (arg :: args).length) + 4 * ((0 : Nat) + 1) =
          K.sp (c.depth + args.length) := by
        simp only [Activation.sp, List.length_cons]
        omega
      rw [haddr, hword₃, hx]
    | succ i =>
      have hi : xs[i]? = some y := by simpa using hy
      have hlt := (List.getElem?_eq_some_iff.mp hi).1
      have haddr : K.sp (c.depth + (arg :: args).length) + 4 * ((i + 1 : Nat) + 1) =
          K.sp (c.depth + args.length) + 4 * (i + 1) := by
        simp only [Activation.sp, List.length_cons]
        omega
      have hbase : K.sp (c.depth + args.length) + 4 * (i + 1) ≤ K.base := by
        unfold Activation.sp
        omega
      rw [haddr, hkept _ (by omega) (.inl hbase), hwords₁ i y hi]

/-- After a call the caller's activation is as it was before its arguments and its frame pointer
were pushed. -/
lemma Activation.Ready.returned {K : Activation} {depth arity : Nat} {frame : Frame}
    {σ τ : Machine} (h : K.Ready (depth + 1 + arity) frame σ) (hfits : K.Fits depth)
    (hword : σ.mem (K.sp depth) = K.base)
    (hsp : τ.regs .stackPointer = σ.regs .stackPointer + 4 * (arity + 1))
    (hfp : τ.regs .framePointer = σ.mem (σ.regs .stackPointer + 4 * (arity + 1)))
    (hmem : ∀ x, σ.regs .stackPointer + 4 * (arity + 1) ≤ x → τ.mem x = σ.mem x) :
    K.Arrives σ.mem depth τ.pc frame τ := by
  have hsaved : σ.regs .stackPointer + 4 * (arity + 1) = K.sp depth := by
    rw [h.sp]
    unfold Activation.sp
    omega
  rw [hsaved] at hsp hfp hmem
  have hbase : K.sp depth ≤ K.base := by
    unfold Activation.sp
    omega
  refine ⟨rfl, ⟨?_, hsp, h.size, ?_, ?_⟩, ?_⟩
  · rw [hfp, hword]
  · intro i x hx
    rw [hmem _ (by omega), h.slots i x hx]
  · intro d hd how
    have hle := K.sp_le_sp (hfits d hd).2
    have hpos := how.offset_bounds.1
    rw [hmem _ (by omega), h.staged d hd how]
  · intro x hx _
    exact hmem x (Int.le_of_lt hx)

/-- **Calls.** If the machine follows the arguments and the bodies of all functions, it follows the
call of a function, and for one more step than the body.

**Proof sketch.** The caller's frame pointer lies in the word that was free before the call, and the
arguments lie below it. The callee leaves that word and all words above it alone, takes the frame
pointer from there, and ends with the stack pointer on it. -/
theorem simulates_call {again : Expr → Eval (Option Int)} {callee : String} {args : List Expr}
    (hp : p.compile = .ok listing) (hsize : ∀ d ∈ p.decls, d.arity.toNat < arityLimit)
    (hbody : ∀ d ∈ p.decls, Simulates A p listing steps d.body.lower (again d.body))
    (hargs : ∀ arg ∈ args,
      Simulates A p listing (steps + 1) arg.lower (arg.evalWith A p again)) :
    Simulates A p listing (steps + 1) (Fragment.call callee args.length (Expr.lowerArgs args)) (do
      let xs ← Expr.evalArgsWith A p again args
      match p.decl? callee with
      | some d => (again d.body).within xs
      | none => Eval.undefined) := by
  refine ⟨fun c => ?_, fun K c b frame σ h hfits hready => ?_⟩
  · simp [Fragment.call]
    omega
  obtain ⟨harity, b₁, hpush, b₂, hspans, hline, rfl⟩ := spans_call.mp h
  have hfits₁ := hfits.mono (Nat.le_add_right c.depth 1)
  have hle := K.sp_le_sp (Nat.le_add_right c.depth 1)
  obtain ⟨τ₁, hcross₁, rfl, hready₁, hkept₁, hword₁, -⟩ := crosses_push (A := A) hpush hfits hready
  refine Activation.Lands.of_crosses hcross₁ (Activation.Lands.rebase hfits hkept₁ ?_)
  refine (lands_args (c := { c with depth := c.depth + 1 }) hargs hspans hfits₁ hready₁).bind ?_
  intro xs frame₂ τ₂ hτ₂
  obtain ⟨rfl, hlen, hready₂, hkept₂, hwords₂⟩ := hτ₂
  replace hkept₂ : K.Kept (K.sp (c.depth + 1)) τ₁.mem τ₂.mem := hkept₂
  cases hd : p.decl? callee with
  | none => trivial
  | some d =>
    have hmem : d ∈ p.decls := List.mem_of_find?_eq_some hd
    obtain rfl : d.name = callee := by simpa using List.find?_some hd
    have hcount : xs.length = d.arity.toNat := by
      rw [hlen, harity d.arity]
      simpa [Activation.scope, Program.arity?] using ⟨d, hd, rfl⟩
    obtain ⟨c', a, b, hdecl⟩ := Program.spans_of_compile hp hmem
    have hentry := address_entry hp hdecl
    have hstep := step_jal (A := A) hline hentry
    have hready' : K.Ready (c.depth + 1 + xs.length) frame₂
        ((τ₂.set .returnAddress (τ₂.pc + 1 : Nat)).goto a) := by
      rw [hlen]
      exact hready₂.congr rfl rfl rfl
    have hcalled : Called listing d.name (τ₂.pc + 1) xs
        ((τ₂.set .returnAddress (τ₂.pc + 1 : Nat)).goto a) := by
      refine ⟨hentry, by simp, ?_⟩
      rw [hready'.sp, hlen]
      exact hwords₂
    have hlands := lands_function hp (hsize d hmem) hcount hdecl (hbody d hmem) hcalled
    change K.Lands A listing (steps + 1) τ₁.mem _ τ₂ ((again d.body).within xs frame₂)
    unfold Eval.within
    cases hm : again d.body xs with
    | escaped how frame' => trivial
    | undefined => trivial
    | exhausted =>
      rw [hm] at hlands
      exact Lasts.of_call hline hstep hlands
    | done v frame' =>
      rw [hm] at hlands
      obtain ⟨υ, hcross, hreturn, τ₃, hback, hret⟩ := hlands
      have hword : τ₂.mem (K.sp c.depth) = K.base := by
        rw [hkept₂.pushed, hword₁, hready.fp]
      have hret' := hready'.returned hfits hword hret.sp hret.fp fun x hx =>
        hret.mem x (by omega)
      obtain ⟨-, hready₃, hkept₃⟩ := hret'
      have hkept : K.Kept (K.sp c.depth) σ.mem τ₃.mem :=
        hkept₁.trans ((hkept₂.mono hle).trans hkept₃)
      exact .done (Crosses.of_call hline hstep hcross hreturn hback)
        ⟨⟨hret.pc, hready₃, hkept⟩, hret.value⟩

end ImpRiscV
