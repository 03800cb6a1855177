import ImpRiscV.Proofs.Guarding

/-!
# Activations keep to their own words

Frames of all running activations lie in one memory, one below the other. In every state that a call
leads to, in any number of steps and whether or not the call ever returns, the running activation
has touched only its own words: its arguments and what lies below them.

## Main definitions

* `ImpRiscV.CallStack.Resumes` — what follows the return of an activation is safe.
* `ImpRiscV.Expr.grounded` — all slots are arguments, and all callees are declared.

## Main results

* `ImpRiscV.safe_function` — the call of a function is safe if its body is guarded.
* `ImpRiscV.guarded_call` — so is a call in a body.
* `ImpRiscV.guarded_lower` — the code of a grounded expression is guarded.
* `ImpRiscV.Program.frames_isolated` — every state of every run is isolated.
-/

set_option relaxedAutoImplicit false
set_option autoImplicit false

namespace ImpRiscV

open Machine Fragment

variable {A : Arithmetic} {p : Program} {listing : List (Instruction Label)}

/-! ### Lines around a body -/

/-- What a line of the prologue or the epilogue may do: it does not use the frame pointer as an
address, it stores below the saved frame pointer, and it returns as the caller expects. -/
def Call.AllowsAround (K : Call) (σ : Machine) : Instruction Label → Prop
  | .lw _ _ .framePointer | .sw _ _ .framePointer => False
  | .sw _ n b => σ.regs b + n < K.top
  | .jr .returnAddress => σ.regs .returnAddress = K.ret ∧ σ.regs .stackPointer = K.top ∧
      σ.regs .framePointer = K.entry.mem K.top
  | _ => True

/-- The line neither jumps nor stores, nor does it use the frame pointer as an address. -/
def Quiet : Instruction Label → Prop
  | .sw _ _ _ | .lw _ _ .framePointer => False
  | i => Plain i

/-- A quiet line does not jump. -/
lemma Quiet.plain {i : Instruction Label} (h : Quiet i) : Plain i := by
  cases i <;> trivial

/-- A quiet line is allowed around every frame. -/
lemma Quiet.allowsAround {i : Instruction Label} (h : Quiet i) (K : Call) (σ : Machine) :
    K.AllowsAround σ i := by
  cases i with
  | lw rd n base => cases base <;> trivial
  | sw => exact h.elim
  | jr => exact h.elim
  | _ => trivial

/-- A quiet line leaves the memory alone. -/
lemma Quiet.mem_effect {i : Instruction Label} (h : Quiet i) (σ : Machine) :
    (σ.effect A i).mem = σ.mem := by
  cases i <;> first | rfl | exact h.elim

namespace CallStack

variable {S : CallStack p} {n b : Nat} {σ : Machine} {i : Instruction Label}

/-- The lines from position `a` up to position `b` are lines of the prologue or of the epilogue
around the running body. -/
def Surrounds (S : CallStack p) (a b : Nat) : Prop :=
  S.call.place.start ≤ a ∧ b ≤ S.call.place.stop p ∧
    (b ≤ (S.call.place.body p).start ∨ (S.call.place.body p).stop ≤ a)

/-- A smaller stretch is surrounded as well. -/
lemma Surrounds.mono {a a' b' : Nat} (h : S.Surrounds a b) (ha : a ≤ a') (hb : b' ≤ b) :
    S.Surrounds a' b' := by
  unfold Surrounds at *
  omega

/-- An activation that has kept all that it has to keep is isolated at an allowed line around its
body. -/
lemma isolated_around (hcov : S.Surrounds σ.pc b) (hlt : σ.pc < b)
    (hi : listing[σ.pc]? = some i) (hallow : S.call.AllowsAround σ i)
    (habove : ∀ x, S.call.top ≤ x → σ.mem x = S.call.entry.mem x)
    (hsaved : S.call.place.start + 3 ≤ σ.pc → σ.mem S.call.base = S.call.ret) :
    S.call.Isolated p listing σ := by
  obtain ⟨hstart, hstop, hout⟩ := hcov
  refine ⟨⟨hstart, by omega⟩, fun _ _ => by omega, ?_, ?_, habove, hsaved, ?_⟩
  · rintro r x (hline | hline)
    all_goals
      obtain rfl := Option.some_inj.mp (hline.symm.trans hi)
      exact hallow.elim
  · intro r x base hline
    obtain rfl := Option.some_inj.mp (hline.symm.trans hi)
    cases base <;> first | exact hallow | exact hallow.elim
  · intro hline
    obtain rfl := Option.some_inj.mp (hline.symm.trans hi)
    exact hallow

/-- Quiet lines around a body are safe if what follows is. -/
lemma safe_quiet {s : Scope} {c : Cursor} {is : List (Instruction Label)}
    (h : (code is).Spans listing s c σ.pc b) (hcov : S.Surrounds σ.pc b)
    (hquiet : ∀ i ∈ is, Quiet i)
    (habove : ∀ x, S.call.top ≤ x → σ.mem x = S.call.entry.mem x)
    (hsaved : b ≤ S.call.place.start + 3 ∨ σ.mem S.call.base = S.call.ret)
    (hnext : (is.foldl (effect A) σ).pc = b → S.Safe A listing n (is.foldl (effect A) σ)) :
    S.Safe A listing n σ := by
  induction is generalizing σ with
  | nil => exact hnext (spans_code_nil.mp h)
  | cons i is ih =>
    obtain ⟨hline, hlines⟩ := spans_code_cons.mp h
    have hle := hlines.le
    have hi := hquiet i List.mem_cons_self
    have hmem := hi.mem_effect (A := A) σ
    have hiso : S.call.Isolated p listing σ :=
      isolated_around hcov (by omega) hline (hi.allowsAround _ _) habove fun _ =>
        hsaved.resolve_left (by omega)
    refine safe_of_stays hiso hline (.of_plain hi.plain) (step_plain hline hi.plain) ?_
    intro k hk
    rw [← pc_effect (A := A) i] at hlines
    refine (ih hlines ?_ (fun j hj => hquiet j (List.mem_cons_of_mem _ hj)) ?_ ?_ hnext).mono
      (Nat.le_of_lt hk)
    · rw [pc_effect]
      exact hcov.mono (Nat.le_succ _) (Nat.le_refl _)
    · rw [hmem]
      exact habove
    · rw [hmem]
      exact hsaved

end CallStack

/-! ### Functions -/

/-- The words above a stack pointer are arguments, whatever they hold. -/
lemma exists_words (m : Int → Int) (a : Int) (size : Nat) :
    ∃ args : List Int, args.length = size ∧
      ∀ (i : Nat) (x : Int), args[i]? = some x → m (a + 4 * (i + 1)) = x := by
  refine ⟨(List.range size).map fun i : Nat => m (a + 4 * (i + 1)), by simp, ?_⟩
  intro i x hx
  obtain ⟨hlt, rfl⟩ := List.getElem?_eq_some_iff.mp hx
  simp

variable (A listing) in
/-- What follows the return of the running activation is safe. -/
def CallStack.Resumes (S : CallStack p) (n : Nat) : Prop :=
  ∀ υ, S.call.Isolated p listing υ → listing[υ.pc]? = some (.jr .returnAddress) →
    ∀ k < n, ∀ t, Traced.step A listing ⟨υ, S.entries⟩ = some t → ImpRiscV.Safe A p listing k t

section function

variable {S : CallStack p} {s : Scope} {c : Cursor} {n : Nat}

/-- The prologue saves the return address and changes nothing else. -/
lemma Call.keeps_update (K : Call) : K.Keeps (Function.update K.entry.mem K.base K.ret) := by
  refine ⟨Function.update_self _ _ _, ?_⟩
  intro x hx
  have hlt := K.base_lt_top
  exact Function.update_of_ne (by omega) _ _

/-- The prologue is safe if the body is. -/
lemma safe_prologue (hlimit : S.call.place.decl.arity.toNat < arityLimit)
    (h : (code (prologue S.call.place.decl.name)).Spans listing s c S.call.place.start
      (S.call.place.body p).start)
    (hcov : S.Surrounds S.call.place.start (S.call.place.body p).start)
    (hnext : ∀ frame τ, τ.pc = (S.call.place.body p).start →
      (Activation.ofCall S.call.place.decl hlimit S.call.entry).Ready 0 frame τ →
      S.call.Keeps τ.mem → S.Safe A listing n τ) : S.Safe A listing n S.call.entry := by
  have hentry := (S.placed S.call List.mem_cons_self).2
  have hend : (S.call.place.body p).start = S.call.place.start + 4 := rfl
  obtain ⟨args, hargs, hwords⟩ :=
    exists_words S.call.entry.mem S.call.base S.call.place.decl.arity.toNat
  obtain ⟨hready, hmem⟩ := Activation.ready_prologue (A := A) hlimit hargs hwords
  have hkeeps : S.call.Keeps
      ((prologue S.call.place.decl.name).foldl (effect A) S.call.entry).mem := by
    rw [hmem]
    exact S.call.keeps_update
  -- up to the line that saves the return address, memory is that of the caller
  obtain ⟨b, hfirst, hrest⟩ :
      ∃ b, (code [.label (.entry S.call.place.decl.name), .mv .framePointer .stackPointer]).Spans
        listing s c S.call.place.start b ∧
      (code [.sw .returnAddress 0 .stackPointer, .adjustStack (-wordSize)]).Spans listing s c b
        (S.call.place.body p).start := spans_code_append.mp h
  obtain rfl : S.call.place.start + 2 = b := hfirst.length
  rw [← hentry] at hfirst hrest
  refine CallStack.safe_quiet hfirst (hcov.mono (Nat.le_of_eq hentry.symm) (by omega))
    (by simp [Quiet, Plain]) (fun _ _ => rfl) (.inl (by omega)) ?_
  intro hpc
  rw [← hpc] at hrest
  obtain ⟨hline, hlast⟩ := spans_code_cons.mp hrest
  have hlow : S.call.base + 0 < S.call.top := by
    have hlt := S.call.base_lt_top
    omega
  have hiso := CallStack.isolated_around (S := S) (b := S.call.place.start + 3)
    (hcov.mono (by omega) (by omega)) (by omega) hline hlow (fun _ _ => rfl) (by omega)
  refine CallStack.safe_of_stays hiso hline trivial (step_plain hline trivial) fun k hk => ?_
  -- from here on it is in its word
  rw [← pc_effect (A := A)] at hlast
  refine CallStack.safe_quiet hlast (hcov.mono ?_ (Nat.le_refl _)) ?_ hkeeps.above
    (.inr hkeeps.ret) ?_
  · rw [pc_effect]
    omega
  · simp [Quiet, Plain, Instruction.adjustStack]
  · intro hpc'
    exact (hnext args _ hpc' hready hkeeps).mono (Nat.le_of_lt hk)

/-- The epilogue is safe if what follows the return is. -/
lemma safe_epilogue {τ : Machine}
    (h : (code (epilogue (4 * (S.call.size + 2)))).Spans listing s c τ.pc (S.call.place.stop p))
    (hcov : S.Surrounds τ.pc (S.call.place.stop p))
    (hsp : τ.regs .stackPointer = S.call.base - 4) (hkeeps : S.call.Keeps τ.mem)
    (hresumes : S.Resumes A listing n) : S.Safe A listing n τ := by
  obtain ⟨b, hrestore, hlast⟩ := spans_code_append.mp h
  have hle₁ := hrestore.le
  have hle₂ := hlast.le
  refine CallStack.safe_quiet hrestore (hcov.mono (Nat.le_refl _) hle₂)
    (by simp [restore, Quiet, Plain, Instruction.adjustStack]) hkeeps.above (.inr hkeeps.ret) ?_
  rintro rfl
  obtain ⟨hline, hend⟩ := spans_code_cons.mp hlast
  obtain ⟨hmem, hra, hsp', hfp, -⟩ := restore_spec (A := A) hsp
  have habove : ∀ x, S.call.top ≤ x →
      ((restore (4 * (S.call.size + 2))).foldl (effect A) τ).mem x = S.call.entry.mem x := by
    rw [hmem]
    exact hkeeps.above
  have hallow : S.call.AllowsAround ((restore (4 * (S.call.size + 2))).foldl (effect A) τ)
      (.jr .returnAddress) :=
    ⟨hra.trans hkeeps.ret, hsp', hfp.trans (hkeeps.above _ (Int.le_refl _))⟩
  have hiso := CallStack.isolated_around (hcov.mono hle₁ (Nat.le_refl _)) hend.le hline hallow
    habove fun _ => hmem ▸ hkeeps.ret
  exact CallStack.safe_of_step hiso (hresumes _ hiso hline)

/-- **A call of a function is safe** if its body is guarded and what follows the return is safe. -/
theorem safe_function (hp : p.compile = .ok listing) (hlimit : S.call.size < arityLimit)
    (hbody : Guarded A p listing n S.call.size S.call.place.decl.body.lower)
    (hresumes : S.Resumes A listing n) : S.Safe A listing n S.call.entry := by
  obtain ⟨size, hsize, hprologue, hspans, hepilogue⟩ :=
    Placement.spans_body hp (S.placed S.call List.mem_cons_self).1
  rw [frameSize_of_lt hlimit, Except.ok.injEq] at hsize
  subst hsize
  have hle₁ := hprologue.le
  have hle₂ := hspans.le
  have hle₃ := hepilogue.le
  refine safe_prologue hlimit hprologue ⟨Nat.le_refl _, by omega, .inl (Nat.le_refl _)⟩ ?_
  intro frame τ hpc hready hkeeps
  set K := Activation.ofCall S.call.place.decl hlimit S.call.entry
  -- the body runs in no loop, so it cannot escape
  have hfits : K.Fits 0 := fun d hd => nomatch hd
  have hruns : S.Runs A listing n K 0 τ.mem :=
    ⟨⟨rfl, rfl, hfits, hkeeps⟩, fun how d frame' υ hd => nomatch hd⟩
  have hcode : S.call.place.decl.body.lower.Spans listing (K.scope p)
      (S.call.place.body p).cursor τ.pc (S.call.place.body p).stop := by
    rw [hpc]
    exact hspans
  refine hbody.safe n (Nat.le_refl n) S K _ _ frame τ rfl hcode
    ⟨Nat.le_of_eq hpc.symm, Nat.le_refl _⟩ hruns hready ?_
  intro frame' υ harr
  rw [← harr.pc] at hepilogue
  refine safe_epilogue hepilogue ⟨?_, Nat.le_refl _, .inr (Nat.le_of_eq harr.pc.symm)⟩ ?_
    (hruns.toSits.steady harr).keeps hresumes
  · rw [harr.pc]
    exact Nat.le_trans hle₁ hle₂
  · rw [harr.ready.sp]
    change S.call.base - 4 * ((0 : Nat) + 1) = S.call.base - 4
    omega

end function

/-! ### Calls -/

/-- Arguments are safe if what follows them is. -/
lemma safe_args {S : CallStack p} {K : Activation} {c : Cursor} {N n size depth a b : Nat}
    {m : Int → Int} {frame : Frame} {σ : Machine} {args : List Expr} (hp : p.compile = .ok listing)
    (hargs : ∀ arg ∈ args, Guarded A p listing N size arg.lower) (hn : n ≤ N)
    (hsize : S.call.size = size) (h : (Expr.lowerArgs args).Spans listing (K.scope p) c a b)
    (hcov : S.Covers a b) (hc : c.depth = depth) (hruns : S.Runs A listing n K depth m)
    (harr : K.Arrives m depth a frame σ)
    (hnext : ∀ frame' τ, τ.pc = b → K.Ready (depth + args.length) frame' τ →
      K.Kept (K.sp depth) m τ.mem → S.Safe A listing n τ) : S.Safe A listing n σ := by
  induction args generalizing b with
  | nil =>
    rw [Expr.lowerArgs, spans_nil] at h
    exact hnext frame σ (harr.pc.trans h) harr.ready harr.kept
  | cons arg args ih =>
    obtain ⟨b₁, hrest, b₂, harg, hpush⟩ := spans_lowerArgs_cons.mp h
    have hle₁ := hrest.le
    have hle₂ := harg.le
    have hle₃ := hpush.le
    have hsp := K.sp_le_sp (Nat.le_add_right depth args.length)
    refine ih (fun a ha => hargs a (List.mem_cons_of_mem _ ha)) hrest
      (hcov.mono (Nat.le_refl _) (by omega)) ?_
    intro frame₁ τ₁ hpc₁ hready₁ hkept₁
    have hruns₁ := hruns.rebase hkept₁ (Nat.le_add_right depth args.length)
    have hdepth : ((Expr.lowerArgs args).advance c).depth = depth + args.length := by simp [hc]
    refine (hargs arg List.mem_cons_self).after hn hsize harg (hcov.mono (by omega) (by omega))
      hdepth hruns₁ ⟨hpc₁, hready₁, .refl⟩ ?_
    intro frame₂ τ₂ harr₂
    refine CallStack.safe_push hp hpush (hcov.mono (by omega) (Nat.le_refl _)) hruns₁.toSits
      harr₂ ?_
    intro τ₃ hpc₃ hready₃ hkept₃ _
    exact hnext frame₂ τ₃ hpc₃ hready₃ (hkept₁.trans (hkept₃.mono hsp))

/-- A call is in order if its arguments lie right below the word at which the stack pointer of the
caller stood, and the caller's frame pointer is in that word. -/
lemma CallStack.Sits.nested {S : CallStack p} {K : Activation} {depth : Nat} {m : Int → Int}
    {J : Call} (h : S.Sits K depth m) (htop : J.top = K.sp depth)
    (hword : J.entry.mem (K.sp depth) = K.base) (hkept : K.Kept (K.sp depth) m J.entry.mem) :
    J.Nested S.call := by
  refine ⟨?_, ?_, (h.rebase hkept (Nat.le_refl depth)).keeps⟩
  · rw [htop, ← h.base]
    unfold Activation.sp
    omega
  · rw [htop, hword, h.base]

/-- When the callee returns, its caller goes on after the call, and with the same frame. -/
lemma CallStack.resumes_enter {S : CallStack p} {K : Activation} {n depth ret : Nat}
    {m : Int → Int} {frame : Frame} {J : Call} (hplace : J.place ∈ p.placements)
    (hentry : J.entry.pc = J.place.start) (hnested : J.Nested S.call) (hfits : K.Fits depth)
    (hready : K.Ready (depth + 1 + J.size) frame J.entry)
    (hkept : K.Kept (K.sp depth) m J.entry.mem) (hword : J.entry.mem (K.sp depth) = K.base)
    (hret : J.ret = ret) (hnext : ∀ τ, K.Arrives m depth ret frame τ → S.Safe A listing n τ) :
    (S.enter J hplace hentry hnested).Resumes A listing n := by
  intro υ hiso hjr k hk t ht
  obtain ⟨hra, hsp, hfp⟩ := hiso.returns hjr
  have hback := step_jr (A := A) hjr (hra.trans hret)
  obtain ⟨υ', hυ', rfl⟩ := Traced.exists_of_step ht
  obtain rfl := Option.some_inj.mp (hback.symm.trans hυ')
  rw [hjr]
  obtain ⟨-, hready', hkept'⟩ :=
    hready.returned (τ := υ.goto ret) hfits hword hsp hfp hiso.above
  exact (hnext _ ⟨rfl, hready', hkept.trans hkept'⟩).mono (Nat.le_of_lt hk)

/-- The line that calls a function is safe if its caller is after the return.

**Proof sketch.** The call starts an activation whose saved frame pointer is the word that was free
before the frame pointer and the arguments were pushed. With the step of the call itself there are
fewer steps left, so the body of the callee is guarded by assumption. When it returns, the words
from the saved frame pointer on are as they were, and so is the caller's activation. -/
lemma safe_jal {S : CallStack p} {K : Activation} {n depth b : Nat} {d : Declaration}
    {m : Int → Int} {frame : Frame} {σ : Machine} (hp : p.compile = .ok listing)
    (hlimit : d.arity.toNat < arityLimit) (hd : d ∈ p.decls)
    (hbody : ∀ k < n, Guarded A p listing k d.arity.toNat d.body.lower)
    (hline : listing[σ.pc]? = some (.jal (.entry d.name))) (hcov : S.Covers σ.pc b)
    (hlt : σ.pc < b) (hsits : S.Sits K depth m)
    (hready : K.Ready (depth + 1 + d.arity.toNat) frame σ) (hkept : K.Kept (K.sp depth) m σ.mem)
    (hword : σ.mem (K.sp depth) = K.base)
    (hnext : ∀ τ, K.Arrives m depth (σ.pc + 1) frame τ → S.Safe A listing n τ) :
    S.Safe A listing n σ := by
  rw [← p.map_decl_placements] at hd
  obtain ⟨P, hP, rfl⟩ := List.mem_map.mp hd
  have hkeeps := (hsits.rebase hkept (Nat.le_refl depth)).keeps
  have hiso : S.call.Isolated p listing σ :=
    CallStack.isolated_of_steady hp hcov hlt ⟨hready.fp.trans hsits.base, hkeeps⟩ hline trivial
  have hstep := step_jal (A := A) hline (address_entry hp (Placement.spans hp hP))
  set τ := (σ.set .returnAddress (σ.pc + 1 : Nat)).goto P.start
  have hready' : K.Ready (depth + 1 + P.decl.arity.toNat) frame τ := hready.congr rfl rfl rfl
  have htop : Call.top ⟨P, τ⟩ = K.sp depth := by
    change τ.regs .stackPointer + 4 * ((P.decl.arity.toNat : Int) + 1) = K.sp depth
    rw [hready'.sp]
    unfold Activation.sp
    omega
  have hnested : Call.Nested ⟨P, τ⟩ S.call := hsits.nested htop hword hkept
  refine CallStack.safe_of_step hiso fun k hk t ht => ?_
  obtain ⟨τ', hτ', rfl⟩ := Traced.exists_of_step ht
  obtain rfl := Option.some_inj.mp (hstep.symm.trans hτ')
  rw [hline]
  have hret : τ.regs .returnAddress = (σ.pc + 1 : Nat) := by
    rw [regs_goto, regs_set, Function.update_self]
  refine safe_function (S := S.enter ⟨P, τ⟩ hP rfl hnested) hp hlimit (hbody k hk) ?_
  refine CallStack.resumes_enter hP rfl hnested hsits.fits hready' hkept hword hret ?_
  intro υ harr
  exact (hnext υ harr).mono (Nat.le_of_lt hk)

/-- **Calls.** The callee's activation lies below all words of its caller, and it leaves them
alone. -/
theorem guarded_call {N size : Nat} {callee : String} {args : List Expr}
    (hp : p.compile = .ok listing) (hlimit : ∀ d ∈ p.decls, d.arity.toNat < arityLimit)
    (hcallee : ∃ d ∈ p.decls, d.name = callee)
    (hbodies : ∀ k < N, ∀ d ∈ p.decls, Guarded A p listing k d.arity.toNat d.body.lower)
    (hargs : ∀ arg ∈ args, Guarded A p listing N size arg.lower) :
    Guarded A p listing N size (Fragment.call callee args.length (Expr.lowerArgs args)) := by
  refine ⟨(Expr.call callee args).depth_advance_lower,
    fun n hn S K c b frame σ hsize h hcov hruns hready hnext => ?_⟩
  obtain ⟨harity, b₁, hpush, b₂, hspans, hline, rfl⟩ := spans_call.mp h
  obtain ⟨d, hd, rfl⟩ := hcallee
  have hle₁ := hpush.le
  have hle₂ := hspans.le
  have hcount : d.arity.toNat = args.length :=
    harity d.arity ((Program.arity?_eq_some_iff (Program.spans_lower_of_compile hp).1).mpr
      ⟨d, hd, rfl, rfl⟩)
  refine CallStack.safe_push hp hpush (hcov.mono (Nat.le_refl _) (by omega)) hruns.toSits
    hready.arrives ?_
  intro τ₁ hpc₁ hready₁ hkept₁ hword₁
  have hruns₁ := hruns.rebase hkept₁ (Nat.le_add_right c.depth 1)
  refine safe_args hp hargs hn hsize hspans (hcov.mono (by omega) (by omega)) rfl hruns₁
    ⟨hpc₁, hready₁, .refl⟩ ?_
  intro frame₂ τ₂ hpc₂ hready₂ hkept₂
  have hkept : K.Kept (K.sp c.depth) σ.mem τ₂.mem :=
    hkept₁.trans (hkept₂.mono (K.sp_le_sp (Nat.le_add_right c.depth 1)))
  have hword : τ₂.mem (K.sp c.depth) = K.base := by
    rw [hkept₂.pushed, hword₁, hready.fp]
  obtain rfl := hpc₂
  rw [← hcount] at hready₂
  exact safe_jal hp (hlimit d hd) hd (fun k hk => hbodies k (by omega) d hd) hline
    (hcov.mono (by omega) (Nat.le_refl _)) (Nat.lt_succ_self _) hruns.toSits hready₂ hkept hword
    (hnext frame₂)

/-! ### Expressions -/

namespace Expr

mutual

/-- All slots are among `size` arguments, and all callees are declared. -/
def grounded (p : Program) (size : Nat) : Expr → Bool
  | .literal _ | .skip | .escape _ => true
  | .var slot => 0 < slot.toNat && slot.toNat ≤ size
  | .assign slot value => (0 < slot.toNat && slot.toNat ≤ size) && value.grounded p size
  | .binary lhs _ rhs | .seq lhs rhs => lhs.grounded p size && rhs.grounded p size
  | .ifElse ⟨lhs, _, rhs⟩ thenBody elseBody =>
    lhs.grounded p size && rhs.grounded p size && thenBody.grounded p size &&
      elseBody.grounded p size
  | .whileDo ⟨lhs, _, rhs⟩ body | .repeatUntil body ⟨lhs, _, rhs⟩ =>
    lhs.grounded p size && rhs.grounded p size && body.grounded p size
  | .call callee args => (p.decl? callee).isSome && groundedArgs p size args

/-- The same for a list of arguments. -/
def groundedArgs (p : Program) (size : Nat) : List Expr → Bool
  | [] => true
  | arg :: args => arg.grounded p size && groundedArgs p size args

end

/-- The arguments of a grounded argument list are grounded. -/
lemma grounded_of_mem {p : Program} {size : Nat} {args : List Expr} {arg : Expr}
    (h : groundedArgs p size args = true) (harg : arg ∈ args) : arg.grounded p size = true := by
  induction args with
  | nil => cases harg
  | cons a args ih =>
    obtain ⟨ha, hargs⟩ := Bool.and_eq_true_iff.mp h
    rcases List.mem_cons.mp harg with rfl | harg
    · exact ha
    · exact ih hargs harg

end Expr

/-- **The code of a grounded expression is guarded**, if the bodies of all functions are for fewer
steps.

**Proof sketch.** Induction over the expression, with one lemma for each construct. -/
theorem guarded_lower {N size : Nat} (hp : p.compile = .ok listing)
    (hlimit : ∀ d ∈ p.decls, d.arity.toNat < arityLimit)
    (hbodies : ∀ k < N, ∀ d ∈ p.decls, Guarded A p listing k d.arity.toNat d.body.lower) {e : Expr}
    (he : e.grounded p size = true) : Guarded A p listing N size e.lower := by
  induction e with
  | literal value => exact guarded_li hp value.toInt
  | var slot =>
    simp only [Expr.grounded, Bool.and_eq_true, decide_eq_true_eq] at he
    exact guarded_load hp he.1 he.2
  | assign slot value ih =>
    simp only [Expr.grounded, Bool.and_eq_true, decide_eq_true_eq] at he
    exact guarded_append (ih he.2) (guarded_store hp he.1.1 he.1.2)
  | binary lhs op rhs ihl ihr =>
    obtain ⟨hl, hr⟩ := Bool.and_eq_true_iff.mp he
    exact guarded_arith hp (ihl hl) (ihr hr) op
  | ifElse lhs cmp rhs thenBody elseBody ihl ihr iht ihe =>
    simp only [Expr.grounded, Bool.and_eq_true] at he
    obtain ⟨⟨⟨hl, hr⟩, ht⟩, he⟩ := he
    exact guarded_conditional hp cmp (ihl hl) (ihr hr) (iht ht) (ihe he)
  | whileDo lhs cmp rhs body ihl ihr ihb =>
    simp only [Expr.grounded, Bool.and_eq_true] at he
    obtain ⟨⟨hl, hr⟩, hb⟩ := he
    rw [Expr.lower, whileLoop_eq]
    refine guarded_numbered fun i => ?_
    exact guarded_staged hp (guardedRound_while hp cmp (ihl hl) (ihr hr) (ihb hb) i)
  | repeatUntil body lhs cmp rhs ihb ihl ihr =>
    simp only [Expr.grounded, Bool.and_eq_true] at he
    obtain ⟨⟨hl, hr⟩, hb⟩ := he
    rw [Expr.lower, repeatLoop_eq]
    refine guarded_numbered fun i => ?_
    exact guarded_staged hp (guardedRound_repeat hp cmp (ihl hl) (ihr hr) (ihb hb) i)
  | call callee args ih =>
    obtain ⟨hcallee, hargs⟩ := Bool.and_eq_true_iff.mp he
    obtain ⟨d, hd⟩ := Option.isSome_iff_exists.mp hcallee
    have hname : d.name = callee := by simpa using List.find?_some hd
    exact guarded_call hp hlimit ⟨d, List.mem_of_find?_eq_some hd, hname⟩ hbodies
      fun arg harg => ih arg harg (Expr.grounded_of_mem hargs harg)
  | seq first second ihf ihs =>
    obtain ⟨hf, hs⟩ := Bool.and_eq_true_iff.mp he
    exact guarded_append (ihf hf) (ihs hs)
  | skip => exact guarded_nop hp
  | escape how => exact guarded_escape hp how

namespace Program

/-- The bodies of all functions are guarded for any number of steps. -/
lemma guarded_bodies (hp : p.compile = .ok listing)
    (hlimit : ∀ d ∈ p.decls, d.arity.toNat < arityLimit)
    (hgrounded : ∀ d ∈ p.decls, d.body.grounded p d.arity.toNat = true) (N : Nat) :
    ∀ d ∈ p.decls, Guarded A p listing N d.arity.toNat d.body.lower := by
  induction N using Nat.strong_induction_on with
  | _ N ih =>
    intro d hd
    exact guarded_lower hp hlimit ih (hgrounded d hd)

/-- **Activations keep to their own words.** Let no function take as many as `2⁶¹ - 2` arguments,
let all slots be arguments of their function, and let all callees be declared. Call a function in
any state of the machine, and let it run for any number of steps, as long as that call has not
returned. Then the running activations are those of a stack of calls, each of which lies below its
caller's words. The activation that is running last is isolated: in its body the frame pointer is
the stack pointer at its entry, it loads and stores relative to the frame pointer its own arguments
only, it stores nothing at or above the saved frame pointer, where memory is as it was at its entry,
the return address is in its word from the prologue on, and where it returns, the return address,
the stack pointer and the frame pointer are those that the caller expects. And all that the outer
activations rely on is above these words and as they have left it.

**Proof sketch.** The call is a stack of one call. `guarded_bodies` makes the body of the function
guarded for the given number of steps, and `safe_function` adds the code around it. -/
theorem frames_isolated (hp : p.compile = .ok listing)
    (hlimit : ∀ d ∈ p.decls, d.arity.toNat < arityLimit)
    (hgrounded : ∀ d ∈ p.decls, d.body.grounded p d.arity.toNat = true) {d : Declaration}
    (hd : d ∈ p.decls) {σ : Machine} (hcalled : address listing (.entry d.name) = some σ.pc)
    {n : Nat} {t : Traced} (hrun : Traced.run A listing n ⟨σ, [σ]⟩ = some t)
    (hrunning : t.entries ≠ []) :
    ∃ S : CallStack p, t.entries = S.entries ∧ S.call.Isolated p listing t.machine ∧
      ∀ J ∈ S.outer, S.call.top < J.base ∧ J.Keeps t.machine.mem := by
  have hbody := guarded_bodies (A := A) hp hlimit hgrounded n d hd
  have hsize := hlimit d hd
  rw [← p.map_decl_placements] at hd
  obtain ⟨P, hP, rfl⟩ := List.mem_map.mp hd
  have hentry : σ.pc = P.start :=
    Option.some_inj.mp (hcalled.symm.trans (address_entry hp (Placement.spans hp hP)))
  let S : CallStack p := ⟨⟨P, σ⟩, [], by simp [hP, hentry], .singleton _⟩
  have hsafe : S.Safe A listing n σ := by
    refine safe_function hp hsize hbody ?_
    intro υ _ hjr k _ t ht
    obtain ⟨υ', -, rfl⟩ := Traced.exists_of_step ht
    rw [hjr]
    exact safe_of_entries_eq_nil rfl
  obtain hnil | ⟨S', hS', hiso⟩ := hsafe n (Nat.le_refl n) t hrun
  · exact absurd hnil hrunning
  · exact ⟨S', hS', hiso, S'.keeps_outer hiso.above⟩

/-- A program whose function multiplies its argument by what it returns for the number before. -/
def factorial : Program where
  decls := [
    { name := "factorial", arity := 1, body :=
      .ifElse ⟨.var 1, .le, .literal 1⟩ (.literal 1)
        (.binary (.var 1) .mul (.call "factorial" [.binary (.var 1) .sub (.literal 1)])) }]

/-- After 46 steps of a call with `2`, the inner one of two activations is about to return. -/
theorem frames_isolated_factorial :
    ∃ (listing : List (Instruction Label)) (σ : Machine) (t : Traced) (S : CallStack factorial),
      factorial.compile = .ok listing ∧ address listing (.entry "factorial") = some σ.pc ∧
      Traced.run .twosComplement listing 46 ⟨σ, [σ]⟩ = some t ∧ t.entries.length = 2 ∧
      listing[t.machine.pc]? = some (.jr .returnAddress) ∧ t.entries = S.entries ∧
      S.call.Isolated factorial listing t.machine ∧
      ∀ J ∈ S.outer, S.call.top < J.base ∧ J.Keeps t.machine.mem := by
  let σ : Machine :=
    ⟨0, fun r => if r = .returnAddress then 100 else 0, fun a => if a = 4 then 2 else 0⟩
  obtain ⟨listing, hlisting, haddr, htrace⟩ : ∃ listing, factorial.compile = .ok listing ∧
      address listing (.entry "factorial") = some σ.pc ∧
      (Traced.run .twosComplement listing 46 ⟨σ, [σ]⟩).map
        (fun t => (t.entries.length, listing[t.machine.pc]?)) =
          some (2, some (.jr .returnAddress)) :=
    ⟨_, rfl, by decide, by decide +kernel⟩
  obtain ⟨t, hrun, ht⟩ := Option.map_eq_some_iff.mp htrace
  obtain ⟨hlen, hline⟩ := Prod.mk.inj ht
  have hrunning : t.entries ≠ [] := by
    intro hnil
    rw [hnil] at hlen
    cases hlen
  obtain ⟨S, hS, hiso, houter⟩ := frames_isolated (d := factorial.decls[0]) hlisting (by decide)
    (by decide) (by decide) haddr hrun hrunning
  exact ⟨listing, σ, t, S, hlisting, haddr, hrun, hlen, hline, hS, hiso, houter⟩

end Program

end ImpRiscV
