import ImpRiscV.Proofs.CallStack
import ImpRiscV.Proofs.Calls

/-!
# Code that keeps an activation to its own words

Whatever values a body computes, and whichever way its tests turn out, its code must leave the words
of other activations alone. A fragment is *guarded* if a run that enters it stays safe, provided
that it is safe where the fragment ends and where an escape from it leads. Nothing is said about
whether the run gets there, so loops that never end are covered: a run is followed for a number of
steps, and a loop that comes back to its head has fewer of them left.

## Main definitions

* `ImpRiscV.CallStack.Runs` — an activation in its body can go on from a memory.
* `ImpRiscV.Guarded` — wherever the fragment stands, a run through it is safe.

## Main results

* `ImpRiscV.guarded_conditional`, `ImpRiscV.guarded_escape`, `ImpRiscV.guarded_staged` and others —
  the constructs that stay inside of one activation are guarded if their parts are.
-/

set_option relaxedAutoImplicit false
set_option autoImplicit false

namespace ImpRiscV

open Machine Fragment

variable {A : Arithmetic} {p : Program} {listing : List (Instruction Label)}

/-! ### Activations of the running call -/

namespace CallStack

/-- The activation is that of the running call, and with memory `m` nothing is spoilt. -/
structure Sits (S : CallStack p) (K : Activation) (depth : Nat) (m : Int → Int) : Prop where
  /-- The frame pointer. -/
  base : K.base = S.call.base
  /-- The number of slots. -/
  size : K.size = S.call.size
  /-- The innermost loop is among the pushed words. -/
  fits : K.Fits depth
  /-- What is kept. -/
  keeps : S.call.Keeps m

variable (A listing) in
/-- The activation is that of the running call and can go on from memory `m`: where an escape leads,
the run is safe for `n` steps. -/
structure Runs (S : CallStack p) (n : Nat) (K : Activation) (depth : Nat) (m : Int → Int) : Prop
    extends S.Sits K depth m where
  /-- Escapes lead to safe states. -/
  catches : ∀ how d frame τ, K.loop? = some d → K.Arrives m d (K.target how) frame τ →
    S.Safe A listing n τ

variable {S : CallStack p} {K : Activation} {n depth depth' a b : Nat} {m m' : Int → Int}
  {frame : Frame} {σ τ : Machine} {i : Instruction Label}

/-- What an activation keeps includes what its call has to keep. -/
lemma Sits.rebase (h : S.Sits K depth m) (hk : K.Kept (K.sp depth) m m') (hle : depth ≤ depth') :
    S.Sits K depth' m' := by
  have hbase := h.base
  have hsize := h.size
  refine ⟨h.base, h.size, h.fits.mono hle, h.keeps.congr ?_ ?_⟩
  · refine hk _ ?_ (.inl (by omega))
    unfold Activation.sp
    omega
  · intro x hx
    unfold Call.top at hx
    refine hk x ?_ (.inr (by omega))
    unfold Activation.sp
    omega

/-- An activation that can go on can do so with more pushed and with what it has kept. -/
lemma Runs.rebase (h : S.Runs A listing n K depth m) (hk : K.Kept (K.sp depth) m m')
    (hle : depth ≤ depth') : S.Runs A listing n K depth' m' := by
  refine ⟨h.toSits.rebase hk hle, ?_⟩
  intro how d frame τ hd harr
  have hmono := hk.mono (K.sp_le_sp (h.fits d hd).2)
  exact h.catches how d frame τ hd ⟨harr.pc, harr.ready, hmono.trans harr.kept⟩

/-- An activation that sits where the machine has arrived is steady. -/
lemma Sits.steady (h : S.Sits K depth m) (harr : K.Arrives m depth a frame σ) :
    S.call.Steady σ :=
  ⟨harr.ready.fp.trans h.base, (h.rebase harr.kept (Nat.le_refl _)).keeps⟩

/-- A line of the body at which the activation has arrived. -/
lemma safe_at (hp : p.compile = .ok listing) (hcov : S.Covers a b) (hlt : a < b)
    (hsits : S.Sits K depth m) (harr : K.Arrives m depth a frame σ) (hi : listing[a]? = some i)
    (hallow : S.call.Allows σ i) (hstay : Stays i) (hstep : σ.step A listing = some τ)
    (h : ∀ k < n, S.Safe A listing k τ) : S.Safe A listing n σ := by
  have hsteady := hsits.steady harr
  obtain rfl := harr.pc
  exact safe_of_line hp hcov hlt hsteady hi hallow hstay hstep h

/-- The definition of a label is safe if what follows is. -/
lemma safe_label {l : Label} (hp : p.compile = .ok listing) (hcov : S.Covers a b) (hlt : a < b)
    (hsits : S.Sits K depth m) (harr : K.Arrives m depth a frame σ)
    (hi : listing[a]? = some (.label l)) (h : S.Safe A listing n σ.next) :
    S.Safe A listing n σ := by
  have hstep : σ.step A listing = some σ.next := by
    rw [← harr.pc] at hi
    exact step_plain hi trivial
  exact safe_at hp hcov hlt hsits harr hi trivial trivial hstep fun k hk =>
    h.mono (Nat.le_of_lt hk)

/-- A jump is safe if what its target leads to is. -/
lemma safe_jump {l : Label} {t : Nat} (hp : p.compile = .ok listing) (hcov : S.Covers a b)
    (hlt : a < b) (hsits : S.Sits K depth m) (harr : K.Arrives m depth a frame σ)
    (hi : listing[a]? = some (.b l) ∨ listing[a]? = some (.j l)) (ht : address listing l = some t)
    (h : S.Safe A listing n (σ.goto t)) : S.Safe A listing n σ := by
  have hnext : ∀ k < n, S.Safe A listing k (σ.goto t) := fun k hk => h.mono (Nat.le_of_lt hk)
  rcases hi with hi | hi
  · have hstep : σ.step A listing = some (σ.goto t) := step_b (by rw [harr.pc, hi]) ht
    exact safe_at hp hcov hlt hsits harr hi trivial trivial hstep hnext
  · have hstep : σ.step A listing = some (σ.goto t) := step_j (by rw [harr.pc, hi]) ht
    exact safe_at hp hcov hlt hsits harr hi trivial trivial hstep hnext

/-- Lines of the body without jumps, at which the activation has arrived. -/
lemma safe_lines {s : Scope} {c : Cursor} {is : List (Instruction Label)}
    (hp : p.compile = .ok listing) (h : (code is).Spans listing s c a b) (hcov : S.Covers a b)
    (hsits : S.Sits K depth m) (harr : K.Arrives m depth a frame σ) (hallow : S.Allowed A is σ)
    (hnext : (is.foldl (effect A) σ).pc = b → S.Safe A listing n (is.foldl (effect A) σ)) :
    S.Safe A listing n σ := by
  have hsteady := hsits.steady harr
  obtain rfl := harr.pc
  exact safe_code hp h hcov hsteady hallow hnext

/-- A push is safe if what follows it is. -/
lemma safe_push {s : Scope} {c : Cursor} {r : Register} (hp : p.compile = .ok listing)
    (h : (push r).Spans listing s c a b) (hcov : S.Covers a b) (hsits : S.Sits K depth m)
    (harr : K.Arrives m depth a frame σ)
    (hnext : ∀ τ, τ.pc = b → K.Ready (depth + 1) frame τ → K.Kept (K.sp depth) m τ.mem →
      τ.mem (K.sp depth) = σ.regs r → S.Safe A listing n τ) : S.Safe A listing n σ := by
  have hbase := hsits.base
  have hlow : σ.regs .stackPointer + 0 < S.call.base := by
    rw [harr.ready.sp]
    unfold Activation.sp
    omega
  refine safe_lines hp (spans_push.mp h) hcov hsits harr
    ⟨trivial, hlow, trivial, S.call.allows_adjustStack _ _, trivial⟩ ?_
  intro hpc
  obtain ⟨hready, hkept, hword, -⟩ := harr.ready.push (A := A) hsits.fits r
  exact hnext _ hpc hready (harr.kept.trans hkept) hword

/-- A pop is safe if what follows it is. -/
lemma safe_pop {s : Scope} {c : Cursor} {r : Register} (hp : p.compile = .ok listing)
    (hr : r ≠ .stackPointer) (hr' : r ≠ .framePointer) (h : (pop r).Spans listing s c a b)
    (hcov : S.Covers a b) (hsits : S.Sits K (depth + 1) m)
    (harr : K.Arrives m (depth + 1) a frame σ)
    (hnext : ∀ τ, τ.pc = b → K.Ready depth frame τ → τ.mem = σ.mem → S.Safe A listing n τ) :
    S.Safe A listing n σ := by
  refine safe_lines hp (spans_pop.mp h) hcov hsits harr
    ⟨trivial, hr', trivial, S.call.allows_adjustStack _ _, trivial⟩ ?_
  intro hpc
  obtain ⟨hready, hmem, -⟩ := harr.ready.pop (A := A) hr hr'
  exact hnext _ hpc hready hmem

end CallStack

/-! ### Guarded fragments -/

variable (A p listing) in
/-- Wherever the fragment stands in the body of a declaration with `size` arguments, a run through
it is safe for up to `N` steps, if it is safe where the fragment ends. -/
structure Guarded (N size : Nat) (f : Fragment) : Prop where
  /-- The fragment pops what it pushes. -/
  depth : ∀ c, (f.advance c).depth = c.depth
  /-- Runs through the fragment are safe. -/
  safe : ∀ n ≤ N, ∀ (S : CallStack p) (K : Activation) (c : Cursor) (b : Nat) (frame : Frame)
    (σ : Machine), S.call.size = size → f.Spans listing (K.scope p) c σ.pc b → S.Covers σ.pc b →
    S.Runs A listing n K c.depth σ.mem → K.Ready c.depth frame σ →
    (∀ frame' τ, K.Arrives σ.mem c.depth b frame' τ → S.Safe A listing n τ) →
    S.Safe A listing n σ

variable {N size : Nat} {f g f' g' : Fragment}

section parts

variable {S : CallStack p} {K : Activation} {c : Cursor} {n depth a b : Nat} {m : Int → Int}
  {frame : Frame} {σ : Machine}

/-- A fragment is guarded in the middle of a larger one, which has started with memory `m`. -/
lemma Guarded.after (hf : Guarded A p listing N size f) (hn : n ≤ N) (hsize : S.call.size = size)
    (h : f.Spans listing (K.scope p) c a b) (hcov : S.Covers a b) (hc : c.depth = depth)
    (hruns : S.Runs A listing n K depth m) (harr : K.Arrives m depth a frame σ)
    (hnext : ∀ frame' τ, K.Arrives m depth b frame' τ → S.Safe A listing n τ) :
    S.Safe A listing n σ := by
  obtain ⟨rfl, hready, hkept⟩ := harr
  obtain rfl := hc
  refine hf.safe n hn S K c b frame σ hsize h hcov (hruns.rebase hkept (Nat.le_refl _)) hready ?_
  intro frame' τ harr
  exact hnext frame' τ ⟨harr.pc, harr.ready, hkept.trans harr.kept⟩

/-- **Operands.** The left value waits on the stack, below all that is kept. -/
lemma safe_operands (hp : p.compile = .ok listing) (hf : Guarded A p listing N size f)
    (hg : Guarded A p listing N size g) (hn : n ≤ N) (hsize : S.call.size = size)
    (h : (operands f g).Spans listing (K.scope p) c a b) (hcov : S.Covers a b)
    (hc : c.depth = depth) (hruns : S.Runs A listing n K depth m)
    (harr : K.Arrives m depth a frame σ)
    (hnext : ∀ frame' τ, K.Arrives m depth b frame' τ → S.Safe A listing n τ) :
    S.Safe A listing n σ := by
  obtain ⟨b₁, hl, b₂, hpush, b₃, hr, hpop⟩ := spans_operands.mp h
  have hle₁ := hl.le
  have hle₂ := hpush.le
  have hle₃ := hr.le
  have hle₄ := hpop.le
  refine hf.after hn hsize hl (hcov.mono (by omega) (by omega)) hc hruns harr ?_
  intro frame₁ τ₁ harr₁
  refine CallStack.safe_push hp hpush (hcov.mono (by omega) (by omega)) hruns.toSits harr₁ ?_
  intro τ₂ hpc₂ hready₂ hkept₂ _
  have hruns₂ := hruns.rebase hkept₂ (Nat.le_add_right depth 1)
  have hdepth : ((push .accumulator).advance (f.advance c)).depth = depth + 1 := by
    rw [advance_push, hf.depth, hc]
  refine hg.after hn hsize hr (hcov.mono (by omega) (by omega)) hdepth hruns₂
    ⟨hpc₂, hready₂, .refl⟩ ?_
  intro frame₃ τ₃ harr₃
  refine CallStack.safe_pop hp (by decide) (by decide) hpop (hcov.mono (by omega) (by omega))
    hruns₂.toSits harr₃ ?_
  intro τ₄ hpc₄ hready₄ hmem₄
  refine hnext frame₃ τ₄ ⟨hpc₄, hready₄, ?_⟩
  rw [hmem₄]
  exact hkept₂.trans (harr₃.kept.mono (K.sp_le_sp (Nat.le_add_right depth 1)))

/-- **Tests.** Both ways are safe. -/
lemma safe_test {cmp : Comparison} {l : Label} {t : Nat} (hp : p.compile = .ok listing)
    (hf : Guarded A p listing N size f) (hg : Guarded A p listing N size g) (hn : n ≤ N)
    (hsize : S.call.size = size) (h : (test f cmp g l).Spans listing (K.scope p) c a b)
    (ht : address listing l = some t) (hcov : S.Covers a b) (hc : c.depth = depth)
    (hruns : S.Runs A listing n K depth m) (harr : K.Arrives m depth a frame σ)
    (hnext : ∀ frame' τ, K.Arrives m depth b frame' τ → S.Safe A listing n τ)
    (htaken : ∀ frame' τ, K.Arrives m depth t frame' τ → S.Safe A listing n τ) :
    S.Safe A listing n σ := by
  obtain ⟨b₁, hops, hline, rfl⟩ := spans_test.mp h
  have hle := hops.le
  refine safe_operands hp hf hg hn hsize hops (hcov.mono (Nat.le_refl _) (by omega)) hc hruns
    harr ?_
  intro frame₁ τ₁ harr₁
  have hstep := step_branchTo (A := A) (by rw [harr₁.pc, hline]) ht
  refine CallStack.safe_at hp (hcov.mono hle (Nat.le_refl _)) (by omega) hruns.toSits harr₁ hline
    (by cases cmp <;> trivial) (by cases cmp <;> trivial) hstep ?_
  intro k hk
  split
  · exact (htaken _ _ (harr₁.goto t)).mono (Nat.le_of_lt hk)
  · exact (hnext _ _ harr₁.next).mono (Nat.le_of_lt hk)

end parts

/-! ### Constants and slots -/

/-- A line that neither touches memory nor jumps is guarded. -/
lemma guarded_line {i : Instruction Label} (hp : p.compile = .ok listing) (hplain : Plain i)
    (hallow : ∀ (S : CallStack p) σ, S.call.Allows σ i)
    (heffect : ∀ σ : Machine, (σ.effect A i).mem = σ.mem ∧
      (σ.effect A i).regs .framePointer = σ.regs .framePointer ∧
      (σ.effect A i).regs .stackPointer = σ.regs .stackPointer) :
    Guarded A p listing N size (code [i]) := by
  refine ⟨fun _ => rfl, fun n hn S K c b frame σ _ h hcov hruns hready hnext => ?_⟩
  refine CallStack.safe_lines hp h hcov hruns.toSits hready.arrives
    ⟨hplain, hallow S σ, trivial⟩ ?_
  intro hpc
  obtain ⟨hmem, hfp, hsp⟩ := heffect σ
  exact hnext frame _ (hready.arrives.congr hpc hfp hsp hmem)

/-- The code of a constant. -/
lemma guarded_li (hp : p.compile = .ok listing) (x : Int) :
    Guarded A p listing N size (code [.li .accumulator x]) :=
  guarded_line hp trivial (fun _ _ => by simp [Call.Allows]) fun _ => ⟨rfl, rfl, rfl⟩

/-- The code of doing nothing. -/
lemma guarded_nop (hp : p.compile = .ok listing) : Guarded A p listing N size (code [.nop]) :=
  guarded_line hp trivial (fun _ _ => trivial) fun _ => ⟨rfl, rfl, rfl⟩

/-- The code of one expression after another. -/
lemma guarded_append (hf : Guarded A p listing N size f) (hg : Guarded A p listing N size g) :
    Guarded A p listing N size (f ++ g) := by
  refine ⟨fun c => by simp [hf.depth, hg.depth],
    fun n hn S K c b frame σ hsize h hcov hruns hready hnext => ?_⟩
  obtain ⟨b₁, hfirst, hsecond⟩ := spans_append.mp h
  have hle₁ := hfirst.le
  have hle₂ := hsecond.le
  refine hf.after hn hsize hfirst (hcov.mono (Nat.le_refl _) hle₂) rfl hruns hready.arrives ?_
  intro frame₁ τ₁ harr₁
  exact hg.after hn hsize hsecond (hcov.mono hle₁ (Nat.le_refl _)) (hf.depth c) hruns harr₁ hnext

/-- A construct is guarded if it is guarded under every number. -/
lemma guarded_numbered {k : Construct} {rest : Allocated → Fragment}
    (h : ∀ i, Guarded A p listing N size (rest ⟨k, i⟩)) :
    Guarded A p listing N size (numbered k rest) := by
  refine ⟨fun c => (h _).depth _,
    fun n hn S K c b frame σ hsize hspans hcov hruns hready hnext => ?_⟩
  exact (h _).safe n hn S K { c with numbering := c.numbering.next k } b frame σ hsize
    (spans_numbered.mp hspans).2 hcov hruns hready hnext

/-- The code of an operator, after that of its operands. -/
lemma guarded_arith (hp : p.compile = .ok listing) (hf : Guarded A p listing N size f)
    (hg : Guarded A p listing N size g) (op : ArithOp) :
    Guarded A p listing N size
      (operands f g ++ code [.arith op .accumulator .scratch .accumulator]) := by
  refine guarded_append ⟨fun c => by simp [operands, hf.depth, hg.depth], ?_⟩ ?_
  · intro n hn S K c b frame σ hsize h hcov hruns hready hnext
    exact safe_operands hp hf hg hn hsize h hcov rfl hruns hready.arrives hnext
  · exact guarded_line hp trivial (fun _ _ => by simp [Call.Allows]) fun _ => ⟨rfl, rfl, rfl⟩

/-- The word at the offset of a slot is that of an argument. -/
lemma Call.isSlot_of_offset {J : Call} {slot : UInt64} {x : Int} (hpos : 0 < slot.toNat)
    (hle : slot.toNat ≤ J.size) (hlimit : J.size < arityLimit) (hx : slotOffset slot = .ok x) :
    x = 4 * slot.toNat ∧ J.IsSlot (J.base + x) := by
  rw [slotOffset_of_lt (by omega)] at hx
  obtain rfl : 4 * (slot.toNat : Int) = x := by simpa using hx
  exact ⟨rfl, slot.toNat, hpos, hle, rfl⟩

/-- **Loads.** A slot in range is an argument. -/
lemma guarded_load {slot : UInt64} (hp : p.compile = .ok listing) (hpos : 0 < slot.toNat)
    (hle : slot.toNat ≤ size) : Guarded A p listing N size (load slot) := by
  refine ⟨by simp, fun n hn S K c b frame σ hsize h hcov hruns hready hnext => ?_⟩
  obtain ⟨x, hx, hcode⟩ := spans_withAddress.mp h
  have hlimit : S.call.size < arityLimit := hruns.size ▸ K.size_lt
  obtain ⟨-, hslot⟩ := Call.isSlot_of_offset hpos (hsize ▸ hle) hlimit hx
  rw [← hruns.base, ← hready.fp] at hslot
  refine CallStack.safe_lines hp hcode hcov hruns.toSits hready.arrives
    ⟨trivial, ⟨by decide, hslot⟩, trivial⟩ ?_
  intro hpc
  exact hnext frame _ (hready.arrives.congr hpc rfl rfl rfl)

/-- **Stores.** Only an argument changes. -/
lemma guarded_store {slot : UInt64} (hp : p.compile = .ok listing) (hpos : 0 < slot.toNat)
    (hle : slot.toNat ≤ size) : Guarded A p listing N size (store slot) := by
  refine ⟨by simp, fun n hn S K c b frame σ hsize h hcov hruns hready hnext => ?_⟩
  obtain ⟨x, hx, hcode⟩ := spans_withAddress.mp h
  have hlimit : S.call.size < arityLimit := hruns.size ▸ K.size_lt
  obtain ⟨hoffset, hslot⟩ := Call.isSlot_of_offset hpos (hsize ▸ hle) hlimit hx
  rw [← hruns.base, ← hready.fp] at hslot
  refine CallStack.safe_lines hp hcode hcov hruns.toSits hready.arrives
    ⟨trivial, hslot, trivial⟩ ?_
  intro hpc
  have haddr : K.base + x = K.base + 4 * ((slot.toNat - 1 : Nat) + 1) := by omega
  have hin : slot.toNat ≤ K.size := by
    rw [hruns.size, hsize]
    exact hle
  have hmem : (List.foldl (effect A) σ [.sw .accumulator x .framePointer]).mem =
      Function.update σ.mem (K.base + 4 * ((slot.toNat - 1 : Nat) + 1))
        (σ.regs .accumulator) := by
    simp only [List.foldl_cons, List.foldl_nil, effect, mem_store, hready.fp, haddr]
  refine hnext _ _ ⟨hpc, hready.set rfl hmem hruns.fits, ?_⟩
  intro y _ hy
  rw [hmem, Function.update_of_ne (by omega)]

/-! ### Conditionals -/

/-- **Conditionals.** Either body is guarded. -/
theorem guarded_conditional (hp : p.compile = .ok listing) (cmp : Comparison)
    (hf : Guarded A p listing N size f) (hg : Guarded A p listing N size g)
    (hthen : Guarded A p listing N size f') (helse : Guarded A p listing N size g') :
    Guarded A p listing N size (conditional (test f cmp g) f' g') := by
  refine guarded_numbered fun i => ⟨fun c => ?_,
    fun n hn S K c b frame σ hsize h hcov hruns hready hnext => ?_⟩
  · simp [test, operands, hf.depth, hg.depth, hthen.depth, helse.depth]
  obtain ⟨b₁, htest, hline₁, b₂, hsecond, hjump, hline₂, b₃, hfirst, hline₃, rfl⟩ :=
    spans_branches.mp h
  have hd : ((test f cmp g (.numbered .thenBody i)).advance c).depth = c.depth := by
    simp [test, operands, hf.depth, hg.depth]
  have hle₁ := htest.le
  have hle₂ := hsecond.le
  have hle₃ := hfirst.le
  have hjoin : ∀ frame' τ, K.Arrives σ.mem c.depth b₃ frame' τ → S.Safe A listing n τ := by
    intro frame' τ harr
    exact CallStack.safe_label hp (hcov.mono (by omega) (Nat.le_refl _)) (by omega) hruns.toSits
      harr hline₃ (hnext frame' _ harr.next)
  refine safe_test hp hf hg hn hsize htest (p.address_eq hp hline₂)
    (hcov.mono (Nat.le_refl _) (by omega)) rfl hruns hready.arrives ?_ ?_
  · intro frame₁ τ₁ harr₁
    refine CallStack.safe_label (b := b₂) hp (hcov.mono (by omega) (by omega)) (by omega)
      hruns.toSits harr₁ hline₁ ?_
    refine helse.after hn hsize hsecond (hcov.mono (by omega) (by omega)) hd hruns harr₁.next ?_
    intro frame₂ τ₂ harr₂
    exact CallStack.safe_jump (b := b₂ + 1) hp (hcov.mono (by omega) (by omega)) (by omega)
      hruns.toSits harr₂ (.inl hjump) (p.address_eq hp hline₃) (hjoin _ _ (harr₂.goto b₃))
  · intro frame₁ τ₁ harr₁
    refine CallStack.safe_label (b := b₂ + 2) hp (hcov.mono (by omega) (by omega)) (by omega)
      hruns.toSits harr₁ hline₂ ?_
    exact hthen.after hn hsize hfirst (hcov.mono (by omega) (by omega))
      ((helse.depth _).trans hd) hruns harr₁.next hjoin

/-! ### Escapes -/

/-- The last two lines of an escape. -/
lemma CallStack.Runs.safe_leave {S : CallStack p} {K : Activation} {n depth d b : Nat}
    {frame : Frame} {σ τ : Machine} {how : Escape} (hp : p.compile = .ok listing)
    (hruns : S.Runs A listing n K depth σ.mem) (hready : K.Ready depth frame σ)
    (hd : K.loop? = some d) (hmem : τ.mem = σ.mem)
    (hregs : τ.regs = Function.update σ.regs .stackPointer
      (σ.regs .stackPointer + 4 * (depth - d : Nat)))
    (hcov : S.Covers τ.pc b) (hlt : τ.pc + 1 < b)
    (hlw : listing[τ.pc]? = some (.lw how.register how.offset .stackPointer))
    (hjr : listing[τ.pc + 1]? = some (.jr how.register)) : S.Safe A listing n τ := by
  obtain ⟨htarget, harr⟩ := hready.unwind (A := A) hd (hruns.fits d hd).2 hmem hregs how
  have hsteady : S.call.Steady τ := by
    refine ⟨?_, ?_⟩
    · rw [hregs, Function.update_of_ne (by decide), hready.fp, hruns.base]
    · rw [hmem]
      exact hruns.keeps
  have hload : S.call.Allows τ (.lw how.register how.offset .stackPointer) := by
    cases how <;> simp [Call.Allows, Escape.register]
  refine safe_of_line hp hcov (by omega) hsteady hlw hload trivial (step_plain hlw trivial) ?_
  intro k hk
  refine safe_of_line hp (hcov.mono (Nat.le_succ _) (Nat.le_refl _)) hlt (hsteady.effect hload) hjr
    (by cases how <;> simp [Call.Allows, Escape.register]) (by cases how <;> trivial)
    (step_jr hjr htarget) ?_
  intro k' hk'
  exact (hruns.catches how d frame _ hd harr).mono (by omega)

/-- **Escapes.** They lead to a state that is safe by assumption. -/
theorem guarded_escape (hp : p.compile = .ok listing) (how : Escape) :
    Guarded A p listing N size (escape how) := by
  refine ⟨fun _ => rfl, fun n hn S K c b frame σ hsize h hcov hruns hready _ => ?_⟩
  obtain ⟨d, hd, hcode⟩ := spans_escape.mp h
  unfold Escape.jump at hcode
  by_cases hpending : c.depth - d = 0
  · simp only [hpending, if_true, List.nil_append, spans_code_cons, spans_code_nil] at hcode
    obtain ⟨hlw, hjr, hb⟩ := hcode
    exact hruns.safe_leave hp hready hd rfl (by simp [hpending]) hcov (by omega) hlw hjr
  · simp only [hpending, if_false, List.singleton_append, spans_code_cons, spans_code_nil] at hcode
    obtain ⟨hdrop, hlw, hjr, hb⟩ := hcode
    refine CallStack.safe_at hp hcov (by omega) hruns.toSits hready.arrives hdrop
      (S.call.allows_adjustStack _ _) trivial (step_plain hdrop trivial) ?_
    intro k hk
    set τ := σ.effect A (.adjustStack ((c.depth - d : Nat) * wordSize)) with hτ
    refine (hruns.safe_leave (τ := τ) (b := b) hp hready hd rfl ?_ ?_ ?_ hlw hjr).mono
      (Nat.le_of_lt hk)
    · simp [hτ, Instruction.adjustStack, effect, wordSize, Int.mul_comm]
    · exact hcov.mono (Nat.le_succ _) (Nat.le_refl _)
    · rw [hτ, pc_effect]
      omega

/-! ### Rounds of a loop -/

variable (A p listing) in
/-- Wherever the round stands, a run through it is safe, if it is safe where the round ends and at
the exit of the loop. -/
structure GuardedRound (N size : Nat) (exit : Label) (f : Fragment) : Prop where
  /-- The round pops what it pushes. -/
  depth : ∀ c, (f.advance c).depth = c.depth
  /-- Runs through the round are safe. -/
  safe : ∀ n ≤ N, ∀ (S : CallStack p) (K : Activation) (c : Cursor) (b e : Nat) (frame : Frame)
    (σ : Machine), S.call.size = size → f.Spans listing (K.scope p) c σ.pc b → S.Covers σ.pc b →
    listing[e]? = some (.label exit) → S.Runs A listing n K c.depth σ.mem →
    K.Ready c.depth frame σ →
    (∀ frame' τ, K.Arrives σ.mem c.depth b frame' τ → S.Safe A listing n τ) →
    (∀ frame' τ, K.Arrives σ.mem c.depth e frame' τ → S.Safe A listing n τ) →
    S.Safe A listing n σ

/-- The round of a loop that tests first. -/
lemma guardedRound_while {body : Fragment} (hp : p.compile = .ok listing) (cmp : Comparison)
    (hf : Guarded A p listing N size f) (hg : Guarded A p listing N size g)
    (hbody : Guarded A p listing N size body) (i : Nat) :
    GuardedRound A p listing N size (.numbered .whileExit i)
      (whileRound (test f cmp g) body i) := by
  refine ⟨fun c => ?_, fun n hn S K c b e frame σ hsize h hcov he hruns hready hnext hexit => ?_⟩
  · simp [whileRound, test, operands, hf.depth, hg.depth, hbody.depth]
  obtain ⟨b₁, htest, hjump, hline, hrest⟩ := spans_whileRound.mp h
  have hd : ((test f cmp g (.numbered .whileBody i)).advance c).depth = c.depth := by
    simp [test, operands, hf.depth, hg.depth]
  have hle₁ := htest.le
  have hle₂ := hrest.le
  refine safe_test hp hf hg hn hsize htest (p.address_eq hp hline)
    (hcov.mono (Nat.le_refl _) (by omega)) rfl hruns hready.arrives ?_ ?_
  · intro frame₁ τ₁ harr₁
    exact CallStack.safe_jump (b := b₁ + 1) hp (hcov.mono hle₁ (by omega)) (by omega)
      hruns.toSits harr₁ (.inr hjump) (p.address_eq hp he) (hexit _ _ (harr₁.goto e))
  · intro frame₁ τ₁ harr₁
    refine CallStack.safe_label (b := b₁ + 2) hp (hcov.mono (by omega) (by omega)) (by omega)
      hruns.toSits harr₁ hline ?_
    exact hbody.after hn hsize hrest (hcov.mono (by omega) (Nat.le_refl _)) hd hruns harr₁.next
      hnext

/-- The round of a loop that tests last. -/
lemma guardedRound_repeat {body : Fragment} (hp : p.compile = .ok listing) (cmp : Comparison)
    (hf : Guarded A p listing N size f) (hg : Guarded A p listing N size g)
    (hbody : Guarded A p listing N size body) (i : Nat) :
    GuardedRound A p listing N size (.numbered .repeatExit i)
      (repeatRound body (test f cmp g) i) := by
  refine ⟨fun c => ?_, fun n hn S K c b e frame σ hsize h hcov he hruns hready hnext hexit => ?_⟩
  · simp [repeatRound, test, operands, hf.depth, hg.depth, hbody.depth]
  obtain ⟨b₁, hfirst, htest⟩ := spans_repeatRound.mp h
  refine hbody.after hn hsize hfirst (hcov.mono (Nat.le_refl _) htest.le) rfl hruns
    hready.arrives ?_
  intro frame₁ τ₁ harr₁
  exact safe_test hp hf hg hn hsize htest (p.address_eq hp he)
    (hcov.mono hfirst.le (Nat.le_refl _)) (hbody.depth c) hruns harr₁ hnext hexit

/-! ### Loops -/

/-- **Loops from their head.** A run through a loop is safe if it is safe at the exit, however often
it comes back to the head.

**Proof sketch.** Strong induction on the number of steps. The line of the head is a step, and all
ways back to the head, be it by the jump at the end of the round or by an escape, come after it. -/
theorem GuardedRound.safe_head {exit head : Label} {round : Fragment} {S : CallStack p}
    {K : Activation} {c : Cursor} {n a b : Nat} {frame : Frame} {σ : Machine}
    (hround : GuardedRound A p listing N size exit round) (hp : p.compile = .ok listing)
    (hn : n ≤ N) (hsize : S.call.size = size) (hcov : S.Covers a (b + 1))
    (hhead : listing[a]? = some (.label head))
    (hspans : round.Spans listing (K.scope p) c (a + 1) b) (hback : listing[b]? = some (.j head))
    (hexit : listing[b + 1]? = some (.label exit)) (hloop : K.loop? = some c.depth)
    (hrestart : K.target .restart = a) (hleave : K.target .exit = b + 1)
    (hsits : S.Sits K c.depth σ.mem) (harr : K.Arrives σ.mem c.depth a frame σ)
    (hnext : ∀ frame' τ, K.Arrives σ.mem c.depth (b + 1) frame' τ → S.Safe A listing n τ) :
    S.Safe A listing n σ := by
  induction n using Nat.strong_induction_on generalizing frame σ with
  | _ n ih =>
    have hle := hspans.le
    -- wherever the run comes back to the head, fewer steps are left
    have hagain : ∀ k < n, ∀ frame' τ, K.Arrives σ.mem c.depth a frame' τ →
        S.Safe A listing k τ := by
      intro k hk frame' τ harr'
      refine ih k hk (by omega) (hsits.rebase harr'.kept (Nat.le_refl _))
        ⟨harr'.pc, harr'.ready, .refl⟩ ?_
      intro frame'' υ harr''
      exact (hnext frame'' υ ⟨harr''.pc, harr''.ready, harr'.kept.trans harr''.kept⟩).mono
        (Nat.le_of_lt hk)
    have hline : listing[σ.pc]? = some (.label head) := by rw [harr.pc, hhead]
    have hstep : σ.step A listing = some σ.next := step_plain hline trivial
    refine CallStack.safe_at hp hcov (by omega) hsits harr hhead trivial trivial hstep ?_
    intro k hk
    have hruns : S.Runs A listing k K c.depth σ.mem := by
      refine ⟨hsits, ?_⟩
      intro how d frame' τ hd harr'
      obtain rfl : c.depth = d := by simpa [hloop] using hd
      cases how with
      | exit =>
        rw [hleave] at harr'
        exact (hnext frame' τ harr').mono (Nat.le_of_lt hk)
      | restart =>
        rw [hrestart] at harr'
        exact hagain k hk frame' τ harr'
    have harr₀ := harr.next
    rw [← harr₀.pc] at hspans
    refine hround.safe k (by omega) S K c b (b + 1) frame σ.next hsize hspans ?_ hexit hruns
      harr₀.ready ?_ ?_
    · rw [harr₀.pc]
      exact hcov.mono (Nat.le_succ a) (Nat.le_succ b)
    · intro frame₁ τ₁ harr₁
      exact CallStack.safe_jump hp (hcov.mono (by omega) (Nat.le_refl _)) (Nat.lt_succ_self b)
        hsits harr₁ (.inr hback) (p.address_eq hp hhead) (hagain k hk _ _ (harr₁.goto a))
    · intro frame₁ τ₁ harr₁
      exact (hnext frame₁ τ₁ harr₁).mono (Nat.le_of_lt hk)

/-- Staging a target is safe if what follows it is. -/
lemma CallStack.safe_stage {S : CallStack p} {K : Activation} {s : Scope} {c : Cursor}
    {n depth a b t : Nat} {m : Int → Int} {frame : Frame} {σ : Machine} {r : Register} {l : Label}
    (hp : p.compile = .ok listing) (hr : .framePointer ≠ r ∧ .stackPointer ≠ r)
    (hline : listing[a]? = some (.la r l)) (ht : address listing l = some t)
    (hpush : (push r).Spans listing s c (a + 1) b) (hcov : S.Covers a b)
    (hsits : S.Sits K depth m) (harr : K.Arrives m depth a frame σ)
    (hnext : ∀ τ, τ.pc = b → K.Ready (depth + 1) frame τ → K.Kept (K.sp depth) m τ.mem →
      τ.mem (K.sp depth) = t → S.Safe A listing n τ) : S.Safe A listing n σ := by
  have hle := hpush.le
  have hstep : σ.step A listing = some (σ.set r t) := step_la (by rw [harr.pc, hline]) ht
  refine safe_at hp hcov (by omega) hsits harr hline hr.1.symm trivial hstep fun k hk => ?_
  have harr₁ : K.Arrives m depth (a + 1) frame (σ.set r t) :=
    harr.congr (by simp [harr.pc]) (by simp [hr.1]) (by simp [hr.2]) rfl
  refine safe_push hp hpush (hcov.mono (Nat.le_succ a) (Nat.le_refl b)) hsits harr₁ ?_
  intro τ hpc hready hkept hword
  refine (hnext τ hpc hready hkept ?_).mono (Nat.le_of_lt hk)
  rw [hword, regs_set, Function.update_self]

/-- **Loops.** The targets are staged, the loop runs from its head, and the targets are popped. -/
theorem guarded_staged {exit head : Label} {round : Fragment} (hp : p.compile = .ok listing)
    (hround : GuardedRound A p listing N size exit round) :
    Guarded A p listing N size (staged exit head round) := by
  refine ⟨fun c => by simp [staged, hround.depth],
    fun n hn S K c b frame σ hsize hspans hcov hruns hready hnext => ?_⟩
  obtain ⟨hla, b₁, hpush, hla', a, hpush', hhead, e, hinside, hback, hexit, b₂, hpop, hpop'⟩ :=
    spans_staged.mp hspans
  have hle₁ := hpush.le
  have hle₂ := hpush'.le
  have hle₃ := hinside.le
  have hle₄ := hpop.le
  have hle₅ := hpop'.le
  have hsp₁ := K.sp_le_sp (Nat.le_add_right c.depth 1)
  refine CallStack.safe_stage hp (by decide) hla (p.address_eq hp hexit) hpush
    (hcov.mono (Nat.le_refl _) (by omega)) hruns.toSits hready.arrives ?_
  intro τ₁ hpc₁ hready₁ hkept₁ hword₁
  have hsits₁ := hruns.toSits.rebase hkept₁ (Nat.le_add_right c.depth 1)
  refine CallStack.safe_stage hp (by decide) hla' (p.address_eq hp hhead) hpush'
    (hcov.mono (by omega) (by omega)) hsits₁ ⟨hpc₁, hready₁, .refl⟩ ?_
  intro τ₂ hpc₂ hready₂ hkept₂ hword₂
  have hkept : K.Kept (K.sp c.depth) σ.mem τ₂.mem := hkept₁.trans (hkept₂.mono hsp₁)
  have hsits₂ := hruns.toSits.rebase hkept (Nat.le_add_right c.depth 2)
  -- inside of the loop the staged words are the targets
  set K' := K.enter (c.depth + 2) (e + 1) a with hK'
  have hready' : K'.Ready (c.depth + 2) frame τ₂ :=
    hready₂.enter (hkept₂.pushed.trans hword₁) hword₂
  have hsits' : S.Sits K' (c.depth + 2) τ₂.mem := by
    refine ⟨hsits₂.base, hsits₂.size, ?_, hsits₂.keeps⟩
    intro d hd
    obtain rfl : c.depth + 2 = d := by simpa [hK', Activation.enter] using hd
    omega
  refine hround.safe_head (K := K') (c := { c with depth := c.depth + 2 }) hp hn hsize
    (hcov.mono (by omega) (by omega)) hhead hinside hback hexit rfl rfl rfl hsits'
    ⟨hpc₂, hready', .refl⟩ ?_
  intro frame' τ₃ harr₃
  obtain ⟨harr, hkept'⟩ := harr₃.leave hruns.fits hready hkept
  refine CallStack.safe_label (b := e + 2) hp (hcov.mono (by omega) (by omega)) (by omega) hsits₂
    harr hexit ?_
  refine CallStack.safe_pop hp (by decide) (by decide) hpop
    (hcov.mono (by omega) (by omega)) hsits₂ harr.next ?_
  intro τ₄ hpc₄ hready₄ hmem₄
  have hsits₄ : S.Sits K (c.depth + 1) τ₄.mem := by
    rw [hmem₄]
    exact hruns.toSits.rebase hkept' (Nat.le_add_right c.depth 1)
  refine CallStack.safe_pop hp (by decide) (by decide) hpop'
    (hcov.mono (by omega) (Nat.le_refl _)) hsits₄ ⟨hpc₄, hready₄, .refl⟩ ?_
  intro τ₅ hpc₅ hready₅ hmem₅
  refine hnext frame' τ₅ ⟨hpc₅, hready₅, ?_⟩
  rw [hmem₅, hmem₄]
  exact hkept'

end ImpRiscV
