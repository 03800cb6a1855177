import ImpRiscV.Proofs.CallStack
import ImpRiscV.Proofs.FrameAccess
import ImpRiscV.Proofs.References

/-!
# Runs keep to the outlines of bodies

An outline says of each line of a body what is known before it: where the stack pointer stands, and
which registers and which words of the stack hold the address of which label. This file shows that
what is known is true of the machine. All words of which something is known are below the word of
the return address, so that a store to a slot of the frame cannot spoil them, as long as the offset
of the slot is not negative. Therefore a jump through a register leads to the label of a loop of the
same body, and a running body is left only at its end or by a call.

## Main definitions

* `ImpRiscV.Knowledge.Sound` — what is known is true of a state of the machine.
* `ImpRiscV.Placement.Charted` — an outline of the body of a declaration.
* `ImpRiscV.Call.InBody` — the activation is at a line of its body, and what the outline says is
  true.

## Main results

* `ImpRiscV.Knowledge.Sound.exec` — a line that does not jump keeps knowledge sound.
* `ImpRiscV.Call.InBody.step` — one step of a running body.
-/

set_option relaxedAutoImplicit false
set_option autoImplicit false

namespace ImpRiscV

open Machine

variable {A : Arithmetic} {p : Program} {listing : List (Instruction Label)}

/-! ### Registers that a line leaves alone -/

/-- A line changes no register but the one that it sets. -/
lemma Machine.regs_of_step {σ τ : Machine} {i : Instruction Label} {r : Register}
    (hi : listing[σ.pc]? = some i) (hr : i.sets? ≠ some r) (hstep : σ.step A listing = some τ) :
    τ.regs r = σ.regs r := by
  have hset : ∀ (rd : Register) (x : Int), some rd ≠ some r → (σ.set rd x).regs r = σ.regs r := by
    intro rd x hrd
    exact Function.update_of_ne (fun h => hrd (congrArg some h.symm)) _ _
  unfold step at hstep
  rw [hi] at hstep
  cases i with
  | label | sw | ecall | nop =>
    obtain rfl := Option.some_inj.mp hstep
    rfl
  | li | lw | mv | addi | arith =>
    obtain rfl := Option.some_inj.mp hstep
    exact hset _ _ hr
  | la rd l =>
    obtain ⟨a, -, rfl⟩ := Option.map_eq_some_iff.mp hstep
    exact hset _ _ hr
  | b | j | jr =>
    obtain ⟨a, -, rfl⟩ := Option.map_eq_some_iff.mp hstep
    rfl
  | jal l =>
    obtain ⟨a, -, rfl⟩ := Option.map_eq_some_iff.mp hstep
    exact hset _ _ hr
  | branch cmp r₁ r₂ l =>
    dsimp only at hstep
    split_ifs at hstep
    · obtain ⟨a, -, rfl⟩ := Option.map_eq_some_iff.mp hstep
      rfl
    · obtain rfl := Option.some_inj.mp hstep
      rfl

/-! ### Sound knowledge -/

/-- The number is the address of the label. -/
def IsAddress (listing : List (Instruction Label)) (l : Label) (x : Int) : Prop :=
  ∃ a : Nat, address listing l = some a ∧ x = a

/-- What is known is true of a state of the machine, if `origin` is what the stack pointer was
before the function was called. -/
structure Knowledge.Sound (listing : List (Instruction Label)) (origin : Int) (k : Knowledge)
    (σ : Machine) : Prop where
  /-- The stack pointer. -/
  sp : σ.regs .stackPointer = origin + k.sp
  /-- The registers that hold addresses. The stack pointer is not one of them. -/
  regs : ∀ r l, k.regs r = some l → r ≠ .stackPointer ∧ IsAddress listing l (σ.regs r)
  /-- The words that hold addresses. -/
  words : ∀ a l, k.words a = some l → IsAddress listing l (σ.mem (origin + a))

namespace Knowledge.Sound

variable {origin : Int} {k k' : Knowledge} {σ : Machine}

/-- Less is known. -/
lemma mono (h : k.Sound listing origin σ) (hle : k' ≤ k) : k'.Sound listing origin σ := by
  refine ⟨by rw [h.sp, hle.sp], ?_, ?_⟩
  · intro r l hl
    exact h.regs r l (hle.regs r l hl)
  · intro a l hl
    exact h.words a l (hle.words a l hl)

/-- Only registers and memory matter. -/
lemma goto (h : k.Sound listing origin σ) (a : Nat) : k.Sound listing origin (σ.goto a) :=
  ⟨h.sp, h.regs, h.words⟩

/-- What is known stays sound on the way to the next line. -/
lemma next (h : k.Sound listing origin σ) : k.Sound listing origin σ.next :=
  ⟨h.sp, h.regs, h.words⟩

/-- A register is set to a value of which something may be known. -/
lemma learn (h : k.Sound listing origin σ) {r : Register} {l? : Option Label} {x : Int}
    (hx : ∀ l, l? = some l → IsAddress listing l x) (hk : k.learn r l? = some k') :
    k'.Sound listing origin (σ.set r x) := by
  unfold Knowledge.learn at hk
  split_ifs at hk with hr
  obtain rfl := Option.some_inj.mp hk
  refine ⟨?_, ?_, h.words⟩
  · rw [regs_set, Function.update_of_ne (Ne.symm hr), h.sp]
  · intro s l hl
    by_cases hs : s = r
    · subst hs
      rw [regs_set, Function.update_self]
      exact ⟨hr, hx l (by simpa using hl)⟩
    · rw [regs_set, Function.update_of_ne hs]
      exact h.regs s l (by simpa [Function.update_of_ne hs] using hl)

/-- A word is stored of which nothing was known. -/
lemma store_of_ne (h : k.Sound listing origin σ) {a : Int}
    (ha : ∀ b l, k.words b = some l → a ≠ origin + b) (x : Int) :
    k.Sound listing origin (σ.store a x) := by
  refine ⟨h.sp, h.regs, fun b l hl => ?_⟩
  rw [mem_store, Function.update_of_ne (Ne.symm (ha b l hl))]
  exact h.words b l hl

/-- A register is stored relative to the stack pointer. -/
lemma store_sp (h : k.Sound listing origin σ) (r : Register) (n : Int) :
    ({ k with words := Function.update k.words (k.sp + n) (k.regs r) } : Knowledge).Sound listing
      origin (σ.store (σ.regs .stackPointer + n) (σ.regs r)) := by
  refine ⟨h.sp, h.regs, fun b l hl => ?_⟩
  have haddr : σ.regs .stackPointer + n = origin + (k.sp + n) := by
    rw [h.sp]
    omega
  rw [mem_store, haddr]
  by_cases hb : b = k.sp + n
  · subst hb
    rw [Function.update_self]
    exact (h.regs r l (by simpa using hl)).2
  · rw [Function.update_of_ne (by omega)]
    exact h.words b l (by simpa [Function.update_of_ne hb] using hl)

/-- The stack pointer is moved. -/
lemma move (h : k.Sound listing origin σ) (n : Int) :
    ({ k with sp := k.sp + n } : Knowledge).Sound listing origin
      (σ.set .stackPointer (σ.regs .stackPointer + n)) := by
  refine ⟨?_, ?_, h.words⟩
  · rw [regs_set, Function.update_self, h.sp]
    exact Int.add_assoc _ _ _
  · intro r l hl
    obtain ⟨hr, haddr⟩ := h.regs r l hl
    rw [regs_set, Function.update_of_ne hr]
    exact ⟨hr, haddr⟩

/-- **A line that does not jump keeps knowledge sound.** It may need the address of a label, and a
store to the frame must miss all words of which something is known. -/
theorem exec {i : Instruction Label} (h : k.Sound listing origin σ)
    (hi : listing[σ.pc]? = some i) (hk : k.exec i = some k')
    (hlabel : ∀ l, i.reference? = some l → ∃ a, address listing l = some a)
    (hframe : ∀ r n, i = .sw r n .framePointer →
      ∀ b l, k.words b = some l → σ.regs .framePointer + n ≠ origin + b) :
    ∃ τ, σ.step A listing = some τ ∧ τ.pc = σ.pc + 1 ∧ k'.Sound listing origin τ := by
  -- nothing is known of a value that is computed
  have hnone : ∀ (x : Int) (l : Label), none = some l → IsAddress listing l x :=
    fun _ _ hl => by cases hl
  cases i with
  | label | ecall | nop =>
    obtain rfl := Option.some_inj.mp hk
    exact ⟨_, step_plain hi trivial, rfl, h.next⟩
  | li | mv | arith => exact ⟨_, step_plain hi trivial, rfl, h.learn (hnone _) hk⟩
  | la rd l =>
    obtain ⟨a, ha⟩ := hlabel l rfl
    refine ⟨_, step_la hi ha, rfl, h.learn ?_ hk⟩
    intro l' hl'
    obtain rfl := Option.some_inj.mp hl'
    exact ⟨a, ha, rfl⟩
  | lw rd n base =>
    refine ⟨_, step_plain hi trivial, rfl, h.learn ?_ hk⟩
    intro l hl
    split_ifs at hl with hbase
    subst hbase
    rw [h.sp, Int.add_assoc]
    exact h.words _ l hl
  | sw rs n base =>
    refine ⟨_, step_plain hi trivial, rfl, ?_⟩
    simp only [Knowledge.exec] at hk
    split_ifs at hk with hbase hbase'
    · obtain rfl := Option.some_inj.mp hk
      subst hbase
      exact h.store_sp rs n
    · obtain rfl := Option.some_inj.mp hk
      subst hbase'
      exact h.store_of_ne (hframe rs n rfl) _
  | addi rd rs n =>
    refine ⟨_, step_plain hi trivial, rfl, ?_⟩
    simp only [Knowledge.exec] at hk
    split_ifs at hk with hsp
    · obtain rfl := Option.some_inj.mp hk
      obtain ⟨rfl, rfl⟩ := hsp
      exact h.move n
    · exact h.learn (hnone _) hk
  | branch | b | j | jal | jr => cases hk

end Knowledge.Sound

/-! ### Lines of bodies -/

namespace Program

/-- A label to which a line refers other than by a call has an address. -/
lemma exists_address_of_reference (hp : p.compile = .ok listing) {i : Instruction Label}
    {l : Label} (hi : i ∈ listing) (hl : i.reference? = some l) :
    ∃ a, address listing l = some a := by
  have hmention := List.count_pos_iff.mpr (reference_mem_mentions.mpr ⟨i, hi, hl⟩)
  rw [count_references hp] at hmention
  have hdefined : l ∈ definedLabels listing := by
    have hfresh := Nat.pos_of_mul_pos_left hmention
    rw [← List.count_pos_iff, count_definedLabels hp]
    exact Nat.add_pos_left hfresh _
  obtain ⟨i', hi', hdef⟩ := List.mem_filterMap.mp hdefined
  obtain rfl : i' = .label l := by
    cases i' <;> simp_all [Instruction.definedLabel?]
  obtain ⟨a, ha⟩ := List.mem_iff_getElem?.mp hi'
  exact ⟨a, address_eq hp ha⟩

/-- A store to the frame does not go below the frame pointer, if all slots are small enough. -/
lemma offset_nonneg (hp : p.compile = .ok listing)
    (hslots : ∀ u ∈ p.slotUses, u.slot.toNat < 2 ^ 61) {r : Register} {n : Int}
    (h : .sw r n .framePointer ∈ listing) : 0 ≤ n := by
  have hmem : Instruction.sw r n .framePointer ∈
      p.slotUses.map fun u => u.line (4 * signed u.slot) := by
    rw [← (filter_accessesFrame hp).1]
    exact List.mem_filter.mpr ⟨h, rfl⟩
  obtain ⟨u, hu, hline⟩ := List.mem_map.mp hmem
  have hlt := hslots u hu
  have hsigned := signed_eq u.slot
  rw [if_pos (by omega)] at hsigned
  cases u with
  | load slot => cases hline
  | store slot =>
    obtain rfl := (Instruction.sw.inj hline).2.1
    omega

end Program

namespace Placement

variable {P : Placement} {xs : List Mark}

/-- No line of a body sets the frame pointer, calls the environment or returns. -/
lemma leavesFrame_of_mem_body (hp : p.compile = .ok listing) (hP : P ∈ p.placements)
    {i : Instruction Label} (hi : i ∈ (P.body p).lines) : i.leavesFrame = false := by
  obtain ⟨size, -, -, hbody, -⟩ := spans_body hp hP
  by_contra hleaves
  have hmem : i ∈ (P.body p).lines.filter Instruction.handlesFrame := by
    refine List.mem_filter.mpr ⟨hi, ?_⟩
    rw [Instruction.handlesFrame, (Bool.not_eq_false _).mp hleaves, Bool.or_true]
  have hsuccess := Fragment.failure?_emission_eq_none_iff.mp hbody.success
  rw [Visit.lines, Fragment.code_emission hbody.success,
    ((P.body p).expr.usesSlots_lower _ _ hsuccess).1] at hmem
  obtain ⟨u, -, rfl⟩ := List.mem_map.mp hmem
  exact hleaves (u.leavesFrame_line _)

/-- The marked lines are an outline of the body of a declaration, which starts and ends with nothing
pushed, and in which something is known of pushed words only. -/
structure Charted (p : Program) (P : Placement) (xs : List Mark) : Prop where
  /-- All lines of the body are marked. -/
  lines : xs.map Mark.line = (P.body p).lines
  /-- What is known goes over from line to line. -/
  flows : Flows p (fun l k => ∃ y ∈ xs, y.line = .label l ∧ y.before ≤ k)
    (some ((Staging.ofArity P.decl.arity).known 0)) xs
    (some ((Staging.ofArity P.decl.arity).known 0))
  /-- Words of which something is known are pushed words. -/
  words : ∀ x ∈ xs, ∀ b l, x.before.words b = some l → b ≤ (Staging.ofArity P.decl.arity).base

/-- Every body has an outline. -/
lemma exists_charted (hp : p.compile = .ok listing) (hP : P ∈ p.placements) :
    ∃ xs, Charted p P xs := by
  obtain ⟨size, -, -, hbody, -⟩ := spans_body hp hP
  obtain ⟨xs, hlines, hlen, -, -, hflows, hwithin⟩ := outlined P.decl.body
    (Staging.ofArity P.decl.arity) _ _ _ _ _ (Staging.hosts_ofArity P.decl) (Int.le_refl _) hbody
  refine ⟨xs, ?_, hflows _ ?_ ?_, fun x hx => (hwithin x hx).before.words⟩
  · have hlen' : (xs.map Mark.line).length = (P.body p).lines.length := by
      rw [List.length_map]
      exact Nat.add_left_cancel hlen
    exact (List.prefix_of_prefix_length_le hlines hbody.lines hlen'.le).eq_of_length hlen'
  · intro y hy l hl k hk
    exact ⟨y, hy, hl, hk⟩
  · intro x hx
    cases hx

/-- The marked lines stand in the listing. -/
lemma Charted.getElem?_listing (h : Charted p P xs) (hp : p.compile = .ok listing)
    (hP : P ∈ p.placements) {i : Nat} {x : Mark} (hx : xs[i]? = some x) :
    listing[(P.body p).start + i]? = some x.line ∧ x.line ∈ (P.body p).lines := by
  obtain ⟨size, -, -, hbody, -⟩ := spans_body hp hP
  have hline : (P.body p).lines[i]? = some x.line := by
    rw [← h.lines, List.getElem?_map, hx]
    rfl
  exact ⟨hbody.getElem? hline, List.mem_of_getElem? hline⟩

end Placement

/-! ### Running bodies -/

/-- The activation is at a line of its body, the frame pointer is set, and what an outline says of
the line is true. -/
structure Call.InBody (p : Program) (listing : List (Instruction Label)) (K : Call)
    (σ : Machine) : Prop where
  /-- The frame pointer. -/
  fp : σ.regs .framePointer = K.base
  /-- The line and what is known before it. -/
  tracked : ∃ xs, K.place.Charted p xs ∧ ∃ i x, σ.pc = (K.place.body p).start + i ∧
    xs[i]? = some x ∧ x.before.Sound listing K.top σ

namespace Call

variable {K : Call} {σ : Machine} {xs : List Mark}

/-- Pushed words are below the word of the return address. -/
lemma top_add_base : K.top + (Staging.ofArity K.place.decl.arity).base = K.base - 4 := by
  simp only [top, size, Staging.ofArity, Knowledge.atEntry]
  omega

/-- The activation goes on at a line of its body, or it has come to the end. -/
def GoesOn (p : Program) (listing : List (Instruction Label)) (K : Call) (σ : Machine) : Prop :=
  K.InBody p listing σ ∨ σ.pc = (K.place.body p).stop

/-- An activation goes on where the outline of its body does. -/
lemma goesOn_of_flow (hxs : K.place.Charted p xs) {τ : Machine} {k : Knowledge} {i : Nat}
    (hfp : τ.regs .framePointer = K.base) (hpc : τ.pc = (K.place.body p).start + i)
    (hk : k.Sound listing K.top τ)
    (hnext : (∃ y, xs[i]? = some y ∧ y.before ≤ k) ∨ xs.length = i) : K.GoesOn p listing τ := by
  rcases hnext with ⟨y, hy, hle⟩ | hend
  · exact .inl ⟨hfp, xs, hxs, i, y, hpc, hy, hk.mono hle⟩
  · right
    rw [hpc, Visit.stop, ← hxs.lines, List.length_map, hend]

/-- A running body is at one of its lines. -/
lemma InBody.pc_lt (h : K.InBody p listing σ) :
    (K.place.body p).start ≤ σ.pc ∧ σ.pc < (K.place.body p).stop := by
  obtain ⟨-, xs, hxs, i, x, hpc, hx, -⟩ := h
  have hlt := (List.getElem?_eq_some_iff.mp hx).1
  rw [Visit.stop, ← hxs.lines, List.length_map]
  omega

/-- A jump to a label at which no more is known stays in the body. -/
lemma goesOn_of_jump (hp : p.compile = .ok listing) (hK : K.place ∈ p.placements)
    (hxs : K.place.Charted p xs) {k : Knowledge} (hfp : σ.regs .framePointer = K.base)
    (hk : k.Sound listing K.top σ) {l : Label}
    (hl : ∃ y ∈ xs, y.line = .label l ∧ y.before ≤ k) :
    ∃ a, address listing l = some a ∧ K.GoesOn p listing (σ.goto a) := by
  obtain ⟨y, hy, hyl, hle⟩ := hl
  obtain ⟨j, hj⟩ := List.mem_iff_getElem?.mp hy
  obtain ⟨hline, -⟩ := hxs.getElem?_listing hp hK hj
  rw [hyl] at hline
  refine ⟨_, p.address_eq hp hline, ?_⟩
  exact goesOn_of_flow hxs hfp rfl (hk.goto _) (.inl ⟨y, hj, hle⟩)

/-- A line of the body that does not jump has the effect that the outline foresees. In particular a
store to the frame goes to the word of the return address or above, where nothing is known. -/
lemma step_of_exec (hp : p.compile = .ok listing) (hslots : ∀ u ∈ p.slotUses, u.slot.toNat < 2 ^ 61)
    (hxs : K.place.Charted p xs) {x : Mark} {k : Knowledge} (hx : x ∈ xs)
    (hline : listing[σ.pc]? = some x.line) (hleaves : x.line.leavesFrame = false)
    (hfp : σ.regs .framePointer = K.base) (hsound : x.before.Sound listing K.top σ)
    (hexec : x.before.exec x.line = some k) :
    ∃ τ, σ.step A listing = some τ ∧ τ.pc = σ.pc + 1 ∧ τ.regs .framePointer = K.base ∧
      k.Sound listing K.top τ := by
  have hlabel : ∀ l, x.line.reference? = some l → ∃ a, address listing l = some a :=
    fun l hl => p.exists_address_of_reference hp (List.mem_of_getElem? hline) hl
  have hframe : ∀ r n, x.line = .sw r n .framePointer →
      ∀ b l, x.before.words b = some l → σ.regs .framePointer + n ≠ K.top + b := by
    intro r n hstore b l hl
    rw [hstore] at hline
    have hoffset := Program.offset_nonneg hp hslots (List.mem_of_getElem? hline)
    have hle := hxs.words x hx b l hl
    have hbase := K.top_add_base
    omega
  have hkeep : x.line.sets? ≠ some .framePointer := by
    generalize x.line = i at hleaves
    cases i <;> first | exact of_decide_eq_false hleaves | simp [Instruction.sets?]
  obtain ⟨τ, hstep, hpc, hsound'⟩ := hsound.exec (A := A) hline hexec hlabel hframe
  exact ⟨τ, hstep, hpc, by rw [regs_of_step hline hkeep hstep, hfp], hsound'⟩

/-- **One step of a running body.** It calls a function, or it goes on inside of the body, or it
comes to the end of the body.

**Proof sketch.** What an outline says of the line is true, so a line that does not jump has an
effect that the outline foresees, and a jump leads to a label of which the outline says no more than
what is known at the jump. If it goes through a register, the register holds the address of the
label. -/
theorem InBody.step (hp : p.compile = .ok listing) (hK : K.place ∈ p.placements)
    (hslots : ∀ u ∈ p.slotUses, u.slot.toNat < 2 ^ 61) (h : K.InBody p listing σ) :
    (∃ callee, listing[σ.pc]? = some (.jal (.entry callee))) ∨
    ∃ i τ, listing[σ.pc]? = some i ∧ i ≠ .ecall ∧ Stays i ∧ σ.step A listing = some τ ∧
      K.GoesOn p listing τ := by
  obtain ⟨hfp, xs, hxs, i, x, hpc, hx, hsound⟩ := h
  obtain ⟨hline, hmem⟩ := hxs.getElem?_listing hp hK hx
  rw [← hpc] at hline
  have hleaves := Placement.leavesFrame_of_mem_body hp hK hmem
  have hjump := fun l => goesOn_of_jump (l := l) hp hK hxs hfp hsound
  obtain ⟨after, hpass, hafter⟩ := hxs.flows.passes_or_ends hx
  have hnext : ∀ {k : Knowledge} {τ : Machine}, after = some k → k.Sound listing K.top τ →
      τ.regs .framePointer = K.base → τ.pc = σ.pc + 1 → K.GoesOn p listing τ := by
    intro k τ hk hsound' hfp' hpc'
    refine goesOn_of_flow hxs hfp' (by rw [hpc', hpc, Nat.add_assoc]) hsound' ?_
    exact (hafter k hk).imp_right And.left
  cases hpass with
  | call => exact .inl ⟨_, hline⟩
  | ret => cases hleaves
  | @plain k k' i hexec =>
    right
    obtain ⟨τ, hstep, hpc', hfp', hsound'⟩ := step_of_exec (A := A) hp hslots hxs
      (List.mem_of_getElem? hx) hline hleaves hfp hsound hexec
    refine ⟨i, τ, hline, ?_, ?_, hstep, hnext rfl hsound' hfp' hpc'⟩
    · rintro rfl
      cases hleaves
    · cases i <;> trivial
  | @branch k cmp r r' l hl =>
    right
    obtain ⟨a, ha, hgo⟩ := hjump l hl
    by_cases hcmp : A.holds cmp (σ.regs r) (σ.regs r')
    · exact ⟨_, σ.goto a, hline, by simp, trivial, by simp [Machine.step, hline, hcmp, ha], hgo⟩
    · exact ⟨_, σ.next, hline, by simp, trivial, by simp [Machine.step, hline, hcmp],
        hnext rfl hsound.next hfp rfl⟩
  | b hl =>
    right
    obtain ⟨a, ha, hgo⟩ := hjump _ hl
    exact ⟨_, _, hline, by simp, trivial, step_b hline ha, hgo⟩
  | j hl =>
    right
    obtain ⟨a, ha, hgo⟩ := hjump _ hl
    exact ⟨_, _, hline, by simp, trivial, step_j hline ha, hgo⟩
  | @escape k how l hl hpost =>
    right
    obtain ⟨a, ha, hgo⟩ := hjump l hpost
    obtain ⟨-, a', ha', hreg⟩ := hsound.regs _ l hl
    obtain rfl : a = a' := Option.some_inj.mp (ha.symm.trans ha')
    refine ⟨_, _, hline, by simp, ?_, step_jr hline hreg, hgo⟩
    cases how <;> trivial

end Call

end ImpRiscV
