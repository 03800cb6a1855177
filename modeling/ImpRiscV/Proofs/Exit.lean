import ImpRiscV.Proofs.Calls
import ImpRiscV.Proofs.Tracking

/-!
# The first epilogue ends the run

Every epilogue asks the environment to end the program before it returns. On a machine that heeds
this, no function ever returns to its caller. A run goes down from call to call, and all that an
activation relies on is what it has pushed itself: its loops find their targets, whatever its slots
may have done to the frames of its callers. So a run cannot get stuck, and it ends with the first
activation that comes to its epilogue, or not at all.

## Main definitions

* `ImpRiscV.Machine.Exits` — the machine asks the environment to end the program.
* `ImpRiscV.Progress`, `ImpRiscV.progress` — how far a run has come after a number of steps.
* `ImpRiscV.Traced.AtEpilogue` — the running activation is at a line of its epilogue.
* `ImpRiscV.Call.Phase`, `ImpRiscV.Traced.Tracked` — the invariant of runs.
* `ImpRiscV.Launched` — a run starts at the entry of a function.

## Main results

* `ImpRiscV.Call.Phase.step`, `ImpRiscV.Traced.Tracked.step` — one step.
* `ImpRiscV.Program.exits_at_first_epilogue` — what can happen on a run, and when it ends.
-/

set_option relaxedAutoImplicit false
set_option autoImplicit false

namespace ImpRiscV

open Machine

/-! ### Runs that the environment can end -/

/-- The machine asks the environment to end the program, which is service number 10. -/
def Machine.Exits (listing : List (Instruction Label)) (σ : Machine) : Prop :=
  listing[σ.pc]? = some .ecall ∧ σ.regs .a7 = 10

/-- Whether the machine asks for its end is seen from the line and one register. -/
instance Machine.instDecidableExits (listing : List (Instruction Label)) (σ : Machine) :
    Decidable (σ.Exits listing) := inferInstanceAs (Decidable (_ ∧ _))

/-- How far a run has come. -/
inductive Progress where
  /-- It goes on. -/
  | running (t : Traced)
  /-- The environment has ended it. -/
  | exited (t : Traced)
  /-- There is no next step. -/
  | stuck (t : Traced)

section progress

variable (A : Arithmetic) (listing : List (Instruction Label))

/-- The traced machine after a step to state `τ`. -/
def Traced.after (t : Traced) (τ : Machine) : Traced :=
  ⟨τ, entriesAfter listing[t.machine.pc]? τ t.entries⟩

/-- One step of a run, if it goes on. -/
def Progress.next : Progress → Progress
  | .running t =>
    if t.machine.Exits listing then .exited t
    else
      match t.machine.step A listing with
      | none => .stuck t
      | some τ => .running (t.after listing τ)
  | ended => ended

/-- How far the run that starts in a state has come after a number of steps. -/
def progress (σ : Machine) : Nat → Progress
  | 0 => .running ⟨σ, [σ]⟩
  | n + 1 => (progress σ n).next A listing

variable {A listing} {σ : Machine} {t : Traced} {n : Nat}

/-- A run that goes on has been going on before. -/
lemma exists_running_of_succ (h : progress A listing σ (n + 1) = .running t) :
    ∃ t₀, progress A listing σ n = .running t₀ := by
  rw [progress] at h
  cases hn : progress A listing σ n with
  | running t₀ => exact ⟨t₀, rfl⟩
  | exited | stuck =>
    rw [hn] at h
    cases h

/-- A run that has ended does not go on. -/
lemma progress_exited (h : progress A listing σ n = .exited t) (m : Nat) :
    progress A listing σ (n + m) = .exited t := by
  induction m with
  | zero => exact h
  | succ m ih =>
    rw [← Nat.add_assoc, progress, ih]
    rfl

end progress

variable {A : Arithmetic} {p : Program} {listing : List (Instruction Label)}

/-! ### Placements and entries -/

namespace Placement

variable {P P' : Placement}

/-- Different declarations start at different positions. -/
lemma eq_of_start_eq (hp : p.compile = .ok listing) (hP : P ∈ p.placements)
    (hP' : P' ∈ p.placements) (h : P.start = P'.start) : P = P' := by
  obtain ⟨-, -, hprologue, -, -⟩ := spans_body hp hP
  obtain ⟨-, -, hprologue', -, -⟩ := spans_body hp hP'
  have hline := hprologue.getElem?_code (k := 0) rfl
  have hline' := hprologue'.getElem?_code (k := 0) rfl
  rw [← h, hline] at hline'
  have hname : P.decl.name = P'.decl.name :=
    Label.entry.inj (Instruction.label.inj (Option.some_inj.mp hline'))
  have hnames := Program.duplicate?_eq_none_iff.mp (Program.spans_lower_of_compile hp).1
  rw [← p.map_decl_placements, List.map_map] at hnames
  exact List.inj_on_of_nodup_map hnames hP hP' hname

end Placement

/-- Every declaration has a place, and its entry is where the place starts. -/
lemma Program.exists_placement (hp : p.compile = .ok listing) {d : Declaration}
    (hd : d ∈ p.decls) :
    ∃ P ∈ p.placements, P.decl = d ∧ address listing (.entry d.name) = some P.start := by
  rw [← p.map_decl_placements] at hd
  obtain ⟨P, hP, rfl⟩ := List.mem_map.mp hd
  exact ⟨P, hP, rfl, address_entry hp (Placement.spans hp hP)⟩

/-! ### The phases of an activation -/

/-- How far the activation of a call has come. -/
inductive Call.Phase (p : Program) (listing : List (Instruction Label)) (K : Call) (σ : Machine) :
    Prop
  /-- It is at a line of the prologue. From the third line on, the frame pointer is set. -/
  | prologue (k : Nat) (hk : k < 4) (hpc : σ.pc = K.place.start + k)
    (hsp : σ.regs .stackPointer = K.base) (hfp : 2 ≤ k → σ.regs .framePointer = K.base)
  /-- It is in the body. -/
  | body (h : K.InBody p listing σ)
  /-- It is at a line of the epilogue, the call of the environment at the latest. -/
  | epilogue (k : Nat) (hk : k < 5) (hpc : σ.pc = (K.place.body p).stop + k)
    (hservice : k = 4 → σ.regs .a7 = 10)

namespace Call

variable {K : Call} {σ τ : Machine}

/-- An activation that goes on is in its body or at its epilogue. -/
lemma Phase.of_goesOn (h : K.GoesOn p listing σ) : K.Phase p listing σ := by
  rcases h with h | h
  · exact .body h
  · exact .epilogue 0 (by omega) h (by omega)

/-- After the prologue, the body goes on with nothing pushed. -/
lemma goesOn_start (hp : p.compile = .ok listing) (hK : K.place ∈ p.placements)
    (hpc : σ.pc = (K.place.body p).start) (hsp : σ.regs .stackPointer = K.base - 4)
    (hfp : σ.regs .framePointer = K.base) : K.GoesOn p listing σ := by
  obtain ⟨xs, hxs⟩ := Placement.exists_charted hp hK
  refine goesOn_of_flow hxs hfp (i := 0) hpc ⟨?_, ?_, ?_⟩ hxs.flows.head
  · have hbase := K.top_add_base
    simp only [Staging.known, Staging.sp]
    omega
  · intro r l hl
    cases hl
  · intro b l hl
    cases hl

/-- **The prologue** runs into the body. -/
lemma prologue_step (hp : p.compile = .ok listing) (hK : K.place ∈ p.placements) {k : Nat}
    (hk : k < 4) (hpc : σ.pc = K.place.start + k) (hsp : σ.regs .stackPointer = K.base)
    (hfp : 2 ≤ k → σ.regs .framePointer = K.base) :
    ∃ i, listing[σ.pc]? = some i ∧ i ≠ .ecall ∧ Plain i ∧ K.Phase p listing (σ.effect A i) := by
  obtain ⟨size, -, hprologue, -, -⟩ := Placement.spans_body hp hK
  have hline : ∀ i, (Fragment.prologue K.place.decl.name)[k]? = some i →
      listing[σ.pc]? = some i := by
    intro i hi
    rw [hpc]
    exact hprologue.getElem?_code hi
  match k, hk with
  | 0, _ =>
    refine ⟨_, hline _ rfl, by simp, trivial, .prologue 1 (by omega) ?_ hsp (by omega)⟩
    rw [pc_effect, hpc]
  | 1, _ =>
    refine ⟨_, hline _ rfl, by simp, trivial, .prologue 2 (by omega) ?_ ?_ fun _ => ?_⟩
    · rw [pc_effect, hpc]
    · simp [effect, hsp]
    · simp [effect, hsp]
  | 2, _ =>
    refine ⟨_, hline _ rfl, by simp, trivial, .prologue 3 (by omega) ?_ hsp fun _ => ?_⟩
    · rw [pc_effect, hpc]
    · exact hfp (Nat.le_refl 2)
  | 3, _ =>
    refine ⟨_, hline _ rfl, by simp [Instruction.adjustStack], trivial,
      .of_goesOn (goesOn_start hp hK ?_ ?_ ?_)⟩
    · rw [pc_effect, hpc]
      rfl
    · simp [effect, Instruction.adjustStack, wordSize, hsp, Int.sub_eq_add_neg]
    · simp [effect, Instruction.adjustStack, hfp]

/-- **The epilogue** runs into the call of the environment. -/
lemma epilogue_step (hp : p.compile = .ok listing) (hK : K.place ∈ p.placements) {k : Nat}
    (hk : k < 5) (hpc : σ.pc = (K.place.body p).stop + k)
    (hservice : k = 4 → σ.regs .a7 = 10) :
    σ.Exits listing ∧ k = 4 ∨
    ∃ i, listing[σ.pc]? = some i ∧ i ≠ .ecall ∧ Plain i ∧ K.Phase p listing (σ.effect A i) := by
  obtain ⟨size, -, -, -, hepilogue⟩ := Placement.spans_body hp hK
  have hline : ∀ i, (Fragment.epilogue size)[k]? = some i → listing[σ.pc]? = some i := by
    intro i hi
    rw [hpc]
    exact hepilogue.getElem?_code hi
  match k, hk with
  | 0, _ =>
    right
    refine ⟨_, hline _ rfl, by simp, trivial, .epilogue 1 (by omega) ?_ (by omega)⟩
    rw [pc_effect, hpc]
  | 1, _ =>
    right
    refine ⟨_, hline _ rfl, by simp [Instruction.adjustStack], trivial,
      .epilogue 2 (by omega) ?_ (by omega)⟩
    rw [pc_effect, hpc]
  | 2, _ =>
    right
    refine ⟨_, hline _ rfl, by simp, trivial, .epilogue 3 (by omega) ?_ (by omega)⟩
    rw [pc_effect, hpc]
  | 3, _ =>
    right
    refine ⟨_, hline _ rfl, by simp, trivial, .epilogue 4 (by omega) ?_ fun _ => ?_⟩
    · rw [pc_effect, hpc]
    · simp [effect, exitService]
  | 4, _ => exact .inl ⟨⟨hline _ rfl, hservice rfl⟩, rfl⟩

/-- **One step of an activation.** It ends the run, it calls a function out of its body, or it goes
on, and only at its epilogue it comes to the lines after the first one of the epilogue. -/
theorem Phase.step (hp : p.compile = .ok listing) (hK : K.place ∈ p.placements)
    (hslots : ∀ u ∈ p.slotUses, u.slot.toNat < 2 ^ 61) (h : K.Phase p listing σ) :
    σ.Exits listing ∧ σ.pc = (K.place.body p).stop + 4 ∨
    (∃ callee, listing[σ.pc]? = some (.jal (.entry callee)) ∧ σ.pc < (K.place.body p).stop) ∨
    ∃ i τ, listing[σ.pc]? = some i ∧ i ≠ .ecall ∧ Stays i ∧ σ.step A listing = some τ ∧
      K.Phase p listing τ ∧
      ∀ k, τ.pc = (K.place.body p).stop + (k + 1) ↔ σ.pc = (K.place.body p).stop + k := by
  have hplain : ∀ i, listing[σ.pc]? = some i → i ≠ .ecall → Plain i →
      K.Phase p listing (σ.effect A i) → ∃ i τ, listing[σ.pc]? = some i ∧ i ≠ .ecall ∧ Stays i ∧
        σ.step A listing = some τ ∧ K.Phase p listing τ ∧
        ∀ k, τ.pc = (K.place.body p).stop + (k + 1) ↔ σ.pc = (K.place.body p).stop + k := by
    intro i hi hne hi' hphase
    refine ⟨i, _, hi, hne, .of_plain hi', step_plain hi hi', hphase, fun k => ?_⟩
    rw [pc_effect]
    omega
  cases h with
  | prologue k hk hpc hsp hfp =>
    obtain ⟨i, hi, hne, hi', hphase⟩ := prologue_step (A := A) hp hK hk hpc hsp hfp
    exact .inr (.inr (hplain i hi hne hi' hphase))
  | body h =>
    have hlt := h.pc_lt.2
    obtain ⟨callee, hcall⟩ | ⟨i, τ, hi, hne, hstay, hstep, hgo⟩ := h.step (A := A) hp hK hslots
    · exact .inr (.inl ⟨callee, hcall, hlt⟩)
    · refine .inr (.inr ⟨i, τ, hi, hne, hstay, hstep, .of_goesOn hgo, fun k => ?_⟩)
      have hle : τ.pc ≤ (K.place.body p).stop := by
        rcases hgo with hbody | hend
        · exact Nat.le_of_lt hbody.pc_lt.2
        · exact Nat.le_of_eq hend
      omega
  | epilogue k hk hpc hservice =>
    obtain ⟨hexit, rfl⟩ | ⟨i, hi, hne, hi', hphase⟩ :=
      epilogue_step (A := A) hp hK hk hpc hservice
    · exact .inl ⟨hexit, hpc⟩
    · exact .inr (.inr (hplain i hi hne hi' hphase))

/-- An activation does not go beyond the call of the environment. -/
lemma Phase.pc_le (h : K.Phase p listing σ) : σ.pc ≤ (K.place.body p).stop + 4 := by
  have hstart : (K.place.body p).start = K.place.start + 4 := rfl
  have hle := (K.place.body p).start_le_stop
  cases h with
  | prologue k hk hpc => omega
  | body h =>
    have hlt := h.pc_lt.2
    omega
  | epilogue k hk hpc => omega

end Call

/-! ### Tracked runs -/

namespace Traced

/-- The running activation is at line `k` of the epilogue of its function. -/
def AtEpilogue (p : Program) (k : Nat) (t : Traced) : Prop :=
  ∃ P ∈ p.placements, t.entries.head?.map Machine.pc = some P.start ∧
    t.machine.pc = (P.body p).stop + k

/-- The placements of a program can be looked through. -/
instance instDecidableAtEpilogue (p : Program) (k : Nat) (t : Traced) :
    Decidable (t.AtEpilogue p k) := inferInstanceAs (Decidable (∃ P ∈ p.placements, _))

/-- The running activation is that of a call. -/
structure Runs (p : Program) (K : Call) (t : Traced) : Prop where
  /-- The last entry is that of the call. -/
  entry : t.entries.head? = some K.entry
  /-- The declaration is one of the program. -/
  place : K.place ∈ p.placements
  /-- The call goes to the start of its code. -/
  start : K.entry.pc = K.place.start

/-- The running activation is in one of its phases. -/
def Tracked (p : Program) (listing : List (Instruction Label)) (t : Traced) : Prop :=
  ∃ K, t.Runs p K ∧ K.Phase p listing t.machine

variable {t : Traced} {K : Call} {τ : Machine}

/-- The running activation is at a line of its epilogue when the machine is. -/
lemma Runs.atEpilogue_iff (hp : p.compile = .ok listing) (h : t.Runs p K) (k : Nat) :
    t.AtEpilogue p k ↔ t.machine.pc = (K.place.body p).stop + k := by
  have hhead : t.entries.head?.map Machine.pc = some K.place.start := by
    rw [h.entry, ← h.start]
    rfl
  constructor
  · rintro ⟨P, hP, hstart, hpc⟩
    rw [hhead] at hstart
    obtain rfl := Placement.eq_of_start_eq hp h.place hP (Option.some_inj.mp hstart)
    exact hpc
  · intro hpc
    exact ⟨K.place, h.place, hhead, hpc⟩

/-- No activation gets past the call of the environment in its epilogue. -/
lemma Tracked.le_of_atEpilogue (hp : p.compile = .ok listing) {k : Nat}
    (h : t.Tracked p listing) (hk : t.AtEpilogue p k) : k ≤ 4 := by
  obtain ⟨K, hruns, hphase⟩ := h
  have hpc := (hruns.atEpilogue_iff hp k).mp hk
  have hle := hphase.pc_le
  omega

/-- The activation is at one line at most. -/
lemma Tracked.atEpilogue_unique (hp : p.compile = .ok listing) {j k : Nat}
    (h : t.Tracked p listing) (hj : t.AtEpilogue p j) (hk : t.AtEpilogue p k) : j = k := by
  obtain ⟨K, hruns, -⟩ := h
  have hpc := (hruns.atEpilogue_iff hp j).mp hj
  have hpc' := (hruns.atEpilogue_iff hp k).mp hk
  omega

/-- What a step of a run that goes on does: nothing returns, a call adds an entry, and the lines of
an epilogue follow one another inside of one activation. -/
structure Advances (p : Program) (listing : List (Instruction Label)) (t t' : Traced) : Prop where
  /-- The next state is tracked. -/
  tracked : t'.Tracked p listing
  /-- Nothing returns. -/
  returns : listing[t.machine.pc]? ≠ some (.jr .returnAddress)
  /-- Entries are kept. -/
  suffix : t.entries <:+ t'.entries
  /-- A call adds one. -/
  calls : ∀ l, listing[t.machine.pc]? = some (.jal l) → t.entries.length < t'.entries.length
  /-- The lines of an epilogue follow one another. -/
  follows : ∀ k, t'.AtEpilogue p (k + 1) ↔ t.AtEpilogue p k
  /-- An epilogue calls nothing. -/
  same : ∀ k, t.AtEpilogue p k → t'.entries = t.entries

/-- A function is entered in the first line of its prologue. -/
lemma tracked_of_entry {P : Placement} (hP : P ∈ p.placements) (hτ : τ.pc = P.start)
    (outer : List Machine) : Tracked p listing ⟨τ, τ :: outer⟩ :=
  ⟨⟨P, τ⟩, ⟨rfl, hP, hτ⟩, .prologue 0 (by omega) hτ rfl (by omega)⟩

/-- A call out of a body to the start of a function. -/
lemma Runs.advances_of_call (hp : p.compile = .ok listing) (h : t.Runs p K) {l : Label}
    (hline : listing[t.machine.pc]? = some (.jal l)) (hlt : t.machine.pc < (K.place.body p).stop)
    {P : Placement} (hP : P ∈ p.placements) (hτ : τ.pc = P.start) :
    t.Advances p listing (t.after listing τ) := by
  have hafter : t.after listing τ = ⟨τ, τ :: t.entries⟩ := by
    rw [after, hline]
    rfl
  have hruns : (⟨τ, τ :: t.entries⟩ : Traced).Runs p ⟨P, τ⟩ := ⟨rfl, hP, hτ⟩
  have hstart : (P.body p).start = P.start + 4 := rfl
  have hle := (P.body p).start_le_stop
  rw [hafter]
  refine ⟨tracked_of_entry hP hτ _, ?_, List.suffix_cons _ _, fun _ _ => ?_, fun k => ?_,
    fun k hk => ?_⟩
  · simp [hline]
  · exact Nat.lt_succ_self _
  · rw [h.atEpilogue_iff hp, hruns.atEpilogue_iff hp]
    show τ.pc = (P.body p).stop + (k + 1) ↔ _
    omega
  · have hpc := (h.atEpilogue_iff hp k).mp hk
    omega

/-- A line that stays in the activation. -/
lemma Runs.advances_of_stays (hp : p.compile = .ok listing) (h : t.Runs p K)
    {i : Instruction Label} (hi : listing[t.machine.pc]? = some i) (hstay : Stays i)
    (hphase : K.Phase p listing τ)
    (hfollow : ∀ k, τ.pc = (K.place.body p).stop + (k + 1) ↔
      t.machine.pc = (K.place.body p).stop + k) :
    t.Advances p listing (t.after listing τ) := by
  have hafter : t.after listing τ = ⟨τ, t.entries⟩ := by
    rw [after, hi, entriesAfter_of_stays hstay]
  have hruns : (⟨τ, t.entries⟩ : Traced).Runs p K := ⟨h.entry, h.place, h.start⟩
  rw [hafter]
  refine ⟨⟨K, hruns, hphase⟩, ?_, List.suffix_refl _, fun l hl => ?_, fun k => ?_, fun _ _ => rfl⟩
  · rw [hi]
    rintro ⟨⟩
    exact hstay
  · rw [hi] at hl
    obtain rfl := Option.some_inj.mp hl
    exact hstay.elim
  · rw [h.atEpilogue_iff hp, hruns.atEpilogue_iff hp]
    exact hfollow k

/-- A run ends where the machine asks for it. -/
lemma next_of_exits (h : t.machine.Exits listing) :
    Progress.next A listing (.running t) = .exited t := by
  rw [Progress.next, if_pos h]

/-- A run goes on with any line that does not call the environment. -/
lemma next_of_step {i : Instruction Label} (hi : listing[t.machine.pc]? = some i)
    (hne : i ≠ .ecall) (hstep : t.machine.step A listing = some τ) :
    Progress.next A listing (.running t) = .running (t.after listing τ) := by
  have hexit : ¬t.machine.Exits listing := by
    rintro ⟨hline, -⟩
    exact hne (Option.some_inj.mp (hi.symm.trans hline))
  rw [Progress.next, if_neg hexit, hstep]

/-- **One step of a tracked run** ends it at the call of the environment in an epilogue, or it goes
on. -/
theorem Tracked.step (hp : p.compile = .ok listing)
    (hcallees : ∀ callee ∈ p.callees, ∃ d ∈ p.decls, d.name = callee)
    (hslots : ∀ u ∈ p.slotUses, u.slot.toNat < 2 ^ 61) (h : t.Tracked p listing) :
    t.machine.Exits listing ∧ t.AtEpilogue p 4 ∨
    ∃ t', Progress.next A listing (.running t) = .running t' ∧ t.Advances p listing t' := by
  obtain ⟨K, hruns, hphase⟩ := h
  obtain ⟨hexit, hpc⟩ | ⟨callee, hline, hlt⟩ | ⟨i, τ, hi, hne, hstay, hstep, hphase', hfollow⟩ :=
    hphase.step (A := A) hp hruns.place hslots
  · left
    exact ⟨hexit, (hruns.atEpilogue_iff hp 4).mpr hpc⟩
  · right
    obtain ⟨xs, hchart, -⟩ := p.exists_chart hp
    obtain ⟨d, hd, rfl⟩ := hcallees callee (hchart.mem_callees (List.mem_of_getElem? hline))
    obtain ⟨P, hP, rfl, haddr⟩ := Program.exists_placement hp hd
    exact ⟨_, next_of_step hline (by simp) (step_jal hline haddr),
      hruns.advances_of_call hp hline hlt hP rfl⟩
  · right
    exact ⟨_, next_of_step hi hne hstep, hruns.advances_of_stays hp hi hstay hphase' hfollow⟩

end Traced

/-! ### Whole runs -/

/-- The machine is at the entry of a function of a program in which all callees are declared and
all slots have an offset that is not negative. -/
structure Launched (p : Program) (listing : List (Instruction Label)) (σ : Machine) : Prop where
  /-- The listing is that of the program. -/
  compiled : p.compile = .ok listing
  /-- All callees are declared. -/
  callees : ∀ callee ∈ p.callees, ∃ d ∈ p.decls, d.name = callee
  /-- All slots are small enough. -/
  slots : ∀ u ∈ p.slotUses, u.slot.toNat < 2 ^ 61
  /-- The machine is at an entry. -/
  entry : ∃ d ∈ p.decls, address listing (.entry d.name) = some σ.pc

namespace Launched

variable {σ : Machine} {t t' : Traced} {k m n : Nat}

/-- A run that has not ended is tracked. -/
lemma tracked_or_exited (hσ : Launched p listing σ) (n : Nat) :
    (∃ t, progress A listing σ n = .running t ∧ t.Tracked p listing) ∨
      ∃ t, progress A listing σ n = .exited t := by
  induction n with
  | zero =>
    left
    obtain ⟨d, hd, hentry⟩ := hσ.entry
    obtain ⟨P, hP, rfl, haddr⟩ := Program.exists_placement hσ.compiled hd
    have hpc : σ.pc = P.start := Option.some_inj.mp (hentry.symm.trans haddr)
    exact ⟨_, rfl, Traced.tracked_of_entry hP hpc []⟩
  | succ n ih =>
    obtain ⟨t, hrun, ht⟩ | ⟨t, hrun⟩ := ih
    · rw [progress, hrun]
      obtain ⟨hexit, -⟩ | ⟨t', hnext, hadv⟩ := ht.step (A := A) hσ.compiled hσ.callees hσ.slots
      · exact .inr ⟨t, Traced.next_of_exits hexit⟩
      · exact .inl ⟨t', hnext, hadv.tracked⟩
    · exact .inr ⟨t, progress_exited hrun 1⟩

/-- A run that goes on keeps track of its activations. -/
lemma tracked_of_running (hσ : Launched p listing σ) (h : progress A listing σ n = .running t) :
    t.Tracked p listing := by
  obtain ⟨t', hrun, ht'⟩ | ⟨t', hrun⟩ := hσ.tracked_or_exited n
  · rw [h] at hrun
    obtain rfl := Progress.running.inj hrun
    exact ht'
  · rw [h] at hrun
    cases hrun

/-- A run that goes on ends in an epilogue or advances. -/
lemma exited_or_advances (hσ : Launched p listing σ) (h : progress A listing σ n = .running t) :
    progress A listing σ (n + 1) = .exited t ∧ t.AtEpilogue p 4 ∨
    ∃ t', progress A listing σ (n + 1) = .running t' ∧ t.Advances p listing t' := by
  rw [progress, h]
  have htracked := hσ.tracked_of_running h
  exact (htracked.step hσ.compiled hσ.callees hσ.slots).imp_left (.imp_left Traced.next_of_exits)

/-- Each step of a run that goes on is one that activations allow. -/
lemma advances_of_running (hσ : Launched p listing σ) (h : progress A listing σ n = .running t)
    (h' : progress A listing σ (n + 1) = .running t') : t.Advances p listing t' := by
  obtain ⟨hexit, -⟩ | ⟨u, hnext, hadv⟩ := hσ.exited_or_advances h
  · rw [h'] at hexit
    cases hexit
  · rw [h'] at hnext
    obtain rfl := Progress.running.inj hnext
    exact hadv

/-- Activations do not go away. -/
lemma suffix_of_running (hσ : Launched p listing σ) (h : progress A listing σ m = .running t)
    (h' : progress A listing σ (m + k) = .running t') : t.entries <:+ t'.entries := by
  induction k generalizing t' with
  | zero =>
    rw [Nat.add_zero, h] at h'
    obtain rfl := Progress.running.inj h'
    exact List.suffix_refl _
  | succ k ih =>
    obtain ⟨u, hu⟩ := exists_running_of_succ h'
    exact (ih hu).trans (hσ.advances_of_running hu h').suffix

/-- An epilogue is executed up to the call of the environment. -/
lemma running_of_atEpilogue (hσ : Launched p listing σ)
    (h : progress A listing σ n = .running t) (ht : t.AtEpilogue p 0) (hk : k ≤ 4) :
    ∃ t', progress A listing σ (n + k) = .running t' ∧ t'.AtEpilogue p k ∧
      t'.entries = t.entries := by
  induction k with
  | zero => exact ⟨t, h, ht, rfl⟩
  | succ k ih =>
    obtain ⟨u, hu, hat, hentries⟩ := ih (by omega)
    obtain ⟨-, hlast⟩ | ⟨t', hnext, hadv⟩ := hσ.exited_or_advances hu
    · have htracked := hσ.tracked_of_running hu
      have heq := htracked.atEpilogue_unique hσ.compiled hat hlast
      omega
    · exact ⟨t', hnext, (hadv.follows k).mpr hat, (hadv.same k hat).trans hentries⟩

/-- **An epilogue ends the run.** -/
lemma exited_of_atEpilogue (hσ : Launched p listing σ)
    (h : progress A listing σ n = .running t) (ht : t.AtEpilogue p 0) :
    ∃ t', progress A listing σ (n + 5) = .exited t' ∧ t'.entries = t.entries := by
  obtain ⟨u, hu, hat, hentries⟩ := hσ.running_of_atEpilogue h ht (Nat.le_refl 4)
  obtain ⟨hexit, -⟩ | ⟨t', -, hadv⟩ := hσ.exited_or_advances hu
  · exact ⟨u, hexit, hentries⟩
  · -- there is no line for the activation to go on at
    have hle := hadv.tracked.le_of_atEpilogue hσ.compiled ((hadv.follows 4).mpr hat)
    omega

/-- A run comes to the lines of an epilogue from the first of them. -/
lemma exists_atEpilogue_of_atEpilogue (hσ : Launched p listing σ)
    (h : progress A listing σ n = .running t) (ht : t.AtEpilogue p k) :
    ∃ m t', progress A listing σ m = .running t' ∧ t'.AtEpilogue p 0 := by
  induction k generalizing n t with
  | zero => exact ⟨n, t, h, ht⟩
  | succ k ih =>
    cases n with
    | zero =>
      obtain rfl := Progress.running.inj h
      obtain ⟨P, hP, hstart, hpc⟩ := ht
      have hbody : (P.body p).start = P.start + 4 := rfl
      have hle := (P.body p).start_le_stop
      have hentry : σ.pc = P.start := Option.some_inj.mp hstart
      replace hpc : σ.pc = (P.body p).stop + (k + 1) := hpc
      omega
    | succ n =>
      obtain ⟨u, hu⟩ := exists_running_of_succ h
      have hadv := hσ.advances_of_running hu h
      exact ih hu ((hadv.follows k).mp ht)

/-- **A run that has ended has come to an epilogue.** -/
lemma exists_atEpilogue_of_exited (hσ : Launched p listing σ)
    (h : progress A listing σ n = .exited t) :
    ∃ m t', progress A listing σ m = .running t' ∧ t'.AtEpilogue p 0 := by
  induction n with
  | zero => cases h
  | succ n ih =>
    obtain ⟨u, hu, -⟩ | ⟨u, hu⟩ := hσ.tracked_or_exited (A := A) n
    · obtain ⟨-, hat⟩ | ⟨t', hnext, -⟩ := hσ.exited_or_advances hu
      · exact hσ.exists_atEpilogue_of_atEpilogue hu hat
      · rw [h] at hnext
        cases hnext
    · have hu' := progress_exited hu 1
      rw [h] at hu'
      obtain rfl := Progress.exited.inj hu'
      exact ih hu

/-- No second activation comes to its epilogue. -/
lemma le_of_atEpilogue (hσ : Launched p listing σ)
    (h : progress A listing σ n = .running t) (ht : t.AtEpilogue p 0)
    (h' : progress A listing σ m = .running t') (ht' : t'.AtEpilogue p 0) : m ≤ n := by
  by_contra hlt
  obtain ⟨j, rfl⟩ : ∃ j, m = n + (j + 1) := ⟨m - n - 1, by omega⟩
  by_cases hj : j + 1 ≤ 4
  · obtain ⟨u, hu, hat, -⟩ := hσ.running_of_atEpilogue h ht hj
    rw [h'] at hu
    obtain rfl := Progress.running.inj hu
    have htracked := hσ.tracked_of_running h'
    have heq := htracked.atEpilogue_unique hσ.compiled ht' hat
    omega
  · obtain ⟨u, hu, -⟩ := hσ.exited_of_atEpilogue h ht
    have hend := progress_exited hu (j - 4)
    rw [show n + 5 + (j - 4) = n + (j + 1) by omega, h'] at hend
    cases hend

end Launched

namespace Program

/-- **The first epilogue ends the run.** Let all callees of a program be declared, and let all slots
be below `2⁶¹`. Enter any function in any state of a machine that ends the run where the environment
is asked to. Then the run is never stuck, and it never comes to a return. So activations never go
away: those of a state are still there in all later states, and after a call there is one more. The
run ends if and only if some activation comes to its epilogue, and that one ends it within five
steps, so that no other activation ever does.

**Proof sketch.** By induction over the number of steps, the activation entered last is in one of
its phases: in its prologue, at a line of its body before which all that an outline says is true,
or in its epilogue up to the call of the environment. `Traced.Tracked.step` says what can come next
in each of them. -/
theorem exits_at_first_epilogue (hp : p.compile = .ok listing)
    (hcallees : ∀ callee ∈ p.callees, ∃ d ∈ p.decls, d.name = callee)
    (hslots : ∀ u ∈ p.slotUses, u.slot.toNat < 2 ^ 61) {d : Declaration} (hd : d ∈ p.decls)
    {σ : Machine} (hσ : address listing (.entry d.name) = some σ.pc) :
    (∀ n t, progress A listing σ n ≠ .stuck t) ∧
    (∀ n t, progress A listing σ n = .running t →
      listing[t.machine.pc]? ≠ some (.jr .returnAddress)) ∧
    (∀ m n t t', m < n → progress A listing σ m = .running t →
      progress A listing σ n = .running t' → t.entries <:+ t'.entries ∧
        ∀ l, listing[t.machine.pc]? = some (.jal l) → t.entries.length < t'.entries.length) ∧
    ((∃ n t, progress A listing σ n = .exited t) ↔
      ∃ n t, progress A listing σ n = .running t ∧ t.AtEpilogue p 0) ∧
    ∀ n t, progress A listing σ n = .running t → t.AtEpilogue p 0 →
      (∃ t', progress A listing σ (n + 5) = .exited t' ∧ t'.entries = t.entries) ∧
      ∀ m t', progress A listing σ m = .running t' → t'.AtEpilogue p 0 → m = n := by
  have hlaunched : Launched p listing σ := ⟨hp, hcallees, hslots, d, hd, hσ⟩
  refine ⟨?_, ?_, ?_, ⟨?_, ?_⟩, ?_⟩
  · intro n t h
    obtain ⟨u, hu, -⟩ | ⟨u, hu⟩ := hlaunched.tracked_or_exited (A := A) n
    all_goals
      rw [h] at hu
      cases hu
  · intro n t h hline
    have htracked := hlaunched.tracked_of_running h
    obtain ⟨⟨hcall, -⟩, -⟩ | ⟨t', -, hadv⟩ := htracked.step (A := A) hp hcallees hslots
    · rw [hline] at hcall
      cases hcall
    · exact hadv.returns hline
  · intro m n t t' hlt h h'
    obtain ⟨k, rfl⟩ : ∃ k, n = m + 1 + k := ⟨n - m - 1, by omega⟩
    obtain ⟨hexit, -⟩ | ⟨u, hu, hadv⟩ := hlaunched.exited_or_advances h
    · rw [progress_exited hexit k] at h'
      cases h'
    · have hsuffix := hlaunched.suffix_of_running hu h'
      refine ⟨hadv.suffix.trans hsuffix, fun l hl => ?_⟩
      exact Nat.lt_of_lt_of_le (hadv.calls l hl) hsuffix.length_le
  · rintro ⟨n, t, h⟩
    exact hlaunched.exists_atEpilogue_of_exited h
  · rintro ⟨n, t, h, ht⟩
    obtain ⟨t', hexit, -⟩ := hlaunched.exited_of_atEpilogue h ht
    exact ⟨n + 5, t', hexit⟩
  · intro n t h ht
    refine ⟨hlaunched.exited_of_atEpilogue h ht, fun m t' h' ht' => ?_⟩
    exact Nat.le_antisymm (hlaunched.le_of_atEpilogue h ht h' ht')
      (hlaunched.le_of_atEpilogue h' ht' h ht)

/-- A program whose main function leaves a loop with an operand pushed and then calls another
function, which assigns to the word of its return address. -/
def leafExits : Program where
  decls := [
    { name := "main", arity := 0, body :=
      .seq (.whileDo ⟨.literal 0, .eq, .literal 0⟩ (.binary (.literal 1) .add (.escape .exit)))
        (.binary (.call "leaf" []) .add (.call "main" [])) },
    { name := "leaf", arity := 0, body := .assign 0 (.literal 7) }]

/-- After 39 steps, the second function is at its epilogue while the first one waits for it, and the
run ends there. -/
theorem exits_at_first_epilogue_leafExits :
    ∃ (listing : List (Instruction Label)) (σ : Machine) (t : Traced),
      leafExits.compile = .ok listing ∧ address listing (.entry "main") = some σ.pc ∧
      progress .twosComplement listing σ 39 = .running t ∧ t.entries.length = 2 ∧
      t.AtEpilogue leafExits 0 ∧
      (∃ t', progress .twosComplement listing σ 44 = .exited t' ∧ t'.entries = t.entries) ∧
      ∀ n t', progress .twosComplement listing σ n = .running t' →
        listing[t'.machine.pc]? ≠ some (.jr .returnAddress) ∧
        (t'.AtEpilogue leafExits 0 → n = 39) := by
  let σ : Machine := ⟨0, fun _ => 0, fun _ => 0⟩
  obtain ⟨listing, hlisting, haddr, hstate⟩ : ∃ listing, leafExits.compile = .ok listing ∧
      address listing (.entry "main") = some σ.pc ∧
      (match progress .twosComplement listing σ 39 with
      | .running t => decide (t.entries.length = 2 ∧ t.AtEpilogue leafExits 0)
      | _ => false) = true :=
    ⟨_, rfl, by decide, by decide +kernel⟩
  cases hrun : progress .twosComplement listing σ 39 with
  | exited | stuck =>
    rw [hrun] at hstate
    cases hstate
  | running t =>
    rw [hrun] at hstate
    obtain ⟨hlen, hat⟩ := of_decide_eq_true hstate
    obtain ⟨-, hreturns, -, -, hexits⟩ := exits_at_first_epilogue (A := .twosComplement)
      (d := leafExits.decls[0]) hlisting (by decide) (by decide) (by decide) haddr
    obtain ⟨hexit, honly⟩ := hexits 39 t hrun hat
    exact ⟨listing, σ, t, hlisting, haddr, hrun, hlen, hat, hexit,
      fun n t' h => ⟨hreturns n t' h, honly n t' h⟩⟩

end Program

end ImpRiscV
