import ImpRiscV.Proofs.Relocation
import ImpRiscV.Proofs.Decoding

/-!
# What the log says

The log of a run is made of milestones and of single steps: constructs receive their numbers, and
lines are added to the listing. Numbers are given in order and before they are used, also in a run
that fails. Where a run fails inside of a declaration, it has recorded all declarations before it as
if there were no others: of the arities of the program, a declaration only sees those that its calls
have been checked against.

All of this is said of the records as they are shown, by their level, origin and text.

## Main definitions

* `ImpRiscV.Record.opening`, `ImpRiscV.Record.heading`, `ImpRiscV.Record.allocation`,
  `ImpRiscV.Record.line`, `ImpRiscV.Record.closing` — the five forms of record.
* `ImpRiscV.Chapters` — the records of declarations, one after another.
* `ImpRiscV.Program.steps` — the steps of a whole run.
* `ImpRiscV.Program.FailsIn` — a run gets to a declaration and fails there.

## Main results

* `ImpRiscV.Relocated.level_events` — inside of a function there are no milestones.
* `ImpRiscV.Declaration.chapters` — the records of declarations that do not fail.
* `ImpRiscV.Program.records_before_of_failsIn` — the records before a failure.
* `ImpRiscV.Program.log_records_run` — the records of a run.
-/

set_option relaxedAutoImplicit false
set_option autoImplicit false

namespace ImpRiscV

open Step Fragment

/-! ### Forms of records -/

namespace Record

/-- The first record of a run over some number of declarations. -/
def opening (declarations : Nat) : Record :=
  ⟨.debug, .generation, "generating " ++ toString declarations ++ " declaration(s)"⟩

/-- The record that the code of a function begins. -/
def heading (d : Declaration) : Record :=
  ⟨.debug, .generation,
    "compiling `" ++ d.name ++ "` (" ++ toString d.arity.toNat ++ " argument(s))"⟩

/-- The record that a construct receives its number. -/
def allocation (k : Construct) (number : Nat) : Record :=
  ⟨.trace, .numbering, match k with
    | .conditional => "allocated if labels #" ++ toString number
    | .whileLoop => "allocated while labels #" ++ toString number
    | .repeatLoop => "allocated repeat labels #" ++ toString number⟩

/-- The record of a line of code. -/
def line (i : Instruction Label) : Record := ⟨.trace, .generation, (i.map Label.text).text⟩

/-- The record that the code of a function begins at its entry. -/
def entry (d : Declaration) : Record := ⟨.trace, .generation, d.name ++ "_entry:"⟩

/-- The last record of a run whose listing has some number of lines. -/
def closing (lines : Nat) : Record :=
  ⟨.debug, .generation, "emitted " ++ toString lines ++ " line(s)"⟩

end Record

namespace Event

/-- A number is recorded under the name of its kind. -/
lemma record_numbered (k : Construct) (n : Nat) :
    (numbered k n).record = .allocation k n := by
  cases k <;> rfl

/-- The line that defines the entry of a function is recorded as its entry. -/
lemma record_entry (d : Declaration) :
    (emitted (.label (.entry d.name))).record = .entry d := by
  have htext : d.name ++ "_entry" ++ ":" = d.name ++ "_entry:" := String.append_assoc
  rw [Record.entry, ← htext]
  rfl

/-- Only lines have the record of a line. -/
lemma eq_emitted_of_record {e : Event} {i : Instruction Label} (h : e.record = .line i) :
    ∃ j, e = .emitted j ∧ (i.map Label.text).text = (j.map Label.text).text := by
  cases e with
  | emitted j => exact ⟨j, rfl, (congrArg Record.message h).symm⟩
  | begun | entered | finished => cases congrArg Record.level h
  | numbered => cases congrArg Record.origin h

/-- Single steps that number nothing are lines. -/
lemma exists_line_of_trace {e : Event} (hlevel : e.level = .trace)
    (horigin : e.origin = .generation) : ∃ i, e.record = .line i := by
  cases e with
  | emitted i => exact ⟨i, rfl⟩
  | begun | entered | finished => cases hlevel
  | numbered => cases horigin

/-- Among the numbers that events give, those of a kind are the numbers that they give to it. -/
lemma numbers_eq (es : List Event) (k : Construct) :
    ((es.filterMap allocated?).filter (·.construct = k)).map Allocated.number =
      es.filterMap (number? k) := by
  induction es with
  | nil => rfl
  | cons e es ih =>
    cases e with
    | numbered k' n =>
      by_cases hk : k' = k
      · simpa [allocated?, number?, hk] using ih
      · simpa [allocated?, number?, hk] using ih
    | begun | entered | emitted | finished => exact ih

/-- The records of numbers are those of the numbers that are given. -/
lemma records_numbered (es : List Event) :
    (es.map record).filter (·.origin = .numbering) =
      (es.filterMap allocated?).map fun a => .allocation a.construct a.number := by
  induction es with
  | nil => rfl
  | cons e es ih =>
    cases e with
    | numbered k n =>
      have hallocated : allocated? (.numbered k n) = some ⟨k, n⟩ := rfl
      rw [List.map_cons, List.filterMap_cons_some hallocated, List.map_cons, ← ih,
        record_numbered]
      exact List.filter_cons_of_pos rfl
    | begun | entered | emitted | finished => exact ih

/-- The records of lines have the texts of the lines. -/
lemma messages_eq (es : List Event) :
    ((es.map record).filter fun r => r.level = .trace ∧ r.origin = .generation).map
      Record.message = (es.filterMap line?).map fun i => (i.map Label.text).text := by
  induction es with
  | nil => rfl
  | cons e es ih =>
    cases e with
    | emitted i => exact congrArg (message (.emitted i) :: ·) ih
    | begun | entered | numbered | finished => exact ih

end Event

/-! ### Inside of functions -/

namespace Relocated

variable {m : Numbering} {ss ts : List Step}

/-- Steps that can be relocated record single steps only. -/
lemma level_events (h : Relocated m ss ts) : ∀ e ∈ (Emission.run ss).events, e.level = .trace := by
  intro e he
  induction h with
  | nil => cases he
  | number k n _ ih =>
    rw [Emission.events_run_note] at he
    rcases List.mem_cons.mp he with rfl | he
    · rfl
    · exact ih he
  | emit line _ ih =>
    rw [Emission.events_run_emit] at he
    rcases List.mem_cons.mp he with rfl | he
    · rfl
    · exact ih he
  | fail f ss ts =>
    rw [Emission.events_run_fail] at he
    cases he

/-- Steps that do not fail add each line to log and listing alike. -/
lemma line?_of_note (h : Relocated m ss ts) (hs : failures ss = []) :
    ∀ e, .note e ∈ ss → e.line? = none := by
  intro e he
  induction h with
  | nil => cases he
  | number k n _ ih =>
    rcases List.mem_cons.mp he with heq | he
    · obtain rfl := Step.note.inj heq
      rfl
    · exact ih hs he
  | emit line _ ih =>
    rcases List.mem_cons.mp he with heq | he
    · cases heq
    · exact ih hs he
  | fail f ss ts => cases hs

/-- Steps that are relocated past no constructs are the same. -/
lemma eq_of_success (h : Relocated {} ss ts) (hs : failures ss = []) : ts = ss := by
  have hshift : ∀ l : Label, l.shift {} = l := fun l => by
    cases l <;> simp [Label.shift]
  induction h with
  | nil => rfl
  | number k n _ ih => rw [ih hs, Numbering.count_start, Nat.add_zero]
  | emit line _ ih =>
    rw [ih hs, show Label.shift {} = id from funext hshift, Instruction.map_id]
  | fail f ss ts => cases hs

end Relocated

/-! ### Declarations -/

/-- The records of declarations, one after another. Those of a function begin with its heading, then
comes the line that defines its entry, and the others are single steps. -/
inductive Chapters : List Declaration → List Record → Prop
  | nil : Chapters [] []
  | cons {d : Declaration} {ds : List Declaration} {inside rs : List Record}
    (hinside : ∀ r ∈ inside, r.level = .trace) (h : Chapters ds rs) :
    Chapters (d :: ds) (.heading d :: .entry d :: (inside ++ rs))

namespace Declaration

variable {d : Declaration} {ds : List Declaration} {s s' : Scope} {c : Cursor} {f : Failure}

/-- What is lowered in a scope that knows fewer arities is the same, as long as nothing fails. -/
lemma relocated_start (hs : s.Widens s') : Relocated {} (d.inside s c) (d.inside s' c) := by
  have hstart : c.numbering + {} = c.numbering := Numbering.ext_count fun k => by simp
  have hrelocated := d.relocated_inside {} hs c.numbering c.depth c.depth
  rwa [hstart] at hrelocated

/-- The steps of a function can be relocated past no constructs. -/
lemma relocated_self (d : Declaration) (s : Scope) (c : Cursor) :
    Relocated {} (d.inside s c) (d.inside s c) := relocated_start ⟨fun _ _ h => h, rfl, rfl⟩

/-- Once the size of its frame is known, the first line of a function defines its entry. -/
lemma inside_eq_cons (h : failures (d.inside s c) = []) :
    ∃ rest, d.inside s c = .emit (.label (.entry d.name)) :: rest := by
  unfold inside at h ⊢
  cases hsize : frameSize d.arity with
  | error overflow =>
    rw [hsize] at h
    cases h
  | ok size => exact ⟨_, rfl⟩

/-- **The records of declarations that do not fail.** -/
theorem chapters (h : failures ((concat (ds.map lower)).steps s c) = []) :
    Chapters ds ((events ((concat (ds.map lower)).steps s c)).map Event.record) := by
  induction ds generalizing c with
  | nil => exact .nil
  | cons d ds ih =>
    rw [List.map_cons, concat_cons, steps_append, failures_append, List.append_eq_nil_iff,
      steps_lower] at h
    obtain ⟨hd, hds⟩ : failures (d.inside s c) = [] ∧ _ := h
    obtain ⟨rest, hrest⟩ := inside_eq_cons hd
    have hlevel := (d.relocated_self s c).level_events
    rw [Emission.run_of_success hd, hrest] at hlevel
    rw [List.map_cons, concat_cons, steps_append, events_append, List.map_append, steps_lower,
      hrest]
    have hrecords : (events (.note (.entered d.name d.arity.toNat) ::
        .emit (.label (.entry d.name)) :: rest)).map Event.record =
          .heading d :: .entry d :: (events rest).map Event.record := by
      rw [← Event.record_entry]
      rfl
    rw [hrecords]
    refine .cons (fun r hr => ?_) (ih hds)
    obtain ⟨e, he, rfl⟩ := List.mem_map.mp hr
    exact hlevel e (List.mem_cons_of_mem _ he)

/-- Declarations that do not fail add each line to log and listing alike. -/
lemma line?_of_note (h : failures ((concat (ds.map lower)).steps s c) = []) {e : Event}
    (he : .note e ∈ (concat (ds.map lower)).steps s c) : e.line? = none := by
  induction ds generalizing c with
  | nil => cases he
  | cons d ds ih =>
    rw [List.map_cons, concat_cons, steps_append, failures_append, List.append_eq_nil_iff,
      steps_lower] at h
    rw [List.map_cons, concat_cons, steps_append, steps_lower] at he
    rcases List.mem_append.mp he with he | he
    · rcases List.mem_cons.mp he with heq | he
      · obtain rfl := Step.note.inj heq
        rfl
      · exact (d.relocated_self s c).line?_of_note h.1 e he
    · exact ih h.2 he

/-- A function may be lowered when some constructs have been numbered, and leads to where it leaves
the cursor. -/
lemma admits_lower (d : Declaration) (s : Scope) (c : Cursor) :
    c.numbering.Admits (d.lower.steps s c) (d.lower.advance c).numbering := by
  rw [steps_lower]
  refine .milestone rfl ?_
  unfold inside
  cases hsize : frameSize d.arity with
  | error overflow => exact .fail _ _ _ _
  | ok size =>
    have hadvance : (d.lower.advance c).numbering = c.numbering + d.body.constructs := by
      simp [lower, function_eq, hsize, withAddress, Expr.advance_lower]
    have hprologue : c.numbering.Admits (emits (prologue d.name)) c.numbering := by
      refine .emit (fun l hl => ?_) (Numbering.admits_silent rfl)
      obtain rfl : Label.entry d.name = l := by
        simpa [Instruction.Mentions, Instruction.definedLabel?, Instruction.target?] using hl
      trivial
    rw [hadvance]
    exact (hprologue.append (d.body.admits_lower _ _ _)).append (Numbering.admits_silent rfl)

/-- Declarations may be lowered one after another. -/
lemma admits_concat (ds : List Declaration) (s : Scope) (c : Cursor) :
    c.numbering.Admits ((concat (ds.map lower)).steps s c)
      ((concat (ds.map lower)).advance c).numbering := by
  induction ds generalizing c with
  | nil => exact .nil _
  | cons d ds ih => exact (d.admits_lower s c).append (ih (d.lower.advance c))

/-- In a scope that knows fewer arities, declarations that do not fail take the same steps. -/
lemma steps_narrows (hs : s.Widens s') (h : failures ((concat (ds.map lower)).steps s c) = []) :
    (concat (ds.map lower)).steps s' c = (concat (ds.map lower)).steps s c := by
  induction ds generalizing c with
  | nil => rfl
  | cons d ds ih =>
    rw [List.map_cons, concat_cons, steps_append, failures_append, List.append_eq_nil_iff,
      steps_lower] at h
    rw [List.map_cons, concat_cons, steps_append, steps_append, steps_lower, steps_lower,
      (relocated_start hs).eq_of_success h.1, ih h.2]

/-- Where declarations fail, there is a first one that does. -/
lemma exists_first_failure (h : ((concat (ds.map lower)).emission s c).failure? = some f) :
    ∃ pre d post, ds = pre ++ d :: post ∧
      ((concat (pre.map lower)).emission s c).failure? = none ∧
      (d.lower.emission s ((concat (pre.map lower)).advance c)).failure? = some f := by
  induction ds generalizing c with
  | nil => cases h
  | cons d ds ih =>
    rw [List.map_cons, concat_cons, emission_append, Emission.failure?_append] at h
    cases hd : (d.lower.emission s c).failure? with
    | some x =>
      rw [hd, Option.some_or] at h
      obtain rfl := Option.some_inj.mp h
      exact ⟨[], d, ds, rfl, rfl, hd⟩
    | none =>
      rw [hd, Option.none_or] at h
      obtain ⟨pre, d', post, rfl, hpre, hd'⟩ := ih h
      refine ⟨d :: pre, d', post, rfl, ?_, hd'⟩
      rw [List.map_cons, concat_cons, emission_append, Emission.failure?_append, hd, hpre]
      rfl

end Declaration

/-! ### Programs -/

namespace Program

variable {p : Program} {pre : List Declaration} {d : Declaration} {f : Failure}
  {listing : List (Instruction Label)}

/-- The steps of a whole run. -/
def steps (p : Program) : List Step :=
  .note (.begun p.decls.length) ::
    match p.duplicate? with
    | some name => [.fail (.mistake (.duplicateFunction name))]
    | none => p.lower.steps { arity? := p.arity? } {} ++
        [.note (.finished (p.lower.emission { arity? := p.arity? } {}).code.length)]

/-- The steps of a program whose names differ. -/
lemma steps_of_distinct (h : p.duplicate? = none) : p.steps = .note (.begun p.decls.length) ::
    (p.lower.steps { arity? := p.arity? } {} ++
      [.note (.finished (p.lower.emission { arity? := p.arity? } {}).code.length)]) := by
  rw [steps, h]

/-- A run leaves behind what its steps do. -/
lemma emission_eq_run (p : Program) : p.emission = .run p.steps := by
  unfold emission steps
  cases p.duplicate? with
  | some name => rfl
  | none =>
    dsimp only
    rw [Emission.run_cons, Emission.run_append]
    rfl

/-- The run lowers the declarations `pre`, with which the program begins, and fails in the next one,
which is `d`. -/
def FailsIn (p : Program) (pre : List Declaration) (d : Declaration) (f : Failure) : Prop :=
  p.duplicate? = none ∧ (∃ post, p.decls = pre ++ d :: post) ∧
    ((concat (pre.map Declaration.lower)).emission { arity? := p.arity? } {}).failure? = none ∧
    (d.lower.emission { arity? := p.arity? }
      ((concat (pre.map Declaration.lower)).advance {})).failure? = some f

/-- A run that gets to its end records the declarations between its first and its last milestone. -/
lemma log_of_success (h : p.compile = .ok listing) :
    p.log = .begun p.decls.length :: events (p.lower.steps { arity? := p.arity? } {}) ++
      [.finished listing.length] := by
  obtain ⟨hdistinct, hsuccess, rfl⟩ := compile_eq_ok_iff.mp h
  have hsteps := failure?_emission_eq_none_iff.mp hsuccess
  have hall : failures p.steps = [] := by simp [steps_of_distinct hdistinct, hsteps, failure?]
  rw [log, emission_eq_run, Emission.run_of_success hall, steps_of_distinct hdistinct]
  simp [event?]

/-- **The lines of the log are the listing.** -/
theorem lines_of_log (h : p.compile = .ok listing) : p.log.filterMap Event.line? = listing := by
  obtain ⟨hdistinct, hsuccess, -⟩ := compile_eq_ok_iff.mp h
  have hsteps := failure?_emission_eq_none_iff.mp hsuccess
  have hcode : (Emission.run p.steps).code = listing := by
    rw [← emission_eq_run]
    cases hfails : p.emission.failure? with
    | none => simpa [compile, Emission.result, hfails] using h
    | some f => simp [compile, Emission.result, hfails] at h
  rw [log, emission_eq_run, Emission.filterMap_line?_run _ fun e he => ?_, hcode]
  rw [steps_of_distinct hdistinct] at he
  rcases List.mem_cons.mp he with heq | he
  · obtain rfl := Step.note.inj heq
    rfl
  · rcases List.mem_append.mp he with he | he
    · exact Declaration.line?_of_note hsteps he
    · obtain rfl := Step.note.inj (List.mem_singleton.mp he)
      rfl

/-- The steps of a run that fails in a declaration. -/
lemma steps_of_failsIn (h : p.FailsIn pre d f) : ∃ rest, p.steps = .note (.begun p.decls.length) ::
    ((concat (pre.map Declaration.lower)).steps { arity? := p.arity? } {} ++
      (d.lower.steps { arity? := p.arity? } ((concat (pre.map Declaration.lower)).advance {}) ++
        rest)) := by
  obtain ⟨hdistinct, ⟨post, hdecls⟩, -, -⟩ := h
  rw [steps_of_distinct hdistinct, lower, hdecls, List.map_append, List.map_cons, concat_append,
    concat_cons, steps_append, steps_append, List.append_assoc, List.append_assoc]
  exact ⟨_, rfl⟩

/-- A run that fails in a declaration records the others before it, and then its steps there. -/
lemma log_of_failsIn (h : p.FailsIn pre d f) :
    p.compile = .error f ∧ p.log = .begun p.decls.length ::
      (events ((concat (pre.map Declaration.lower)).steps { arity? := p.arity? } {}) ++
        .entered d.name d.arity.toNat :: (Emission.run (d.inside { arity? := p.arity? }
          ((concat (pre.map Declaration.lower)).advance {}))).events) := by
  obtain ⟨-, -, hpre, hd⟩ := id h
  obtain ⟨rest, hsteps⟩ := steps_of_failsIn h
  unfold Fragment.emission at hpre hd
  constructor
  · have hfails : (Emission.run p.steps).failure? = some f := by
      simp [hsteps, hpre, hd, Emission.ofStep, Emission.event]
    rw [compile, emission_eq_run, Emission.result, hfails]
  · rw [Emission.failure?_run_eq_none_iff] at hpre
    rw [log, emission_eq_run, hsteps, Emission.events_run_note, Emission.events_run_append hpre,
      Emission.run_append, Emission.append_of_failure hd, Declaration.steps_lower,
      Emission.events_run_note]

/-- The first declarations of a program are a program with fewer arities. -/
lemma widens_of_append (hp : p.duplicate? = none) {post : List Declaration}
    (hdecls : p.decls = pre ++ post) :
    duplicate? ⟨pre⟩ = none ∧
      Scope.Widens { arity? := p.arity? } { arity? := Program.arity? ⟨pre⟩ } := by
  have hpre : duplicate? ⟨pre⟩ = none := by
    have hnodup := duplicate?_eq_none_iff.mp hp
    rw [hdecls, List.map_append] at hnodup
    exact duplicate?_eq_none_iff.mpr (List.nodup_append.mp hnodup).1
  refine ⟨hpre, fun name n hn => ?_, rfl, rfl⟩
  obtain ⟨d, hd, hname, harity⟩ := (arity?_eq_some_iff hpre).mp hn
  exact (arity?_eq_some_iff hp).mpr ⟨d, hdecls ▸ List.mem_append_left _ hd, hname, harity⟩

/-- **A run that fails has recorded the declarations before as a run over them alone.** -/
theorem records_before_of_failsIn (h : p.FailsIn pre d f) :
    ∃ listing before inside, compile ⟨pre⟩ = .ok listing ∧
      records ⟨pre⟩ = .opening pre.length :: before ++ [.closing listing.length] ∧
      p.records = .opening p.decls.length :: before ++ .heading d :: inside ∧
      ∀ r ∈ inside, r.level = .trace := by
  obtain ⟨hdistinct, ⟨post, hdecls⟩, hpre, -⟩ := id h
  rw [failure?_emission_eq_none_iff] at hpre
  obtain ⟨hdistinct', hwidens⟩ := widens_of_append hdistinct hdecls
  have hsame := Declaration.steps_narrows hwidens hpre
  have hsuccess : ((lower ⟨pre⟩).emission { arity? := Program.arity? ⟨pre⟩ } {}).failure? =
      none := by
    rw [failure?_emission_eq_none_iff, lower, hsame, hpre]
  have hlisting := compile_eq_ok_iff.mpr ⟨hdistinct', hsuccess, rfl⟩
  refine ⟨_, (events ((concat (pre.map Declaration.lower)).steps { arity? := p.arity? } {})).map
      Event.record, (Emission.run (d.inside { arity? := p.arity? }
      ((concat (pre.map Declaration.lower)).advance {}))).events.map Event.record,
    hlisting, ?_, ?_, fun r hr => ?_⟩
  · rw [records, log_of_success hlisting, lower, hsame, List.map_append, List.map_cons]
    rfl
  · rw [records, (log_of_failsIn h).2, List.map_cons, List.map_append, List.map_cons]
    rfl
  · obtain ⟨e, he, rfl⟩ := List.mem_map.mp hr
    exact (d.relocated_self _ _).level_events e he

/-- The steps of a run may be taken from the start. -/
lemma admits_steps (p : Program) : ∃ m, Numbering.Admits {} p.steps m := by
  cases hd : p.duplicate? with
  | some name =>
    refine ⟨{}, ?_⟩
    rw [steps, hd]
    exact .milestone rfl (.fail _ _ _ _)
  | none =>
    rw [steps_of_distinct hd]
    exact ⟨_, .milestone rfl ((Declaration.admits_concat p.decls _ {}).append
      (.milestone rfl (.nil _)))⟩

/-- Every failure is that of a name declared twice or is met in some declaration. -/
lemma failsIn_of_compile (h : p.compile = .error f) :
    (∃ name, p.duplicate? = some name ∧ f = .mistake (.duplicateFunction name) ∧
      p.records = [.opening p.decls.length]) ∨ ∃ pre d, p.FailsIn pre d f := by
  cases hd : p.duplicate? with
  | some name =>
    have hemission : p.emission =
        ⟨[.begun p.decls.length], [], some (.mistake (.duplicateFunction name))⟩ := by
      rw [emission, hd]
      rfl
    rw [compile, Emission.result, hemission] at h
    refine .inl ⟨name, rfl, (Except.error.inj h).symm, ?_⟩
    rw [records, log, hemission]
    rfl
  | none =>
    cases hfails : (p.lower.emission { arity? := p.arity? } {}).failure? with
    | none =>
      rw [compile_eq_ok_iff.mpr ⟨hd, hfails, rfl⟩] at h
      cases h
    | some f' =>
      obtain ⟨pre, d, post, hdecls, hpre, hd'⟩ := Declaration.exists_first_failure hfails
      have hin : p.FailsIn pre d f' := ⟨hd, ⟨post, hdecls⟩, hpre, hd'⟩
      obtain rfl : f' = f := Except.error.inj ((log_of_failsIn hin).1.symm.trans h)
      exact .inr ⟨pre, d, hin⟩

/-- **A construct is recorded before the lines that mention it.** -/
lemma allocation_mem_before {before after : List Record} {i : Instruction Label} {r : Role}
    {n : Nat} (h : p.records = before ++ .line i :: after) (hi : i.Mentions (.numbered r n)) :
    .allocation r.construct n ∈ before := by
  obtain ⟨m, hm⟩ := p.admits_steps
  obtain ⟨es, es', hlog, rfl, hafter⟩ := List.map_eq_append_iff.mp h
  obtain ⟨e, es', rfl, he, -⟩ := List.map_eq_cons_iff.mp hafter
  obtain ⟨j, rfl, htext⟩ := Event.eq_emitted_of_record he
  obtain rfl := Instruction.eq_of_text_eq hi htext
  rw [log, emission_eq_run] at hlog
  obtain ⟨hpos, hle | hmem⟩ := hm.mem_of_mentions hlog hi
  · rw [Numbering.count_start] at hle
    omega
  · exact Event.record_numbered r.construct n ▸ List.mem_map_of_mem hmem

/-- **What the records of a run say.** Where a program has a listing, the records of its lines are
their texts in order, each declaration is announced once and directly before the line that defines
its entry, and the last record gives the number of lines. Also where it has none, the constructs of
each kind take the numbers `1, 2, 3, …` in the order of the log, all other single steps are lines,
and no line mentions a construct before it has taken its number. A failure is that of a name
declared twice, before any declaration, or it is met inside of one; then the declarations before it
have a listing of their own, and what is recorded of them is what the run over them alone records
between its first and its last record.

**Proof sketch.** Inside of functions there are single steps only, by `Relocated.level_events`, and
they number constructs before they mention them, by `Expr.admits_lower`; which line a record is of
is known from its text. The run over the first declarations knows fewer arities, which makes no
difference where none of their calls has been refused. -/
theorem log_records_run (p : Program) :
    (∀ listing, p.compile = .ok listing →
      (p.records.filter fun r => r.level = .trace ∧ r.origin = .generation).map Record.message =
        listing.map (fun i => (i.map Label.text).text) ∧
      ∃ chapters, Chapters p.decls chapters ∧
        p.records = .opening p.decls.length :: chapters ++ [.closing listing.length]) ∧
    (∃ allocs : List Allocated, (p.records.filter (·.origin = .numbering)) =
        allocs.map (fun a => .allocation a.construct a.number) ∧
      ∀ k, ∃ n, (allocs.filter (·.construct = k)).map Allocated.number = List.range' 1 n) ∧
    (∀ before record after, p.records = before ++ record :: after → record.level = .trace →
      record.origin = .generation → (∃ i, record = .line i) ∧
        ∀ i r n, record = .line i → i.Mentions (.numbered r n) →
          .allocation r.construct n ∈ before) ∧
    (∀ f, p.compile = .error f →
      (∃ name, p.duplicate? = some name ∧ f = .mistake (.duplicateFunction name) ∧
        p.records = [.opening p.decls.length]) ∨ ∃ pre d, p.FailsIn pre d f) ∧
    ∀ pre d f, p.FailsIn pre d f → p.compile = .error f ∧
      ∃ listing before inside, compile ⟨pre⟩ = .ok listing ∧
        records ⟨pre⟩ = .opening pre.length :: before ++ [.closing listing.length] ∧
        p.records = .opening p.decls.length :: before ++ .heading d :: inside ∧
        ∀ r ∈ inside, r.level = .trace := by
  refine ⟨fun listing h => ?_, ?_, fun before record after h hlevel horigin => ?_,
    fun f h => failsIn_of_compile h,
    fun pre d f h => ⟨(log_of_failsIn h).1, records_before_of_failsIn h⟩⟩
  · obtain ⟨-, hsuccess, -⟩ := compile_eq_ok_iff.mp h
    have hsteps := failure?_emission_eq_none_iff.mp hsuccess
    have hrecords : p.records = .opening p.decls.length ::
        (events (p.lower.steps { arity? := p.arity? } {})).map Event.record ++
          [.closing listing.length] := by
      rw [records, log_of_success h, List.map_append, List.map_cons]
      rfl
    refine ⟨?_, _, Declaration.chapters hsteps, hrecords⟩
    rw [records, Event.messages_eq, lines_of_log h]
  · obtain ⟨m, hm⟩ := p.admits_steps
    refine ⟨p.log.filterMap Event.allocated?, Event.records_numbered p.log, fun k => ?_⟩
    obtain ⟨n, hn⟩ := hm.numbers k
    rw [Numbering.count_start, Nat.zero_add, ← emission_eq_run] at hn
    exact ⟨n, (Event.numbers_eq p.log k).trans hn⟩
  · refine ⟨?_, fun i r n heq hi => allocation_mem_before (heq ▸ h) hi⟩
    have hmem : record ∈ p.records := h ▸ List.mem_append_right before List.mem_cons_self
    obtain ⟨e, -, rfl⟩ := List.mem_map.mp hmem
    exact Event.exists_line_of_trace hlevel horigin

/-- Three functions, the second of which leaves a loop where there is none. -/
def unfinished : Program where
  decls := [
    { name := "wait", arity := 1, body :=
      .whileDo ⟨.var 1, .gt, .literal 0⟩ (.escape .exit) },
    { name := "stop", arity := 0, body :=
      .ifElse ⟨.literal 0, .lt, .literal 1⟩ (.escape .exit) (.call "wait" [.literal 1]) },
    { name := "rest", arity := 0, body := .skip }]

/-- The run over the first function gets to its end, and the run over all three records it in the
same way before it fails in the second one. -/
theorem log_records_run_unfinished :
    ∃ listing before inside, compile ⟨unfinished.decls.take 1⟩ = .ok listing ∧
      (records ⟨unfinished.decls.take 1⟩ |>.filter fun r =>
        r.level = .trace ∧ r.origin = .generation).map Record.message =
          listing.map (fun i => (i.map Label.text).text) ∧
      records ⟨unfinished.decls.take 1⟩ = ⟨.debug, .generation, "generating 1 declaration(s)"⟩ ::
        before ++ [⟨.debug, .generation, "emitted 34 line(s)"⟩] ∧
      unfinished.records = ⟨.debug, .generation, "generating 3 declaration(s)"⟩ ::
        before ++ ⟨.debug, .generation, "compiling `stop` (0 argument(s))"⟩ :: inside ∧
      unfinished.compile = .error (.mistake (.escapeOutsideLoop .exit "stop")) ∧
      ⟨.trace, .numbering, "allocated while labels #1"⟩ ∈ unfinished.records.take 7 := by
  obtain ⟨-, -, hmentions, -, hfails⟩ := log_records_run unfinished
  obtain ⟨herror, listing, before, inside, hlisting, hfirst, hrecords, -⟩ :=
    hfails (unfinished.decls.take 1) _ (.mistake (.escapeOutsideLoop .exit "stop"))
      ⟨rfl, ⟨_, rfl⟩, rfl, rfl⟩
  have hmessages := ((log_records_run ⟨unfinished.decls.take 1⟩).1 listing hlisting).1
  have hlength : listing.length = 34 := by
    rw [← Except.ok.inj hlisting]
    rfl
  rw [hlength] at hfirst
  exact ⟨listing, before, inside, hlisting, hmessages, hfirst, hrecords, herror,
    (hmentions _ _ (unfinished.records.drop 8) rfl rfl rfl).2
      (.la .exitTarget (.numbered .whileExit 1)) .whileExit 1 rfl (.inr rfl)⟩

end Program

end ImpRiscV
