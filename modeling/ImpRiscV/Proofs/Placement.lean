import ImpRiscV.Proofs.Steps

/-!
# Where code stands in a listing

A statement about the code of an expression is a statement about a stretch of the whole listing.
`Fragment.Spans` names such a stretch by the positions of its two ends, so that a proof reads off
which line stands at which position and never computes a length.

## Main definitions

* `ImpRiscV.Fragment.Spans` — a fragment is generated without failure, and its lines stand between
  two positions of a listing.

## Main results

* `ImpRiscV.Fragment.spans_append` — two fragments in sequence meet at a position.
* `ImpRiscV.Fragment.spans_staged`, `ImpRiscV.Fragment.spans_declaration` and others — where the
  parts of a construct stand.
* `ImpRiscV.Program.spans_of_compile` — each declaration of a program spans a stretch of its
  listing.
-/

set_option relaxedAutoImplicit false
set_option autoImplicit false

namespace ImpRiscV

namespace Fragment

/-- The fragment is generated in scope `s` from cursor `c` without failure, and the lines of the
listing from position `start` up to position `stop` are its lines. -/
structure Spans (listing : List (Instruction Label)) (f : Fragment) (s : Scope) (c : Cursor)
    (start stop : Nat) : Prop where
  /-- Nothing fails. -/
  success : (f.emission s c).failure? = none
  /-- The lines follow position `start`. -/
  lines : (f.emission s c).code <+: listing.drop start
  /-- They end at position `stop`. -/
  length : start + (f.emission s c).code.length = stop

variable {listing : List (Instruction Label)} {s : Scope} {c : Cursor} {a b : Nat}

/-- A stretch ends where it starts or further down. -/
lemma Spans.le {f : Fragment} (h : f.Spans listing s c a b) : a ≤ b :=
  Nat.le_of_add_right_le (Nat.le_of_eq h.length)

/-- What a fragment spans is known from its steps. -/
lemma spans_iff_steps {f : Fragment} : f.Spans listing s c a b ↔
    Step.failures (f.steps s c) = [] ∧ Step.lines (f.steps s c) <+: listing.drop a ∧
      a + (Step.lines (f.steps s c)).length = b := by
  constructor
  · rintro ⟨hs, hl, hb⟩
    rw [code_emission hs] at hl hb
    exact ⟨failure?_emission_eq_none_iff.mp hs, hl, hb⟩
  · rintro ⟨hs, hl, hb⟩
    rw [← failure?_emission_eq_none_iff] at hs
    rw [← code_emission hs] at hl hb
    exact ⟨hs, hl, hb⟩

/-- The lines of the fragment are lines of the listing. -/
lemma Spans.getElem? {f : Fragment} {k : Nat} {i : Instruction Label}
    (h : f.Spans listing s c a b) (hi : (f.emission s c).code[k]? = some i) :
    listing[a + k]? = some i := by
  obtain ⟨hlt, heq⟩ := List.getElem?_eq_some_iff.mp hi
  rw [← List.getElem?_drop, ← heq]
  exact List.prefix_iff_getElem?.mp h.lines k hlt

/-! ### Sequencing -/

/-- Two lists of lines in sequence stand one after the other. -/
lemma append_isPrefix_drop_iff {xs ys : List (Instruction Label)} :
    xs ++ ys <+: listing.drop a ↔
      xs <+: listing.drop a ∧ ys <+: listing.drop (a + xs.length) := by
  constructor
  · rintro ⟨rest, h⟩
    rw [List.append_assoc] at h
    refine ⟨⟨_, h⟩, rest, ?_⟩
    rw [← List.drop_drop, ← h, List.drop_left]
  · rintro ⟨⟨rest, h⟩, hys⟩
    rw [← List.drop_drop, ← h, List.drop_left] at hys
    rw [← h]
    exact (List.prefix_append_right_inj xs).mpr hys

/-- **Two fragments in sequence meet at a position.** -/
theorem spans_append {f g : Fragment} :
    (f ++ g).Spans listing s c a b ↔
      ∃ m, f.Spans listing s c a m ∧ g.Spans listing s (f.advance c) m b := by
  simp only [spans_iff_steps, steps_append, Step.failures_append, List.append_eq_nil_iff,
    Step.lines_append, append_isPrefix_drop_iff, List.length_append]
  constructor
  · rintro ⟨⟨hfs, hgs⟩, ⟨hf, hg⟩, hb⟩
    exact ⟨_, ⟨hfs, hf, rfl⟩, hgs, hg, by omega⟩
  · rintro ⟨m, ⟨hfs, hf, rfl⟩, hgs, hg, rfl⟩
    exact ⟨⟨hfs, hgs⟩, ⟨hf, hg⟩, by omega⟩

/-- A fragment without steps spans nothing. -/
lemma spans_of_steps_eq_nil {f : Fragment} (h : f.steps s c = []) :
    f.Spans listing s c a b ↔ a = b := by
  simp [spans_iff_steps, h]

/-- The empty fragment spans nothing. -/
@[simp] theorem spans_nil : nil.Spans listing s c a b ↔ a = b := spans_of_steps_eq_nil rfl

/-! ### Lines of code -/

/-- No lines span nothing. -/
@[simp] theorem spans_code_nil : (code []).Spans listing s c a b ↔ a = b := spans_nil

/-- Lines of code stand one after another. -/
@[simp] theorem spans_code_cons {i : Instruction Label} {is : List (Instruction Label)} :
    (code (i :: is)).Spans listing s c a b ↔
      listing[a]? = some i ∧ (code is).Spans listing s c (a + 1) b := by
  have hhead : [i] <+: listing.drop a ↔ listing[a]? = some i := by
    rw [← List.head?_drop]
    constructor
    · rintro ⟨rest, h⟩
      rw [← h]
      rfl
    · intro h
      obtain ⟨rest, hr⟩ := List.head?_eq_some_iff.mp h
      exact ⟨rest, hr.symm⟩
  have hlength : a + (i :: is).length = b ↔ a + 1 + is.length = b := by
    rw [List.length_cons]
    omega
  simp only [spans_iff_steps, steps_code, Step.failures_emits, Step.lines_emits, true_and]
  rw [← List.singleton_append, append_isPrefix_drop_iff, hhead, List.singleton_append, hlength,
    and_assoc]
  rfl

/-- Each line of code stands in the listing. -/
lemma Spans.getElem?_code {is : List (Instruction Label)} {k : Nat} {i : Instruction Label}
    (h : (code is).Spans listing s c a b) (hi : is[k]? = some i) : listing[a + k]? = some i := by
  refine h.getElem? ?_
  rw [code_emission h.success, steps_code, Step.lines_emits]
  exact hi

/-- Lines of code may be cut anywhere. -/
lemma spans_code_append {is js : List (Instruction Label)} :
    (code (is ++ js)).Spans listing s c a b ↔
      ∃ m, (code is).Spans listing s c a m ∧ (code js).Spans listing s c m b := by
  induction is generalizing a with
  | nil => simp
  | cons i is ih => simp [ih, and_assoc]

/-- A failure spans nothing, not even the empty stretch. -/
@[simp] theorem spans_fail {e : Failure} : ¬(fail e).Spans listing s c a b := by
  simp [spans_iff_steps, Step.failure?]

/-- A checked address spans what its rest spans, and it has not overflowed. -/
@[simp] theorem spans_withAddress {address : Except Overflow Int} {rest : Int → Fragment} :
    (withAddress address rest).Spans listing s c a b ↔
      ∃ x, address = .ok x ∧ (rest x).Spans listing s c a b := by
  cases address <;> simp [withAddress]

/-! ### Fragments without lines -/

/-- A milestone is no line. -/
@[simp] theorem spans_record_entered {name : String} {n : Nat} :
    (record (.entered name n)).Spans listing s c a b ↔ a = b := by
  simp [spans_iff_steps, Step.failure?, Step.line?]

/-- Counting pushed words is no line. -/
@[simp] theorem spans_grow {n : Nat} : (grow n).Spans listing s c a b ↔ a = b :=
  spans_of_steps_eq_nil rfl

/-- Counting popped words is no line. -/
@[simp] theorem spans_shrink {n : Nat} : (shrink n).Spans listing s c a b ↔ a = b :=
  spans_of_steps_eq_nil rfl

/-- The check of a call is no line, and the numbers of arguments agree. -/
@[simp] theorem spans_checkArity {callee : String} {found : Nat} :
    (checkArity callee found).Spans listing s c a b ↔
      a = b ∧ ∀ expected, s.arity? callee = some expected → expected.toNat = found := by
  rcases h : s.arity? callee with _ | expected
  · rw [spans_of_steps_eq_nil (by simp [checkArity, h])]
    simp
  · by_cases hn : expected.toNat = found
    · rw [spans_of_steps_eq_nil (by simp [checkArity, h, hn])]
      simp [hn]
    · simp [spans_iff_steps, checkArity, h, hn, Step.failure?]

/-! ### Numbers and scopes -/

/-- A numbered construct spans what is generated for its number, and its counter is not full. -/
@[simp] theorem spans_numbered {k : Construct} {rest : Allocated → Fragment} :
    (numbered k rest).Spans listing s c a b ↔ c.numbering.count k + 1 < counterLimit ∧
      (rest ⟨k, (c.numbering.next k).count k⟩).Spans listing s
        { c with numbering := c.numbering.next k } a b := by
  simp only [spans_iff_steps, steps_numbered, failures_numbering_eq_nil_iff, and_assoc]
  refine and_congr_right fun h => ?_
  rw [numbering_of_lt h]
  rfl

/-- The inside of a loop spans what it spans in the scope of the loop. -/
@[simp] theorem spans_inLoop {f : Fragment} :
    (inLoop f).Spans listing s c a b ↔ f.Spans listing { s with loop? := some c.depth } c a b :=
  ⟨fun ⟨hs, hl, hb⟩ => ⟨hs, hl, hb⟩, fun ⟨hs, hl, hb⟩ => ⟨hs, hl, hb⟩⟩

/-- The inside of a function spans what it spans in the scope of the function. -/
@[simp] theorem spans_inFunction {name : String} {f : Fragment} :
    (inFunction name f).Spans listing s c a b ↔
      f.Spans listing { s with function := name, loop? := none } { c with depth := 0 } a b :=
  ⟨fun ⟨hs, hl, hb⟩ => ⟨hs, hl, hb⟩, fun ⟨hs, hl, hb⟩ => ⟨hs, hl, hb⟩⟩

/-- An escape stands in a loop and is the jump of that loop's depth. -/
@[simp] theorem spans_escape {how : Escape} :
    (escape how).Spans listing s c a b ↔
      ∃ depth, s.loop? = some depth ∧
        (code (how.jump (c.depth - depth))).Spans listing s c a b := by
  cases h : s.loop? <;> simp [spans_iff_steps, escape, h, Step.failure?]

/-! ### Pushes and pops -/

/-- A push spans its lines. -/
lemma spans_push {r : Register} : (push r).Spans listing s c a b ↔
    (code (pushLines r)).Spans listing s c a b := by
  change (code (pushLines r) ++ grow 1).Spans listing s c a b ↔ _
  simp only [spans_append, spans_grow, exists_eq_right]

/-- A pop spans its lines. -/
lemma spans_pop {r : Register} : (pop r).Spans listing s c a b ↔
    (code (popLines r)).Spans listing s c a b := by
  change (code (popLines r) ++ shrink 1).Spans listing s c a b ↔ _
  simp only [spans_append, spans_shrink, exists_eq_right]

/-! ### Rounds -/

/-- What a loop that tests first repeats. -/
def whileRound (test : Label → Fragment) (body : Fragment) (n : Nat) : Fragment :=
  concat [
    test (.numbered .whileBody n),
    code [.j (.numbered .whileExit n), .label (.numbered .whileBody n)],
    body]

/-- What a loop that tests last repeats. -/
def repeatRound (body : Fragment) (test : Label → Fragment) (n : Nat) : Fragment :=
  concat [body, test (.numbered .repeatExit n)]

/-- A loop that tests first stages its targets around its round. -/
lemma whileLoop_eq (test : Label → Fragment) (body : Fragment) :
    whileLoop test body = numbered .whileLoop fun a =>
      staged (.numbered .whileExit a.number) (.numbered .whileHead a.number)
        (whileRound test body a.number) := rfl

/-- A loop that tests last stages its targets around its round. -/
lemma repeatLoop_eq (body : Fragment) (test : Label → Fragment) :
    repeatLoop body test = numbered .repeatLoop fun a =>
      staged (.numbered .repeatExit a.number) (.numbered .repeatHead a.number)
        (repeatRound body test a.number) := rfl

/-! ### Constructs -/

section constructs

variable {f g : Fragment} {t : Label → Fragment} {l exit head : Label} {n : Nat}

/-- Where the parts of two operands stand: a push between them, and a pop after them. -/
lemma spans_operands : (operands f g).Spans listing s c a b ↔
    ∃ b₁, f.Spans listing s c a b₁ ∧
    ∃ b₂, (push .accumulator).Spans listing s (f.advance c) b₁ b₂ ∧
    ∃ b₃, g.Spans listing s ((push .accumulator).advance (f.advance c)) b₂ b₃ ∧
      (pop .scratch).Spans listing s (g.advance ((push .accumulator).advance (f.advance c)))
        b₃ b := by
  simp only [operands, concat_cons, concat_nil, spans_append, spans_nil, exists_eq_right]

/-- A test ends with its branch. -/
lemma spans_test {cmp : Comparison} : (test f cmp g l).Spans listing s c a b ↔
    ∃ b₁, (operands f g).Spans listing s c a b₁ ∧
      listing[b₁]? = some (cmp.branchTo l) ∧ b₁ + 1 = b := by
  simp only [test, spans_append, spans_code_cons, spans_code_nil]

/-- Where the parts of a conditional stand, once it is numbered. -/
lemma spans_branches {test : Fragment} :
    (concat [
      test,
      code [.label (.numbered .elseBody n)],
      g,
      code [.b (.numbered .join n), .label (.numbered .thenBody n)],
      f,
      code [.label (.numbered .join n)]]).Spans listing s c a b ↔
    ∃ b₁, test.Spans listing s c a b₁ ∧
      listing[b₁]? = some (.label (.numbered .elseBody n)) ∧
    ∃ b₂, g.Spans listing s (test.advance c) (b₁ + 1) b₂ ∧
      listing[b₂]? = some (.b (.numbered .join n)) ∧
      listing[b₂ + 1]? = some (.label (.numbered .thenBody n)) ∧
    ∃ b₃, f.Spans listing s (g.advance (test.advance c)) (b₂ + 2) b₃ ∧
      listing[b₃]? = some (.label (.numbered .join n)) ∧ b₃ + 1 = b := by
  simp only [concat_cons, concat_nil, spans_append, spans_code_cons, spans_code_nil, spans_nil,
    advance_code, and_assoc, exists_and_left, exists_eq_left']

/-- Where the parts of a round stand that tests first. -/
lemma spans_whileRound : (whileRound t f n).Spans listing s c a b ↔
    ∃ b₁, (t (.numbered .whileBody n)).Spans listing s c a b₁ ∧
      listing[b₁]? = some (.j (.numbered .whileExit n)) ∧
      listing[b₁ + 1]? = some (.label (.numbered .whileBody n)) ∧
      f.Spans listing s ((t (.numbered .whileBody n)).advance c) (b₁ + 2) b := by
  simp only [whileRound, concat_cons, concat_nil, spans_append, spans_code_cons, spans_code_nil,
    spans_nil, advance_code, and_assoc, exists_and_left, exists_eq_left', exists_eq_right]

/-- Where the parts of a round stand that tests last. -/
lemma spans_repeatRound : (repeatRound f t n).Spans listing s c a b ↔
    ∃ b₁, f.Spans listing s c a b₁ ∧
      (t (.numbered .repeatExit n)).Spans listing s (f.advance c) b₁ b := by
  simp only [repeatRound, concat_cons, concat_nil, spans_append, spans_nil, exists_eq_right]

/-- Where the parts of a loop stand: its inside is in the scope of the loop and two words deeper. -/
lemma spans_staged {round : Fragment} : (staged exit head round).Spans listing s c a b ↔
    listing[a]? = some (.la .exitTarget exit) ∧
    ∃ b₁, (push .exitTarget).Spans listing s c (a + 1) b₁ ∧
      listing[b₁]? = some (.la .restartTarget head) ∧
    ∃ b₂, (push .restartTarget).Spans listing s { c with depth := c.depth + 1 } (b₁ + 1) b₂ ∧
      listing[b₂]? = some (.label head) ∧
    ∃ b₃, round.Spans listing { s with loop? := some (c.depth + 2) }
        { c with depth := c.depth + 2 } (b₂ + 1) b₃ ∧
      listing[b₃]? = some (.j head) ∧ listing[b₃ + 1]? = some (.label exit) ∧
    ∃ b₄, (pop .restartTarget).Spans listing s (round.advance { c with depth := c.depth + 2 })
        (b₃ + 2) b₄ ∧
      (pop .exitTarget).Spans listing s
        ((pop .restartTarget).advance (round.advance { c with depth := c.depth + 2 })) b₄ b := by
  simp only [staged, concat_cons, concat_nil, spans_append, spans_code_cons, spans_code_nil,
    spans_nil, spans_inLoop, advance_code, advance_push, advance_inLoop, advance_append,
    advance_nil, and_assoc, exists_and_left, exists_eq_left', exists_eq_right]
  constructor
  · rintro ⟨hla, b₁, hpush, hla', b₂, hpush', hhead, _, ⟨b₃, hround, hback, hexit, rfl⟩, hpops⟩
    exact ⟨hla, b₁, hpush, hla', b₂, hpush', hhead, b₃, hround, hback, hexit, hpops⟩
  · rintro ⟨hla, b₁, hpush, hla', b₂, hpush', hhead, b₃, hround, hback, hexit, hpops⟩
    exact ⟨hla, b₁, hpush, hla', b₂, hpush', hhead, _, ⟨b₃, hround, hback, hexit, rfl⟩, hpops⟩

/-- Where the parts of a call stand, and that its number of arguments is the declared one. -/
lemma spans_call {callee : String} {count : Nat} {args : Fragment} :
    (call callee count args).Spans listing s c a b ↔
    (∀ expected, s.arity? callee = some expected → expected.toNat = count) ∧
    ∃ b₁, (push .framePointer).Spans listing s c a b₁ ∧
    ∃ b₂, args.Spans listing s { c with depth := c.depth + 1 } b₁ b₂ ∧
      listing[b₂]? = some (.jal (.entry callee)) ∧ b₂ + 1 = b := by
  simp only [call, concat_cons, concat_nil, spans_append, spans_nil, spans_checkArity,
    spans_shrink, spans_code_cons, spans_code_nil, advance_checkArity, advance_push, and_assoc,
    exists_and_left, exists_eq_left']

/-- Where the parts of an argument list stand: the first argument comes last. -/
lemma spans_lowerArgs_cons {arg : Expr} {args : List Expr} :
    (Expr.lowerArgs (arg :: args)).Spans listing s c a b ↔
    ∃ b₁, (Expr.lowerArgs args).Spans listing s c a b₁ ∧
    ∃ b₂, arg.lower.Spans listing s ((Expr.lowerArgs args).advance c) b₁ b₂ ∧
      (push .accumulator).Spans listing s
        (arg.lower.advance ((Expr.lowerArgs args).advance c)) b₂ b := by
  simp only [Expr.lowerArgs, concat_cons, concat_nil, spans_append, spans_nil, exists_eq_right]

/-- Where the parts of a function stand: its inside is in the scope of the function, where nothing
is pushed. -/
lemma spans_declaration {d : Declaration} : d.lower.Spans listing s c a b ↔
    ∃ size, frameSize d.arity = .ok size ∧
    ∃ b₁, (code (prologue d.name)).Spans listing { s with function := d.name, loop? := none }
        { c with depth := 0 } a b₁ ∧
    ∃ b₂, d.body.lower.Spans listing { s with function := d.name, loop? := none }
        { c with depth := 0 } b₁ b₂ ∧
      (code (epilogue size)).Spans listing { s with function := d.name, loop? := none }
        (d.body.lower.advance { c with depth := 0 }) b₂ b := by
  rw [Declaration.lower, function_eq]
  simp only [spans_append, spans_record_entered, spans_inFunction, spans_withAddress, concat_cons,
    concat_nil, spans_nil, exists_eq_left', exists_eq_right, advance_record, advance_code]

end constructs

end Fragment

/-! ### Programs -/

namespace Program

/-- A program whose names differ leaves what its fragment leaves, between the records of how many
declarations and of how many lines there are. -/
lemma emission_of_distinct {p : Program} (h : p.duplicate? = none) : p.emission =
    .event (.begun p.decls.length) ++ (p.lower.emission { arity? := p.arity? } {}).finish := by
  rw [emission, h]

/-- **When a program has a listing, and which:** its names differ, its fragment does not fail, and
the listing is what the fragment adds to it. -/
theorem compile_eq_ok_iff {p : Program} {listing : List (Instruction Label)} :
    p.compile = .ok listing ↔ p.duplicate? = none ∧
      (p.lower.emission { arity? := p.arity? } {}).failure? = none ∧
      (p.lower.emission { arity? := p.arity? } {}).code = listing := by
  cases hd : p.duplicate? with
  | some name => simp [compile, Emission.result, emission, hd, Emission.event, Emission.failure]
  | none =>
    rw [compile, emission_of_distinct hd, Emission.finish, Emission.result]
    cases hs : (p.lower.emission { arity? := p.arity? } {}).failure? with
    | some f => simp [hs, Emission.event]
    | none => simp [hs, Emission.code_append, Emission.event]

/-- What the listing of a program is made of: no name is declared twice, and the fragment of the
program spans the listing. -/
lemma spans_lower_of_compile {p : Program} {listing : List (Instruction Label)}
    (h : p.compile = .ok listing) : p.duplicate? = none ∧
      p.lower.Spans listing { arity? := p.arity? } {} 0 listing.length := by
  obtain ⟨hd, hs, rfl⟩ := compile_eq_ok_iff.mp h
  exact ⟨hd, hs, by simp, by simp⟩

/-- A declaration stands between those before it and those after it. -/
lemma spans_split_of_compile {p : Program} {listing : List (Instruction Label)}
    (h : p.compile = .ok listing) {pre post : List Declaration} {d : Declaration}
    (hd : p.decls = pre ++ d :: post) :
    ∃ a b,
      (Fragment.concat (pre.map Declaration.lower)).Spans listing { arity? := p.arity? } {} 0 a ∧
      d.lower.Spans listing { arity? := p.arity? }
        ((Fragment.concat (pre.map Declaration.lower)).advance {}) a b := by
  have hs := (spans_lower_of_compile h).2
  rw [lower, hd, List.map_append, List.map_cons, Fragment.concat_append, Fragment.concat_cons,
    Fragment.spans_append] at hs
  obtain ⟨a, hpre, hrest⟩ := hs
  obtain ⟨b, hd, -⟩ := Fragment.spans_append.mp hrest
  exact ⟨a, b, hpre, hd⟩

/-- **Each declaration of a program spans a stretch of its listing.** -/
theorem spans_of_compile {p : Program} {listing : List (Instruction Label)}
    (h : p.compile = .ok listing) {d : Declaration} (hd : d ∈ p.decls) :
    ∃ c a b, d.lower.Spans listing { arity? := p.arity? } c a b := by
  obtain ⟨pre, post, hsplit⟩ := List.append_of_mem hd
  obtain ⟨a, b, -, hspans⟩ := spans_split_of_compile h hsplit
  exact ⟨_, a, b, hspans⟩

end Program

end ImpRiscV
