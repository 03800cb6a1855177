import ImpRiscV.Proofs.Numbers
import ImpRiscV.Proofs.Placement

/-!
# Each label is defined once

A jump means the place where its label is defined, so a listing must not define a label twice. The
steps of an expression define exactly the labels of the constructs that they number, and these are
consecutive. References are counted along with definitions: a construct refers to each of its labels
a fixed number of times, and nothing else does.

## Main definitions

* `ImpRiscV.Mention` — a label that a line defines or refers to.
* `ImpRiscV.address` — the position at which a label is defined.

## Main results

* `ImpRiscV.Expr.count_mentions_lower` — the code of an expression mentions the labels of its own
  constructs: it defines each once, and refers to each as often as its role asks for.
* `ImpRiscV.Program.nodup_definedLabels` — no listing defines a label twice.
* `ImpRiscV.Program.address_eq` — a label means the only position that defines it.
-/

set_option relaxedAutoImplicit false
set_option autoImplicit false

namespace ImpRiscV

/-- The labels that a list of lines defines, in order. -/
def definedLabels (is : List (Instruction Label)) : List Label :=
  is.filterMap Instruction.definedLabel?

/-- No lines define no label. -/
@[simp] lemma definedLabels_nil : definedLabels [] = [] := rfl

/-- The label that a first line defines comes first. -/
@[simp] lemma definedLabels_cons (i : Instruction Label) (is : List (Instruction Label)) :
    definedLabels (i :: is) = i.definedLabel?.toList ++ definedLabels is := by
  cases i <;> rfl

/-- Labels are defined part by part. -/
@[simp] lemma definedLabels_append (is js : List (Instruction Label)) :
    definedLabels (is ++ js) = definedLabels is ++ definedLabels js := List.filterMap_append

/-! ### Mentions -/

/-- The label that a line refers to other than by a call. -/
def Instruction.reference? {α : Type} : Instruction α → Option α
  | .la _ l | .branch _ _ _ l | .b l | .j l => some l
  | _ => none

/-- A label as it is mentioned by a line that is not a call. -/
inductive Mention where
  /-- The line defines the label. -/
  | definition (label : Label)
  /-- The line refers to the label. -/
  | reference (label : Label)
deriving DecidableEq

/-- The mentioned label. -/
def Mention.label : Mention → Label
  | .definition l | .reference l => l

/-- How a line mentions a label, if it does. -/
def Instruction.mention? : Instruction Label → Option Mention
  | .label l => some (.definition l)
  | .la _ l | .branch _ _ _ l | .b l | .j l => some (.reference l)
  | _ => none

/-- The mentions of a list of lines, in order. -/
def mentions (is : List (Instruction Label)) : List Mention := is.filterMap Instruction.mention?

/-- No lines mention no label. -/
@[simp] lemma mentions_nil : mentions [] = [] := rfl

/-- What a first line mentions comes first. -/
@[simp] lemma mentions_cons (i : Instruction Label) (is : List (Instruction Label)) :
    mentions (i :: is) = i.mention?.toList ++ mentions is := by
  cases i <;> rfl

/-- Labels are mentioned part by part. -/
@[simp] lemma mentions_append (is js : List (Instruction Label)) :
    mentions (is ++ js) = mentions is ++ mentions js := List.filterMap_append

/-- A label is mentioned as defined as often as it is defined. -/
lemma count_mentions_definition (is : List (Instruction Label)) (l : Label) :
    (mentions is).count (.definition l) = (definedLabels is).count l := by
  induction is with
  | nil => rfl
  | cons i is ih =>
    rw [mentions_cons, definedLabels_cons, List.count_append, List.count_append, ih]
    cases i <;> simp [Instruction.mention?, Instruction.definedLabel?, List.count_cons]

/-- A label is mentioned as referred to exactly when some line refers to it. -/
lemma reference_mem_mentions {is : List (Instruction Label)} {l : Label} :
    .reference l ∈ mentions is ↔ ∃ i ∈ is, i.reference? = some l := by
  have hline : ∀ i : Instruction Label,
      i.mention? = some (.reference l) ↔ i.reference? = some l := by
    intro i
    cases i <;> simp [Instruction.mention?, Instruction.reference?]
  simp only [mentions, List.mem_filterMap, hline]

/-- How often the code of a construct refers to its label of the role. -/
def Role.references : Role → Nat
  | .elseBody => 0
  | .thenBody | .join | .whileBody => 1
  | .whileHead | .whileExit | .repeatHead | .repeatExit => 2

/-- How often a construct mentions a label of its own in this way. -/
def Mention.weight : Mention → Nat
  | .definition _ => 1
  | .reference (.entry _) => 0
  | .reference (.numbered r _) => r.references

/-- How the code of a construct mentions its label of a role. -/
def Role.mentions (r : Role) (number : Nat) : List Mention :=
  .definition (.numbered r number) ::
    List.replicate r.references (.reference (.numbered r number))

/-- How the code of the construct with the given number mentions its labels. -/
def Construct.mentions (k : Construct) (number : Nat) : List Mention :=
  k.roles.flatMap (·.mentions number)

/-- A label is mentioned as often as the weights of its mentions say. -/
lemma Role.count_mentions (r : Role) (number : Nat) (x : Mention) :
    (r.mentions number).count x =
      x.weight * if Label.numbered r number = x.label then 1 else 0 := by
  rcases x with l | (_ | ⟨r', n⟩)
  · by_cases h : Label.numbered r number = l <;>
      simp [mentions, Mention.weight, Mention.label, List.count_replicate, h]
  · simp [mentions, Mention.weight, List.count_replicate]
  · simp only [mentions, Mention.weight, Mention.label, List.count_cons, List.count_replicate]
    by_cases h : Label.numbered r number = .numbered r' n
    · obtain ⟨rfl, rfl⟩ := Label.numbered.inj h
      simp
    · simp [h]

/-- A construct mentions each of its labels as often as the way of mentioning asks for. -/
lemma Construct.count_mentions (k : Construct) (number : Nat) (x : Mention) :
    (k.mentions number).count x = x.weight * (k.labels number).count x.label := by
  rw [mentions, labels]
  induction k.roles with
  | nil => rfl
  | cons r rs ih =>
    rw [List.flatMap_cons, List.count_append, ih, r.count_mentions, List.map_cons,
      List.count_cons, Nat.mul_add, Nat.add_comm]
    simp only [beq_iff_eq]

/-! ### Expressions -/

namespace Expr

open Step Fragment

/-- A construct mentions its labels as often as it takes a number, if the steps after it mention its
labels as such a construct does, beside those of their own. -/
lemma count_mentions_numbering {k : Construct} {m : Numbering}
    {rest : Allocated → Numbering → List Step} {x : Mention}
    (h : ∀ n m', (mentions (lines (rest ⟨k, n⟩ m'))).count x =
      (k.mentions n).count x + x.weight * (labels (rest ⟨k, n⟩ m')).count x.label) :
    (mentions (lines (numbering k m rest))).count x =
      x.weight * (labels (numbering k m rest)).count x.label := by
  by_cases hlt : m.count k + 1 < counterLimit
  · have hnumber : m.upcoming k = ⟨k, m.count k + 1⟩ := by simp [Numbering.upcoming]
    rw [numbering_of_lt hlt, hnumber, labels_note_numbered, List.count_append, Nat.mul_add,
      ← Construct.count_mentions]
    exact h _ _
  · rw [numbering_of_le (Nat.le_of_not_lt hlt)]
    simp [line?]

/-- A definition mentions its label. -/
@[simp] lemma mention?_label (l : Label) :
    (Instruction.label l).mention? = some (.definition l) := rfl

/-- A jump of a conditional refers to its target. -/
@[simp] lemma mention?_b (l : Label) : (Instruction.b l).mention? = some (.reference l) := rfl

/-- A jump of a loop refers to its target. -/
@[simp] lemma mention?_j (l : Label) : (Instruction.j l).mention? = some (.reference l) := rfl

/-- The branch of a test refers to its target. -/
@[simp] lemma mention?_branchTo (cmp : Comparison) (target : Label) :
    (cmp.branchTo target).mention? = some (.reference target) := by
  cases cmp <;> rfl

/-- A push mentions no label. -/
@[simp] lemma mentions_pushLines (r : Register) : mentions (pushLines r) = [] := rfl

/-- A pop mentions no label. -/
@[simp] lemma mentions_popLines (r : Register) : mentions (popLines r) = [] := rfl

/-- Before its round a loop refers to its exit and its head and defines its head. -/
@[simp] lemma mentions_stageLines (exit head : Label) : mentions (stageLines exit head) =
    [.reference exit, .reference head, .definition head] := rfl

/-- After its round a loop refers to its head and defines its exit. -/
@[simp] lemma mentions_unstageLines (exit head : Label) : mentions (unstageLines exit head) =
    [.reference head, .definition exit] := rfl

/-- The check of a call mentions no label and numbers nothing. -/
@[simp] lemma mentions_checkArity (callee : String) (found : Nat) (s : Scope) (c : Cursor) :
    mentions (lines ((checkArity callee found).steps s c)) = [] ∧
      labels ((checkArity callee found).steps s c) = [] := by
  unfold checkArity
  dsimp only
  split
  · exact ⟨rfl, rfl⟩
  · split_ifs <;> exact ⟨rfl, rfl⟩

/-- An escape mentions no label and numbers nothing. -/
@[simp] lemma mentions_escape (how : Escape) (s : Scope) (c : Cursor) :
    mentions (lines ((Fragment.escape how).steps s c)) = [] ∧
      labels ((Fragment.escape how).steps s c) = [] := by
  unfold Fragment.escape
  dsimp only
  split
  · exact ⟨rfl, rfl⟩
  · unfold Escape.jump
    split_ifs <;> exact ⟨rfl, rfl⟩

/-- The use of a slot mentions no label and numbers nothing. -/
@[simp] lemma mentions_addressed (address : Except Overflow Int) (line : Int → Instruction Label)
    (h : ∀ x, (line x).mention? = none) :
    mentions (lines (addressed address fun x => emits [line x])) = [] ∧
      labels (addressed address fun x => emits [line x]) = [] := by
  cases address with
  | ok x => simp [addressed, h]
  | error overflow => exact ⟨rfl, rfl⟩

/-- If each argument mentions the labels of its own constructs, so does the argument list. -/
lemma count_mentions_lowerArgs {args : List Expr} {x : Mention}
    (h : ∀ arg ∈ args, ∀ (s : Scope) (c : Cursor),
      (mentions (lines (arg.lower.steps s c))).count x =
        x.weight * (labels (arg.lower.steps s c)).count x.label) (s : Scope) (c : Cursor) :
    (mentions (lines ((lowerArgs args).steps s c))).count x =
      x.weight * (labels ((lowerArgs args).steps s c)).count x.label := by
  induction args with
  | nil => simp
  | cons arg args ih =>
    have harg := h arg List.mem_cons_self
    have hargs := ih fun a ha => h a (List.mem_cons_of_mem _ ha)
    simp [harg, hargs, Nat.mul_add]

/-- **An expression mentions the labels of the constructs that it numbers, and no others.** It
defines each of them once.

**Proof sketch.** Induction over the expression: the lines of a construct mention its labels, and
those between the parts of other expressions mention none. -/
theorem count_mentions_lower (e : Expr) (s : Scope) (c : Cursor) (x : Mention) :
    (mentions (lines (e.lower.steps s c))).count x =
      x.weight * (labels (e.lower.steps s c)).count x.label := by
  induction e generalizing s c with
  | literal | skip => simp [Instruction.mention?]
  | var slot =>
    obtain ⟨hlines, hlabels⟩ := mentions_addressed (slotOffset slot)
      (fun x => .lw .accumulator x .framePointer) fun _ => rfl
    simp [hlines, hlabels]
  | assign slot value ih =>
    obtain ⟨hlines, hlabels⟩ := mentions_addressed (slotOffset slot)
      (fun x => .sw .accumulator x .framePointer) fun _ => rfl
    simp [ih, hlines, hlabels]
  | binary lhs op rhs ihl ihr =>
    simp [ihl, ihr, Nat.mul_add, Instruction.mention?]
  | seq first second ihf ihs => simp [ihf, ihs, Nat.mul_add]
  | call callee args ih =>
    simp [count_mentions_lowerArgs ih, Instruction.mention?]
  | escape how => simp
  | ifElse lhs cmp rhs thenBody elseBody ihl ihr iht ihe =>
    rw [steps_lower_ifElse]
    refine count_mentions_numbering fun n m' => ?_
    simp [ihl, ihr, iht, ihe, Nat.mul_add, Construct.mentions, Construct.roles, Role.mentions,
      Role.references, List.count_cons, Allocated.label]
    omega
  | whileDo lhs cmp rhs body ihl ihr ihb =>
    rw [steps_lower_whileDo]
    refine count_mentions_numbering fun n m' => ?_
    simp [ihl, ihr, ihb, Nat.mul_add, Construct.mentions, Construct.roles, Role.mentions,
      Role.references, List.replicate_succ, List.count_cons, Allocated.label]
    omega
  | repeatUntil body lhs cmp rhs ihb ihl ihr =>
    rw [steps_lower_repeatUntil]
    refine count_mentions_numbering fun n m' => ?_
    simp [ihl, ihr, ihb, Nat.mul_add, Construct.mentions, Construct.roles, Role.mentions,
      Role.references, List.replicate_succ, List.count_cons, Allocated.label]
    omega

/-- **How often the code of an expression makes a mention:** as often as its constructs do. -/
theorem count_mentions_code (e : Expr) {s : Scope} {c : Cursor}
    (h : (e.lower.emission s c).failure? = none) (x : Mention) :
    (mentions (e.lower.emission s c).code).count x =
      x.weight * c.numbering.fresh (fun k => e.count k) x.label := by
  rw [code_emission h, count_mentions_lower,
    e.count_labels_lower (failure?_emission_eq_none_iff.mp h)]

end Expr

/-! ### Programs -/

namespace Program

open Step Fragment

/-- The number of constructs of a kind in all bodies of a list of declarations. -/
def countDecls (k : Construct) : List Declaration → Nat
  | [] => 0
  | d :: ds => d.body.count k + countDecls k ds

/-- **A program mentions the labels of its constructs and defines the entries of its functions.** -/
theorem count_mentions_lower {ds : List Declaration} {s : Scope} {c : Cursor}
    (h : failures ((concat (ds.map Declaration.lower)).steps s c) = []) (x : Mention) :
    (mentions (lines ((concat (ds.map Declaration.lower)).steps s c))).count x =
      x.weight * c.numbering.fresh (fun k => countDecls k ds) x.label +
        (ds.map (.definition <| .entry ·.name)).count x := by
  induction ds generalizing c with
  | nil => simp [countDecls]
  | cons d ds ih =>
    rw [List.map_cons, concat_cons, steps_append, failures_append, List.append_eq_nil_iff] at h
    obtain ⟨size, -, hbody, hsteps, hadvance⟩ := Declaration.lower_of_success h.1
    have hprologue : mentions (prologue d.name) = [.definition (.entry d.name)] := rfl
    have hepilogue : mentions (epilogue size) = [] := rfl
    have hcount : ∀ k, (d.lower.advance c).numbering.count k =
        c.numbering.count k + d.body.count k := by simp [hadvance]
    rw [List.map_cons, concat_cons, steps_append, lines_append, mentions_append, List.count_append,
      ih h.2, hsteps]
    simp only [lines_cons, lines_append, lines_emits, mentions_append, List.count_append, line?,
      Option.toList_none, List.nil_append, hprologue, hepilogue, List.count_nil, List.map_cons,
      Expr.count_mentions_lower, Expr.count_labels_lower _ hbody, countDecls,
      ← Numbering.fresh_add _ hcount, Nat.mul_add, List.count_cons]
    omega

variable {p : Program} {listing : List (Instruction Label)}

/-- How often a listing makes a mention. -/
theorem count_mentions (h : p.compile = .ok listing) (x : Mention) :
    (mentions listing).count x =
      x.weight * ({} : Numbering).fresh (fun k => countDecls k p.decls) x.label +
        (p.decls.map (Mention.definition <| .entry ·.name)).count x := by
  obtain ⟨-, hs, rfl⟩ := compile_eq_ok_iff.mp h
  rw [code_emission hs]
  exact count_mentions_lower (failure?_emission_eq_none_iff.mp hs) x

/-- How often a listing refers to a label other than by a call. -/
lemma count_references (h : p.compile = .ok listing) (l : Label) :
    (mentions listing).count (.reference l) =
      (Mention.reference l).weight * ({} : Numbering).fresh (fun k => countDecls k p.decls) l := by
  have hentries : (p.decls.map (Mention.definition <| .entry ·.name)).count (.reference l) = 0 :=
    List.count_eq_zero_of_not_mem (by simp)
  rw [count_mentions h, hentries, Nat.add_zero, Mention.label]

/-- How often a listing defines a label. -/
lemma count_definedLabels (h : p.compile = .ok listing) (l : Label) :
    (definedLabels listing).count l = ({} : Numbering).fresh (fun k => countDecls k p.decls) l +
      (p.decls.map (Label.entry ·.name)).count l := by
  have hinj : Function.Injective Mention.definition := fun a b => Mention.definition.inj
  have hmap : p.decls.map (Mention.definition <| .entry ·.name) =
      (p.decls.map (Label.entry ·.name)).map .definition := by
    rw [List.map_map]
    rfl
  rw [← count_mentions_definition, count_mentions h, hmap, List.count_map_of_injective _ _ hinj,
    Mention.weight, Mention.label, Nat.one_mul]

/-- The entries of the functions of a program that has a listing are distinct. -/
lemma nodup_entries (h : p.compile = .ok listing) : (p.decls.map (Label.entry ·.name)).Nodup := by
  have hnames := duplicate?_eq_none_iff.mp (spans_lower_of_compile h).1
  have hentries := hnames.map (f := Label.entry) fun a b => Label.entry.inj
  rwa [List.map_map] at hentries

/-- **No listing defines a label twice.** -/
theorem nodup_definedLabels (h : p.compile = .ok listing) : (definedLabels listing).Nodup := by
  rw [List.nodup_iff_count_le_one]
  intro l
  rw [count_definedLabels h]
  cases l with
  | entry name =>
    have := List.nodup_iff_count_le_one.mp (nodup_entries h) (.entry name)
    simp only [Numbering.fresh]
    omega
  | numbered r n =>
    have hzero : (p.decls.map (Label.entry ·.name)).count (.numbered r n) = 0 :=
      List.count_eq_zero_of_not_mem (by simp)
    rw [hzero, Numbering.fresh]
    split_ifs <;> omega

end Program

/-! ### Addresses -/

/-- The position at which a listing defines a label. -/
def address (listing : List (Instruction Label)) (l : Label) : Option Nat :=
  listing.findIdx? fun i => i.definedLabel? == some l

/-- **A label means the only position that defines it.** -/
theorem Program.address_eq {p : Program} {listing : List (Instruction Label)}
    (h : p.compile = .ok listing) {a : Nat} {l : Label} (ha : listing[a]? = some (.label l)) :
    address listing l = some a := by
  obtain ⟨hlt, hget⟩ := List.getElem?_eq_some_iff.mp ha
  rw [address, List.findIdx?_eq_some_iff_getElem]
  refine ⟨hlt, by simp [hget, Instruction.definedLabel?], fun j hj hdef => ?_⟩
  -- a definition further up would be a second one
  have hsplit : listing = listing.take a ++ .label l :: listing.drop (a + 1) := by
    rw [← hget, List.getElem_cons_drop, List.take_append_drop]
  have hmem : l ∈ definedLabels (listing.take a) := by
    refine List.mem_filterMap.mpr ⟨listing[j], ?_, by simpa using hdef⟩
    exact List.mem_take_iff_getElem.mpr ⟨j, by omega, rfl⟩
  have hnodup := nodup_definedLabels h
  rw [hsplit, definedLabels_append, List.nodup_append] at hnodup
  exact hnodup.2.2 l hmem l (by simp [Instruction.definedLabel?]) rfl

end ImpRiscV
