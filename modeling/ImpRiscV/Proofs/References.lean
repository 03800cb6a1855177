import ImpRiscV.Proofs.LabelTexts
import ImpRiscV.Proofs.Layout
import ImpRiscV.Proofs.FunctionOutline

/-!
# References stay inside of the code that defines their labels

The code of an expression can be moved as a whole: all labels to which it refers are its own, and
no other code refers to them. Only calls leave it. A call of a declared function goes to the first
line of the code of that function; a call of any other function goes to a label that is not defined.

## Main definitions

* `ImpRiscV.referredTexts` — the texts of the labels to which lines of assembly refer.
* `ImpRiscV.ClosedSegment` — some lines are a segment of an assembly whose references are closed.

## Main results

* `ImpRiscV.Visit.closedSegment` — the code of an expression is such a segment.
* `ImpRiscV.Program.references_closed` — so is that of each occurrence in a program, and calls go
  to entries.
-/

set_option relaxedAutoImplicit false
set_option autoImplicit false

namespace ImpRiscV

/-! ### References -/

/-- A renamed line refers to the renamed label. -/
lemma Instruction.reference?_map {α β : Type} (f : α → β) (i : Instruction α) :
    (i.map f).reference? = i.reference?.map f := by cases i <;> rfl

/-- The labels to which a list of lines refers other than by calls, in order. -/
def referredLabels (is : List (Instruction Label)) : List Label :=
  is.filterMap Instruction.reference?

/-- The texts of the labels to which lines of assembly refer other than by calls, in order. -/
def referredTexts (is : List (Instruction String)) : List String :=
  is.filterMap Instruction.reference?

/-- A listing that is spelled out refers to the texts of its labels. -/
lemma referredTexts_spelled (is : List (Instruction Label)) :
    referredTexts (spelled is) = (referredLabels is).map Label.text := by
  simp only [referredTexts, spelled, referredLabels, List.filterMap_map, List.map_filterMap]
  refine List.filterMap_congr fun i _ => ?_
  exact Instruction.reference?_map Label.text i

/-- The labels that lines refer to are those with a mention. -/
lemma mem_referredLabels {is : List (Instruction Label)} {l : Label} :
    l ∈ referredLabels is ↔ 0 < (mentions is).count (.reference l) := by
  rw [List.count_pos_iff, reference_mem_mentions, referredLabels, List.mem_filterMap]

/-- The labels that lines define are those with a definition. -/
lemma mem_definedLabels {is : List (Instruction Label)} {l : Label} :
    l ∈ definedLabels is ↔ 0 < (definedLabels is).count l := List.count_pos_iff.symm

/-! ### Closed segments -/

/-- The lines of `segment` stand in `code` one after another, from position `start` on, and what
refers to a label other than by a call does not cross their ends. -/
structure ClosedSegment (code : List (Instruction String)) (start : Nat)
    (segment : List (Instruction String)) : Prop where
  /-- The lines follow position `start`. -/
  lines : segment <+: code.drop start
  /-- What is referred to inside is defined inside, once. -/
  inside : ∀ l ∈ referredTexts segment, (definedTexts segment).count l = 1
  /-- What is referred to outside is not defined inside. -/
  outside : ∀ l ∈ referredTexts (code.take start ++ code.drop (start + segment.length)),
    l ∉ definedTexts segment

namespace Visit

variable {p : Program} {listing : List (Instruction Label)} {v : Visit}

/-- How the code of a visited expression mentions a label. -/
lemma count_mentions_lines (h : v.Spans listing) (x : Mention) :
    (mentions v.lines).count x =
      x.weight * v.cursor.numbering.fresh (fun k => v.expr.count k) x.label :=
  v.expr.count_mentions_code h.success x

/-- A visit defines the labels of its constructs once, and no others. -/
lemma count_definedLabels_lines (h : v.Spans listing) (l : Label) :
    (definedLabels v.lines).count l =
      v.cursor.numbering.fresh (fun k => v.expr.count k) l := by
  rw [← count_mentions_definition, count_mentions_lines h, Mention.weight, Mention.label,
    Nat.one_mul]

/-- What a visited expression refers to it defines, once. -/
lemma count_definedLabels_eq_one (h : v.Spans listing) {l : Label}
    (hl : l ∈ referredLabels v.lines) : (definedLabels v.lines).count l = 1 := by
  rw [mem_referredLabels, count_mentions_lines h] at hl
  rw [count_definedLabels_lines h]
  have hle := v.cursor.numbering.fresh_le_one (fun k => v.expr.count k) l
  have hpos := Nat.pos_of_mul_pos_left hl
  change 0 < v.cursor.numbering.fresh (fun k => v.expr.count k) l at hpos
  omega

/-- A listing is made of the lines before a visited expression, its own, and the rest. -/
lemma listing_eq (h : v.Spans listing) :
    listing = listing.take v.start ++ (v.lines ++ listing.drop v.stop) := by
  obtain ⟨rest, hrest⟩ := h.lines
  have hdrop : listing.drop v.start = v.lines ++ rest := hrest.symm
  have hstop : listing.drop v.stop = rest := by
    rw [stop, ← List.drop_drop, hdrop, List.drop_left]
  rw [hstop, ← hdrop, List.take_append_drop]

/-- What a visited expression defines is referred to by no other line.

**Proof sketch.** The whole listing refers to a label no more often than the construct does to which
the label belongs, and the code of an expression that defines the label has made all of these
references. -/
lemma not_mem_definedLabels (hp : p.compile = .ok listing) (h : v.Spans listing) {l : Label}
    (hl : l ∈ referredLabels (listing.take v.start ++ listing.drop v.stop)) :
    l ∉ definedLabels v.lines := by
  intro hdef
  rw [mem_definedLabels, count_definedLabels_lines h] at hdef
  rw [mem_referredLabels, mentions_append, List.count_append] at hl
  have hinside := count_mentions_lines h (.reference l)
  have hwhole := Program.count_references hp l
  rw [listing_eq h, mentions_append, mentions_append, List.count_append, List.count_append,
    hinside] at hwhole
  have hown : v.cursor.numbering.fresh (fun k => v.expr.count k) l = 1 := by
    have := v.cursor.numbering.fresh_le_one (fun k => v.expr.count k) l
    omega
  have hall := Nat.mul_le_mul_left (Mention.reference l).weight
    (({} : Numbering).fresh_le_one (fun k => Program.countDecls k p.decls) l)
  simp only [Mention.label, hown] at hwhole
  omega

/-- **The code of an expression is a closed segment** of the listing. -/
theorem closedSegment (hp : p.compile = .ok listing) (h : v.Spans listing) :
    ClosedSegment (spelled listing) v.start (spelled v.lines) := by
  have hinj : Function.Injective Label.text := fun a b => Label.text_inj.mp
  refine ⟨?_, ?_, ?_⟩
  · have hlines := h.lines.map (Instruction.map Label.text)
    rw [List.map_drop] at hlines
    exact hlines
  · intro t ht
    rw [referredTexts_spelled] at ht
    obtain ⟨l, hl, rfl⟩ := List.mem_map.mp ht
    rw [definedTexts_spelled, List.count_map_of_injective _ _ hinj]
    exact count_definedLabels_eq_one h hl
  · intro t ht hdef
    have hrest : (spelled listing).take v.start ++
        (spelled listing).drop (v.start + (spelled v.lines).length) =
        spelled (listing.take v.start ++ listing.drop v.stop) := by
      simp only [spelled, List.map_append, List.map_take, List.map_drop, List.length_map, stop]
    rw [hrest, referredTexts_spelled] at ht
    obtain ⟨l, hl, rfl⟩ := List.mem_map.mp ht
    rw [definedTexts_spelled] at hdef
    exact not_mem_definedLabels hp h hl ((List.mem_map_of_injective hinj).mp hdef)

end Visit

/-! ### Calls -/

namespace Program

variable {p : Program} {listing : List (Instruction Label)}

/-- Only entries are called. -/
lemma exists_callee (hp : p.compile = .ok listing) {l : Label} (hl : .jal l ∈ listing) :
    ∃ callee, l = .entry callee := by
  obtain ⟨xs, hchart, -⟩ := exists_chart hp
  obtain ⟨i, hi⟩ := List.mem_iff_getElem?.mp hl
  rw [← hchart.lines, List.getElem?_map] at hi
  obtain ⟨x, hx, hline⟩ := Option.map_eq_some_iff.mp hi
  obtain ⟨after, hpass, -⟩ := hchart.flows.passes hx
  cases hpass with
  | call => exact ⟨_, (Instruction.jal.inj hline).symm⟩
  | plain hexec =>
    cases hline
    cases hexec
  | branch | b | j | escape | ret => cases hline

/-- A listing defines the entries of the declared functions only, each of them once. -/
lemma count_definedTexts_entry (hp : p.compile = .ok listing) (name : String) :
    (definedTexts (spelled listing)).count (name ++ "_entry") =
      if ∃ d ∈ p.decls, d.name = name then 1 else 0 := by
  have hinj : Function.Injective Label.text := fun a b => Label.text_inj.mp
  have hcount := count_definedLabels hp (.entry name)
  rw [Numbering.fresh, Nat.zero_add, (nodup_entries hp).count] at hcount
  rw [definedTexts_spelled]
  refine (List.count_map_of_injective _ _ hinj (.entry name)).trans (hcount.trans ?_)
  simp

end Program

/-- The code of a declaration starts with the label of its entry. -/
lemma Placement.head?_lines {p : Program} {P : Placement} {listing : List (Instruction Label)}
    (hp : p.compile = .ok listing) (hP : P ∈ p.placements) :
    (P.lines p).head? = some (.label (.entry P.decl.name)) := by
  obtain ⟨size, -, hprologue, -, hepilogue⟩ := spans_body hp hP
  have hlt : P.start < P.stop p := by
    have hstart : (P.body p).start = P.start + 4 := rfl
    have hle := (P.body p).start_le_stop
    have hle' := hepilogue.le
    omega
  obtain ⟨rest, hrest⟩ := (spans hp hP).lines
  have hhead : (P.lines p ++ rest).head? = some (.label (.entry P.decl.name)) := by
    rw [← (Fragment.spans_code_cons.mp hprologue).1, ← List.head?_drop, ← hrest]
    rfl
  cases hlines : P.lines p with
  | nil => simp [stop, hlines] at hlt
  | cons i is => simpa [hlines] using hhead

namespace Program

variable {p : Program} {listing : List (Instruction Label)}

/-- **References are closed.** Each declaration of a program has a place in its listing. For each
occurrence of an expression in the body of a declaration, the lines that are emitted for it stand
together in the place of the declaration; all labels to which they refer other than by calls are
defined among them, once; and no line outside of them refers in this way to a label that is defined
among them. A call goes to the entry of a function: if the function is declared, the entry is
defined once, as the first line in the place of the declaration, and if it is not, the entry is not
defined at all.

**Proof sketch.** An occurrence is visited, so its code is a closed segment by
`Visit.closedSegment`. Where an entry is defined is known from the count of definitions. -/
theorem references_closed (hp : p.compile = .ok listing) :
    p.placements.map Placement.decl = p.decls ∧
    (∀ P ∈ p.placements, ∀ (path : List Nat) (e : Expr), P.decl.body.at? path = some e →
      ∃ v : Visit, (P.body p).at? path = some v ∧ v.expr = e ∧
        P.start ≤ v.start ∧ v.stop ≤ P.stop p ∧
        ClosedSegment (spelled listing) v.start (spelled v.lines)) ∧
    ∀ l, .jal l ∈ spelled listing → ∃ callee : String, l = callee ++ "_entry" ∧
      ((∃ P ∈ p.placements, P.decl.name = callee ∧ (definedTexts (spelled listing)).count l = 1 ∧
          spelled (P.lines p) <+: (spelled listing).drop P.start ∧
          (spelled (P.lines p)).head? = some (.label l)) ∨
        ((∀ d ∈ p.decls, d.name ≠ callee) ∧ l ∉ definedTexts (spelled listing))) := by
  refine ⟨p.map_decl_placements, ?_, ?_⟩
  · intro P hP path e he
    obtain ⟨size, -, hprologue, hbody, hepilogue⟩ := Placement.spans_body hp hP
    have hvisit := Visit.map_expr_at? path (P.body p)
    rw [show (P.body p).expr.at? path = some e from he] at hvisit
    obtain ⟨v, hv, rfl⟩ := Option.map_eq_some_iff.mp hvisit
    obtain ⟨hspans, hstart, hstop⟩ := hbody.at? hv
    exact ⟨v, hv, rfl, hprologue.le.trans hstart, hstop.trans hepilogue.le,
      Visit.closedSegment hp hspans⟩
  · intro t ht
    obtain ⟨i, hi, hline⟩ := List.mem_map.mp ht
    obtain ⟨l, rfl, rfl⟩ : ∃ l, i = .jal l ∧ l.text = t := by
      cases i <;> cases hline
      exact ⟨_, rfl, rfl⟩
    obtain ⟨callee, rfl⟩ := exists_callee hp hi
    have hcount := count_definedTexts_entry hp callee
    refine ⟨callee, rfl, ?_⟩
    by_cases hdeclared : ∃ d ∈ p.decls, d.name = callee
    · left
      rw [if_pos hdeclared] at hcount
      obtain ⟨d, hd, rfl⟩ := hdeclared
      rw [← p.map_decl_placements] at hd
      obtain ⟨P, hP, rfl⟩ := List.mem_map.mp hd
      have hlines := (Placement.spans hp hP).lines.map (Instruction.map Label.text)
      rw [List.map_drop] at hlines
      refine ⟨P, hP, rfl, hcount, hlines, ?_⟩
      rw [spelled, List.head?_map, Placement.head?_lines hp hP]
      rfl
    · right
      rw [if_neg hdeclared, List.count_eq_zero] at hcount
      exact ⟨fun d hd hname => hdeclared ⟨d, hd, hname⟩, hcount⟩

/-- A program with a function that calls itself, and another one that is not declared, out of a
conditional in a loop. -/
def pingPrint : Program where
  decls := [
    { name := "ping", arity := 1, body :=
      .whileDo ⟨.var 1, .gt, .literal 0⟩
        (.ifElse ⟨.call "ping" [.literal 0], .eq, .literal 0⟩ (.escape .exit)
          (.call "print" [.var 1])) }]

/-- The conditional stands in the loop as a closed segment, and the function that is not declared
has no entry. -/
theorem references_closed_pingPrint :
    ∃ listing, pingPrint.compile = .ok listing ∧
      (∃ P ∈ pingPrint.placements, ∃ v : Visit, (P.body pingPrint).at? [2] = some v ∧
        v.expr.parts = [.call "ping" [.literal 0], .literal 0, .call "print" [.var 1],
          .escape .exit] ∧ ClosedSegment (spelled listing) v.start (spelled v.lines)) ∧
      "print_entry" ∉ definedTexts (spelled listing) := by
  obtain ⟨listing, hlisting, hcall⟩ : ∃ listing, pingPrint.compile = .ok listing ∧
      .jal (.entry "print") ∈ listing := ⟨_, rfl, by decide⟩
  obtain ⟨-, hparts, hcalls⟩ := references_closed hlisting
  refine ⟨listing, hlisting, ?_, ?_⟩
  · obtain ⟨v, hv, he, -, -, hclosed⟩ := hparts _ List.mem_cons_self [2] _ rfl
    exact ⟨_, List.mem_cons_self, v, hv, by rw [he]; rfl, hclosed⟩
  · obtain ⟨callee, htext, hdeclared | hundeclared⟩ :=
      hcalls "print_entry" (List.mem_map.mpr ⟨_, hcall, rfl⟩)
    · obtain ⟨P, hP, hname, -⟩ := hdeclared
      obtain rfl : callee = "print" := (String.append_left_inj _).mp htext.symm
      have hmem : P.decl ∈ pingPrint.decls := by
        rw [← pingPrint.map_decl_placements]
        exact List.mem_map_of_mem hP
      obtain hd := List.mem_singleton.mp hmem
      rw [hd] at hname
      exact absurd hname (by decide)
    · exact hundeclared.2

end Program

end ImpRiscV
