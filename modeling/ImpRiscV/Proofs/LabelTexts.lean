import Mathlib.Data.List.Range
import ImpRiscV.Label.Spelling
import ImpRiscV.Proofs.DefinedLabels

/-!
# The texts of all labels of a listing

Assembly text knows labels only by their spelling, and a function may be named by any text. This
file lists, as texts, which labels the listing of a program defines: an entry for each function, and
for each kind of construct the labels numbered from 1 up to the number of constructs of that kind.
No text is listed twice.

## Main definitions

* `ImpRiscV.spelled` — a listing with its labels spelled out.
* `ImpRiscV.definedTexts` — the texts of the labels that lines of assembly define.
* `ImpRiscV.constructTexts` — the texts of the labels of so many constructs of each kind.

## Main results

* `ImpRiscV.Program.perm_definedLabels` — the labels that a listing defines, up to their order.
* `ImpRiscV.Program.definedTexts_of_compile` — their texts, all of them distinct.
-/

set_option relaxedAutoImplicit false
set_option autoImplicit false

namespace ImpRiscV

/-- The lines of a listing with their labels spelled out. -/
def spelled (is : List (Instruction Label)) : List (Instruction String) :=
  is.map (·.map Label.text)

/-- The texts of the labels that lines of assembly define, in order. -/
def definedTexts (is : List (Instruction String)) : List String :=
  is.filterMap Instruction.definedLabel?

/-- A listing that is spelled out defines the texts of its labels. -/
lemma definedTexts_spelled (is : List (Instruction Label)) :
    definedTexts (spelled is) = (definedLabels is).map Label.text := by
  simp only [definedTexts, spelled, definedLabels, List.filterMap_map, List.map_filterMap]
  refine List.filterMap_congr fun i _ => ?_
  exact Instruction.definedLabel?_map Label.text i

/-- The texts of the labels of `conditionals` conditionals, `whiles` loops that test first and
`repeats` loops that test last. -/
def constructTexts (conditionals whiles repeats : Nat) : List String :=
  ((List.range' 1 conditionals).flatMap fun n =>
    ["then_" ++ toString n, "else_" ++ toString n, "exit_" ++ toString n]) ++
  ((List.range' 1 whiles).flatMap fun n =>
    ["loop_" ++ toString n, "loop_body_" ++ toString n, "loop_exit_" ++ toString n]) ++
  ((List.range' 1 repeats).flatMap fun n =>
    ["repeat_" ++ toString n, "repeat_exit_" ++ toString n])

namespace Construct

/-- The labels of the constructs of a kind that are numbered from 1 up to `count`. -/
def allLabels (k : Construct) (count : Nat) : List Label := (List.range' 1 count).flatMap k.labels

/-- The labels of a construct are those of its roles. -/
lemma mem_labels {k : Construct} {n : Nat} {l : Label} :
    l ∈ k.labels n ↔ ∃ r, r.construct = k ∧ .numbered r n = l := by
  simp [labels]

/-- The labels of all constructs of a kind, with their numbers. -/
lemma mem_allLabels {k : Construct} {count : Nat} {l : Label} :
    l ∈ k.allLabels count ↔
      ∃ r n, r.construct = k ∧ 0 < n ∧ n ≤ count ∧ .numbered r n = l := by
  simp only [allLabels, List.mem_flatMap, List.mem_range'_1, mem_labels]
  constructor
  · rintro ⟨n, hn, r, hr, rfl⟩
    exact ⟨r, n, hr, by omega, by omega, rfl⟩
  · rintro ⟨r, n, hr, hpos, hle, rfl⟩
    exact ⟨n, by omega, r, hr, rfl⟩

/-- The labels of the constructs of a kind are distinct. -/
lemma nodup_allLabels (k : Construct) (count : Nat) : (k.allLabels count).Nodup := by
  refine List.nodup_flatMap.mpr ⟨fun n _ => ?_, ?_⟩
  · cases k <;> simp [labels, roles]
  · refine (List.nodup_range' (s := 1) (n := count)).imp fun {m n} hne l hm hn => ?_
    obtain ⟨r, -, rfl⟩ := mem_labels.mp hm
    obtain ⟨r', -, h⟩ := mem_labels.mp hn
    exact hne (Label.numbered.inj h).2.symm

/-- Constructs of different kinds have no label in common. -/
lemma disjoint_allLabels {k k' : Construct} (h : k ≠ k') (m n : Nat) :
    (k.allLabels m).Disjoint (k'.allLabels n) := by
  intro l hl hl'
  obtain ⟨r, i, rfl, -, -, rfl⟩ := mem_allLabels.mp hl
  obtain ⟨r', j, rfl, -, -, heq⟩ := mem_allLabels.mp hl'
  exact h (by rw [(Label.numbered.inj heq).1])

end Construct

namespace Program

/-- The labels of the constructs in all bodies of a program. -/
def constructLabels (p : Program) : List Label :=
  Construct.conditional.allLabels (countDecls .conditional p.decls) ++
  Construct.whileLoop.allLabels (countDecls .whileLoop p.decls) ++
  Construct.repeatLoop.allLabels (countDecls .repeatLoop p.decls)

/-- The labels of the constructs of a program, with their numbers. -/
lemma mem_constructLabels {p : Program} {l : Label} : l ∈ p.constructLabels ↔
    ∃ r n, 0 < n ∧ n ≤ countDecls r.construct p.decls ∧ .numbered r n = l := by
  simp only [constructLabels, List.mem_append, Construct.mem_allLabels]
  constructor
  · rintro ((⟨r, n, hr, h⟩ | ⟨r, n, hr, h⟩) | ⟨r, n, hr, h⟩) <;> exact ⟨r, n, by rw [hr]; exact h⟩
  · rintro ⟨r, n, h⟩
    cases hr : r.construct <;> rw [hr] at h
    · exact .inl (.inl ⟨r, n, hr, h⟩)
    · exact .inl (.inr ⟨r, n, hr, h⟩)
    · exact .inr ⟨r, n, hr, h⟩

/-- The labels of the constructs of a program are distinct. -/
lemma nodup_constructLabels (p : Program) : p.constructLabels.Nodup := by
  have hcw : Construct.conditional ≠ .whileLoop := by decide
  have hcr : Construct.conditional ≠ .repeatLoop := by decide
  have hwr : Construct.whileLoop ≠ .repeatLoop := by decide
  refine ((Construct.nodup_allLabels _ _).append (Construct.nodup_allLabels _ _)
    (Construct.disjoint_allLabels hcw _ _)).append (Construct.nodup_allLabels _ _) ?_
  exact List.disjoint_append_left.mpr
    ⟨Construct.disjoint_allLabels hcr _ _, Construct.disjoint_allLabels hwr _ _⟩

/-- The texts of these labels, spelled out. -/
lemma map_text_constructLabels (p : Program) : p.constructLabels.map Label.text =
    constructTexts (countDecls .conditional p.decls) (countDecls .whileLoop p.decls)
      (countDecls .repeatLoop p.decls) := by
  simp only [constructLabels, constructTexts, Construct.allLabels, List.map_append,
    List.map_flatMap]
  rfl

variable {p : Program} {listing : List (Instruction Label)}

/-- **The labels of a listing** are the entries of its functions and the labels of its constructs.

**Proof sketch.** Neither side lists a label twice, so it is enough that both list the same labels,
and how often a label is defined is known from `count_definedLabels`. -/
theorem perm_definedLabels (h : p.compile = .ok listing) :
    (definedLabels listing).Perm (p.decls.map (Label.entry ·.name) ++ p.constructLabels) := by
  have hnodup : (p.decls.map (Label.entry ·.name) ++ p.constructLabels).Nodup := by
    refine (nodup_entries h).append p.nodup_constructLabels ?_
    intro l hl hl'
    obtain ⟨d, -, rfl⟩ := List.mem_map.mp hl
    obtain ⟨r, n, -, -, hne⟩ := mem_constructLabels.mp hl'
    cases hne
  rw [List.perm_ext_iff_of_nodup (nodup_definedLabels h) hnodup]
  intro l
  rw [← List.count_pos_iff, count_definedLabels h, List.mem_append, mem_constructLabels]
  cases l with
  | entry f =>
    rw [Numbering.fresh, Nat.zero_add, List.count_pos_iff]
    simp
  | numbered r n =>
    have hzero : (p.decls.map (Label.entry ·.name)).count (.numbered r n) = 0 :=
      List.count_eq_zero_of_not_mem (by simp)
    rw [hzero, Numbering.fresh, Numbering.count_start, Nat.zero_add, Nat.add_zero]
    by_cases hn : 0 < n ∧ n ≤ countDecls r.construct p.decls
    · rw [if_pos hn]
      exact ⟨fun _ => .inr ⟨r, n, hn.1, hn.2, rfl⟩, fun _ => Nat.one_pos⟩
    · rw [if_neg hn]
      constructor
      · omega
      · rintro (hl | ⟨r', n', hpos, hle, heq⟩)
        · simp at hl
        · obtain ⟨rfl, rfl⟩ := Label.numbered.inj heq
          exact absurd ⟨hpos, hle⟩ hn

/-- **The texts of all labels.** The listing of a program, spelled out, defines no label twice.
Whatever the names of the functions, the labels it defines are, up to their order, an entry for each
function and the labels of as many conditionals and loops as the bodies contain. No name, declared
or not, makes an entry that is spelled like the label of a construct.

**Proof sketch.** Distinct labels have distinct texts by `Label.text_inj`, so all is known from the
labels themselves. -/
theorem definedTexts_of_compile (h : p.compile = .ok listing) :
    (definedTexts (spelled listing)).Nodup ∧
    (definedTexts (spelled listing)).Perm
      (p.decls.map (·.name ++ "_entry") ++
        constructTexts (countDecls .conditional p.decls) (countDecls .whileLoop p.decls)
          (countDecls .repeatLoop p.decls)) ∧
    ∀ name : String, name ++ "_entry" ∉
      constructTexts (countDecls .conditional p.decls) (countDecls .whileLoop p.decls)
        (countDecls .repeatLoop p.decls) := by
  have hinj : Function.Injective Label.text := fun a b => Label.text_inj.mp
  rw [definedTexts_spelled, ← map_text_constructLabels]
  refine ⟨(nodup_definedLabels h).map hinj, ?_, ?_⟩
  · have hperm := (perm_definedLabels h).map Label.text
    rw [List.map_append, List.map_map] at hperm
    exact hperm
  · intro name hmem
    obtain ⟨l, hl, htext⟩ := List.mem_map.mp hmem
    obtain ⟨r, n, -, -, rfl⟩ := mem_constructLabels.mp hl
    exact Label.text_entry_ne_text_numbered name r n htext.symm

/-- A program whose functions have names that look like labels of constructs. -/
def oddNames : Program where
  decls := [
    { name := "loop_1", arity := 0, body :=
      .repeatUntil (.whileDo ⟨.literal 0, .lt, .literal 1⟩ (.escape .exit))
        ⟨.literal 0, .eq, .literal 0⟩ },
    { name := "", arity := 1, body :=
      .ifElse ⟨.var 1, .eq, .literal 0⟩ .skip (.whileDo ⟨.var 1, .gt, .literal 0⟩ .skip) }]

/-- The functions of the program share no label with its loops and its conditional. -/
theorem definedTexts_of_compile_oddNames :
    ∃ listing, oddNames.compile = .ok listing ∧
      (definedTexts (spelled listing)).Perm
        ["loop_1_entry", "_entry", "then_1", "else_1", "exit_1", "loop_1", "loop_body_1",
          "loop_exit_1", "loop_2", "loop_body_2", "loop_exit_2", "repeat_1", "repeat_exit_1"] := by
  obtain ⟨listing, hlisting⟩ : ∃ listing, oddNames.compile = .ok listing := ⟨_, rfl⟩
  exact ⟨listing, hlisting, (definedTexts_of_compile hlisting).2.1⟩

end Program

end ImpRiscV
