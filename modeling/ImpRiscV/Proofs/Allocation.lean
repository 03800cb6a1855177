import Mathlib.Algebra.Group.Nat.Defs
import ImpRiscV.Label.Spelling
import ImpRiscV.Proofs.Numbers

/-!
# Labels allocated one construct after another

A numbering hands out the labels of one construct at a time, in whatever order conditionals and
loops come. This file follows such a sequence of constructs from a fresh numbering to its end. The
labels of a construct are known from its kind and from the constructs of the same kind before it,
so the kinds do not disturb each other, and no text is handed out twice or looks like an entry. A
sequence comes to its end unless there are more constructs of a kind than a counter can count.

## Main definitions

* `ImpRiscV.Numbering.allocateAll` — number constructs of given kinds, one after another.
* `ImpRiscV.Construct.texts` — the texts of the labels of a construct, by its kind and number.
* `ImpRiscV.Allocated.texts` — the texts of the labels that a construct has received.

## Main results

* `ImpRiscV.Numbering.exists_allocateAll_iff` — which sequences come to their end.
* `ImpRiscV.Numbering.count_allocateAll` — each counter rises by the constructs of its kind.
* `ImpRiscV.Numbering.getElem?_allocateAll` — which number each construct of a sequence receives.
* `ImpRiscV.Numbering.count_labels_allocateAll` — how often each label is handed out.
* `ImpRiscV.allocatedTexts_fresh` — the texts are distinct, and none is spelled like an entry.
-/

set_option relaxedAutoImplicit false
set_option autoImplicit false

namespace ImpRiscV

namespace Numbering

/-- Number constructs of the given kinds, one after another: the constructs with their numbers, and
the numbering that includes them all. The first that is refused ends the sequence. -/
def allocateAll : List Construct → Numbering → Except Overflow (List Allocated × Numbering)
  | [], m => .ok ([], m)
  | k :: ks, m =>
    match m.allocate k with
    | .error overflow => .error overflow
    | .ok (a, m') => (allocateAll ks m').map fun (as, m'') => (a :: as, m'')

variable {ks : List Construct} {m m' : Numbering} {as : List Allocated}

/-- No constructs leave the numbering as it is. -/
@[simp] lemma allocateAll_nil (m : Numbering) : allocateAll [] m = .ok ([], m) := rfl

/-- The first construct takes the next number of its kind, and the others go on from there. -/
lemma allocateAll_cons_eq_ok_iff {k : Construct} : allocateAll (k :: ks) m = .ok (as, m') ↔
    m.count k + 1 < counterLimit ∧
      ∃ rest, as = ⟨k, m.count k + 1⟩ :: rest ∧ allocateAll ks (m.next k) = .ok (rest, m') := by
  have hnumber : m.upcoming k = ⟨k, m.count k + 1⟩ := by simp [upcoming]
  rw [allocateAll]
  by_cases h : m.count k + 1 < counterLimit
  · have hallocate : m.allocate k = .ok (⟨k, m.count k + 1⟩, m.next k) :=
      allocate_eq_ok_iff.mpr ⟨h, hnumber.symm, rfl⟩
    rw [hallocate]
    cases hrest : allocateAll ks (m.next k) with
    | error overflow => simp [Except.map, hrest]
    | ok result =>
      obtain ⟨rest, m''⟩ := result
      simp only [Except.map, hrest, Except.ok.injEq, Prod.mk.injEq, h, true_and]
      constructor
      · rintro ⟨rfl, rfl⟩
        exact ⟨rest, rfl, rfl, rfl⟩
      · rintro ⟨rest', rfl, rfl, rfl⟩
        exact ⟨rfl, rfl⟩
  · have hallocate : m.allocate k = .error .addition :=
      allocate_eq_error_iff.mpr ⟨Nat.le_of_not_lt h, rfl⟩
    simp [hallocate, h]

/-- A construct may be counted as numbered or as still to come. -/
lemma count_next_add_count (k d : Construct) (ks : List Construct) (m : Numbering) :
    (m.next k).count d + ks.count d = m.count d + (k :: ks).count d := by
  rw [count_next, List.count_cons]
  simp only [beq_iff_eq, eq_comm (a := k)]
  omega

/-- **Which sequences come to their end:** those with no more constructs of a kind than its counter
can count. -/
theorem exists_allocateAll_iff : (∃ as m', allocateAll ks m = .ok (as, m')) ↔
    ∀ k ∈ ks, m.count k + ks.count k < counterLimit := by
  induction ks generalizing m with
  | nil => simp
  | cons k ks ih =>
    have hfirst : m.count k + 1 ≤ m.count k + (k :: ks).count k := by
      rw [List.count_cons_self]
      omega
    have hcount := fun d => count_next_add_count k d ks m
    constructor
    · rintro ⟨as, m', h⟩
      obtain ⟨hlt, rest, rfl, hrest⟩ := allocateAll_cons_eq_ok_iff.mp h
      have hks := ih.mp ⟨rest, m', hrest⟩
      intro d hd
      rw [← hcount]
      by_cases hmem : d ∈ ks
      · exact hks d hmem
      · -- a kind that does not come again is at its first number
        obtain rfl : d = k := (List.mem_cons.mp hd).resolve_right hmem
        rw [List.count_eq_zero_of_not_mem hmem, count_next, if_pos rfl]
        exact hlt
    · intro h
      have hlt := Nat.lt_of_le_of_lt hfirst (h k List.mem_cons_self)
      obtain ⟨rest, m', hrest⟩ := ih.mpr fun d hd => by
        rw [hcount]
        exact h d (List.mem_cons_of_mem _ hd)
      exact ⟨_, m', allocateAll_cons_eq_ok_iff.mpr ⟨hlt, rest, rfl, hrest⟩⟩

/-- A sequence that does not come to its end is ended by a counter. -/
lemma allocateAll_eq_addition {overflow : Overflow} (h : allocateAll ks m = .error overflow) :
    overflow = .addition := by
  induction ks generalizing m with
  | nil => cases h
  | cons k ks ih =>
    rw [allocateAll] at h
    cases hallocate : m.allocate k with
    | error overflow' =>
      rw [hallocate] at h
      cases h
      exact (allocate_eq_error_iff.mp hallocate).2
    | ok result =>
      rw [hallocate] at h
      cases hrest : allocateAll ks result.2 with
      | error overflow' =>
        simp only [hrest, Except.map, Except.error.injEq] at h
        subst h
        exact ih hrest
      | ok result' => simp [hrest, Except.map] at h

/-- **Each counter rises by the constructs of its kind.** -/
theorem count_allocateAll (h : allocateAll ks m = .ok (as, m')) (d : Construct) :
    m'.count d = m.count d + ks.count d := by
  induction ks generalizing m as with
  | nil =>
    cases h
    simp
  | cons k ks ih =>
    obtain ⟨-, rest, rfl, hrest⟩ := allocateAll_cons_eq_ok_iff.mp h
    rw [ih hrest, count_next_add_count]

/-- **The number of each construct of a sequence.** It follows those that its kind had at the start
and those of the earlier constructs of its kind. -/
theorem getElem?_allocateAll (h : allocateAll ks m = .ok (as, m')) (i : Nat) :
    as[i]? = ks[i]?.map fun d => ⟨d, m.count d + (ks.take i).count d + 1⟩ := by
  induction ks generalizing m as i with
  | nil =>
    cases h
    simp
  | cons k ks ih =>
    obtain ⟨-, rest, rfl, hrest⟩ := allocateAll_cons_eq_ok_iff.mp h
    cases i with
    | zero => simp
    | succ i =>
      rw [List.getElem?_cons_succ, ih hrest, List.getElem?_cons_succ, List.take_succ_cons]
      simp only [count_next_add_count]

/-- **How often a label is handed out:** once if its number is among those of the sequence, and
else not at all.

**Proof sketch.** Induction over the sequence. The labels of its first construct are known from
`count_labels_next`, and the numbers of the others continue where the first leaves off. -/
theorem count_labels_allocateAll (h : allocateAll ks m = .ok (as, m')) (l : Label) :
    (as.flatMap Allocated.labels).count l = m.fresh (fun d => ks.count d) l := by
  induction ks generalizing m as with
  | nil =>
    cases h
    exact (fresh_zero _ l).symm
  | cons k ks ih =>
    obtain ⟨-, rest, rfl, hrest⟩ := allocateAll_cons_eq_ok_iff.mp h
    have hcounts : ∀ d, (if d = k then 1 else 0) + ks.count d = (k :: ks).count d := by
      intro d
      have hd := count_next_add_count k d ks m
      rw [count_next] at hd
      omega
    have hlabels : Allocated.labels ⟨k, m.count k + 1⟩ = k.labels (m.count k + 1) := rfl
    rw [List.flatMap_cons, List.count_append, ih hrest, hlabels, count_labels_next,
      fresh_add _ (count_next k · m)]
    simp only [hcounts]

end Numbering

/-- The texts of the labels of the construct with the given number. -/
def Construct.texts (k : Construct) (number : Nat) : List String :=
  let n := toString number
  match k with
  | .conditional => ["then_" ++ n, "else_" ++ n, "exit_" ++ n]
  | .whileLoop => ["loop_" ++ n, "loop_body_" ++ n, "loop_exit_" ++ n]
  | .repeatLoop => ["repeat_" ++ n, "repeat_exit_" ++ n]

/-- The texts of the labels that a construct has received. -/
def Allocated.texts (a : Allocated) : List String := a.labels.map Label.text

/-- A construct receives the texts of its kind, each with its number. -/
lemma Allocated.texts_eq (a : Allocated) : a.texts = a.construct.texts a.number := by
  obtain ⟨k, n⟩ := a
  cases k <;> rfl

/-- All texts together are those of all labels. -/
lemma flatMap_texts (as : List Allocated) :
    as.flatMap Allocated.texts = (as.flatMap Allocated.labels).map Label.text := by
  rw [List.map_flatMap]
  rfl

/-- **Allocated labels are fresh.** Whatever constructs are numbered from the start, and in whatever
order, they all receive their labels if there are fewer than `2 ^ 32` of each kind, and then:

* no two of the labels have the same text;
* none of these texts is that of the entry of a function, whatever its name;
* the labels of a construct have the number that follows those of the earlier constructs of its
  kind, so they depend on its kind and on how many of that kind came before, and on nothing else;
* each counter ends at the number of constructs of its kind.

If there are more of some kind, its counter overflows. Moreover, functions with different names have
different entries.

**Proof sketch.** A label is handed out once at most by `Numbering.count_labels_allocateAll`, an
entry never is, and the text of a label determines it. -/
theorem allocatedTexts_fresh :
    (∀ ks : List Construct, (∀ k, ks.count k < 2 ^ 32) →
      ∃ as m, Numbering.allocateAll ks {} = .ok (as, m) ∧
        (as.flatMap Allocated.texts).Nodup ∧
        (∀ name, (Label.entry name).text ∉ as.flatMap Allocated.texts) ∧
        (∀ i : Nat, (as.map Allocated.texts)[i]? =
          ks[i]?.map fun k => k.texts ((ks.take i).count k + 1)) ∧
        ∀ k, m.count k = ks.count k) ∧
    (∀ ks : List Construct, (∃ k, 2 ^ 32 ≤ ks.count k) →
      Numbering.allocateAll ks {} = .error .addition) ∧
    Function.Injective fun name => (Label.entry name).text := by
  have hinj : Function.Injective Label.text := fun a b => Label.text_inj.mp
  refine ⟨fun ks h => ?_, fun ks h => ?_, fun a b h => Label.entry.inj (hinj h)⟩
  · obtain ⟨as, m, hall⟩ : ∃ as m, Numbering.allocateAll ks {} = .ok (as, m) := by
      refine Numbering.exists_allocateAll_iff.mpr fun k _ => ?_
      rw [Numbering.count_start, Nat.zero_add]
      exact h k
    refine ⟨as, m, hall, ?_, fun name hmem => ?_, fun i => ?_, fun k => ?_⟩
    · rw [flatMap_texts]
      refine List.Nodup.map hinj (List.nodup_iff_count_le_one.mpr fun l => ?_)
      rw [Numbering.count_labels_allocateAll hall]
      exact Numbering.fresh_le_one _ _ l
    · rw [flatMap_texts, List.mem_map_of_injective hinj, ← List.count_pos_iff,
        Numbering.count_labels_allocateAll hall] at hmem
      exact absurd hmem (Nat.lt_irrefl 0)
    · rw [List.getElem?_map, Numbering.getElem?_allocateAll hall, Option.map_map]
      simp only [Function.comp_def, Allocated.texts_eq, Numbering.count_start, Nat.zero_add]
    · rw [Numbering.count_allocateAll hall, Numbering.count_start, Nat.zero_add]
  · obtain ⟨k, hk⟩ := h
    cases hall : Numbering.allocateAll ks {} with
    | error overflow => rw [Numbering.allocateAll_eq_addition hall]
    | ok result =>
      have hmem : k ∈ ks := List.count_pos_iff.mp (by omega)
      have hlt := Numbering.exists_allocateAll_iff.mp ⟨result.1, result.2, hall⟩ k hmem
      rw [Numbering.count_start, counterLimit] at hlt
      omega

/-- A loop between two conditionals takes a number of its own kind. -/
theorem allocatedTexts_fresh_interleaved :
    ∃ as m, Numbering.allocateAll [.conditional, .whileLoop, .conditional, .repeatLoop] {} =
      .ok (as, m) ∧ (as.flatMap Allocated.texts).Nodup ∧
      as.map Allocated.texts = [["then_1", "else_1", "exit_1"],
        ["loop_1", "loop_body_1", "loop_exit_1"], ["then_2", "else_2", "exit_2"],
        ["repeat_1", "repeat_exit_1"]] := by
  obtain ⟨as, m, hall, hnodup, -, htexts, -⟩ := allocatedTexts_fresh.1
    [.conditional, .whileLoop, .conditional, .repeatLoop] fun k => by cases k <;> decide
  refine ⟨as, m, hall, hnodup, List.ext_getElem? fun i => ?_⟩
  rw [htexts]
  match i with
  | 0 | 1 | 2 | 3 => decide
  | _ + 4 => rfl

end ImpRiscV
