import Mathlib.Data.List.Count
import Mathlib.Data.List.Nodup
import ImpRiscV.Proofs.Steps

/-!
# Numbers in order

A construct receives its number before any line of its code is added, and the numbers of each kind
are given out one after another. Both are said of steps that start when some constructs have been
numbered and leave some more numbered. They hold of the steps of every expression, and they go on to
hold up to the first failure, after which no step is taken.

## Main definitions

* `ImpRiscV.Numbering.Admits` — steps that may follow when some constructs have been numbered.
* `ImpRiscV.Step.allocations` — the constructs that steps number.
* `ImpRiscV.Numbering.fresh` — how often a label belongs to the next constructs of a numbering.

## Main results

* `ImpRiscV.Expr.admits_lower` — the steps of an expression, from where it stands.
* `ImpRiscV.Numbering.Admits.numbers` — the numbers of each kind are consecutive.
* `ImpRiscV.Numbering.Admits.mem_of_mentions` — a construct is numbered before it is mentioned.
* `ImpRiscV.Numbering.Admits.count_labels` — the labels of the constructs that steps number.
-/

set_option relaxedAutoImplicit false
set_option autoImplicit false

namespace ImpRiscV

open Step

/-! ### Steps in order -/

/-- The construct that receives its number in an event. -/
def Event.allocated? : Event → Option Allocated
  | .numbered k n => some ⟨k, n⟩
  | _ => none

/-- The number that an event gives to a construct of the kind. -/
def Event.number? (k : Construct) : Event → Option Nat
  | .numbered k' n => if k' = k then some n else none
  | _ => none

/-- The line defines the label or refers to it. -/
def Instruction.Mentions (i : Instruction Label) (l : Label) : Prop :=
  i.definedLabel? = some l ∨ i.target? = some l

/-- The lines mention labels of the construct only. -/
def Allocated.Owns (a : Allocated) (is : List (Instruction Label)) : Prop :=
  ∀ i ∈ is, ∀ l, i.Mentions l → ∃ r : Role, r.construct = a.construct ∧ l = a.label r

namespace Numbering

/-- The label is an entry, or it belongs to a construct that has been numbered. -/
def Covers (m : Numbering) : Label → Prop
  | .entry _ => True
  | .numbered r n => 0 < n ∧ n ≤ m.count r.construct

/-- The construct has been numbered. -/
def Includes (m : Numbering) (a : Allocated) : Prop :=
  0 < a.number ∧ a.number ≤ m.count a.construct

/-- A construct has been numbered once it has received its number. -/
lemma includes_next (m : Numbering) (k : Construct) :
    (m.next k).Includes ⟨k, m.count k + 1⟩ := by
  simp [Includes]

/-- A construct keeps its number. -/
lemma Includes.add {m : Numbering} {a : Allocated} (h : m.Includes a) (n : Numbering) :
    (m + n).Includes a := by
  refine ⟨h.1, ?_⟩
  rw [count_add]
  exact Nat.le_add_right_of_le h.2

/-- The steps may be taken when the constructs of a numbering have been numbered, and lead to
another numbering: each construct takes the next number of its kind, and a line mentions only
constructs that have a number. After a failure no step is taken, so nothing is asked of it. -/
inductive Admits : Numbering → List Step → Numbering → Prop
  | nil (m : Numbering) : Admits m [] m
  | number {m m' : Numbering} {ss : List Step} (k : Construct) (h : Admits (m.next k) ss m') :
    Admits m (.note (.numbered k (m.count k + 1)) :: ss) m'
  | milestone {m m' : Numbering} {ss : List Step} {e : Event} (he : e.level = .debug)
    (h : Admits m ss m') : Admits m (.note e :: ss) m'
  | emit {m m' : Numbering} {ss : List Step} {line : Instruction Label}
    (hline : ∀ l, line.Mentions l → m.Covers l) (h : Admits m ss m') :
    Admits m (.emit line :: ss) m'
  | fail (m m' : Numbering) (f : Failure) (ss : List Step) : Admits m (.fail f :: ss) m'

variable {m m' m'' : Numbering} {ss ts : List Step}

/-- Steps may be taken one part after another. -/
lemma Admits.append (h : m.Admits ss m') (h' : m'.Admits ts m'') : m.Admits (ss ++ ts) m'' := by
  induction h with
  | nil m => exact h'
  | number k _ ih => exact .number k (ih h')
  | milestone he _ ih => exact .milestone he (ih h')
  | emit hline _ ih => exact .emit hline (ih h')
  | fail m _ f ss => exact .fail m m'' f (ss ++ ts)

/-- Lines may follow each other if they mention only constructs that have a number. -/
lemma admits_emits {is : List (Instruction Label)}
    (h : ∀ i ∈ is, ∀ l, i.Mentions l → m.Covers l) : m.Admits (emits is) m := by
  induction is with
  | nil => exact .nil m
  | cons i is ih =>
    exact .emit (h i List.mem_cons_self) (ih fun j hj => h j (List.mem_cons_of_mem _ hj))

/-- Lines without labels may be added at any time. -/
lemma admits_silent {is : List (Instruction Label)}
    (h : is.all fun i => i.definedLabel?.isNone && i.target?.isNone) : m.Admits (emits is) m := by
  refine admits_emits fun i hi l hl => ?_
  have hsilent := List.all_eq_true.mp h i hi
  rcases hl with hl | hl <;> simp [hl] at hsilent

/-- The lines of a construct may be added once it has its number. -/
lemma admits_own {a : Allocated} {is : List (Instruction Label)} (ha : m.Includes a)
    (h : a.Owns is) : m.Admits (emits is) m := by
  refine admits_emits fun i hi l hl => ?_
  obtain ⟨r, hr, rfl⟩ := h i hi l hl
  exact ⟨ha.1, hr ▸ ha.2⟩

/-- Steps that follow an address computation may be taken if they may be taken when it succeeds. -/
lemma admits_addressed {address : Except Overflow Int} {rest : Int → List Step}
    (h : ∀ x, m.Admits (rest x) m') : m.Admits (addressed address rest) m' := by
  cases address with
  | ok x => exact h x
  | error overflow => exact .fail m m' _ []

/-- A construct takes the next number of its kind, or it is refused. -/
lemma admits_numbering {k : Construct} {rest : Allocated → Numbering → List Step}
    (h : (m.next k).Admits (rest ⟨k, m.count k + 1⟩ (m.next k)) m') :
    m.Admits (Fragment.numbering k m rest) m' := by
  have hnumber : m.upcoming k = ⟨k, m.count k + 1⟩ := by simp [upcoming]
  by_cases hlt : m.count k + 1 < counterLimit
  · rw [Fragment.numbering_of_lt hlt, hnumber]
    exact .number k h
  · rw [Fragment.numbering_of_le (Nat.le_of_not_lt hlt)]
    exact .fail m m' _ []

/-- No construct loses its number. -/
lemma Admits.count_le (h : m.Admits ss m') (hs : failures ss = []) (k : Construct) :
    m.count k ≤ m'.count k := by
  induction h with
  | nil m => exact Nat.le_refl _
  | number k' _ ih =>
    have hle := ih (by simpa [failure?] using hs)
    rw [count_next] at hle
    omega
  | milestone _ _ ih | emit _ _ ih => exact ih (by simpa [failure?] using hs)
  | fail => simp [failure?] at hs

/-- **The numbers of each kind are consecutive**, also up to a failure. -/
theorem Admits.numbers (h : m.Admits ss m') (k : Construct) :
    ∃ n, (Emission.run ss).events.filterMap (Event.number? k) = List.range' (m.count k + 1) n := by
  induction h with
  | nil m => exact ⟨0, rfl⟩
  | @number m m' ss k' h ih =>
    obtain ⟨n, ih⟩ := ih
    rw [count_next] at ih
    rw [Emission.events_run_note]
    by_cases hk : k' = k
    · subst hk
      refine ⟨n + 1, ?_⟩
      have hfirst : Event.number? k' (.numbered k' (m.count k' + 1)) = some (m.count k' + 1) :=
        if_pos rfl
      rw [if_pos rfl] at ih
      rw [List.range'_succ, ← ih]
      exact List.filterMap_cons_some hfirst
    · refine ⟨n, ?_⟩
      have hfirst : Event.number? k (.numbered k' (m.count k' + 1)) = none := if_neg hk
      rw [if_neg (Ne.symm hk), Nat.add_zero] at ih
      rw [← ih]
      exact List.filterMap_cons_none hfirst
  | emit _ _ ih =>
    obtain ⟨n, ih⟩ := ih
    rw [Emission.events_run_emit]
    exact ⟨n, ih⟩
  | @milestone _ _ _ e he _ ih =>
    obtain ⟨n, ih⟩ := ih
    rw [Emission.events_run_note]
    refine ⟨n, (List.filterMap_cons_none ?_).trans ih⟩
    cases e <;> first | rfl | cases he
  | fail m _ f ss =>
    rw [Emission.events_run_fail]
    exact ⟨0, rfl⟩

/-- **A construct is numbered before it is mentioned**, also up to a failure. -/
theorem Admits.mem_of_mentions (h : m.Admits ss m') {before after : List Event}
    {line : Instruction Label} {r : Role} {n : Nat}
    (hes : (Emission.run ss).events = before ++ .emitted line :: after)
    (hline : line.Mentions (.numbered r n)) :
    0 < n ∧ (n ≤ m.count r.construct ∨ .numbered r.construct n ∈ before) := by
  induction h generalizing before with
  | nil m => simp at hes
  | @number m m' ss k _ ih =>
    rw [Emission.events_run_note] at hes
    cases before with
    | nil => cases hes
    | cons e before =>
      obtain ⟨rfl, htail⟩ := List.cons.inj hes
      obtain ⟨hpos, hle | hmem⟩ := ih htail
      · rw [count_next] at hle
        by_cases hn : n ≤ m.count r.construct
        · exact ⟨hpos, .inl hn⟩
        · -- the number is the one given by the first step
          split_ifs at hle with hk
          · subst hk
            obtain rfl : n = m.count r.construct + 1 := by omega
            exact ⟨hpos, .inr List.mem_cons_self⟩
          · omega
      · exact ⟨hpos, .inr (List.mem_cons_of_mem _ hmem)⟩
  | emit hcovers _ ih =>
    rw [Emission.events_run_emit] at hes
    cases before with
    | nil =>
      obtain ⟨heq, -⟩ := List.cons.inj hes
      obtain rfl := Event.emitted.inj heq
      obtain ⟨hpos, hle⟩ := hcovers _ hline
      exact ⟨hpos, .inl hle⟩
    | cons e before =>
      obtain ⟨rfl, htail⟩ := List.cons.inj hes
      obtain ⟨hpos, hmem⟩ := ih htail
      exact ⟨hpos, hmem.imp_right (List.mem_cons_of_mem _)⟩
  | milestone he _ ih =>
    rw [Emission.events_run_note] at hes
    cases before with
    | nil =>
      obtain ⟨rfl, -⟩ := List.cons.inj hes
      cases he
    | cons e before =>
      obtain ⟨rfl, htail⟩ := List.cons.inj hes
      obtain ⟨hpos, hmem⟩ := ih htail
      exact ⟨hpos, hmem.imp_right (List.mem_cons_of_mem _)⟩
  | fail m _ f ss =>
    rw [Emission.events_run_fail] at hes
    simp at hes

end Numbering

/-! ### Labels of the next constructs -/

namespace Numbering

/-- How often a label is one of those of the next `counts k` constructs of each kind `k`. -/
def fresh (m : Numbering) (counts : Construct → Nat) : Label → Nat
  | .entry _ => 0
  | .numbered r n =>
    if m.count r.construct < n ∧ n ≤ m.count r.construct + counts r.construct then 1 else 0

/-- A label belongs to a construct once at most. -/
lemma fresh_le_one (m : Numbering) (counts : Construct → Nat) (l : Label) :
    m.fresh counts l ≤ 1 := by
  cases l with
  | entry name => exact Nat.zero_le 1
  | numbered r n =>
    rw [fresh]
    split_ifs <;> omega

/-- No constructs have no labels. -/
@[simp] lemma fresh_zero (m : Numbering) (l : Label) : m.fresh (fun _ => 0) l = 0 := by
  cases l with
  | entry f => rfl
  | numbered r n =>
    rw [fresh, if_neg]
    omega

/-- The constructs after the first ones continue their numbers. -/
lemma fresh_add {m m' : Numbering} {f : Construct → Nat} (g : Construct → Nat)
    (h : ∀ k, m'.count k = m.count k + f k) (l : Label) :
    m.fresh f l + m'.fresh g l = m.fresh (fun k => f k + g k) l := by
  cases l with
  | entry name => rfl
  | numbered r n =>
    simp only [fresh, h]
    split_ifs <;> omega

/-- The labels of the next construct of a kind are those of its roles. -/
lemma count_labels_next (m : Numbering) (k : Construct) (l : Label) :
    (k.labels (m.count k + 1)).count l = m.fresh (fun d => if d = k then 1 else 0) l := by
  cases l with
  | entry name => exact List.count_eq_zero_of_not_mem (by simp [Construct.labels])
  | numbered r n =>
    have hnodup : (k.labels (m.count k + 1)).Nodup := by
      cases k <;> simp [Construct.labels, Construct.roles]
    have hmem : Label.numbered r n ∈ k.labels (m.count k + 1) ↔
        r.construct = k ∧ n = m.count k + 1 := by
      simp [Construct.labels, eq_comm]
    rw [hnodup.count, fresh]
    by_cases hr : r.construct = k
    · subst hr
      simp only [hmem, if_true, true_and]
      congr 1
      rw [eq_iff_iff]
      omega
    · rw [if_neg (by simp [hmem, hr]), if_neg (by simp [hr])]

end Numbering

namespace Step

/-- The construct that a step numbers. -/
def allocation? : Step → Option Allocated
  | .note e => e.allocated?
  | _ => none

/-- The constructs that steps number, in order. -/
def allocations (ss : List Step) : List Allocated := ss.filterMap allocation?

/-- The labels of the constructs that steps number. -/
def labels (ss : List Step) : List Label := (allocations ss).flatMap Allocated.labels

/-- No steps number nothing. -/
@[simp] lemma labels_nil : labels [] = [] := rfl

/-- A step that numbers a construct adds its labels. -/
lemma labels_note_numbered (k : Construct) (n : Nat) (ss : List Step) :
    labels (.note (.numbered k n) :: ss) = k.labels n ++ labels ss := rfl

/-- A failure numbers nothing. -/
@[simp] lemma labels_fail (f : Failure) (ss : List Step) : labels (.fail f :: ss) = labels ss :=
  rfl

/-- Labels are added part by part. -/
@[simp] lemma labels_append (ss ts : List Step) : labels (ss ++ ts) = labels ss ++ labels ts := by
  simp [labels, allocations]

/-- Lines of code number nothing. -/
@[simp] lemma labels_emits (is : List (Instruction Label)) : labels (emits is) = [] := by
  induction is with
  | nil => rfl
  | cons i is ih => exact ih

end Step

/-- **The labels of the constructs that steps number** are those of the constructs between the two
numberings.

**Proof sketch.** Induction over the steps: a construct takes the labels that go with the next
number of its kind, and the others take theirs from there. -/
theorem Numbering.Admits.count_labels {m m' : Numbering} {ss : List Step} (h : m.Admits ss m')
    (hs : failures ss = []) (l : Label) :
    (labels ss).count l = m.fresh (fun k => m'.count k - m.count k) l := by
  induction h with
  | nil m => simp
  | @number m m' ss k h ih =>
    have hs' : failures ss = [] := by simpa [failure?] using hs
    have hsplit : (fun d => m'.count d - m.count d) =
        fun d => (if d = k then 1 else 0) + (m'.count d - (m.next k).count d) := by
      funext d
      have hle := h.count_le hs' d
      rw [count_next] at hle ⊢
      omega
    rw [labels_note_numbered, List.count_append, ih hs', count_labels_next,
      fresh_add _ fun d => count_next k d m, hsplit]
  | @milestone m m' ss e he _ ih =>
    rw [← ih (by simpa [failure?] using hs)]
    cases e <;> first | rfl | cases he
  | emit _ _ ih => exact ih (by simpa [failure?] using hs)
  | fail => simp [failure?] at hs

/-! ### The numbers of an expression -/

namespace Expr

open ImpRiscV.Numbering Fragment

/-- The constructs of a conditional are numbered after itself. -/
lemma add_constructs_ifElse (m : Numbering) (lhs rhs thenBody elseBody : Expr) (cmp : Comparison) :
    m + (ifElse ⟨lhs, cmp, rhs⟩ thenBody elseBody).constructs =
      m.next .conditional + lhs.constructs + rhs.constructs + elseBody.constructs +
        thenBody.constructs := by
  refine ext_count fun k => ?_
  simp only [count_add, count_constructs, count_next, count]
  omega

/-- The constructs of a loop that tests first are numbered after itself. -/
lemma add_constructs_whileDo (m : Numbering) (lhs rhs body : Expr) (cmp : Comparison) :
    m + (whileDo ⟨lhs, cmp, rhs⟩ body).constructs =
      m.next .whileLoop + lhs.constructs + rhs.constructs + body.constructs := by
  refine ext_count fun k => ?_
  simp only [count_add, count_constructs, count_next, count]
  omega

/-- The constructs of a loop that tests last are numbered after itself. -/
lemma add_constructs_repeatUntil (m : Numbering) (body lhs rhs : Expr) (cmp : Comparison) :
    m + (repeatUntil body ⟨lhs, cmp, rhs⟩).constructs =
      m.next .repeatLoop + body.constructs + lhs.constructs + rhs.constructs := by
  refine ext_count fun k => ?_
  simp only [count_add, count_constructs, count_next, count]
  omega

/-- The constructs of two expressions in sequence. -/
lemma add_constructs_seq (m : Numbering) (first second : Expr) :
    m + (seq first second).constructs = m + first.constructs + second.constructs := by
  refine ext_count fun k => ?_
  simp only [count_add, count_constructs, count]
  omega

/-- The constructs of two operands. -/
lemma add_constructs_binary (m : Numbering) (lhs rhs : Expr) (op : ArithOp) :
    m + (binary lhs op rhs).constructs = m + lhs.constructs + rhs.constructs := by
  refine ext_count fun k => ?_
  simp only [count_add, count_constructs, count]
  omega

/-- The constructs of an argument list are numbered from its last argument to its first. -/
lemma add_constructsList_cons (m : Numbering) (arg : Expr) (args : List Expr) :
    m + constructsList (arg :: args) = m + constructsList args + arg.constructs := by
  refine ext_count fun k => ?_
  simp only [count_add, count_constructs, count_constructsList, countList]
  omega

/-- Lines over the roles of a construct mention its labels. -/
lemma owns_roles {k : Construct} (n : Nat) (is : List (Instruction Role))
    (h : ∀ i ∈ is, ∀ r ∈ i.definedLabel?.or i.target?, r.construct = k) :
    Allocated.Owns ⟨k, n⟩ (is.map (·.map (Label.numbered · n))) := by
  intro j hj l hl
  obtain ⟨i, hi, rfl⟩ := List.mem_map.mp hj
  have hrole : ∃ r ∈ i.definedLabel?.or i.target?, l = .numbered r n := by
    rw [Instruction.Mentions, Instruction.definedLabel?_map, Instruction.target?_map] at hl
    cases i <;> simp_all [Instruction.definedLabel?, Instruction.target?]
  obtain ⟨r, hr, rfl⟩ := hrole
  exact ⟨r, h i hi r hr, rfl⟩

/-- The lines between the operands of a test and what follows mention the target of the test. -/
lemma owns_testLines {a : Allocated} (target : Role) (htarget : target.construct = a.construct)
    (cmp : Comparison) {is : List (Instruction Label)} (h : a.Owns is) :
    a.Owns (popLines .scratch ++ cmp.branchTo (a.label target) :: is) := by
  intro i hi l hl
  rcases List.mem_append.mp hi with hi | hi
  · simp [popLines, Instruction.adjustStack] at hi
    rcases hi with rfl | rfl <;> simp [Instruction.Mentions, Instruction.definedLabel?,
      Instruction.target?] at hl
  · rcases List.mem_cons.mp hi with rfl | hi
    · refine ⟨target, htarget, ?_⟩
      cases cmp <;> simpa [Instruction.Mentions, Comparison.branchTo, Instruction.definedLabel?,
        Instruction.target?, eq_comm] using hl
    · exact h i hi l hl

/-- The lines before the round of a loop mention its exit and its head. -/
lemma owns_stageLines {a : Allocated} {exit head : Role} (hexit : exit.construct = a.construct)
    (hhead : head.construct = a.construct) : a.Owns (stageLines (a.label exit) (a.label head)) := by
  simp [Allocated.Owns, stageLines, pushLines, Instruction.adjustStack, Instruction.Mentions,
    Instruction.definedLabel?, Instruction.target?, Allocated.label, hexit, hhead]

/-- The lines after the round of a loop mention its exit and its head. -/
lemma owns_unstageLines {a : Allocated} {exit head : Role} (hexit : exit.construct = a.construct)
    (hhead : head.construct = a.construct) :
    a.Owns (unstageLines (a.label exit) (a.label head)) := by
  simp [Allocated.Owns, unstageLines, popLines, Instruction.adjustStack, Instruction.Mentions,
    Instruction.definedLabel?, Instruction.target?, Allocated.label, hexit, hhead]

/-- The check of a call may be made at any time. -/
lemma admits_checkArity (callee : String) (found : Nat) (s : Scope) (c : Cursor) :
    c.numbering.Admits ((checkArity callee found).steps s c) c.numbering := by
  unfold checkArity
  dsimp only
  split
  · exact .nil _
  · split_ifs
    · exact .nil _
    · exact .fail _ _ _ []

/-- An escape may be lowered at any time. -/
lemma admits_escape (how : Escape) (s : Scope) (c : Cursor) :
    c.numbering.Admits ((Fragment.escape how).steps s c) c.numbering := by
  unfold Fragment.escape
  dsimp only
  split
  · exact .fail _ _ _ []
  · refine admits_silent ?_
    unfold Escape.jump
    split_ifs <;> rfl

/-- An argument list may be lowered where its arguments may be. -/
lemma admits_lowerArgs {args : List Expr} (h : ∀ arg ∈ args, ∀ (s : Scope) (m : Numbering)
    (d : Nat), m.Admits (arg.lower.steps s ⟨m, d⟩) (m + arg.constructs)) (s : Scope)
    (m : Numbering) (d : Nat) :
    m.Admits ((lowerArgs args).steps s ⟨m, d⟩) (m + constructsList args) := by
  induction args with
  | nil => exact .nil m
  | cons arg args ih =>
    rw [steps_lowerArgs_cons, add_constructsList_cons]
    have hargs := ih fun a ha => h a (List.mem_cons_of_mem _ ha)
    exact (hargs.append (h arg List.mem_cons_self s _ _)).append (admits_silent rfl)

/-- **The steps of an expression may be taken where it stands**, and they lead to where it leaves
the numbering.

**Proof sketch.** Induction over the expression. The steps of a construct begin with its number, and
no number is lost while those of its parts are taken, so its labels may be mentioned between
them. -/
theorem admits_lower (e : Expr) (s : Scope) (m : Numbering) (d : Nat) :
    m.Admits (e.lower.steps s ⟨m, d⟩) (m + e.constructs) := by
  induction e generalizing s m d with
  | literal value | skip => exact admits_silent rfl
  | var slot =>
    rw [steps_lower_var]
    exact admits_addressed fun x => admits_silent rfl
  | assign slot value ih =>
    rw [steps_lower_assign]
    exact (ih s m d).append (admits_addressed fun x => admits_silent rfl)
  | binary lhs op rhs ihl ihr =>
    rw [steps_lower_binary, add_constructs_binary]
    exact (((ihl s m d).append (admits_silent rfl)).append (ihr s _ _)).append (admits_silent rfl)
  | seq first second ihf ihs =>
    rw [steps_lower_seq, add_constructs_seq]
    exact (ihf s m d).append (ihs s _ _)
  | call callee args ih =>
    rw [steps_lower_call]
    have hjump : (m + constructsList args).Admits (emits [.jal (.entry callee)])
        (m + constructsList args) := by
      refine admits_emits fun i hi l hl => ?_
      obtain rfl := List.mem_singleton.mp hi
      simp only [Instruction.Mentions, Instruction.definedLabel?, Instruction.target?, reduceCtorEq,
        Option.some_inj, false_or] at hl
      exact hl ▸ trivial
    exact (((admits_checkArity callee args.length s ⟨m, d⟩).append (admits_silent rfl)).append
      (admits_lowerArgs ih s m _)).append hjump
  | escape how =>
    rw [steps_lower_escape]
    exact admits_escape how s ⟨m, d⟩
  | ifElse lhs cmp rhs thenBody elseBody ihl ihr iht ihe =>
    rw [steps_lower_ifElse, add_constructs_ifElse]
    have ha := includes_next m .conditional
    have helse := owns_testLines .thenBody rfl cmp
      (owns_roles (m.count .conditional + 1) [.label .elseBody] (by decide))
    have hthen := owns_roles (k := .conditional) (m.count .conditional + 1)
      [.b .join, .label .thenBody] (by decide)
    have hjoin := owns_roles (k := .conditional) (m.count .conditional + 1) [.label .join]
      (by decide)
    exact admits_numbering ((((((((ihl s _ d).append (admits_silent rfl)).append
      (ihr s _ _)).append (admits_own ((ha.add _).add _) helse)).append
      (ihe s _ _)).append (admits_own (((ha.add _).add _).add _) hthen)).append
      (iht s _ _)).append (admits_own ((((ha.add _).add _).add _).add _) hjoin))
  | whileDo lhs cmp rhs body ihl ihr ihb =>
    rw [steps_lower_whileDo, add_constructs_whileDo]
    have ha := includes_next m .whileLoop
    have hbody := owns_testLines .whileBody rfl cmp
      (owns_roles (m.count .whileLoop + 1) [.j .whileExit, .label .whileBody] (by decide))
    exact admits_numbering (((((((admits_own ha (owns_stageLines rfl rfl)).append
      (ihl _ _ _)).append (admits_silent rfl)).append (ihr _ _ _)).append
      (admits_own ((ha.add _).add _) hbody)).append (ihb _ _ _)).append
      (admits_own (((ha.add _).add _).add _) (owns_unstageLines rfl rfl)))
  | repeatUntil body lhs cmp rhs ihb ihl ihr =>
    rw [steps_lower_repeatUntil, add_constructs_repeatUntil]
    have ha := includes_next m .repeatLoop
    have hend := owns_testLines .repeatExit rfl cmp
      (owns_roles (m.count .repeatLoop + 1) [] (by decide))
    exact admits_numbering (((((((admits_own ha (owns_stageLines rfl rfl)).append
      (ihb _ _ _)).append (ihl _ _ _)).append (admits_silent rfl)).append (ihr _ _ _)).append
      (admits_own (((ha.add _).add _).add _) hend)).append
      (admits_own (((ha.add _).add _).add _) (owns_unstageLines rfl rfl)))

/-- **The labels of the constructs of an expression.** -/
lemma count_labels_lower (e : Expr) {s : Scope} {c : Cursor}
    (h : failures (e.lower.steps s c) = []) (l : Label) :
    (labels (e.lower.steps s c)).count l = c.numbering.fresh (fun k => e.count k) l := by
  rw [(e.admits_lower s c.numbering c.depth).count_labels h]
  simp

end Expr

end ImpRiscV
