import Mathlib.Algebra.Group.Nat.Defs
import ImpRiscV.Proofs.DefinedLabels

/-!
# The first violation is the failure

Generating the code of a program checks the program as it goes. This file says what the checks
are without saying how code is generated: it lists all that is wrong with a program, in the order
in which its parts are visited. A program has a listing exactly when the list is empty, and
otherwise it fails with the first entry. The counters of constructs are not in the list: the program
is taken to have fewer constructs of each kind than a counter of 32 bits can count.

## Main definitions

* `ImpRiscV.Setting` — what the checks of an expression depend on.
* `ImpRiscV.Expr.violations`, `ImpRiscV.Program.violations` — all that is wrong, in order.

## Main results

* `ImpRiscV.Expr.failures_lower` — the failures among the steps of an expression are its violations.
* `ImpRiscV.Program.compile_fails_with_first_violation` — so does a program.
-/

set_option relaxedAutoImplicit false
set_option autoImplicit false

namespace ImpRiscV

/-! ### What is wrong with a program -/

/-- What the checks of an expression depend on: the declarations of the program, the function around
the expression, and whether a loop of that function is around it. -/
structure Setting where
  /-- The declarations of the program. -/
  decls : List Declaration
  /-- The function around the expression. -/
  function : String
  /-- Whether a loop of the function is around the expression. -/
  inLoop : Bool

/-- The setting inside of a loop. -/
def Setting.looping (σ : Setting) : Setting := { σ with inLoop := true }

/-- Four times the slot, read with sign, may leave the range. -/
def slotViolations (slot : UInt64) : List Failure :=
  if InRange (signed slot * 4) then [] else [.overflow .multiplication]

/-- Two more than the arity, read with sign, may leave the range, and so may four times that. -/
def frameViolations (arity : UInt64) : List Failure :=
  if ¬InRange (2 + signed arity) then [.overflow .addition]
  else if ¬InRange ((2 + signed arity) * 4) then [.overflow .multiplication]
  else []

/-- A call of a declared function may supply another number of arguments. -/
def callViolations (σ : Setting) (callee : String) (found : Nat) : List Failure :=
  (σ.decls.filter fun d => d.name = callee ∧ d.arity.toNat ≠ found).map fun d =>
    .mistake (.arityMismatch σ.function callee d.arity.toNat found)

namespace Expr

mutual

/-- All that is wrong with an expression. The parts of a condition come before the bodies of a
conditional, of which the second is visited first; a loop's condition is inside of the loop. -/
def violations (σ : Setting) : Expr → List Failure
  | .literal _ | .skip => []
  | .var slot => slotViolations slot
  | .assign slot value => value.violations σ ++ slotViolations slot
  | .binary lhs _ rhs => lhs.violations σ ++ rhs.violations σ
  | .ifElse ⟨lhs, _, rhs⟩ thenBody elseBody =>
    lhs.violations σ ++ rhs.violations σ ++ elseBody.violations σ ++ thenBody.violations σ
  | .whileDo ⟨lhs, _, rhs⟩ body =>
    lhs.violations σ.looping ++ rhs.violations σ.looping ++ body.violations σ.looping
  | .repeatUntil body ⟨lhs, _, rhs⟩ =>
    body.violations σ.looping ++ lhs.violations σ.looping ++ rhs.violations σ.looping
  | .call callee args => callViolations σ callee args.length ++ violationsArgs σ args
  | .seq first second => first.violations σ ++ second.violations σ
  | .escape how => if σ.inLoop then [] else [.mistake (.escapeOutsideLoop how σ.function)]

/-- All that is wrong with an argument list, from the last argument to the first. -/
def violationsArgs (σ : Setting) : List Expr → List Failure
  | [] => []
  | arg :: args => violationsArgs σ args ++ arg.violations σ

end

end Expr

/-- All that is wrong with a declaration of a program with the declarations `decls`. -/
def Declaration.violations (decls : List Declaration) (d : Declaration) : List Failure :=
  frameViolations d.arity ++
    d.body.violations { decls := decls, function := d.name, inLoop := false }

namespace Program

/-- The name of the leftmost declaration that has the name of an earlier one. -/
def repeatedName? (p : Program) : Option String :=
  let names := p.decls.map (·.name)
  (names.zipIdx.find? fun (name, i) => name ∈ names.take i).map Prod.fst

/-- All that is wrong with a program. -/
def violations (p : Program) : List Failure :=
  (p.repeatedName?.map fun name => .mistake (.duplicateFunction name)).toList ++
    p.decls.flatMap (Declaration.violations p.decls)

end Program

/-! ### Steps -/

/-- The scope knows what the setting says. -/
structure Scope.Meets (s : Scope) (σ : Setting) : Prop where
  /-- The declared arities are known. -/
  arity : ∀ callee n, s.arity? callee = some n ↔ ∃ d ∈ σ.decls, d.name = callee ∧ d.arity = n
  /-- No name is declared twice. -/
  distinct : (σ.decls.map (·.name)).Nodup
  /-- The function is known. -/
  function : s.function = σ.function
  /-- It is known whether a loop is around the place. -/
  inLoop : s.loop?.isSome = σ.inLoop

/-- The scope of a loop meets the setting of a loop. -/
lemma Scope.Meets.looping {s : Scope} {σ : Setting} (h : s.Meets σ) (depth : Nat) :
    Scope.Meets { s with loop? := some depth } σ.looping :=
  ⟨h.arity, h.distinct, h.function, rfl⟩

/-- Among declarations with distinct names, one is found by its name. -/
lemma filter_name_eq {ds : List Declaration} (h : (ds.map (·.name)).Nodup) {d : Declaration}
    (hd : d ∈ ds) : ds.filter (·.name = d.name) = [d] := by
  induction ds with
  | nil => cases hd
  | cons e es ih =>
    obtain ⟨he, hes⟩ := List.nodup_cons.mp h
    rcases List.mem_cons.mp hd with rfl | hd
    · have hothers : es.filter (·.name = d.name) = [] := by
        refine List.filter_eq_nil_iff.mpr fun e' he' heq => he ?_
        exact List.mem_map.mpr ⟨e', he', by simpa using heq⟩
      rw [List.filter_cons_of_pos (by simp), hothers]
    · have hne : e.name ≠ d.name := fun heq => he (List.mem_map.mpr ⟨d, hd, heq.symm⟩)
      rw [List.filter_cons_of_neg (by simpa using hne), ih hes hd]

namespace Fragment

open Step

variable {s : Scope} {σ : Setting} {c : Cursor}

/-- The check of a call fails with the violation of the call. -/
lemma failures_checkArity (hs : s.Meets σ) (callee : String) (found : Nat) :
    failures ((checkArity callee found).steps s c) = callViolations σ callee found := by
  have hfilter : (σ.decls.filter fun d => d.name = callee ∧ d.arity.toNat ≠ found) =
      (σ.decls.filter (·.name = callee)).filter (·.arity.toNat ≠ found) := by
    rw [List.filter_filter]
    congr 1
    funext d
    simp [Bool.and_comm]
  rw [callViolations, hfilter]
  cases ha : s.arity? callee with
  | none =>
    have hnone : σ.decls.filter (·.name = callee) = [] := by
      refine List.filter_eq_nil_iff.mpr fun d hd hname => ?_
      have hsome := (hs.arity callee d.arity).mpr ⟨d, hd, by simpa using hname, rfl⟩
      rw [ha] at hsome
      cases hsome
    simp [checkArity, ha, hnone]
  | some n =>
    obtain ⟨d, hd, rfl, rfl⟩ := (hs.arity callee n).mp ha
    rw [filter_name_eq hs.distinct hd]
    by_cases hn : d.arity.toNat = found
    · simp [checkArity, ha, hn]
    · simp [checkArity, ha, hn, hs.function, Step.failure?]

/-- An escape fails outside of every loop. -/
lemma failures_escape (hs : s.Meets σ) (how : Escape) :
    failures ((Fragment.escape how).steps s c) =
      if σ.inLoop then [] else [.mistake (.escapeOutsideLoop how σ.function)] := by
  have hloop := hs.inLoop
  cases h : s.loop? with
  | none =>
    rw [h] at hloop
    simp [Fragment.escape, h, ← hloop, hs.function, Step.failure?]
  | some depth =>
    rw [h] at hloop
    simp [Fragment.escape, h, ← hloop]

/-- The use of a slot fails when the slot has no offset. -/
lemma failures_slot (slot : UInt64) (line : Int → Instruction Label) :
    failures (addressed (slotOffset slot) fun x => emits [line x]) = slotViolations slot := by
  unfold slotOffset checked slotViolations wordSize
  split_ifs with hr
  · exact failures_emits _
  · rfl

/-- A function fails when its frame has no size, and else as its inside does. -/
lemma failures_frame (arity : UInt64) {rest : Int → List Step} {fs : List Failure}
    (h : ∀ size, failures (rest size) = fs) :
    (failures (addressed (frameSize arity) rest)).head? =
      (frameViolations arity ++ fs).head? := by
  unfold frameSize checked frameViolations headerWords wordSize
  by_cases hadd : InRange (2 + signed arity)
  · by_cases hmul : InRange ((2 + signed arity) * 4)
    · simp [hadd, hmul, Except.bind, addressed, h]
    · simp [hadd, hmul, Except.bind, addressed, Step.failure?]
  · simp [hadd, Except.bind, addressed, Step.failure?]

/-- Numbering a construct does not fail as long as its counter is not full. -/
lemma failures_numbering {k : Construct} {m : Numbering}
    {rest : Allocated → Numbering → List Step} (h : m.count k + 1 < counterLimit) :
    failures (numbering k m rest) = failures (rest (m.upcoming k) (m.next k)) := by
  rw [numbering_of_lt h]
  rfl

end Fragment

/-! ### Expressions and programs -/

namespace Expr

open Step Fragment

/-- The counters do not overflow while the constructs of the expression are numbered. -/
def Fits (e : Expr) (m : Numbering) : Prop := ∀ k, m.count k + e.count k < counterLimit

/-- The counters do not overflow over a part of an expression. -/
lemma Fits.part {e e' : Expr} {m : Numbering} (h : e.Fits m) (m' : Numbering)
    (hle : ∀ k, m'.count k + e'.count k ≤ m.count k + e.count k) : e'.Fits m' :=
  fun k => Nat.lt_of_le_of_lt (hle k) (h k)

/-- There is a number for a construct whose parts come after it. -/
lemma Fits.room {e : Expr} {m : Numbering} (h : e.Fits m) {k : Construct} (hk : 1 ≤ e.count k) :
    m.count k + 1 < counterLimit := Nat.lt_of_le_of_lt (Nat.add_le_add_left hk _) (h k)

/-- If the failures of each argument are its violations, so are those of the argument list. -/
lemma failures_lowerArgs {args : List Expr} {σ : Setting} {s : Scope} {m : Numbering}
    (h : ∀ arg ∈ args, ∀ {m : Numbering}, arg.Fits m → ∀ d,
      failures (arg.lower.steps s ⟨m, d⟩) = arg.violations σ)
    (hfits : ∀ k, m.count k + countList k args < counterLimit) (d : Nat) :
    failures ((lowerArgs args).steps s ⟨m, d⟩) = violationsArgs σ args := by
  induction args with
  | nil => simp [violationsArgs]
  | cons arg args ih =>
    simp only [countList] at hfits
    have hargs := ih (fun a ha => h a (List.mem_cons_of_mem _ ha)) fun k => by
      have := hfits k
      omega
    have harg := h arg List.mem_cons_self (m := m + constructsList args) fun k => by
      have := hfits k
      simp only [Numbering.count_add, count_constructsList]
      omega
    simp [violationsArgs, hargs, harg]

/-- **The failures among the steps of an expression are its violations.**

**Proof sketch.** Induction over the expression: the violations of the parts are listed in the
order in which their steps are taken, and only the slots, the calls and the escapes add one of their
own. -/
theorem failures_lower (e : Expr) {s : Scope} {σ : Setting} {m : Numbering} (hs : s.Meets σ)
    (hfits : e.Fits m) (d : Nat) : failures (e.lower.steps s ⟨m, d⟩) = e.violations σ := by
  induction e generalizing s σ m d with
  | literal value | skip => simp [violations]
  | var slot => simp [violations, failures_slot]
  | assign slot value ih => simp [violations, failures_slot, ih hs hfits]
  | binary lhs op rhs ihl ihr =>
    have hl := ihl hs (hfits.part m fun k => by simp [count])
    have hr := ihr hs (hfits.part (m + lhs.constructs) fun k => by simp [count]; omega)
    simp [violations, hl, hr]
  | ifElse lhs cmp rhs thenBody elseBody ihl ihr iht ihe =>
    have hl := ihl hs (hfits.part (m.next .conditional) fun k => by simp [count]; omega)
    have hr := ihr hs (hfits.part (m.next .conditional + lhs.constructs) fun k => by
      simp [count]; omega)
    have he := ihe hs (hfits.part (m.next .conditional + lhs.constructs + rhs.constructs)
      fun k => by simp [count]; omega)
    have ht := iht hs (hfits.part (m.next .conditional + lhs.constructs + rhs.constructs +
      elseBody.constructs) fun k => by simp [count]; omega)
    rw [steps_lower_ifElse, failures_numbering (hfits.room (by simp [count]))]
    simp [violations, hl, hr, he, ht]
  | whileDo lhs cmp rhs body ihl ihr ihb =>
    have hloop := hs.looping (d + 2)
    have hl := ihl hloop (hfits.part (m.next .whileLoop) fun k => by simp [count]; omega)
    have hr := ihr hloop (hfits.part (m.next .whileLoop + lhs.constructs) fun k => by
      simp [count]; omega)
    have hb := ihb hloop (hfits.part (m.next .whileLoop + lhs.constructs + rhs.constructs)
      fun k => by simp [count]; omega)
    rw [steps_lower_whileDo, failures_numbering (hfits.room (by simp [count]))]
    simp [violations, hl, hr, hb]
  | repeatUntil body lhs cmp rhs ihb ihl ihr =>
    have hloop := hs.looping (d + 2)
    have hb := ihb hloop (hfits.part (m.next .repeatLoop) fun k => by simp [count]; omega)
    have hl := ihl hloop (hfits.part (m.next .repeatLoop + body.constructs) fun k => by
      simp [count]; omega)
    have hr := ihr hloop (hfits.part (m.next .repeatLoop + body.constructs + lhs.constructs)
      fun k => by simp [count]; omega)
    rw [steps_lower_repeatUntil, failures_numbering (hfits.room (by simp [count]))]
    simp [violations, hb, hl, hr]
  | call callee args ih =>
    have hargs := failures_lowerArgs (fun arg harg _ h => ih arg harg hs h) hfits
    simp [violations, failures_checkArity hs, hargs]
  | seq first second ihf ihs =>
    have hf := ihf hs (hfits.part m fun k => by simp [count])
    have hs' := ihs hs (hfits.part (m + first.constructs) fun k => by simp [count]; omega)
    simp [violations, hf, hs']
  | escape how => simp [violations, failures_escape hs]

end Expr

namespace Program

open Fragment

/-- Looking for a name among those seen is looking for it among the earlier ones.

**Proof sketch.** Induction on the names not yet looked at, where `seen` has the same members as
the names `ys` before them. -/
lemma firstRepeat?_eq (xs : List String) : ∀ (ys seen : List String),
    (∀ z, z ∈ seen ↔ z ∈ ys) → firstRepeat? seen xs =
      ((xs.zipIdx ys.length).find? fun (x, i) => x ∈ (ys ++ xs).take i).map Prod.fst := by
  induction xs with
  | nil =>
    intro ys seen _
    rfl
  | cons x xs ih =>
    intro ys seen hseen
    have htake : (ys ++ x :: xs).take ys.length = ys := List.take_left
    by_cases hx : x ∈ seen
    · have hy : x ∈ ys := (hseen x).mp hx
      simp [firstRepeat?, hx, List.zipIdx_cons, htake, hy]
    · have hy : x ∉ ys := fun hy => hx ((hseen x).mpr hy)
      have hrest := ih (ys ++ [x]) (x :: seen) (by intro z; simp [hseen, or_comm])
      rw [List.append_assoc, List.singleton_append, List.length_append, List.length_singleton]
        at hrest
      rw [firstRepeat?, if_neg hx, hrest, List.zipIdx_cons, List.find?_cons_of_neg]
      simpa [htake] using hy

/-- The name that is reported as declared twice is that of the leftmost declaration with the name
of an earlier one. -/
lemma duplicate?_eq_repeatedName? (p : Program) : p.duplicate? = p.repeatedName? := by
  rw [duplicate?, firstRepeat?_eq _ [] [] (by simp)]
  rfl

/-- The scope of a program whose names differ meets the setting of each of its functions. -/
lemma meets_function {p : Program} (h : p.duplicate? = none) (name : String) :
    Scope.Meets { arity? := p.arity?, function := name }
      { decls := p.decls, function := name, inLoop := false } :=
  ⟨fun _ _ => arity?_eq_some_iff h, duplicate?_eq_none_iff.mp h, rfl, rfl⟩

/-- The declarations of a program are visited in order. -/
lemma failures_lower {p : Program} (h : p.duplicate? = none) {ds : List Declaration} {c : Cursor}
    (hfits : ∀ k, c.numbering.count k + countDecls k ds < counterLimit) :
    ((concat (ds.map Declaration.lower)).emission { arity? := p.arity? } c).failure? =
      (ds.flatMap (Declaration.violations p.decls)).head? := by
  induction ds generalizing c with
  | nil => rfl
  | cons d ds ih =>
    simp only [countDecls] at hfits
    have hbody := d.body.failures_lower (meets_function h d.name) (m := c.numbering) fun k => by
      have := hfits k
      omega
    have hd : (Step.failures (d.lower.steps { arity? := p.arity? } c)).head? =
        (d.violations p.decls).head? := by
      rw [Declaration.steps_lower, Declaration.inside]
      exact failures_frame d.arity fun size => by simp [hbody]
    rw [List.map_cons, concat_cons, emission_append, Emission.failure?_append, Fragment.emission,
      Emission.failure?_run, hd, List.flatMap_cons, List.head?_append]
    cases hviolations : d.violations p.decls with
    | cons f fs => rfl
    | nil =>
      have hsuccess : Step.failures (d.lower.steps { arity? := p.arity? } c) = [] := by
        rw [hviolations] at hd
        exact List.head?_eq_none_iff.mp hd
      obtain ⟨-, -, -, -, hadvance⟩ := Declaration.lower_of_success hsuccess
      rw [ih fun k => by
        have := hfits k
        simp only [hadvance, Numbering.count_add, Expr.count_constructs]
        omega]

/-- The failure of a program is its first violation. -/
lemma failure?_emission {p : Program} (h : ∀ k, countDecls k p.decls < counterLimit) :
    p.emission.failure? = p.violations.head? := by
  rw [violations, ← duplicate?_eq_repeatedName?, List.head?_append]
  cases hd : p.duplicate? with
  | some name => simp [emission, hd, Emission.event, Emission.failure]
  | none =>
    rw [← failures_lower hd (c := {}) (by simpa using h)]
    simp [emission_of_distinct hd, Emission.event, Emission.finish, lower]

/-- **A program has a listing exactly when nothing is wrong with it, and otherwise it fails with
the first thing that is**, as long as it has fewer than `2 ^ 32` constructs of each kind. -/
theorem compile_fails_with_first_violation (p : Program) (h : ∀ k, countDecls k p.decls < 2 ^ 32) :
    (∀ f, p.compile = .error f ↔ p.violations.head? = some f) ∧
      ((∃ listing, p.compile = .ok listing) ↔ p.violations = []) := by
  rw [compile, Emission.result, failure?_emission h]
  cases h : p.violations with
  | nil => simp
  | cons f fs => simp

/-- A function that calls another one with too few arguments, or leaves a loop where there is
none. -/
def misplaced : Program where
  decls := [
    { name := "main", arity := 1, body :=
      .ifElse ⟨.var 1, .lt, .literal 0⟩ (.escape .exit) (.call "g" [.literal 1]) },
    { name := "g", arity := 2, body := .whileDo ⟨.var 1, .gt, .var 2⟩ (.escape .restart) }]

/-- Of the two bodies of the conditional, the second is visited first, so its call is the
failure. -/
theorem compile_fails_with_first_violation_misplaced :
    misplaced.violations = [.mistake (.arityMismatch "main" "g" 2 1),
      .mistake (.escapeOutsideLoop .exit "main")] ∧
      misplaced.compile = .error (.mistake (.arityMismatch "main" "g" 2 1)) := by
  have hviolations : misplaced.violations = [.mistake (.arityMismatch "main" "g" 2 1),
      .mistake (.escapeOutsideLoop .exit "main")] := by decide
  have hfails := (compile_fails_with_first_violation misplaced fun k => by cases k <;> decide).1
  refine ⟨hviolations, (hfails _).mpr ?_⟩
  rw [hviolations]
  rfl

end Program

end ImpRiscV
