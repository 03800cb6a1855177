import ImpRiscV.Proofs.DefinedLabels

/-!
# Declarations can be compiled one by one

A declaration is lowered after those before it, but all that it takes over from them is how many
constructs they have numbered. So its code is the code that it has in a program of its own, with the
numbers of its labels moved up: the depth, the loop around a place and the function to which it
belongs start anew, and the other declarations only add checks of calls that the code has passed.

## Main definitions

* `ImpRiscV.Label.shift`, `ImpRiscV.relocate` — labels and lines with their numbers moved up.
* `ImpRiscV.Relocated` — steps after some constructs are other ones, relocated.

## Main results

* `ImpRiscV.Expr.relocated_lower` — the steps of an expression can be relocated.
* `ImpRiscV.Program.compile_eq_relocated` — a listing is made of the relocated listings of its
  declarations.
-/

set_option relaxedAutoImplicit false
set_option autoImplicit false

namespace ImpRiscV

/-! ### Moving numbers up -/

namespace Numbering

/-- The start counts nothing in. -/
lemma start_add (m : Numbering) : {} + m = m := ext_count fun k => by simp

/-- Constructs may be counted in before or after others. -/
lemma add_right_comm (m n p : Numbering) : m + n + p = m + p + n := by
  refine ext_count fun k => ?_
  simp only [count_add]
  omega

/-- One more construct may be numbered before or after the others are counted in. -/
lemma next_add (m n : Numbering) (k : Construct) : (m + n).next k = m.next k + n := by
  refine ext_count fun d => ?_
  simp only [count_next, count_add]
  omega

end Numbering

/-- The label when `m` constructs are numbered before its own. -/
def Label.shift (m : Numbering) : Label → Label
  | .entry function => .entry function
  | .numbered role number => .numbered role (number + m.count role.construct)

/-- The lines when `m` constructs are numbered before their own. -/
def relocate (m : Numbering) (is : List (Instruction Label)) : List (Instruction Label) :=
  is.map (Instruction.map (Label.shift m))

/-- Lines are relocated part by part. -/
@[simp] lemma relocate_append (m : Numbering) (is js : List (Instruction Label)) :
    relocate m (is ++ js) = relocate m is ++ relocate m js := List.map_append

/-- A scope that knows at least the arities of another one. -/
structure Scope.Widens (s s' : Scope) : Prop where
  /-- What is declared there is declared here. -/
  arity : ∀ name n, s'.arity? name = some n → s.arity? name = some n
  /-- The function is the same. -/
  function : s.function = s'.function
  /-- The loop is the same. -/
  loop : s.loop? = s'.loop?

/-! ### Steps -/

/-- The first steps are the second ones when `m` constructs are numbered before their own. Only the
numbers differ, and the first steps may fail where the second ones go on. -/
inductive Relocated (m : Numbering) : List Step → List Step → Prop
  | nil : Relocated m [] []
  | number {ss ts : List Step} (k : Construct) (n : Nat) (h : Relocated m ss ts) :
    Relocated m (.note (.numbered k (n + m.count k)) :: ss) (.note (.numbered k n) :: ts)
  | emit {ss ts : List Step} (line : Instruction Label) (h : Relocated m ss ts) :
    Relocated m (.emit (line.map (Label.shift m)) :: ss) (.emit line :: ts)
  | fail (f : Failure) (ss ts : List Step) : Relocated m (.fail f :: ss) ts

namespace Relocated

open Step Fragment

variable {m m₀ : Numbering} {ss ss' ts ts' : List Step}

/-- Steps are relocated part by part. -/
lemma append (h : Relocated m ss ts) (h' : Relocated m ss' ts') :
    Relocated m (ss ++ ss') (ts ++ ts') := by
  induction h with
  | nil => exact h'
  | number k n _ ih => exact .number k n ih
  | emit line _ ih => exact .emit line ih
  | fail f ss ts => exact .fail f _ _

/-- What succeeds after some constructs succeeds without them, and adds the same lines up to their
numbers. -/
lemma of_success (h : Relocated m ss ts) (hs : failures ss = []) :
    failures ts = [] ∧ lines ss = relocate m (lines ts) := by
  induction h with
  | nil => exact ⟨rfl, rfl⟩
  | number k n _ ih => exact ih hs
  | emit line _ ih =>
    obtain ⟨hts, hlines⟩ := ih hs
    exact ⟨hts, congrArg (line.map (Label.shift m) :: ·) hlines⟩
  | fail => cases hs

/-- Lines are relocated one by one. -/
lemma emits {is js : List (Instruction Label)} (h : is = relocate m js) :
    Relocated m (emits is) (emits js) := by
  subst h
  induction js with
  | nil => exact .nil
  | cons j js ih => exact .emit j ih

/-- An address is computed without looking at numbers. -/
lemma addressed {address : Except Overflow Int} {rest rest' : Int → List Step}
    (h : ∀ x, Relocated m (rest x) (rest' x)) :
    Relocated m (addressed address rest) (addressed address rest') := by
  cases address with
  | ok x => exact h x
  | error overflow => exact .fail _ _ _

/-- A construct takes the number that it would take on its own, moved up by those before it. -/
lemma numbering {k : Construct} {rest rest' : Allocated → Numbering → List Step}
    (h : Relocated m₀ (rest ⟨k, m.count k + 1 + m₀.count k⟩ (m.next k + m₀))
      (rest' ⟨k, m.count k + 1⟩ (m.next k))) :
    Relocated m₀ (numbering k (m + m₀) rest) (numbering k m rest') := by
  have hcount : (m + m₀).count k + 1 = m.count k + 1 + m₀.count k := by
    rw [Numbering.count_add]
    omega
  have hnumber : (m + m₀).upcoming k = ⟨k, m.count k + 1 + m₀.count k⟩ := by
    simp [Numbering.upcoming, Nat.add_right_comm]
  have hnumber' : m.upcoming k = ⟨k, m.count k + 1⟩ := by simp [Numbering.upcoming]
  by_cases hlt : (m + m₀).count k + 1 < counterLimit
  · rw [numbering_of_lt hlt, numbering_of_lt (m := m) (by omega), hnumber, hnumber',
      Numbering.next_add, hcount]
    exact .number k _ h
  · rw [numbering_of_le (Nat.le_of_not_lt hlt)]
    exact .fail _ _ _

/-- **Calls.** A callee that is declared for the second steps is declared for the first ones with
the same arity, so a call that passes here passes there. -/
lemma checkArity {s s' : Scope} (hs : s.Widens s') (callee : String) (found : Nat)
    (c c' : Cursor) : Relocated m ((checkArity callee found).steps s c)
      ((checkArity callee found).steps s' c') := by
  unfold Fragment.checkArity
  dsimp only
  cases ha : s.arity? callee with
  | none =>
    cases ha' : s'.arity? callee with
    | none => exact .nil
    | some n =>
      rw [hs.arity callee n ha'] at ha
      cases ha
  | some expected =>
    by_cases hn : expected.toNat = found
    · cases ha' : s'.arity? callee with
      | none => simpa [hn] using .nil
      | some n =>
        obtain rfl : expected = n := Option.some_inj.mp (ha.symm.trans (hs.arity callee n ha'))
        simpa [hn] using .nil
    · simpa [hn] using .fail _ _ _

/-- The lines of an escape depend on the depth and on the loop around it. -/
lemma escape {s s' : Scope} (hs : s.Widens s') (how : Escape) {c c' : Cursor}
    (hc : c.depth = c'.depth) : Relocated m ((Fragment.escape how).steps s c)
      ((Fragment.escape how).steps s' c') := by
  unfold Fragment.escape
  dsimp only
  rw [← hs.loop, ← hc]
  split
  · exact .fail _ _ _
  · refine .emits ?_
    unfold Escape.jump
    split_ifs <;> rfl

end Relocated

/-- A loop is around the same place in the wider scope. -/
lemma Scope.Widens.looping {s s' : Scope} (h : s.Widens s') (depth : Nat) :
    Scope.Widens { s with loop? := some depth } { s' with loop? := some depth } :=
  ⟨h.arity, h.function, rfl⟩

/-- A function starts outside of every loop in the wider scope, too. -/
lemma Scope.Widens.within {s s' : Scope} (h : s.Widens s') (name : String) :
    Scope.Widens { s with function := name, loop? := none }
      { s' with function := name, loop? := none } := ⟨h.arity, rfl, rfl⟩

/-! ### Expressions and programs -/

namespace Expr

open Step Fragment

/-- Where all arguments can be relocated, the argument list can. -/
lemma relocated_lowerArgs {m₀ : Numbering} {args : List Expr} {s s' : Scope}
    (h : ∀ arg ∈ args, ∀ m d, Relocated m₀ (arg.lower.steps s ⟨m + m₀, d⟩)
      (arg.lower.steps s' ⟨m, d⟩)) (m : Numbering) (d : Nat) :
    Relocated m₀ ((lowerArgs args).steps s ⟨m + m₀, d⟩) ((lowerArgs args).steps s' ⟨m, d⟩) := by
  induction args with
  | nil => exact .nil
  | cons arg args ih =>
    have hargs := ih fun a ha => h a (List.mem_cons_of_mem _ ha)
    simp only [steps_lowerArgs_cons, Numbering.add_right_comm _ m₀]
    exact (hargs.append (h arg List.mem_cons_self _ _)).append (.emits rfl)

/-- **The steps of an expression can be relocated.**

**Proof sketch.** Induction over the expression. Only constructs look at the numbering, only calls
look at the arities, and only escapes look at the loop and the depth. -/
theorem relocated_lower (m₀ : Numbering) (e : Expr) {s s' : Scope} (hs : s.Widens s')
    (m : Numbering) (d : Nat) :
    Relocated m₀ (e.lower.steps s ⟨m + m₀, d⟩) (e.lower.steps s' ⟨m, d⟩) := by
  induction e generalizing s s' m d with
  | literal value | skip => exact .emits (by rfl)
  | var slot =>
    simp only [steps_lower_var]
    exact .addressed fun x => .emits (by rfl)
  | assign slot value ih =>
    simp only [steps_lower_assign]
    exact (ih hs m d).append (.addressed fun x => .emits (by rfl))
  | binary lhs op rhs ihl ihr =>
    simp only [steps_lower_binary, Numbering.add_right_comm _ m₀]
    exact (((ihl hs m d).append (.emits (by rfl))).append (ihr hs _ _)).append (.emits (by rfl))
  | seq first second ihf ihs =>
    simp only [steps_lower_seq, Numbering.add_right_comm _ m₀]
    exact (ihf hs m d).append (ihs hs _ _)
  | call callee args ih =>
    simp only [steps_lower_call]
    exact (((Relocated.checkArity hs _ _ _ _).append (.emits (by rfl))).append
      (relocated_lowerArgs (fun arg harg => ih arg harg hs) _ _)).append (.emits (by rfl))
  | escape how =>
    simp only [steps_lower_escape]
    exact .escape hs how rfl
  | ifElse lhs cmp rhs thenBody elseBody ihl ihr iht ihe =>
    simp only [steps_lower_ifElse]
    refine .numbering ?_
    simp only [Numbering.add_right_comm _ m₀]
    exact ((((((((ihl hs _ d).append (.emits (by rfl))).append (ihr hs _ _)).append
      (.emits (by cases cmp <;> rfl))).append (ihe hs _ _)).append (.emits (by rfl))).append
      (iht hs _ _)).append (.emits (by rfl)))
  | whileDo lhs cmp rhs body ihl ihr ihb =>
    simp only [steps_lower_whileDo]
    refine .numbering ?_
    simp only [Numbering.add_right_comm _ m₀]
    have hloop := hs.looping (d + 2)
    exact ((((((Relocated.emits (by rfl)).append (ihl hloop _ _)).append (.emits (by rfl))).append
      (ihr hloop _ _)).append (.emits (by cases cmp <;> rfl))).append (ihb hloop _ _)).append
      (.emits (by rfl))
  | repeatUntil body lhs cmp rhs ihb ihl ihr =>
    simp only [steps_lower_repeatUntil]
    refine .numbering ?_
    simp only [Numbering.add_right_comm _ m₀]
    have hloop := hs.looping (d + 2)
    exact ((((((Relocated.emits (by rfl)).append (ihb hloop _ _)).append (ihl hloop _ _)).append
      (.emits (by rfl))).append (ihr hloop _ _)).append (.emits (by cases cmp <;> rfl))).append
      (.emits (by rfl))

end Expr

namespace Declaration

open Step Fragment

/-- **The steps of a function after its announcement can be relocated.** What was pushed before it
does not matter. -/
theorem relocated_inside (m₀ : Numbering) (d : Declaration) {s s' : Scope} (hs : s.Widens s')
    (m : Numbering) (x y : Nat) : Relocated m₀ (d.inside s ⟨m + m₀, x⟩) (d.inside s' ⟨m, y⟩) :=
  .addressed fun size => ((Relocated.emits (by rfl)).append
    (d.body.relocated_lower m₀ (hs.within d.name) m 0)).append (.emits (by rfl))

end Declaration

namespace Program

open Fragment

variable {p : Program} {listing : List (Instruction Label)}

/-- The constructs in the bodies of a list of declarations. -/
def numberingOf (ds : List Declaration) : Numbering where
  conditionals := countDecls .conditional ds
  whileLoops := countDecls .whileLoop ds
  repeatLoops := countDecls .repeatLoop ds

/-- The constructs of a kind are as many as there are. -/
@[simp] lemma count_numberingOf (ds : List Declaration) (k : Construct) :
    (numberingOf ds).count k = countDecls k ds := by
  cases k <;> rfl

/-- The constructs of declarations are counted part by part. -/
lemma countDecls_append (k : Construct) (ds es : List Declaration) :
    countDecls k (ds ++ es) = countDecls k ds + countDecls k es := by
  induction ds with
  | nil => simp [countDecls]
  | cons d ds ih => simp [countDecls, ih, Nat.add_assoc]

/-- The arities of a program of one declaration are those of a program that has it. -/
lemma widens_singleton (hp : p.duplicate? = none) {d : Declaration} (hd : d ∈ p.decls) :
    Scope.Widens { arity? := p.arity? } { arity? := Program.arity? ⟨[d]⟩ } := by
  refine ⟨fun name n hn => ?_, rfl, rfl⟩
  obtain ⟨d', hd', hname, harity⟩ := (arity?_eq_some_iff (p := ⟨[d]⟩) (by rfl)).mp hn
  obtain rfl := List.mem_singleton.mp hd'
  exact (arity?_eq_some_iff hp).mpr ⟨d', hd, hname, harity⟩

/-- A declaration that is lowered without failure after some constructs has a listing of its own,
of which its code is the relocation. -/
lemma compile_singleton (hp : p.duplicate? = none) {d : Declaration} (hd : d ∈ p.decls)
    {c : Cursor} (hs : Step.failures (d.lower.steps { arity? := p.arity? } c) = []) :
    ∃ code, compile ⟨[d]⟩ = .ok code ∧
      Step.lines (d.lower.steps { arity? := p.arity? } c) = relocate c.numbering code := by
  rw [Declaration.steps_lower] at hs ⊢
  have hrelocated := d.relocated_inside c.numbering (widens_singleton hp hd) {} c.depth 0
  rw [Numbering.start_add] at hrelocated
  obtain ⟨hinside, hlines⟩ := hrelocated.of_success hs
  have hlower : (lower ⟨[d]⟩).emission { arity? := arity? ⟨[d]⟩ } {} =
      d.lower.emission { arity? := arity? ⟨[d]⟩ } {} := by simp [lower]
  have hsuccess : (d.lower.emission { arity? := arity? ⟨[d]⟩ } {}).failure? = none := by
    rw [failure?_emission_eq_none_iff, Declaration.steps_lower]
    exact hinside
  refine ⟨_, compile_eq_ok_iff.mpr ⟨by rfl, by rw [hlower, hsuccess], rfl⟩, ?_⟩
  rw [hlower, code_emission hsuccess, Declaration.steps_lower]
  exact hlines

/-- The declarations after the first ones, each relocated past those before it. -/
lemma code_eq_relocated (hp : p.duplicate? = none) {pre ds : List Declaration}
    (hds : p.decls = pre ++ ds) {c : Cursor} (hc : c.numbering = numberingOf pre)
    (hs : Step.failures ((concat (ds.map Declaration.lower)).steps { arity? := p.arity? } c) = []) :
    ∃ codes, ds.mapM (fun d => compile ⟨[d]⟩) = .ok codes ∧
      Step.lines ((concat (ds.map Declaration.lower)).steps { arity? := p.arity? } c) =
        ((codes.zipIdx pre.length).map fun (code, i) =>
          relocate (numberingOf (p.decls.take i)) code).flatten := by
  induction ds generalizing pre c with
  | nil => exact ⟨[], rfl, rfl⟩
  | cons d ds ih =>
    rw [List.map_cons, concat_cons, steps_append, Step.failures_append,
      List.append_eq_nil_iff] at hs
    obtain ⟨hd, hrest⟩ := hs
    obtain ⟨code, hcode, hlines⟩ := compile_singleton hp (by simp [hds]) hd
    obtain ⟨-, -, -, -, hadvance⟩ := Declaration.lower_of_success hd
    have hnext : (d.lower.advance c).numbering = numberingOf (pre ++ [d]) := by
      refine Numbering.ext_count fun k => ?_
      rw [hadvance, Numbering.count_add, hc, count_numberingOf, count_numberingOf,
        countDecls_append, Expr.count_constructs]
      rfl
    obtain ⟨codes, hcodes, hlines'⟩ := ih (by simp [hds]) hnext hrest
    refine ⟨code :: codes, ?_, ?_⟩
    · rw [List.mapM_cons, hcode, hcodes]
      rfl
    · have htake : p.decls.take pre.length = pre := by rw [hds, List.take_left]
      rw [List.map_cons, concat_cons, steps_append, Step.lines_append, hlines, hlines',
        List.length_append, List.length_singleton, List.zipIdx_cons, List.map_cons,
        List.flatten_cons]
      simp only [htake, hc]

/-- **Declarations can be compiled one by one.** Each declaration of a program that has a listing
has a listing as a program of its own, and the listing of the program is made of these, in program
order, each with its labels renumbered: to the number of a label of a conditional or a loop is added
how many constructs of this kind are in the bodies of the declarations before it. Entries of
functions and all else stay as they are.

**Proof sketch.** The lines of each declaration are relocated lines of its own listing by
`compile_singleton`, and the declarations before it have moved the numbering on by their
constructs. -/
theorem compile_eq_relocated (h : p.compile = .ok listing) :
    ∃ codes, p.decls.mapM (fun d => compile ⟨[d]⟩) = .ok codes ∧
      listing = (codes.zipIdx.map fun (code, i) =>
        relocate (numberingOf (p.decls.take i)) code).flatten := by
  obtain ⟨hduplicate, hs, rfl⟩ := compile_eq_ok_iff.mp h
  obtain ⟨codes, hcodes, hlines⟩ := code_eq_relocated hduplicate
    (List.nil_append p.decls).symm (c := {}) rfl (failure?_emission_eq_none_iff.mp hs)
  refine ⟨codes, hcodes, ?_⟩
  rw [code_emission hs]
  exact hlines

/-- Two functions that call each other, each out of a conditional in a loop. -/
def pingPong : Program where
  decls := [
    { name := "ping", arity := 1, body :=
      .whileDo ⟨.var 1, .gt, .literal 0⟩
        (.ifElse ⟨.call "pong" [.literal 0, .var 1], .eq, .literal 0⟩ (.escape .exit) .skip) },
    { name := "pong", arity := 2, body :=
      .repeatUntil (.ifElse ⟨.var 1, .lt, .var 2⟩ (.call "ping" [.var 1]) (.escape .exit))
        ⟨.literal 0, .eq, .whileDo ⟨.var 1, .le, .var 2⟩ (.escape .restart)⟩ }]

/-- The second function is its own listing with the numbers of its conditional and of its `while`
moved up by one, and the number of its `repeat` as it was. -/
theorem compile_eq_relocated_pingPong :
    ∃ listing ping pong, pingPong.compile = .ok listing ∧
      pingPong.decls.mapM (fun d => compile ⟨[d]⟩) = .ok [ping, pong] ∧
      listing = relocate {} ping ++ relocate { conditionals := 1, whileLoops := 1 } pong := by
  obtain ⟨listing, hlisting⟩ : ∃ listing, pingPong.compile = .ok listing := ⟨_, rfl⟩
  obtain ⟨codes, hcodes, hlines⟩ := compile_eq_relocated hlisting
  obtain ⟨ping, pong, hparts⟩ : ∃ ping pong,
      pingPong.decls.mapM (fun d => compile ⟨[d]⟩) = .ok [ping, pong] := ⟨_, _, rfl⟩
  obtain rfl : codes = [ping, pong] := Except.ok.inj (hcodes.symm.trans hparts)
  have hsecond : numberingOf (pingPong.decls.take 1) = { conditionals := 1, whileLoops := 1 } := rfl
  simp only [List.zipIdx_cons, List.zipIdx_nil, List.map_cons, List.map_nil, List.flatten_cons,
    List.flatten_nil, List.append_nil, Nat.zero_add, hsecond] at hlines
  exact ⟨listing, ping, pong, hlisting, hparts, hlines⟩

end Program

end ImpRiscV
