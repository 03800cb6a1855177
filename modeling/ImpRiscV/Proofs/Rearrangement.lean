import Mathlib.Logic.Relation
import ImpRiscV.Proofs.Layout

/-!
# Sequencing is associative and floats to the left

Fragments form a monoid, so how a sequence is bracketed leaves no trace in the code. What comes
first in an expression can also be moved out of the constructs that evaluate it first: out of the
value of an assignment and out of the left operand of an arithmetic operation. A rewrite of this
kind may be made anywhere in a program. The fragment of an expression depends on its parts through
their fragments only, so the run over the rewritten program is the same from the first event to the
last, or to the same failure.

## Main definitions

* `ImpRiscV.Expr.Layer`, `ImpRiscV.Expr.plug` — what is around a part of an expression.
* `ImpRiscV.Expr.Floats` — the three rules.
* `ImpRiscV.Expr.RewritesTo`, `ImpRiscV.Program.RewritesTo` — one use of a rule, anywhere.

## Main results

* `ImpRiscV.Expr.exists_plug_of_at?` — there is such a surrounding for every part.
* `ImpRiscV.Expr.lower_plug` — parts with the same fragment may be exchanged.
* `ImpRiscV.Program.rearranged_same_run` — rewriting does not change the run.
-/

set_option relaxedAutoImplicit false
set_option autoImplicit false

namespace ImpRiscV

open Fragment

namespace Expr

/-! ### Surroundings -/

/-- A test with one operand missing. -/
inductive OpenTest where
  /-- The left operand is missing. -/
  | left (cmp : Comparison) (rhs : Expr)
  /-- The right operand is missing. -/
  | right (lhs : Expr) (cmp : Comparison)

/-- The test with the missing operand put in. -/
def OpenTest.fill (e : Expr) : OpenTest → Condition Expr
  | .left cmp rhs => ⟨e, cmp, rhs⟩
  | .right lhs cmp => ⟨lhs, cmp, e⟩

/-- An expression with one immediate part missing. -/
inductive Layer where
  | value (slot : UInt64)
  | left (op : ArithOp) (rhs : Expr)
  | right (lhs : Expr) (op : ArithOp)
  | ifTest (test : OpenTest) (thenBody elseBody : Expr)
  | thenPart (cond : Condition Expr) (elseBody : Expr)
  | elsePart (cond : Condition Expr) (thenBody : Expr)
  | whileTest (test : OpenTest) (body : Expr)
  | whileBody (cond : Condition Expr)
  | repeatBody (cond : Condition Expr)
  | repeatTest (body : Expr) (test : OpenTest)
  | argument (callee : String) (before after : List Expr)
  | seqLeft (second : Expr)
  | seqRight (first : Expr)

/-- The expression with the missing part put in. -/
def Layer.fill (e : Expr) : Layer → Expr
  | .value slot => .assign slot e
  | .left op rhs => .binary e op rhs
  | .right lhs op => .binary lhs op e
  | .ifTest test thenBody elseBody => .ifElse (test.fill e) thenBody elseBody
  | .thenPart cond elseBody => .ifElse cond e elseBody
  | .elsePart cond thenBody => .ifElse cond thenBody e
  | .whileTest test body => .whileDo (test.fill e) body
  | .whileBody cond => .whileDo cond e
  | .repeatBody cond => .repeatUntil e cond
  | .repeatTest body test => .repeatUntil body (test.fill e)
  | .argument callee before after => .call callee (before ++ e :: after)
  | .seqLeft second => .seq e second
  | .seqRight first => .seq first e

/-- The expression in the middle of layers, the outermost of which comes first. -/
def plug (layers : List Layer) (e : Expr) : Expr := layers.foldr (fun layer e => layer.fill e) e

/-- Around every immediate part there is a layer. -/
lemma exists_fill_of_mem_parts {e x : Expr} (hx : x ∈ e.parts) :
    ∃ layer : Layer, layer.fill x = e := by
  cases e with
  | literal | var | skip | escape => exact absurd hx List.not_mem_nil
  | assign slot value =>
    obtain rfl := List.mem_singleton.mp hx
    exact ⟨.value slot, rfl⟩
  | binary lhs op rhs =>
    rcases List.mem_pair.mp hx with rfl | rfl
    · exact ⟨.left op rhs, rfl⟩
    · exact ⟨.right lhs op, rfl⟩
  | ifElse cond thenBody elseBody =>
    obtain ⟨lhs, cmp, rhs⟩ := cond
    simp only [parts, List.mem_cons, List.not_mem_nil, or_false] at hx
    rcases hx with rfl | rfl | rfl | rfl
    · exact ⟨.ifTest (.left cmp rhs) thenBody elseBody, rfl⟩
    · exact ⟨.ifTest (.right lhs cmp) thenBody elseBody, rfl⟩
    · exact ⟨.elsePart ⟨lhs, cmp, rhs⟩ thenBody, rfl⟩
    · exact ⟨.thenPart ⟨lhs, cmp, rhs⟩ elseBody, rfl⟩
  | whileDo cond body =>
    obtain ⟨lhs, cmp, rhs⟩ := cond
    simp only [parts, List.mem_cons, List.not_mem_nil, or_false] at hx
    rcases hx with rfl | rfl | rfl
    · exact ⟨.whileTest (.left cmp rhs) body, rfl⟩
    · exact ⟨.whileTest (.right lhs cmp) body, rfl⟩
    · exact ⟨.whileBody ⟨lhs, cmp, rhs⟩, rfl⟩
  | repeatUntil body cond =>
    obtain ⟨lhs, cmp, rhs⟩ := cond
    simp only [parts, List.mem_cons, List.not_mem_nil, or_false] at hx
    rcases hx with rfl | rfl | rfl
    · exact ⟨.repeatBody ⟨lhs, cmp, rhs⟩, rfl⟩
    · exact ⟨.repeatTest body (.left cmp rhs), rfl⟩
    · exact ⟨.repeatTest body (.right lhs cmp), rfl⟩
  | call callee args =>
    obtain ⟨before, after, rfl⟩ := List.append_of_mem (List.mem_reverse.mp hx)
    exact ⟨.argument callee before after, rfl⟩
  | seq first second =>
    rcases List.mem_pair.mp hx with rfl | rfl
    · exact ⟨.seqLeft second, rfl⟩
    · exact ⟨.seqRight first, rfl⟩

/-- **Around every part of an expression there are layers**, so what is said of all layers is said
of all places. -/
theorem exists_plug_of_at? {path : List Nat} {e x : Expr} (h : e.at? path = some x) :
    ∃ layers, plug layers x = e := by
  induction path generalizing e with
  | nil =>
    obtain rfl := Option.some_inj.mp h
    exact ⟨[], rfl⟩
  | cons i path ih =>
    obtain ⟨y, hy, hpath⟩ := Option.bind_eq_some_iff.mp h
    obtain ⟨layers, rfl⟩ := ih hpath
    obtain ⟨layer, rfl⟩ := exists_fill_of_mem_parts (List.mem_of_getElem? hy)
    exact ⟨layer :: layers, rfl⟩

/-! ### Exchanging parts -/

/-- An argument may be exchanged for one with the same code. -/
lemma lowerArgs_exchange {x y : Expr} (h : x.lower = y.lower) (before after : List Expr) :
    lowerArgs (before ++ x :: after) = lowerArgs (before ++ y :: after) := by
  induction before with
  | nil => simp only [List.nil_append, lowerArgs, h]
  | cons arg before ih => simp only [List.cons_append, lowerArgs, ih]

/-- One layer sees of its part the fragment, and of an argument also that it is one. -/
lemma lower_fill {x y : Expr} (h : x.lower = y.lower) (layer : Layer) :
    (layer.fill x).lower = (layer.fill y).lower := by
  have htest : ∀ test : OpenTest,
      (test.fill x).lhs.lower = (test.fill y).lhs.lower ∧ (test.fill x).cmp = (test.fill y).cmp ∧
        (test.fill x).rhs.lower = (test.fill y).rhs.lower := by
    intro test
    cases test with
    | left cmp rhs => exact ⟨h, rfl, rfl⟩
    | right lhs cmp => exact ⟨rfl, rfl, h⟩
  cases layer with
  | value | left | right | thenPart | elsePart | whileBody | repeatBody | seqLeft | seqRight =>
    simp only [Layer.fill, lower, h]
  | ifTest test | whileTest test | repeatTest body test =>
    obtain ⟨hl, hcmp, hr⟩ := htest test
    simp only [Layer.fill, lower, hl, hcmp, hr]
  | argument callee before after =>
    simp only [Layer.fill, lower, lowerArgs_exchange h, List.length_append, List.length_cons]

/-- **Parts with the same fragment may be exchanged**, wherever they stand. -/
theorem lower_plug {x y : Expr} (h : x.lower = y.lower) (layers : List Layer) :
    (plug layers x).lower = (plug layers y).lower := by
  induction layers with
  | nil => exact h
  | cons layer layers ih => exact lower_fill ih layer

/-! ### Rules -/

/-- What is run first may be moved out to the left. -/
inductive Floats : Expr → Expr → Prop
  /-- Out of a sequence: sequencing is associative. -/
  | seq (a b c : Expr) : Floats (.seq (.seq a b) c) (.seq a (.seq b c))
  /-- Out of the value of an assignment. -/
  | assign (slot : UInt64) (a b : Expr) : Floats (.assign slot (.seq a b)) (.seq a (.assign slot b))
  /-- Out of a left operand. -/
  | binary (a b : Expr) (op : ArithOp) (c : Expr) :
    Floats (.binary (.seq a b) op c) (.seq a (.binary b op c))

/-- Moving out what is run first leaves the fragment as it is. -/
lemma Floats.lower_eq {x y : Expr} (h : Floats x y) : x.lower = y.lower := by
  cases h with
  | seq a b c => simp only [lower, append_assoc]
  | assign slot a b => simp only [lower, append_assoc]
  | binary a b op c => simp only [lower, operands, concat_cons, append_assoc]

/-- One block in place of two blocks in sequence. -/
inductive JoinsBlocks (xs ys : List Expr) : Expr → Expr → Prop
  | intro : JoinsBlocks xs ys (block (xs ++ ys)) (.seq (block xs) (block ys))

/-- A block has the fragment of its two halves in sequence, if neither is empty.

**Proof sketch.** Induction on the first half. Where it has one member, both sides are the same
expression; a longer one is a sequence whose second part is a block, and sequencing is
associative. -/
lemma lower_block_append {xs ys : List Expr} (hxs : xs ≠ []) (hys : ys ≠ []) :
    (block (xs ++ ys)).lower = (Expr.seq (block xs) (block ys)).lower := by
  induction xs with
  | nil => exact absurd rfl hxs
  | cons x xs ih =>
    cases xs with
    | nil =>
      obtain ⟨y, ys, rfl⟩ := List.exists_cons_of_ne_nil hys
      rfl
    | cons x' xs =>
      have hrest := ih (List.cons_ne_nil x' xs)
      simp only [List.cons_append, block_cons_cons, lower] at hrest ⊢
      rw [hrest, append_assoc]

/-- One use of a rule somewhere in an expression. -/
inductive RewritesTo (R : Expr → Expr → Prop) : Expr → Expr → Prop
  | intro (layers : List Layer) {x y : Expr} (h : R x y) :
    RewritesTo R (plug layers x) (plug layers y)

end Expr

/-! ### Programs -/

namespace Program

/-- One use of a rule somewhere in a body of a program. -/
inductive RewritesTo (R : Expr → Expr → Prop) : Program → Program → Prop
  | intro (before after : List Declaration) (name : String) (arity : UInt64) {body body' : Expr}
    (h : body.RewritesTo R body') :
    RewritesTo R ⟨before ++ ⟨name, arity, body⟩ :: after⟩ ⟨before ++ ⟨name, arity, body'⟩ :: after⟩

variable {R : Expr → Expr → Prop} {p p' : Program}

/-- Exchanging the body of a function for one with the same fragment leaves the run as it is: the
names and arities of the program are the same, and so is its fragment. -/
lemma emission_exchange (before after : List Declaration) (name : String) (arity : UInt64)
    {body body' : Expr} (h : body.lower = body'.lower) :
    emission ⟨before ++ ⟨name, arity, body⟩ :: after⟩ =
      emission ⟨before ++ ⟨name, arity, body'⟩ :: after⟩ := by
  have harity : arity? ⟨before ++ ⟨name, arity, body⟩ :: after⟩ =
      arity? ⟨before ++ ⟨name, arity, body'⟩ :: after⟩ := by
    funext callee
    simp only [arity?, List.find?_append, List.find?_cons]
    by_cases hname : name == callee
    · simp only [hname, Option.map_or, Option.map_some]
    · simp only [hname]
  have hnames : duplicate? ⟨before ++ ⟨name, arity, body⟩ :: after⟩ =
      duplicate? ⟨before ++ ⟨name, arity, body'⟩ :: after⟩ := by
    simp only [duplicate?, List.map_append, List.map_cons]
  have hlower : lower ⟨before ++ ⟨name, arity, body⟩ :: after⟩ =
      lower ⟨before ++ ⟨name, arity, body'⟩ :: after⟩ := by
    simp only [lower, List.map_append, List.map_cons, Declaration.lower, h]
  simp only [emission, harity, hnames, hlower, List.length_append, List.length_cons]

/-- If a rule leaves fragments as they are, rewriting by it and by its inverse leaves the run as it
is. -/
lemma emission_eq_of_rewrites (hR : ∀ x y, R x y → x.lower = y.lower)
    (h : Relation.EqvGen (RewritesTo R) p p') : p.emission = p'.emission := by
  induction h with
  | rel p p' h =>
    obtain ⟨before, after, name, arity, ⟨layers, hxy⟩⟩ := h
    exact emission_exchange before after name arity (Expr.lower_plug (hR _ _ hxy) layers)
  | refl p => rfl
  | symm p p' _ ih => exact ih.symm
  | trans p p' p'' _ _ ih ih' => exact ih.trans ih'

/-- **Sequencing is associative and floats to the left.** Programs that differ by any number of
rewrites in any places have the same listing or fail in the same way, with the same log, where a
rewrite moves what is run first out of a sequence, an assignment or a left operand, or back into it.
So do programs in which one block stands in place of two blocks in sequence, neither of them empty.

**Proof sketch.** The rules leave fragments as they are, because fragments form a monoid, and
emissions are the same by `emission_eq_of_rewrites`. -/
theorem rearranged_same_run :
    (∀ p p' : Program, Relation.EqvGen (RewritesTo Expr.Floats) p p' →
      p.compile = p'.compile ∧ p.log = p'.log) ∧
    ∀ xs ys : List Expr, xs ≠ [] → ys ≠ [] →
      ∀ p p' : Program, Relation.EqvGen (RewritesTo (Expr.JoinsBlocks xs ys)) p p' →
        p.compile = p'.compile ∧ p.log = p'.log := by
  have hrun : ∀ p p' : Program, p.emission = p'.emission →
      p.compile = p'.compile ∧ p.log = p'.log := by
    intro p p' h
    simp only [compile, log, h, and_self]
  refine ⟨fun p p' h => ?_, fun xs ys hxs hys p p' h => ?_⟩
  · exact hrun p p' (emission_eq_of_rewrites (fun _ _ => Expr.Floats.lower_eq) h)
  · refine hrun p p' (emission_eq_of_rewrites ?_ h)
    rintro _ _ ⟨⟩
    exact Expr.lower_block_append hxs hys

/-- A loop with a sequence as an operand of its test, and with a sequence as a value that is
assigned in an argument of a call. -/
def nestedSequences : Program where
  decls := [
    { name := "main", arity := 1, body :=
      .whileDo ⟨.binary (.seq (.call "step" []) (.var 1)) .sub (.literal 1), .gt, .literal 0⟩
        (.call "print" [.skip, .assign 1 (.seq (.escape .exit) (.literal 2))]) }]

/-- The same loop with both sequences moved out. -/
def floatedSequences : Program where
  decls := [
    { name := "main", arity := 1, body :=
      .whileDo ⟨.seq (.call "step" []) (.binary (.var 1) .sub (.literal 1)), .gt, .literal 0⟩
        (.call "print" [.skip, .seq (.escape .exit) (.assign 1 (.literal 2))]) }]

/-- A block with an escape outside of every loop. -/
def strayBlock : Program where
  decls := [
    { name := "f", arity := 0, body := Expr.block [.skip, .escape .restart, .var 0] }]

/-- The same block cut in two. -/
def strayBlocks : Program where
  decls := [
    { name := "f", arity := 0, body :=
      .seq (Expr.block [.skip, .escape .restart]) (Expr.block [.var 0]) }]

/-- Both loops have the same listing, although two rewrites lie between them, and the escape is
reported in the same way from the block and from its halves. -/
theorem rearranged_same_run_sequences :
    (∃ listing, nestedSequences ≠ floatedSequences ∧ nestedSequences.compile = .ok listing ∧
      floatedSequences.compile = .ok listing ∧ nestedSequences.log = floatedSequences.log) ∧
    ∃ f, strayBlock ≠ strayBlocks ∧ strayBlock.compile = .error f ∧
      strayBlocks.compile = .error f ∧ strayBlock.log = strayBlocks.log := by
  have hoperand : RewritesTo Expr.Floats nestedSequences _ :=
    .intro [] [] "main" 1 (.intro [.whileTest (.left .gt (.literal 0)) _]
      (.binary (.call "step" []) (.var 1) .sub (.literal 1)))
  have hvalue : RewritesTo Expr.Floats _ floatedSequences :=
    .intro [] [] "main" 1 (.intro [.whileBody _, .argument "print" [.skip] []]
      (.assign 1 (.escape .exit) (.literal 2)))
  have hblocks : RewritesTo (Expr.JoinsBlocks [.skip, .escape .restart] [.var 0]) strayBlock
      strayBlocks := .intro [] [] "f" 0 (.intro [] .intro)
  obtain ⟨hlisting, hlog⟩ := rearranged_same_run.1 _ _ (.trans _ _ _ (.rel _ _ hoperand)
    (.rel _ _ hvalue))
  obtain ⟨hfailure, hlog'⟩ := rearranged_same_run.2 _ _ (List.cons_ne_nil _ _)
    (List.cons_ne_nil _ _) _ _ (.rel _ _ hblocks)
  obtain ⟨listing, hok⟩ : ∃ listing, nestedSequences.compile = .ok listing := ⟨_, rfl⟩
  obtain ⟨f, herror⟩ : ∃ f, strayBlock.compile = .error f := ⟨_, rfl⟩
  exact ⟨⟨listing, by decide, hok, hlisting.symm.trans hok, hlog⟩,
    f, by decide, herror, hfailure.symm.trans herror, hlog'⟩

end Program

end ImpRiscV
