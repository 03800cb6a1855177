import Mathlib.Order.Nat
import ImpRiscV.Proofs.Placement

/-!
# Which lines belong to which part of the source

Lowering visits every part of a program once and lays its code out in the order of the visits. This
file follows the visits: for each declaration, and for each occurrence of an expression in a body,
it says in which scope and from which cursor the part is lowered and at which position its code
starts. An occurrence is named by the path that leads to it from the body.

## Main definitions

* `ImpRiscV.Expr.parts`, `ImpRiscV.Expr.at?` — the immediate parts of an expression, in the order of
  their code, and the part at the end of a path.
* `ImpRiscV.Visit`, `ImpRiscV.Visit.parts`, `ImpRiscV.Visit.at?` — where expressions are lowered.
* `ImpRiscV.Placement`, `ImpRiscV.Program.placements` — where declarations are lowered.

## Main results

* `ImpRiscV.Visit.map_expr_at?` — every occurrence of an expression is visited.
* `ImpRiscV.Visit.Spans.at?` — the code of an occurrence stands where it is said to start.
* `ImpRiscV.Placement.spans`, `ImpRiscV.Placement.spans_body` — so does the code of a declaration
  and that of its body.
-/

set_option relaxedAutoImplicit false
set_option autoImplicit false

namespace ImpRiscV

open Fragment

namespace Expr

/-- The immediate parts of an expression, in the order in which their code is laid out. -/
def parts : Expr → List Expr
  | .literal _ | .var _ | .skip | .escape _ => []
  | .assign _ value => [value]
  | .binary lhs _ rhs => [lhs, rhs]
  | .ifElse ⟨lhs, _, rhs⟩ thenBody elseBody => [lhs, rhs, elseBody, thenBody]
  | .whileDo ⟨lhs, _, rhs⟩ body => [lhs, rhs, body]
  | .repeatUntil body ⟨lhs, _, rhs⟩ => [body, lhs, rhs]
  | .call _ args => args.reverse
  | .seq first second => [first, second]

/-- The part at the end of a path, each step of which is the number of an immediate part. -/
def at? : List Nat → Expr → Option Expr
  | [], e => some e
  | i :: path, e => e.parts[i]?.bind (at? path)

end Expr

/-! ### Visits -/

/-- An expression with the place where it is lowered. -/
structure Visit where
  /-- The expression. -/
  expr : Expr
  /-- The scope in which it is lowered. -/
  scope : Scope
  /-- The cursor from which it is lowered. -/
  cursor : Cursor
  /-- The position of its first line. -/
  start : Nat

namespace Visit

/-- The lines that are emitted for the expression. -/
def lines (v : Visit) : List (Instruction Label) := (v.expr.lower.emission v.scope v.cursor).code

/-- The position after its last line. -/
def stop (v : Visit) : Nat := v.start + v.lines.length

/-- The cursor after the expression. -/
def after (v : Visit) : Cursor := v.expr.lower.advance v.cursor

/-- The visit of `e` after `glue` has been emitted from cursor `c` at position `a`. -/
def past (glue : Fragment) (s : Scope) (c : Cursor) (a : Nat) (e : Expr) : Visit where
  expr := e
  scope := s
  cursor := glue.advance c
  start := a + (glue.emission s c).code.length

/-- The visit of `e` that follows a visit, with `glue` emitted in between. -/
def follow (v : Visit) (glue : Fragment) (e : Expr) : Visit := past glue v.scope v.after v.stop e

/-- The lines with which a loop starts. -/
def loopStart (exit head : Label) : Fragment :=
  concat [code [.la .exitTarget exit], push .exitTarget, code [.la .restartTarget head],
    push .restartTarget, code [.label head]]

/-- The visit of the first expression inside of a loop that is visited at `v`. -/
def enter (v : Visit) (k : Construct) (exit head : Role) (e : Expr) : Visit :=
  let m := v.cursor.numbering.next k
  let glue := loopStart (.numbered exit (m.count k)) (.numbered head (m.count k))
  { past glue v.scope { v.cursor with numbering := m } v.start e with
    scope := { v.scope with loop? := some (v.cursor.depth + 2) } }

/-- The visits of arguments, of which the last is lowered first. -/
def args (s : Scope) (c : Cursor) (a : Nat) : List Expr → List Visit
  | [] => []
  | arg :: rest => args s c a rest ++ [past (Expr.lowerArgs rest) s c a arg]

/-- The visits of the immediate parts of the visited expression, in order. -/
def parts (v : Visit) : List Visit :=
  match v.expr with
  | .literal _ | .var _ | .skip | .escape _ => []
  | .assign _ value => [{ v with expr := value }]
  | .binary lhs _ rhs =>
    let l : Visit := { v with expr := lhs }
    [l, l.follow (push .accumulator) rhs]
  | .ifElse ⟨lhs, cmp, rhs⟩ thenBody elseBody =>
    let m := v.cursor.numbering.next .conditional
    let n := m.count .conditional
    let l : Visit := { v with expr := lhs, cursor := { v.cursor with numbering := m } }
    let r := l.follow (push .accumulator) rhs
    let e := r.follow (pop .scratch ++
      code [cmp.branchTo (.numbered .thenBody n), .label (.numbered .elseBody n)]) elseBody
    [l, r, e, e.follow (code [.b (.numbered .join n), .label (.numbered .thenBody n)]) thenBody]
  | .whileDo ⟨lhs, cmp, rhs⟩ body =>
    let n := (v.cursor.numbering.next .whileLoop).count .whileLoop
    let l := v.enter .whileLoop .whileExit .whileHead lhs
    let r := l.follow (push .accumulator) rhs
    [l, r, r.follow (pop .scratch ++ code [cmp.branchTo (.numbered .whileBody n),
      .j (.numbered .whileExit n), .label (.numbered .whileBody n)]) body]
  | .repeatUntil body ⟨lhs, _, rhs⟩ =>
    let b := v.enter .repeatLoop .repeatExit .repeatHead body
    let l := b.follow nil lhs
    [b, l, l.follow (push .accumulator) rhs]
  | .call _ as => args v.scope { v.cursor with depth := v.cursor.depth + 1 } (v.start + 2) as
  | .seq first second =>
    let f : Visit := { v with expr := first }
    [f, f.follow nil second]

/-- The visit of the part at the end of a path. -/
def at? : List Nat → Visit → Option Visit
  | [], v => some v
  | i :: path, v => v.parts[i]?.bind (at? path)

/-- Arguments are visited from the last to the first. -/
lemma map_expr_args (s : Scope) (c : Cursor) (a : Nat) (as : List Expr) :
    (args s c a as).map expr = as.reverse := by
  induction as with
  | nil => rfl
  | cons arg rest ih =>
    rw [args, List.map_append, ih, List.reverse_cons]
    rfl

/-- The immediate parts are visited one by one. -/
lemma map_expr_parts (v : Visit) : v.parts.map expr = v.expr.parts := by
  obtain ⟨e, s, c, a⟩ := v
  cases e with
  | call callee as => exact map_expr_args _ _ _ as
  | literal | var | assign | binary | ifElse | whileDo | repeatUntil | seq | skip | escape => rfl

/-- **Every occurrence of an expression is visited.** -/
theorem map_expr_at? (path : List Nat) (v : Visit) : (v.at? path).map expr = v.expr.at? path := by
  induction path generalizing v with
  | nil => rfl
  | cons i path ih =>
    rw [at?, Expr.at?, ← map_expr_parts, List.getElem?_map]
    cases v.parts[i]? with
    | none => rfl
    | some w => exact ih w

/-! ### Visits stand in the listing -/

/-- The lines of the visit stand in the listing, from its start on. -/
def Spans (listing : List (Instruction Label)) (v : Visit) : Prop :=
  v.expr.lower.Spans listing v.scope v.cursor v.start v.stop

/-- The visits stand in the listing one after another, between two positions. -/
def InOrder (listing : List (Instruction Label)) (a b : Nat) : List Visit → Prop
  | [] => a ≤ b
  | v :: vs => a ≤ v.start ∧ v.Spans listing ∧ InOrder listing v.stop b vs

/-- A visit ends after it starts. -/
lemma start_le_stop (v : Visit) : v.start ≤ v.stop := Nat.le_add_right _ _

/-- What follows a visit starts after its end. -/
lemma stop_le_start_follow (v : Visit) (glue : Fragment) (e : Expr) :
    v.stop ≤ (v.follow glue e).start := Nat.le_add_right _ _

/-- The inside of a construct starts after the construct. -/
lemma start_le_start_enter (v : Visit) (k : Construct) (exit head : Role) (e : Expr) :
    v.start ≤ (v.enter k exit head e).start := Nat.le_add_right _ _

variable {listing : List (Instruction Label)}

/-- Visits in order may be put after others. -/
lemma InOrder.append {a b b' : Nat} {vs ws : List Visit} (h : InOrder listing a b vs)
    (h' : InOrder listing b b' ws) : InOrder listing a b' (vs ++ ws) := by
  induction vs generalizing a with
  | nil =>
    cases ws with
    | nil => exact Nat.le_trans h h'
    | cons w ws => exact ⟨Nat.le_trans h h'.1, h'.2⟩
  | cons v vs ih =>
    obtain ⟨hle, hv, hvs⟩ := h
    exact ⟨hle, hv, ih hvs⟩

/-- The stretch around visits in order may be larger. -/
lemma InOrder.mono {a a' b b' : Nat} {vs : List Visit} (h : InOrder listing a b vs) (ha : a' ≤ a)
    (hb : b ≤ b') : InOrder listing a' b' vs := by
  induction vs generalizing a a' with
  | nil => exact ha.trans (h.trans hb)
  | cons v vs ih =>
    obtain ⟨hle, hv, hvs⟩ := h
    exact ⟨ha.trans hle, hv, ih hvs (Nat.le_refl _)⟩

/-- Visits in order take a stretch that does not end before it starts. -/
lemma InOrder.le {a b : Nat} {vs : List Visit} (h : InOrder listing a b vs) : a ≤ b := by
  induction vs generalizing a with
  | nil => exact h
  | cons v vs ih =>
    obtain ⟨hle, -, hvs⟩ := h
    exact hle.trans (v.start_le_stop.trans (ih hvs))

/-- Each of several visits in order stands in the stretch that they take. -/
lemma InOrder.of_mem {a b : Nat} {v : Visit} {vs : List Visit} (h : InOrder listing a b vs)
    (hv : v ∈ vs) : v.Spans listing ∧ a ≤ v.start ∧ v.stop ≤ b := by
  induction vs generalizing a with
  | nil => cases hv
  | cons w vs ih =>
    obtain ⟨hle, hw, hvs⟩ := h
    rcases List.mem_cons.mp hv with rfl | hv
    · exact ⟨hw, hle, hvs.le⟩
    · obtain ⟨hspans, hstart, hstop⟩ := ih hvs hv
      have := w.start_le_stop
      exact ⟨hspans, by omega, hstop⟩

/-- Where the code of an expression stands, its visit stands. -/
lemma spans_of_spans {e : Expr} {s : Scope} {c : Cursor} {a b : Nat}
    (h : e.lower.Spans listing s c a b) :
    Visit.Spans listing ⟨e, s, c, a⟩ ∧ (⟨e, s, c, a⟩ : Visit).stop = b := by
  have hstop : (⟨e, s, c, a⟩ : Visit).stop = b := h.length
  refine ⟨?_, hstop⟩
  unfold Visit.Spans
  rw [hstop]
  exact h

/-- An expression stands where the glue before it ends. -/
lemma spans_past {glue : Fragment} {s s' : Scope} {c : Cursor} {a b b' : Nat} {e : Expr}
    (hglue : glue.Spans listing s c a b) (h : e.lower.Spans listing s' (glue.advance c) b b') :
    Visit.Spans listing { past glue s c a e with scope := s' } ∧
      ({ past glue s c a e with scope := s' } : Visit).stop = b' := by
  have hstart : (past glue s c a e).start = b := hglue.length
  refine spans_of_spans ?_
  rw [hstart]
  exact h

/-- An expression after a visit and some lines stands where the lines end. -/
lemma spans_follow {v : Visit} {glue : Fragment} {b b' : Nat} {e : Expr}
    (hglue : glue.Spans listing v.scope v.after v.stop b)
    (h : e.lower.Spans listing v.scope (glue.advance v.after) b b') :
    (v.follow glue e).Spans listing ∧ (v.follow glue e).stop = b' := spans_past hglue h

/-- Where operands stand, both are visited, and they end before the pop. -/
lemma spans_operands {v : Visit} {lhs rhs : Expr} {b : Nat}
    (h : (operands lhs.lower rhs.lower).Spans listing v.scope v.cursor v.start b) :
    let l : Visit := { v with expr := lhs }
    let r := l.follow (push .accumulator) rhs
    l.Spans listing ∧ r.Spans listing ∧ (pop .scratch).Spans listing v.scope r.after r.stop b := by
  obtain ⟨b₁, hl, b₂, hpush, b₃, hr, hpop⟩ := Fragment.spans_operands.mp h
  obtain ⟨hl', rfl⟩ := spans_of_spans hl
  obtain ⟨hr', rfl⟩ := spans_follow (v := { v with expr := lhs }) hpush hr
  exact ⟨hl', hr', hpop⟩

/-- Where a test and the lines `is` after it stand, both operands are visited, and the rest follows
the second one. -/
lemma spans_test {v : Visit} {lhs rhs : Expr} {cmp : Comparison} {l : Label} {b b' : Nat}
    {is : List (Instruction Label)}
    (h : (test lhs.lower cmp rhs.lower l).Spans listing v.scope v.cursor v.start b)
    (his : ∀ c, (code is).Spans listing v.scope c b b') :
    let l' : Visit := { v with expr := lhs }
    let r := l'.follow (push .accumulator) rhs
    l'.Spans listing ∧ r.Spans listing ∧
      (pop .scratch ++ code (cmp.branchTo l :: is)).Spans listing v.scope r.after r.stop b' := by
  obtain ⟨b₁, hops, hline, rfl⟩ := Fragment.spans_test.mp h
  obtain ⟨hl, hr, hpop⟩ := spans_operands hops
  exact ⟨hl, hr, spans_append.mpr ⟨b₁, hpop, spans_code_cons.mpr ⟨hline, his _⟩⟩⟩

/-- The round of a loop stands after the lines with which the loop starts. -/
lemma spans_enter {v : Visit} {k : Construct} {exit head : Role} {round : Nat → Fragment} {b : Nat}
    (h : (numbered k fun a => staged (.numbered exit a.number) (.numbered head a.number)
      (round a.number)).Spans listing v.scope v.cursor v.start b) (e : Expr) :
    ∃ b', (round ((v.cursor.numbering.next k).count k)).Spans listing
      (v.enter k exit head e).scope (v.enter k exit head e).cursor (v.enter k exit head e).start
      b' ∧ b' ≤ b := by
  rw [spans_numbered] at h
  obtain ⟨hla, b₁, hpush, hla', b₂, hpush', hhead, b₃, hround, -, -, b₄, hpop, hpop'⟩ :=
    spans_staged.mp h.2
  have hle := hpop.le.trans hpop'.le
  set m := v.cursor.numbering.next k with hm
  have hstart : (loopStart (.numbered exit (m.count k)) (.numbered head (m.count k))).Spans listing
      v.scope { v.cursor with numbering := m } v.start (b₂ + 1) := by
    simp only [loopStart, concat_cons, concat_nil, spans_append, spans_code_cons, spans_code_nil,
      spans_nil, advance_code, exists_eq_right]
    exact ⟨_, ⟨hla, rfl⟩, b₁, hpush, _, ⟨hla', rfl⟩, b₂, hpush', hhead, rfl⟩
  have hpos : (v.enter k exit head e).start = b₂ + 1 := hstart.length
  rw [hpos]
  exact ⟨b₃, hround, by omega⟩

/-- Where an argument list stands, its arguments stand in order. -/
lemma inOrder_args {s : Scope} {c : Cursor} {a b : Nat} {as : List Expr}
    (h : (Expr.lowerArgs as).Spans listing s c a b) :
    InOrder listing a b (args s c a as) := by
  induction as generalizing b with
  | nil =>
    obtain rfl := spans_nil.mp h
    exact Nat.le_refl a
  | cons arg rest ih =>
    obtain ⟨b₁, hrest, b₂, harg, hpush⟩ := spans_lowerArgs_cons.mp h
    obtain ⟨hspans, rfl⟩ := spans_past hrest harg
    obtain rfl : (past (Expr.lowerArgs rest) s c a arg).start = b₁ := hrest.length
    exact (ih hrest).append ⟨Nat.le_refl _, hspans, hpush.le⟩

/-- **The parts of a visited expression stand where they are visited**, one after another among its
lines. -/
theorem Spans.parts {v : Visit} (h : v.Spans listing) : InOrder listing v.start v.stop v.parts := by
  obtain ⟨e, s, c, a⟩ := v
  have hle := start_le_stop ⟨e, s, c, a⟩
  unfold Visit.Spans at h
  cases e with
  | literal | var | skip | escape => exact hle
  | assign slot value =>
    obtain ⟨b, hvalue, hstore⟩ := spans_append.mp h
    obtain ⟨hv, rfl⟩ := spans_of_spans hvalue
    exact ⟨Nat.le_refl a, hv, hstore.le⟩
  | binary lhs op rhs =>
    obtain ⟨b, hops, hline⟩ := spans_append.mp h
    obtain ⟨hl, hr, hpop⟩ := spans_operands (v := ⟨lhs, s, c, a⟩) hops
    exact ⟨Nat.le_refl a, hl, stop_le_start_follow _ _ _, hr, Nat.le_trans hpop.le hline.le⟩
  | ifElse cond thenBody elseBody =>
    obtain ⟨lhs, cmp, rhs⟩ := cond
    rw [Expr.lower, conditional, spans_numbered] at h
    obtain ⟨b₁, htest, hline₁, b₂, hsecond, hjump, hline₂, b₃, hfirst, -, hlast⟩ :=
      spans_branches.mp h.2
    let l : Visit := ⟨lhs, s, { c with numbering := c.numbering.next .conditional }, a⟩
    obtain ⟨hl, hr, hglue⟩ := spans_test (v := l) htest
      fun _ => spans_code_cons.mpr ⟨hline₁, spans_code_nil.mpr rfl⟩
    obtain ⟨he, rfl⟩ := spans_follow (v := l.follow (push .accumulator) rhs) hglue hsecond
    obtain ⟨ht, rfl⟩ := spans_follow (v := Visit.follow _ _ elseBody) (spans_code_cons.mpr
      ⟨hjump, spans_code_cons.mpr ⟨hline₂, spans_code_nil.mpr rfl⟩⟩) hfirst
    exact ⟨Nat.le_refl a, hl, stop_le_start_follow _ _ _, hr, stop_le_start_follow _ _ _, he,
      stop_le_start_follow _ _ _, ht, Nat.le_of_succ_le hlast.le⟩
  | whileDo cond body =>
    obtain ⟨lhs, cmp, rhs⟩ := cond
    rw [Expr.lower, whileLoop_eq] at h
    obtain ⟨b, hround, hb⟩ := spans_enter (v := ⟨.whileDo ⟨lhs, cmp, rhs⟩ body, s, c, a⟩) h lhs
    obtain ⟨b₁, htest, hjump, hline, hbody⟩ := spans_whileRound.mp hround
    let l := Visit.enter ⟨.whileDo ⟨lhs, cmp, rhs⟩ body, s, c, a⟩ .whileLoop .whileExit
      .whileHead lhs
    obtain ⟨hl, hr, hglue⟩ := spans_test (v := l) htest
      fun _ => spans_code_cons.mpr ⟨hjump, spans_code_cons.mpr ⟨hline, spans_code_nil.mpr rfl⟩⟩
    obtain ⟨hbody', rfl⟩ := spans_follow (v := l.follow (push .accumulator) rhs) hglue hbody
    exact ⟨start_le_start_enter _ _ _ _ _, hl, stop_le_start_follow _ _ _, hr,
      stop_le_start_follow _ _ _, hbody', hb⟩
  | repeatUntil body cond =>
    obtain ⟨lhs, cmp, rhs⟩ := cond
    rw [Expr.lower, repeatLoop_eq] at h
    obtain ⟨b, hround, hb⟩ := spans_enter (v := ⟨.repeatUntil body ⟨lhs, cmp, rhs⟩, s, c, a⟩) h body
    obtain ⟨b₁, hbody, htest⟩ := spans_repeatRound.mp hround
    obtain ⟨hbody', rfl⟩ := spans_of_spans hbody
    let w := Visit.enter ⟨.repeatUntil body ⟨lhs, cmp, rhs⟩, s, c, a⟩ .repeatLoop .repeatExit
      .repeatHead body
    obtain ⟨hl, hr, hglue⟩ := spans_test (v := w.follow nil lhs) htest
      fun _ => spans_code_nil.mpr rfl
    exact ⟨start_le_start_enter _ _ _ _ _, hbody', stop_le_start_follow _ _ _, hl,
      stop_le_start_follow _ _ _, hr, Nat.le_trans hglue.le hb⟩
  | call callee as =>
    obtain ⟨-, b₁, hpush, b₂, hargs, -, hb⟩ := spans_call.mp h
    obtain rfl : a + 2 = b₁ := hpush.length
    exact (inOrder_args hargs).mono (Nat.le_add_right a 2) (Nat.le_of_succ_le hb.le)
  | seq first second =>
    obtain ⟨b, hfirst, hsecond⟩ := spans_append.mp h
    obtain ⟨hf, rfl⟩ := spans_of_spans hfirst
    obtain ⟨hs, hstop⟩ := spans_follow (v := ⟨first, s, c, a⟩) (spans_nil.mpr rfl) hsecond
    exact ⟨Nat.le_refl a, hf, stop_le_start_follow _ _ _, hs, hstop.le⟩

/-- **The code of an occurrence stands where it is said to start**, among the lines of the whole. -/
theorem Spans.at? {v w : Visit} {path : List Nat} (h : v.Spans listing)
    (hw : v.at? path = some w) : w.Spans listing ∧ v.start ≤ w.start ∧ w.stop ≤ v.stop := by
  induction path generalizing v with
  | nil =>
    obtain rfl := Option.some_inj.mp hw
    exact ⟨h, Nat.le_refl _, Nat.le_refl _⟩
  | cons i path ih =>
    obtain ⟨u, hu, hpath⟩ := Option.bind_eq_some_iff.mp hw
    obtain ⟨hspans, hstart, hstop⟩ := h.parts.of_mem (List.mem_of_getElem? hu)
    obtain ⟨hspans', hstart', hstop'⟩ := ih hspans hpath
    exact ⟨hspans', hstart.trans hstart', hstop'.trans hstop⟩

end Visit

/-! ### Placements -/

/-- A declaration with the place where it is lowered. -/
structure Placement where
  /-- The declaration. -/
  decl : Declaration
  /-- The cursor from which it is lowered. -/
  cursor : Cursor
  /-- The position of its first line. -/
  start : Nat

namespace Program

variable (p : Program)

/-- The placements of declarations that are lowered from cursor `c` at position `a` on. -/
def placeFrom (c : Cursor) (a : Nat) : List Declaration → List Placement
  | [] => []
  | d :: ds => ⟨d, c, a⟩ :: placeFrom (d.lower.advance c)
      (a + (d.lower.emission { arity? := p.arity? } c).code.length) ds

/-- The placements of all declarations, in program order. -/
def placements : List Placement := p.placeFrom {} 0 p.decls

/-- Placements keep the order of the declarations. -/
lemma map_decl_placeFrom (c : Cursor) (a : Nat) (ds : List Declaration) :
    (p.placeFrom c a ds).map Placement.decl = ds := by
  induction ds generalizing c a with
  | nil => rfl
  | cons d ds ih => rw [placeFrom, List.map_cons, ih]

/-- Every declaration is placed. -/
@[simp] lemma map_decl_placements : p.placements.map Placement.decl = p.decls :=
  p.map_decl_placeFrom {} 0 p.decls

end Program

namespace Placement

variable (p : Program) (P : Placement)

/-- The lines of the declaration. -/
def lines : List (Instruction Label) := (P.decl.lower.emission { arity? := p.arity? } P.cursor).code

/-- The position after the last line of the declaration. -/
def stop : Nat := P.start + (P.lines p).length

/-- The visit of the body of the declaration. -/
def body : Visit where
  expr := P.decl.body
  scope := { arity? := p.arity?, function := P.decl.name }
  cursor := { P.cursor with depth := 0 }
  start := P.start + (prologue P.decl.name).length

variable {p P} {listing : List (Instruction Label)}

/-- Where declarations stand one after another, each placement stands. -/
lemma spans_of_mem_placeFrom {c : Cursor} {a b : Nat} {ds : List Declaration}
    (h : (concat (ds.map Declaration.lower)).Spans listing { arity? := p.arity? } c a b)
    (hP : P ∈ p.placeFrom c a ds) :
    P.decl.lower.Spans listing { arity? := p.arity? } P.cursor P.start (P.stop p) := by
  induction ds generalizing c a with
  | nil => cases hP
  | cons d ds ih =>
    obtain ⟨b₁, hd, hrest⟩ := spans_append.mp h
    have hb₁ : a + (d.lower.emission { arity? := p.arity? } c).code.length = b₁ := hd.length
    rcases List.mem_cons.mp hP with rfl | hP
    · rw [← hb₁] at hd
      exact hd
    · rw [hb₁] at hP
      exact ih hrest hP

/-- **The code of a declaration stands where it is said to start.** -/
theorem spans (hp : p.compile = .ok listing) (hP : P ∈ p.placements) :
    P.decl.lower.Spans listing { arity? := p.arity? } P.cursor P.start (P.stop p) :=
  spans_of_mem_placeFrom (Program.spans_lower_of_compile hp).2 hP

/-- The parts of the code of a declaration: its body stands between prologue and epilogue. -/
theorem spans_body (hp : p.compile = .ok listing) (hP : P ∈ p.placements) :
    ∃ size, frameSize P.decl.arity = .ok size ∧
      (code (prologue P.decl.name)).Spans listing (P.body p).scope (P.body p).cursor P.start
        (P.body p).start ∧
      (P.body p).Spans listing ∧
      (code (epilogue size)).Spans listing (P.body p).scope (P.body p).after (P.body p).stop
        (P.stop p) := by
  obtain ⟨size, hsize, b₁, hprologue, b₂, hbody, hepilogue⟩ := spans_declaration.mp (spans hp hP)
  obtain rfl : (P.body p).start = b₁ := hprologue.length
  obtain ⟨hbody', rfl⟩ := Visit.spans_of_spans hbody
  exact ⟨size, hsize, hprologue, hbody', hepilogue⟩

end Placement

end ImpRiscV
