import ImpRiscV.Proofs.Layout

/-!
# What an escape drops

Lowering counts the words that a function has pushed, and an escape drops those that were pushed
since the innermost loop around it has staged its targets. Both numbers can be read off the source:
on the way from the loop to the escape, a word waits for each right operand of an operation or a
test that is entered, and for each argument of a call that is entered the frame pointer waits and
one word for every argument to its right. So an escape adjusts the stack pointer by the words that
wait on this way, and does not adjust it at all where there are none.

## Main definitions

* `ImpRiscV.Escape.lines` — the lines of an escape, by the number of words that it drops.
* `ImpRiscV.Expr.waiting` — the words that an expression keeps on the stack during one of its parts.
* `ImpRiscV.Expr.entersLoop`, `ImpRiscV.Expr.pending` — whether a path leads into a loop, and the
  words that wait at its end.
* `ImpRiscV.Visit.Tracks` — how scope and depth at the end of a path depend on the path.
* `ImpRiscV.Visit.sinceLoop` — the words that wait since the innermost loop.

## Main results

* `ImpRiscV.Visit.place_of_part` — scope and depth of a part of an expression.
* `ImpRiscV.Visit.tracks_of_at?` — scope and depth at the end of a path.
* `ImpRiscV.depth_tracked` — an expression restores the depth, and escapes drop what waits.
-/

set_option relaxedAutoImplicit false
set_option autoImplicit false

namespace ImpRiscV

open Fragment

/-! ### Lines of escapes -/

namespace Escape

/-- The lines of an escape that drops `words` words. The stack pointer is adjusted only if there are
any; then the exit of the loop is found two words above it, and the head one word above it. -/
def lines (how : Escape) (words : Nat) : List (Instruction Label) :=
  (if 0 < words then [.addi .sp .sp (4 * words)] else []) ++
    match how with
    | .exit => [.lw .t2 8 .sp, .jr .t2]
    | .restart => [.lw .t3 4 .sp, .jr .t3]

/-- These are the lines that are lowered. -/
lemma jump_eq_lines (how : Escape) (words : Nat) : how.jump words = how.lines words := by
  have hadjust : (.adjustStack (words * wordSize) : Instruction Label) =
      .addi .sp .sp (4 * words) := by rw [Int.mul_comm]; rfl
  unfold jump lines
  rw [hadjust]
  rcases Nat.eq_zero_or_pos words with rfl | hpos
  · cases how <;> rfl
  · rw [if_neg hpos.ne', if_pos hpos]
    cases how <;> rfl

end Escape

/-! ### Words that wait -/

namespace Expr

/-- The expression is a loop. -/
def isLoop : Expr → Bool
  | .whileDo _ _ | .repeatUntil _ _ => true
  | _ => false

/-- The number of words that an expression keeps on the stack, apart from the targets of a loop,
while its part number `i` is evaluated: the left operand during the right one, and during an
argument the frame pointer and the arguments to the right, of which there are `i`. -/
def waiting (e : Expr) (i : Nat) : Nat :=
  match e with
  | .binary _ _ _ | .ifElse _ _ _ | .whileDo _ _ => if i = 1 then 1 else 0
  | .repeatUntil _ _ => if i = 2 then 1 else 0
  | .call _ _ => 1 + i
  | .literal _ | .var _ | .assign _ _ | .seq _ _ | .skip | .escape _ => 0

/-- The path leads into a loop. -/
def entersLoop : List Nat → Expr → Bool
  | [], _ => false
  | i :: path, e => e.isLoop || e.parts[i]?.any (entersLoop path)

/-- The number of words that wait at the end of a path, counted from the innermost loop into which
the path leads, or from its start if there is none. -/
def pending : List Nat → Expr → Nat
  | [], _ => 0
  | i :: path, e =>
    match e.parts[i]? with
    | none => 0
    | some part => part.pending path + if part.entersLoop path then 0 else e.waiting i

end Expr

namespace Visit

/-! ### One step of a path -/

/-- The scope inside of an expression. -/
def inside (v : Visit) : Scope :=
  if v.expr.isLoop then { v.scope with loop? := some (v.cursor.depth + 2) } else v.scope

/-- The depth inside of an expression while nothing waits. A loop has pushed its two targets. -/
def floor (v : Visit) : Nat := v.cursor.depth + if v.expr.isLoop then 2 else 0

/-- The inside of an expression differs from its scope in the loop only. -/
lemma inside_with_loop (v : Visit) (loop? : Option Nat) :
    { v.inside with loop? := loop? } = { v.scope with loop? := loop? } := by
  unfold inside
  split_ifs <;> rfl

/-- Each argument stands one word deeper than those after it. -/
lemma map_place_args (s : Scope) (c : Cursor) (a : Nat) (as : List Expr) :
    (args s c a as).map (fun u => (u.scope, u.cursor.depth)) =
      (List.range as.length).map fun i => (s, c.depth + i) := by
  induction as with
  | nil => rfl
  | cons arg rest ih => simp [args, ih, past, List.range_succ]

/-- Where the parts of an expression stand, by the words that wait for them. -/
lemma map_place_parts (v : Visit) :
    v.parts.map (fun u => (u.scope, u.cursor.depth)) =
      (List.range v.expr.parts.length).map fun i => (v.inside, v.floor + v.expr.waiting i) := by
  obtain ⟨e, s, c, a⟩ := v
  cases e with
  | literal | var | skip | escape => rfl
  | assign | binary | seq | ifElse =>
    simp [parts, Expr.parts, List.range_succ, inside, floor, Expr.isLoop, Expr.waiting, follow,
      past, after]
  | whileDo | repeatUntil =>
    simp [parts, Expr.parts, List.range_succ, inside, floor, Expr.isLoop, Expr.waiting, follow,
      past, after, enter, loopStart]
  | call callee as =>
    have hargs := map_place_args s { c with depth := c.depth + 1 } (a + 2) as
    simpa [parts, Expr.parts, inside, floor, Expr.isLoop, Expr.waiting, Nat.add_assoc] using hargs

/-- **Scope and depth of a part of an expression.** -/
theorem place_of_part {v u : Visit} {i : Nat} (hu : v.parts[i]? = some u) :
    v.expr.parts[i]? = some u.expr ∧ u.scope = v.inside ∧
      u.cursor.depth = v.floor + v.expr.waiting i := by
  have hexpr : v.expr.parts[i]? = some u.expr := by
    rw [← map_expr_parts, List.getElem?_map, hu]
    rfl
  have hlt := (List.getElem?_eq_some_iff.mp hexpr).1
  have hplace := congrArg (·[i]?) v.map_place_parts
  simp only [List.getElem?_map, hu, Option.map_some, List.getElem?_range hlt, Option.some_inj,
    Prod.mk.injEq] at hplace
  exact ⟨hexpr, hplace⟩

/-! ### Paths -/

/-- How scope and depth at the end of a path depend on the path: they are those of the innermost
loop into which the path leads, or those of its start, and then the words that wait are pushed. -/
structure Tracks (v : Visit) (path : List Nat) (w : Visit) : Prop where
  /-- The innermost loop is on the path. -/
  entered : v.expr.entersLoop path = true →
    ∃ d, w.scope = { v.scope with loop? := some d } ∧ w.cursor.depth = d + v.expr.pending path
  /-- The innermost loop is around the start. -/
  stayed : v.expr.entersLoop path = false →
    w.scope = v.scope ∧ w.cursor.depth = v.cursor.depth + v.expr.pending path

variable {v w : Visit} {path : List Nat} {how : Escape} {listing : List (Instruction Label)}

/-- Arities and function are the same everywhere. -/
lemma Tracks.same_function (h : v.Tracks path w) :
    w.scope.arity? = v.scope.arity? ∧ w.scope.function = v.scope.function := by
  cases hloop : v.expr.entersLoop path with
  | true =>
    obtain ⟨d, hscope, -⟩ := h.entered hloop
    rw [hscope]
    exact ⟨rfl, rfl⟩
  | false =>
    rw [(h.stayed hloop).1]
    exact ⟨rfl, rfl⟩

/-- **Scope and depth at the end of a path.**

**Proof sketch.** Induction over the path. If the innermost loop comes after the first step, this
step does not matter; otherwise what waits during the first step is added, and the first step
decides whether a loop is entered. -/
theorem tracks_of_at? (hw : v.at? path = some w) : v.Tracks path w := by
  induction path generalizing v with
  | nil =>
    obtain rfl := Option.some_inj.mp hw
    exact ⟨nofun, fun _ => ⟨rfl, rfl⟩⟩
  | cons i path ih =>
    obtain ⟨u, hu, hpath⟩ := Option.bind_eq_some_iff.mp hw
    obtain ⟨hexpr, hscope, hdepth⟩ := place_of_part hu
    obtain ⟨hentered, hstayed⟩ := ih hpath
    have henters : v.expr.entersLoop (i :: path) =
        (v.expr.isLoop || u.expr.entersLoop path) := by
      simp [Expr.entersLoop, hexpr]
    have hpending : v.expr.pending (i :: path) = u.expr.pending path +
        if u.expr.entersLoop path then 0 else v.expr.waiting i := by
      simp [Expr.pending, hexpr]
    cases hinner : u.expr.entersLoop path with
    | true =>
      obtain ⟨d, hscope', hdepth'⟩ := hentered hinner
      rw [hscope, inside_with_loop] at hscope'
      refine ⟨fun _ => ⟨d, hscope', ?_⟩, fun h => by simp [henters, hinner] at h⟩
      rw [hpending, hinner, hdepth']
      rfl
    | false =>
      obtain ⟨hscope', hdepth'⟩ := hstayed hinner
      have hplace : w.scope = v.inside ∧
          w.cursor.depth = v.floor + v.expr.pending (i :: path) := by
        rw [hscope', hscope, hdepth', hdepth, hpending, hinner]
        exact ⟨rfl, by simp only [Bool.false_eq_true, if_false]; omega⟩
      cases hloop : v.expr.isLoop with
      | true =>
        simp only [inside, floor, hloop, if_true] at hplace
        exact ⟨fun _ => ⟨v.cursor.depth + 2, hplace⟩, fun h => by simp [henters, hloop] at h⟩
      | false =>
        simp only [inside, floor, hloop, Bool.false_eq_true, if_false] at hplace
        exact ⟨fun h => by simp [henters, hloop, hinner] at h, fun _ => hplace⟩

/-! ### Escapes -/

/-- The number of words that wait at the end of a path since the innermost loop around it, if `d`
words were pushed when that loop had staged its targets. If the path leads into no loop, the loop is
around the start of the path, and what waits there counts as well. -/
def sinceLoop (v : Visit) (path : List Nat) (d : Nat) : Nat :=
  v.expr.pending path + if v.expr.entersLoop path then 0 else v.cursor.depth - d

/-- **The depth at the end of a path** is that of the innermost loop and the words that wait. -/
lemma Tracks.depth_eq (h : v.Tracks path w)
    (hframe : ∀ d, v.scope.loop? = some d → d ≤ v.cursor.depth) {d : Nat}
    (hd : w.scope.loop? = some d) :
    (v.expr.entersLoop path = false → v.scope.loop? = some d) ∧
      w.cursor.depth = d + v.sinceLoop path d := by
  unfold sinceLoop
  cases hloop : v.expr.entersLoop path with
  | true =>
    obtain ⟨d', hscope, hdepth⟩ := h.entered hloop
    rw [hscope] at hd
    obtain rfl := Option.some_inj.mp hd
    exact ⟨nofun, hdepth⟩
  | false =>
    obtain ⟨hscope, hdepth⟩ := h.stayed hloop
    rw [hscope] at hd
    have hle := hframe d hd
    refine ⟨fun _ => hd, ?_⟩
    simp only [Bool.false_eq_true, if_false]
    omega

/-- The lines of an escape stand where it is visited. -/
lemma escape_of_spans (h : v.Spans listing) (hw : v.at? path = some w)
    (hexpr : w.expr = .escape how) :
    ∃ d, w.scope.loop? = some d ∧ how.lines (w.cursor.depth - d) <+: listing.drop w.start := by
  obtain ⟨hspans, -, -⟩ := h.at? hw
  unfold Visit.Spans at hspans
  rw [hexpr, Expr.lower] at hspans
  obtain ⟨d, hd, hcode⟩ := spans_escape.mp hspans
  have hlines := hcode.lines
  rw [code_emission hcode.success, steps_code, Step.lines_emits, how.jump_eq_lines] at hlines
  exact ⟨d, hd, hlines⟩

/-- **Escapes drop what waits since the innermost loop.** -/
theorem escape_of_at? (hframe : ∀ d, v.scope.loop? = some d → d ≤ v.cursor.depth)
    (h : v.expr.at? path = some (.escape how)) :
    ∃ w, v.at? path = some w ∧ w.expr = .escape how ∧ w.scope.arity? = v.scope.arity? ∧
      w.scope.function = v.scope.function ∧
      (∀ d, w.scope.loop? = some d → (v.expr.entersLoop path = false → v.scope.loop? = some d) ∧
        w.cursor.depth = d + v.sinceLoop path d) ∧
      ∀ listing, v.Spans listing → ∃ d, w.scope.loop? = some d ∧
        how.lines (v.sinceLoop path d) <+: listing.drop w.start := by
  rw [← map_expr_at?] at h
  obtain ⟨w, hw, hexpr⟩ := Option.map_eq_some_iff.mp h
  have htracks := tracks_of_at? hw
  obtain ⟨harity, hfunction⟩ := htracks.same_function
  refine ⟨w, hw, hexpr, harity, hfunction, fun d hd => htracks.depth_eq hframe hd,
    fun listing hspans => ?_⟩
  obtain ⟨d, hd, hjump⟩ := escape_of_spans hspans hw hexpr
  rw [(htracks.depth_eq hframe hd).2, Nat.add_sub_cancel_left] at hjump
  exact ⟨d, hd, hjump⟩

end Visit

/-- **Depths are tracked.** Let an expression be lowered in some scope from some cursor, such that
the loop around it, if there is one, has no more words below its inside than are pushed. Then the
expression restores the depth, it numbers its constructs and no others, and its lines come after
those that were there before. At every escape in it, arities and function are those of the
expression, and the depth is that of the innermost loop around the escape and the words that wait
since; if this loop is around the whole expression, these include the words that were pushed between
the loop and the expression. Where the lines of the expression stand, those of the escape drop
exactly these words.

So in a program, the depth is zero at the end of each body, and all escapes of a listing drop the
words that wait between the innermost loop and the escape, and adjust the stack pointer only if
there are any.

**Proof sketch.** Depth and numbers of the whole are those of `Expr.moves_lower`, and those of an
escape follow from its path by `Visit.tracks_of_at?`. No loop is around a body, so the escapes of a
program that has a listing are inside of loops of their body. -/
theorem depth_tracked :
    (∀ v : Visit, (∀ d, v.scope.loop? = some d → d ≤ v.cursor.depth) →
      v.after.depth = v.cursor.depth ∧
      (∀ k, v.after.numbering.count k = v.cursor.numbering.count k + v.expr.count k) ∧
      (∀ out : Emission, out.failure? = none →
        (out ++ v.expr.lower.emission v.scope v.cursor).code = out.code ++ v.lines) ∧
      ∀ path how, v.expr.at? path = some (.escape how) → ∃ w, v.at? path = some w ∧
        w.expr = .escape how ∧ w.scope.arity? = v.scope.arity? ∧
        w.scope.function = v.scope.function ∧
        (∀ d, w.scope.loop? = some d →
          (v.expr.entersLoop path = false → v.scope.loop? = some d) ∧
            w.cursor.depth = d + v.sinceLoop path d) ∧
        ∀ listing, v.Spans listing → ∃ d, w.scope.loop? = some d ∧
          how.lines (v.sinceLoop path d) <+: listing.drop w.start) ∧
    ∀ p : Program, (∀ P ∈ p.placements, (P.body p).after.depth = 0) ∧
      ∀ listing, p.compile = .ok listing → ∀ P ∈ p.placements, ∀ path how,
        P.decl.body.at? path = some (.escape how) → ∃ w, (P.body p).at? path = some w ∧
          P.decl.body.entersLoop path = true ∧
          how.lines (P.decl.body.pending path) <+: listing.drop w.start := by
  refine ⟨fun v hframe => ⟨v.expr.depth_advance_lower v.cursor,
    v.expr.count_advance_lower v.cursor, fun out hout => Emission.code_append hout _,
    fun path how h => Visit.escape_of_at? hframe h⟩, fun p => ⟨fun P _ => ?_, ?_⟩⟩
  · exact P.decl.body.depth_advance_lower _
  · intro listing hp P hP path how h
    obtain ⟨size, -, -, hspans, -⟩ := Placement.spans_body hp hP
    obtain ⟨w, hw, -, -, -, hdepth, hlines⟩ := Visit.escape_of_at? (v := P.body p) nofun h
    obtain ⟨d, hd, hjump⟩ := hlines listing hspans
    have henters : P.decl.body.entersLoop path = true := by
      by_contra hno
      cases (hdepth d hd).1 ((Bool.not_eq_true _).mp hno)
    have hsince : (P.body p).sinceLoop path d = P.decl.body.pending path := by
      change P.decl.body.pending path + (if P.decl.body.entersLoop path then 0 else _) = _
      rw [henters]
      rfl
    rw [hsince] at hjump
    exact ⟨w, hw, henters, hjump⟩

/-- A loop that is left out of the first of three arguments, in the middle of a subtraction. -/
def busyEscape : Program where
  decls := [
    { name := "f", arity := 1, body :=
      .whileDo ⟨.var 1, .gt, .literal 0⟩ (.assign 1 (.binary (.var 1) .sub
        (.call "g" [.escape .exit, .literal 2, .literal 3]))) }]

/-- The escape drops the minuend, the frame pointer and two arguments. In a sum that starts two
words above the inside of a loop, an escape on the right drops three words. -/
theorem depth_tracked_busyEscape :
    (∃ listing w, busyEscape.compile = .ok listing ∧
      Visit.at? [2, 0, 1, 2] (Placement.body busyEscape ⟨busyEscape.decls[0], {}, 0⟩) = some w ∧
      [.addi .sp .sp 16, .lw .t2 8 .sp, .jr .t2] <+: listing.drop w.start) ∧
    ∃ w, Visit.at? [1] ⟨.binary (.literal 1) .add (.escape .restart),
      { arity? := fun _ => none, loop? := some 1 }, { depth := 3 }, 0⟩ = some w ∧
      w.cursor.depth = 1 + 3 := by
  constructor
  · obtain ⟨listing, hlisting⟩ : ∃ listing, busyEscape.compile = .ok listing := ⟨_, rfl⟩
    obtain ⟨w, hw, -, hjump⟩ := (depth_tracked.2 busyEscape).2 listing hlisting
      ⟨busyEscape.decls[0], {}, 0⟩ List.mem_cons_self [2, 0, 1, 2] .exit rfl
    exact ⟨listing, w, hlisting, hw, hjump⟩
  · obtain ⟨-, -, -, hescapes⟩ := depth_tracked.1 ⟨.binary (.literal 1) .add (.escape .restart),
      { arity? := fun _ => none, loop? := some 1 }, { depth := 3 }, 0⟩ (by simp)
    obtain ⟨w, hw, -, -, -, hdepth, -⟩ := hescapes [1] .restart rfl
    obtain rfl := Option.some_inj.mp hw
    exact ⟨_, hw, (hdepth 1 rfl).2⟩

end ImpRiscV
