import ImpRiscV.Expr.Count
import ImpRiscV.Lowering

/-!
# How lowering moves the cursor

Every push of an expression's code is matched by a pop or released by a callee, so the expression
leaves the depth as it found it; and it numbers each of its constructs once. So where a fragment
stands is known from what comes before it in the source, without looking at any code.

## Main definitions

* `ImpRiscV.Fragment.Moves` — a fragment pushes some number of words and numbers some number of
  constructs of each kind.
* `ImpRiscV.Expr.constructs` — the constructs of an expression, counted by kind.

## Main results

* `ImpRiscV.Expr.advance_lower` — where an expression leaves the cursor.

* `ImpRiscV.Expr.depth_advance_lower` — an expression restores the depth.
* `ImpRiscV.Expr.count_advance_lower` — an expression numbers as many constructs as it has.
-/

set_option relaxedAutoImplicit false
set_option autoImplicit false

namespace ImpRiscV

open Fragment

/-- The constructs of two numberings together. -/
instance Numbering.instAddNumbering : Add Numbering where
  add m n := {
    conditionals := m.conditionals + n.conditionals
    whileLoops := m.whileLoops + n.whileLoops
    repeatLoops := m.repeatLoops + n.repeatLoops }

/-- Numberings are added by kind. -/
@[simp] theorem Numbering.count_add (m n : Numbering) (k : Construct) :
    (m + n).count k = m.count k + n.count k := by
  cases k <;> rfl

/-- Wherever it stands, the fragment pushes `words` words that it does not pop, and numbers
`constructs k` constructs of each kind `k`. -/
def Fragment.Moves (f : Fragment) (words : Nat) (constructs : Construct → Nat) : Prop :=
  ∀ c, (f.advance c).depth = c.depth + words ∧
    ∀ k, (f.advance c).numbering.count k = c.numbering.count k + constructs k

namespace Expr

/-- If each argument restores the depth and numbers its constructs, the argument list pushes one
word per argument and numbers the constructs of all. -/
theorem moves_lowerArgs {args : List Expr}
    (h : ∀ arg ∈ args, arg.lower.Moves 0 fun k => arg.count k) :
    (lowerArgs args).Moves args.length fun k => countList k args := by
  induction args with
  | nil => simp [Moves, lowerArgs, countList]
  | cons arg args ih =>
    have harg := h arg List.mem_cons_self
    have hargs := ih fun a ha => h a (List.mem_cons_of_mem _ ha)
    intro c
    obtain ⟨hd, hk⟩ := hargs c
    obtain ⟨hd', hk'⟩ := harg ((lowerArgs args).advance c)
    refine ⟨?_, fun k => ?_⟩
    · simp [lowerArgs, hd', hd, Nat.add_assoc]
    · simp [lowerArgs, countList, hk', hk]
      omega

/-- **An expression restores the depth and numbers its constructs.**

**Proof sketch.** Induction over the expression. Operands push one word and pop it, a loop pushes
its two targets and pops them, and a call pushes one word more than it has arguments and counts
them as released by the callee. -/
theorem moves_lower (e : Expr) : e.lower.Moves 0 fun k => e.count k := by
  induction e with
  | call callee args ih =>
    intro c
    have h := moves_lowerArgs ih
    simp only [Moves] at h
    simp [lower, count, Fragment.call, h, Nat.add_comm, Nat.add_left_comm]
  | literal | var | skip | escape =>
    intro c
    simp [lower, count]
  | assign slot value ih =>
    intro c
    simp_all [lower, count, Moves]
  | binary lhs op rhs ihl ihr =>
    intro c
    simp_all [lower, count, Moves, operands, Nat.add_assoc]
  | seq first second ihf ihs =>
    intro c
    simp_all [lower, count, Moves, Nat.add_assoc]
  | ifElse lhs cmp rhs thenBody elseBody ihl ihr iht ihe =>
    intro c
    simp_all only [lower, count, Moves, conditional, test, operands]
    simp_all [Nat.add_assoc, Nat.add_comm, Nat.add_left_comm]
  | whileDo lhs cmp rhs body ihl ihr ihb =>
    intro c
    simp_all only [lower, count, Moves, whileLoop, staged, test, operands]
    simp_all [Nat.add_assoc]
  | repeatUntil body lhs cmp rhs ihb ihl ihr =>
    intro c
    simp_all only [lower, count, Moves, repeatLoop, staged, test, operands]
    simp_all [Nat.add_assoc]

/-- An expression restores the depth. -/
@[simp] theorem depth_advance_lower (e : Expr) (c : Cursor) :
    (e.lower.advance c).depth = c.depth := (moves_lower e c).1

/-- An expression numbers as many constructs of each kind as it has. -/
@[simp] theorem count_advance_lower (e : Expr) (c : Cursor) (k : Construct) :
    (e.lower.advance c).numbering.count k = c.numbering.count k + e.count k :=
  (moves_lower e c).2 k

/-- An argument list pushes one word per argument. -/
@[simp] theorem depth_advance_lowerArgs (args : List Expr) (c : Cursor) :
    ((lowerArgs args).advance c).depth = c.depth + args.length :=
  (moves_lowerArgs (fun arg _ => moves_lower arg) c).1

/-- An argument list numbers as many constructs of each kind as its members have. -/
@[simp] theorem count_advance_lowerArgs (args : List Expr) (c : Cursor) (k : Construct) :
    ((lowerArgs args).advance c).numbering.count k = c.numbering.count k + countList k args :=
  (moves_lowerArgs (fun arg _ => moves_lower arg) c).2 k

/-- The constructs of an expression, counted by kind. -/
def constructs (e : Expr) : Numbering where
  conditionals := e.count .conditional
  whileLoops := e.count .whileLoop
  repeatLoops := e.count .repeatLoop

/-- The constructs of an argument list, counted by kind. -/
def constructsList (args : List Expr) : Numbering where
  conditionals := countList .conditional args
  whileLoops := countList .whileLoop args
  repeatLoops := countList .repeatLoop args

/-- The constructs of a kind are as many as there are. -/
@[simp] theorem count_constructs (e : Expr) (k : Construct) : e.constructs.count k = e.count k := by
  cases k <;> rfl

/-- The constructs of a kind in an argument list are as many as there are. -/
@[simp] theorem count_constructsList (args : List Expr) (k : Construct) :
    (constructsList args).count k = countList k args := by
  cases k <;> rfl

/-- **Where an expression leaves the cursor:** its constructs are numbered, and the depth is what
it was. -/
theorem advance_lower (e : Expr) (c : Cursor) :
    e.lower.advance c = { numbering := c.numbering + e.constructs, depth := c.depth } := by
  have hnumbering : (e.lower.advance c).numbering = c.numbering + e.constructs :=
    Numbering.ext_count fun k => by simp
  rw [← hnumbering, ← depth_advance_lower e c]

/-- Where an argument list leaves the cursor: its constructs are numbered, and each argument is
pushed. -/
theorem advance_lowerArgs (args : List Expr) (c : Cursor) : (lowerArgs args).advance c =
    { numbering := c.numbering + constructsList args, depth := c.depth + args.length } := by
  have hnumbering : ((lowerArgs args).advance c).numbering =
      c.numbering + constructsList args := Numbering.ext_count fun k => by simp
  rw [← hnumbering, ← depth_advance_lowerArgs args c]

end Expr

end ImpRiscV
