import ImpRiscV.Proofs.Outline

/-!
# What loops have staged

The words in which the loops around a place have staged their targets stay above the stack pointer,
and nothing has to be known of any register between two expressions. So all that is known there is
what is staged, and the depth. This file says what that is, how it changes on the way into a loop,
and how pushes and pops keep to the bounds between the frame and the deepest word.

## Main definitions

* `ImpRiscV.Expr.peak` — how many words an expression pushes at most.
* `ImpRiscV.Staging` — the stack words that hold targets of loops, and the innermost of these loops.
* `ImpRiscV.Staging.Hosts` — what is staged fits the place of an expression.
* `ImpRiscV.Staging.enter` — what is staged inside of a loop.
* `ImpRiscV.Knowledge.Within`, `ImpRiscV.Mark.Within` — the stack pointer, all known words and all
  pushed words are within bounds.

## Main results

* `ImpRiscV.Staging.Hosts.enter` — what is staged inside of a loop fits the inside of the loop.
* `ImpRiscV.outline_push_known`, `ImpRiscV.outline_pop_known` — pushes and pops go one word deeper
  and back.
-/

set_option relaxedAutoImplicit false
set_option autoImplicit false

namespace ImpRiscV

open Fragment

/-! ### How expressions number on -/

namespace Numbering

/-- The constructs of an expression are counted in. -/
@[simp] lemma count_past (m : Numbering) (e : Expr) (k : Construct) :
    (m.past e).count k = m.count k + e.count k := by
  cases k <;> rfl

end Numbering

namespace Expr

/-- An expression leaves the numbering past its constructs. -/
@[simp] lemma numbering_advance_lower (e : Expr) (c : Cursor) :
    (e.lower.advance c).numbering = c.numbering.past e := by
  refine Numbering.ext_count fun k => ?_
  rw [count_advance_lower, Numbering.count_past]

/-- An argument list leaves the numbering past its members, the last one first. -/
lemma numbering_advance_lowerArgs (args : List Expr) (c : Cursor) :
    ((lowerArgs args).advance c).numbering =
      args.foldr (fun e m => m.past e) c.numbering := by
  induction args with
  | nil => rfl
  | cons arg args ih => simp [lowerArgs, ih]

mutual

/-- How many words the code of an expression has pushed at most, calls not counted. -/
def peak : Expr → Nat
  | .literal _ | .var _ | .skip | .escape _ => 0
  | .assign _ value => value.peak
  | .binary lhs _ rhs => max lhs.peak (1 + rhs.peak)
  | .ifElse ⟨lhs, _, rhs⟩ thenBody elseBody =>
    max (max lhs.peak (1 + rhs.peak)) (max thenBody.peak elseBody.peak)
  | .whileDo ⟨lhs, _, rhs⟩ body => 2 + max (max lhs.peak (1 + rhs.peak)) body.peak
  | .repeatUntil body ⟨lhs, _, rhs⟩ => 2 + max (max lhs.peak (1 + rhs.peak)) body.peak
  | .call _ args => 1 + peakArgs args
  | .seq first second => max first.peak second.peak

/-- How many words the code of an argument list has pushed at most. Each argument is evaluated on
top of those after it and pushed. -/
def peakArgs : List Expr → Nat
  | [] => 0
  | arg :: args => max (peakArgs args) (args.length + max arg.peak 1)

end

/-- An argument list pushes its arguments at least. -/
lemma length_le_peakArgs (args : List Expr) : args.length ≤ peakArgs args := by
  cases args with
  | nil => exact Nat.zero_le _
  | cons arg args =>
    rw [peakArgs, List.length_cons]
    omega

end Expr

/-! ### What is staged -/

/-- What is known of the stack while a function runs, apart from the depth. -/
structure Staging where
  /-- Where the stack pointer stands when nothing is pushed. -/
  base : Int
  /-- The stack words that hold targets of loops. -/
  words : Int → Option Label
  /-- The depth and the targets of the innermost loop. -/
  loop? : Option (Nat × (Escape → Label))

namespace Staging

variable (T : Staging)

/-- Where the stack pointer stands when `depth` words are pushed. -/
def sp (depth : Nat) : Int := T.base - 4 * depth

/-- What is known when `depth` words are pushed. -/
def known (depth : Nat) : Knowledge where
  sp := T.sp depth
  words := T.words

/-- What has to be known at the targets of the innermost loop. -/
def exits : List Signpost :=
  match T.loop? with
  | none => []
  | some (depth, target) => [(target .exit, T.known depth), (target .restart, T.known depth)]

/-- The staging fits code in scope `s` when `depth` words are pushed: nothing is known of the words
that are free, and the targets of the innermost loop are in their words. -/
structure Hosts (p : Program) (s : Scope) (depth : Nat) : Prop where
  /-- The scope is one of the program. -/
  arity : s.arity? = p.arity?
  /-- The innermost loop is that of the scope. -/
  loop : s.loop? = T.loop?.map Prod.fst
  /-- Nothing is known of free words. -/
  free : ∀ a ≤ T.sp depth, T.words a = none
  /-- Nothing is known of words of the frame. -/
  pushed : ∀ a l, T.words a = some l → a ≤ T.base
  /-- The targets are staged. -/
  staged : ∀ d target, T.loop? = some (d, target) →
    d ≤ depth ∧ ∀ how : Escape, T.words (T.sp d + how.offset) = some (target how)

variable {T} {p : Program} {s : Scope} {depth depth' : Nat}

/-- What is staged fits where more is pushed. -/
lemma Hosts.mono (h : T.Hosts p s depth) (hle : depth ≤ depth') : T.Hosts p s depth' := by
  refine ⟨h.arity, h.loop, ?_, h.pushed, ?_⟩
  · intro a ha
    refine h.free a ?_
    unfold sp at ha ⊢
    omega
  · intro d target hd
    obtain ⟨hd', hwords⟩ := h.staged d target hd
    exact ⟨Nat.le_trans hd' hle, hwords⟩

end Staging

/-- The stack pointer stands between `low` and `high`, and nothing is known of words above
`high`. -/
structure Knowledge.Within (low high : Int) (k : Knowledge) : Prop where
  /-- The stack pointer is not too low. -/
  low_le : low ≤ k.sp
  /-- It is not too high. -/
  le_high : k.sp ≤ high
  /-- Nothing is known of words further up. -/
  words : ∀ a l, k.words a = some l → a ≤ high

/-- The line stores relative to the stack pointer. -/
def Instruction.storesOnStack : Instruction Label → Bool
  | .sw _ _ base => base = .stackPointer
  | _ => false

/-- What is known before the line is within the bounds, and a word that the line stores relative to
the stack pointer leaves room for moving the stack pointer past it. -/
structure Mark.Within (low high : Int) (x : Mark) : Prop where
  /-- What is known is within the bounds. -/
  before : x.before.Within low high
  /-- So is a stored word. -/
  store : ∀ r n, x.line = .sw r n .stackPointer →
    low + 4 ≤ x.before.sp + n ∧ x.before.sp + n ≤ high

namespace Staging

variable {T : Staging} {p : Program} {s : Scope} {depth depth' : Nat} {low : Int}

/-- The stack pointer is not lower where less is pushed. -/
lemma le_sp_of_le (h : low ≤ T.sp depth) (hle : depth' ≤ depth) : low ≤ T.sp depth' := by
  unfold sp at h ⊢
  omega

/-- What is known where it fits is within the bounds. -/
lemma Hosts.within (h : T.Hosts p s depth) (hlow : low ≤ T.sp depth) :
    (T.known depth).Within low T.base := by
  refine ⟨hlow, ?_, h.pushed⟩
  simp only [known, sp]
  omega

end Staging

section fragments

variable {p : Program} {listing : List (Instruction Label)} {needs : List Signpost} {s : Scope}
  {c : Cursor} {a b : Nat} {k? : Option Knowledge} {low high : Int}

open Mark (Within)

namespace Knowledge

variable {k : Knowledge}

/-- Registers do not matter. -/
lemma Within.learn (h : k.Within low high) (regs : Register → Option Label) :
    ({ k with regs := regs } : Knowledge).Within low high := ⟨h.low_le, h.le_high, h.words⟩

/-- A push writes to a word within the bounds. -/
lemma Within.store (h : k.Within low high) (l? : Option Label) :
    ({ k with words := Function.update k.words k.sp l? } : Knowledge).Within low high := by
  refine ⟨h.low_le, h.le_high, fun a l hl => ?_⟩
  by_cases ha : a = k.sp
  · rw [ha]
    exact h.le_high
  · exact h.words a l (by simpa [Function.update_of_ne ha] using hl)

/-- The stack pointer may move between the bounds. -/
lemma Within.move (h : k.Within low high) {x : Int} (hlow : low ≤ x) (hhigh : x ≤ high) :
    ({ k with sp := x } : Knowledge).Within low high := ⟨hlow, hhigh, h.words⟩

/-- A line that does not store relative to the stack pointer only needs what is known before it. -/
lemma Within.mark (h : k.Within low high) {i : Instruction Label} {site? : Option Site}
    (hi : i.storesOnStack = false) : (⟨k, i, site?⟩ : Mark).Within low high := by
  refine ⟨h, fun r n hstore => ?_⟩
  obtain rfl : i = .sw r n .stackPointer := hstore
  cases hi

end Knowledge

/-! ### Pushes and pops -/

/-- A push writes one word and moves the stack pointer past it. -/
lemma outline_push (r : Register) {k : Knowledge} (hk : k.Within low high) (hlow : low ≤ k.sp - 4)
    (h : (push r).Spans listing s c a b) :
    Outline p listing (Within low high) needs [] a b (some k)
      (some { k with sp := k.sp - 4, words := Function.update k.words k.sp (k.regs r) }) [] := by
  obtain ⟨b', hcode, hb⟩ := spans_append.mp h
  obtain rfl := spans_grow.mp hb
  refine .code hcode ⟨⟨hk, ?_⟩, ?_⟩ ?_
  · intro r' n hstore
    obtain ⟨-, rfl, -⟩ := Instruction.sw.inj hstore
    have := hk.le_high
    dsimp only
    omega
  · intro k' hk'
    obtain rfl : _ = k' := by simpa [Knowledge.exec] using hk'
    exact ⟨(hk.store _).mark rfl, fun _ _ => trivial⟩
  simp [Knowledge.exec, Instruction.adjustStack, wordSize, Int.sub_eq_add_neg]

/-- A pop moves the stack pointer back and reads the word. -/
lemma outline_pop {r : Register} (hr : r ≠ .stackPointer) {k : Knowledge} (hk : k.Within low high)
    (h : (pop r).Spans listing s c a b) :
    Outline p listing (Within low high) needs [] a b (some k) (some { k with
      sp := k.sp + 4, regs := Function.update k.regs r (k.words (k.sp + 4)) }) [] := by
  obtain ⟨b', hcode, hb⟩ := spans_append.mp h
  obtain rfl := spans_shrink.mp hb
  refine .code hcode ⟨hk.mark rfl, ?_⟩ ?_
  · intro k' hk'
    obtain rfl : _ = k' := by simpa [Knowledge.exec, Knowledge.learn, hr] using hk'
    exact ⟨(hk.learn _).mark rfl, fun _ _ => trivial⟩
  simp [Knowledge.exec, Knowledge.learn, hr, Instruction.adjustStack, wordSize]

variable {T : Staging}

/-- A push of which nothing is known goes one word deeper. -/
lemma outline_push_known {depth : Nat} (r : Register) (hT : T.Hosts p s depth)
    (hlow : low ≤ T.sp (depth + 1)) (h : (push r).Spans listing s c a b) :
    Outline p listing (Within low T.base) needs [] a b (some (T.known depth))
      (some (T.known (depth + 1))) [] := by
  have hfree : T.words (T.sp depth) = none := hT.free _ (Int.le_refl _)
  have hk : ({ T.known depth with
      sp := (T.known depth).sp - 4,
      words := Function.update (T.known depth).words (T.known depth).sp none } : Knowledge) =
      T.known (depth + 1) := by
    simp only [Staging.known, Knowledge.mk.injEq, true_and]
    refine ⟨by unfold Staging.sp; omega, ?_⟩
    rw [← hfree, Function.update_eq_self]
  have hlow' : low ≤ (T.known depth).sp - 4 := by
    simp only [Staging.known, Staging.sp] at hlow ⊢
    omega
  rw [← hk]
  exact outline_push r (hT.within (Staging.le_sp_of_le hlow (Nat.le_succ _))) hlow' h

/-- A pop of which nothing is known goes one word back. -/
lemma outline_pop_known {depth : Nat} {r : Register} (hr : r ≠ .stackPointer)
    (hT : T.Hosts p s depth) (hlow : low ≤ T.sp (depth + 1))
    (h : (pop r).Spans listing s c a b) :
    Outline p listing (Within low T.base) needs [] a b (some (T.known (depth + 1)))
      (some (T.known depth)) [] := by
  have hsp : T.sp (depth + 1) + 4 = T.sp depth := by
    unfold Staging.sp
    omega
  have hfree : T.words (T.sp depth) = none := hT.free _ (Int.le_refl _)
  have hk : ({ T.known (depth + 1) with
      sp := (T.known (depth + 1)).sp + 4,
      regs := Function.update (T.known (depth + 1)).regs r
        ((T.known (depth + 1)).words ((T.known (depth + 1)).sp + 4)) } : Knowledge) =
      T.known depth := by
    simp only [Staging.known, hsp, hfree, Function.update_eq_self]
  rw [← hk]
  exact outline_pop hr ((hT.mono (Nat.le_succ _)).within hlow) h

/-- A line of which nothing is known afterwards leaves the knowledge as it is. -/
lemma Staging.exec_known {depth : Nat} {r : Register} (hr : r ≠ .stackPointer) :
    (T.known depth).learn r none = some (T.known depth) := by
  simp only [Knowledge.learn, hr, if_false, Staging.known, Function.update_eq_self]

/-! ### Entering loops -/

/-- What is staged inside of a loop that starts when `depth` words are pushed. -/
def Staging.enter (T : Staging) (depth : Nat) (target : Escape → Label) : Staging where
  base := T.base
  words := Function.update (Function.update T.words (T.sp depth) (some (target .exit)))
    (T.sp (depth + 1)) (some (target .restart))
  loop? := some (depth + 2, target)

/-- Inside of a loop, what was staged before is staged still. -/
lemma Staging.words_enter {depth : Nat} (hT : T.Hosts p s depth) (target : Escape → Label) {x : Int}
    {l : Label} (h : T.words x = some l) : (T.enter depth target).words x = some l := by
  have hne : ∀ y ≤ T.sp depth, x ≠ y := by
    intro y hy hxy
    rw [hxy, hT.free y hy] at h
    cases h
  have hle : T.sp (depth + 1) ≤ T.sp depth := by
    unfold Staging.sp
    omega
  simp only [Staging.enter]
  rw [Function.update_of_ne (hne _ hle), Function.update_of_ne (hne _ (Int.le_refl _)), h]

/-- **What is staged inside of a loop fits the inside of the loop.** -/
lemma Staging.Hosts.enter {depth : Nat} (hT : T.Hosts p s depth) (target : Escape → Label) :
    (T.enter depth target).Hosts p { s with loop? := some (depth + 2) } (depth + 2) := by
  refine ⟨hT.arity, rfl, ?_, ?_, ?_⟩
  · intro x hx
    have hlow : x < T.sp (depth + 1) ∧ x < T.sp depth := by
      simp only [Staging.enter, Staging.sp] at hx ⊢
      omega
    simp only [Staging.enter]
    rw [Function.update_of_ne (by omega), Function.update_of_ne (by omega), hT.free x (by omega)]
  · intro x l hl
    have hbase : T.sp (depth + 1) ≤ T.base ∧ T.sp depth ≤ T.base := by
      unfold Staging.sp
      omega
    simp only [Staging.enter, Function.update_apply] at hl ⊢
    split_ifs at hl with h₁ h₂
    · omega
    · omega
    · exact hT.pushed x l hl
  · intro d target' hd
    obtain ⟨rfl, rfl⟩ : depth + 2 = d ∧ target = target' := by
      simpa [Staging.enter] using hd
    refine ⟨Nat.le_refl _, fun how => ?_⟩
    have hexit : T.base - 4 * ((depth + 2 : Nat) : Int) + Escape.exit.offset = T.sp depth := by
      simp only [Escape.offset, wordSize, Staging.sp]
      omega
    have hrestart : T.base - 4 * ((depth + 2 : Nat) : Int) + Escape.restart.offset =
        T.sp (depth + 1) := by
      simp only [Escape.offset, wordSize, Staging.sp]
      omega
    cases how with
    | exit =>
      have hne : T.sp depth ≠ T.sp (depth + 1) := by
        unfold Staging.sp
        omega
      simp only [Staging.enter, Staging.sp, hexit]
      exact (Function.update_of_ne hne _ _).trans (Function.update_self ..)
    | restart =>
      simp only [Staging.enter, Staging.sp, hrestart]
      exact Function.update_self ..

end fragments

end ImpRiscV
