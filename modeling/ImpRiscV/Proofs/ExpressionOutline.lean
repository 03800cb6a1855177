import ImpRiscV.Proofs.Staging

/-!
# Outlines of expressions

The code of an expression leaves the stack pointer where it was. So its outline starts and ends
with what is staged around it, and it is put together from those of its parts. All that happens in
between happens below the frame and above the deepest word that the expression pushes.

## Main definitions

* `ImpRiscV.Outlined` — wherever an expression stands, its code has an outline within the bounds.

## Main results

* `ImpRiscV.outlined_ifElse`, `ImpRiscV.outlined_escape`, `ImpRiscV.outlined_whileDo`,
  `ImpRiscV.outlined_repeatUntil`, `ImpRiscV.outlined_call` — the forms of expression that jump.
* `ImpRiscV.outlined` — every expression has an outline.
-/

set_option relaxedAutoImplicit false
set_option autoImplicit false

namespace ImpRiscV

open Fragment

variable {p : Program} {listing : List (Instruction Label)} {needs : List Signpost} {s : Scope}
  {c : Cursor} {a b : Nat} {k? : Option Knowledge} {low high : Int} {T : Staging}

open Mark (Within)

/-! ### Expressions without jumps -/

variable (p listing) in
/-- Wherever the expression stands, its code has an outline. It starts and ends with what is staged,
and the targets of the innermost loop are all it needs. The stack pointer does not go lower than the
peak of the expression. -/
def Outlined (e : Expr) : Prop :=
  ∀ (T : Staging) (s : Scope) (c : Cursor) (a b : Nat) (low : Int), T.Hosts p s c.depth →
    low ≤ T.sp (c.depth + e.peak) → e.lower.Spans listing s c a b →
    Outline p listing (Within low T.base) T.exits [] a b (some (T.known c.depth))
      (some (T.known c.depth)) (e.sites (T.loop?.map Prod.snd) c.numbering)

/-- A line of which nothing is known afterwards, with what is staged before and after it. -/
lemma outline_line {depth : Nat} {i : Instruction Label} (hT : T.Hosts p s depth)
    (hlow : low ≤ T.sp depth) (h : (code [i]).Spans listing s c a b)
    (hi : (T.known depth).exec i = some (T.known depth))
    (hstore : i.storesOnStack = false) :
    Outline p listing (Within low T.base) needs [] a b (some (T.known depth))
      (some (T.known depth)) [] :=
  .code h ⟨(hT.within hlow).mark hstore, fun _ _ => trivial⟩ (by simp [hi])

/-- Constants have an outline. -/
lemma outlined_literal (value : Int64) : Outlined p listing (.literal value) := by
  intro T s c a b low hT hlow h
  exact outline_line hT hlow h (Staging.exec_known (by decide)) rfl

/-- Doing nothing has an outline. -/
lemma outlined_skip : Outlined p listing .skip := by
  intro T s c a b low hT hlow h
  exact outline_line hT hlow h rfl rfl

/-- Variables have an outline. -/
lemma outlined_var (slot : UInt64) : Outlined p listing (.var slot) := by
  intro T s c a b low hT hlow h
  obtain ⟨offset, -, hcode⟩ := spans_withAddress.mp h
  exact outline_line hT hlow hcode (Staging.exec_known (by decide)) rfl

/-- Assignments have an outline if their value has one. -/
lemma outlined_assign {e : Expr} (he : Outlined p listing e) (slot : UInt64) :
    Outlined p listing (.assign slot e) := by
  intro T s c a b low hT hlow h
  obtain ⟨b₁, hvalue, hstore⟩ := spans_append.mp h
  obtain ⟨offset, -, hcode⟩ := spans_withAddress.mp hstore
  have hlow' := Staging.le_sp_of_le hlow (Nat.le_add_right _ _)
  have houtline := (he T s c a b₁ low hT hlow hvalue).append (outline_line hT hlow' hcode rfl rfl)
  simp only [List.append_nil] at houtline
  exact houtline

/-- Two expressions in a row have an outline if both have one. -/
lemma outlined_seq {e e' : Expr} (he : Outlined p listing e) (he' : Outlined p listing e') :
    Outlined p listing (.seq e e') := by
  intro T s c a b low hT hlow h
  obtain ⟨b₁, hfirst, hsecond⟩ := spans_append.mp h
  have hd : (e.lower.advance c).depth = c.depth := by simp
  rw [Expr.peak] at hlow
  have hlow₁ : low ≤ T.sp (c.depth + e.peak) := Staging.le_sp_of_le hlow (by omega)
  have hlow₂ : low ≤ T.sp (c.depth + e'.peak) := Staging.le_sp_of_le hlow (by omega)
  have hsecond' := he' T s _ b₁ b low (hd ▸ hT) (hd ▸ hlow₂) hsecond
  rw [hd, Expr.numbering_advance_lower] at hsecond'
  exact (he T s c a b₁ low hT hlow₁ hfirst).append hsecond'

/-- Two operands: the left value waits in a word of which nothing is known. -/
lemma outline_operands {lhs rhs : Expr} (hl : Outlined p listing lhs) (hr : Outlined p listing rhs)
    (hT : T.Hosts p s c.depth) (hlow : low ≤ T.sp (c.depth + max lhs.peak (1 + rhs.peak)))
    (h : (operands lhs.lower rhs.lower).Spans listing s c a b) :
    Outline p listing (Within low T.base) T.exits [] a b (some (T.known c.depth))
      (some (T.known c.depth))
      (lhs.sites (T.loop?.map Prod.snd) c.numbering ++
        rhs.sites (T.loop?.map Prod.snd) (c.numbering.past lhs)) := by
  obtain ⟨b₁, hlhs, b₂, hpush, b₃, hrhs, hpop⟩ := spans_operands.mp h
  rw [advance_push, Expr.depth_advance_lower, Expr.numbering_advance_lower] at hrhs
  have hlow₁ : low ≤ T.sp (c.depth + lhs.peak) := Staging.le_sp_of_le hlow (by omega)
  have hlow₂ : low ≤ T.sp (c.depth + 1 + rhs.peak) := Staging.le_sp_of_le hlow (by omega)
  have hlow₃ : low ≤ T.sp (c.depth + 1) := Staging.le_sp_of_le hlow₂ (by omega)
  have hleft := (hl T s c a b₁ low hT hlow₁ hlhs).append
    (outline_push_known .accumulator hT hlow₃ hpush)
  have hright := (hr T s _ b₂ b₃ low (hT.mono (Nat.le_succ _)) hlow₂ hrhs).append
    (outline_pop_known (by decide) hT hlow₃ hpop)
  have houtline := hleft.append hright
  simp only [List.append_nil] at houtline
  exact houtline

/-- Operations have an outline if their operands have one. -/
lemma outlined_binary {lhs rhs : Expr} (hl : Outlined p listing lhs) (hr : Outlined p listing rhs)
    (op : ArithOp) : Outlined p listing (.binary lhs op rhs) := by
  intro T s c a b low hT hlow h
  obtain ⟨b₁, hops, hcode⟩ := spans_append.mp h
  have hlow' := Staging.le_sp_of_le hlow (Nat.le_add_right _ _)
  rw [Expr.peak] at hlow
  have houtline := (outline_operands hl hr hT hlow hops).append
    (outline_line hT hlow' hcode (Staging.exec_known (by decide)) rfl)
  simp only [List.append_nil] at houtline
  exact houtline

/-! ### Jumps -/

/-- A test needs its label to accept what is staged. -/
lemma outline_test {lhs rhs : Expr} {cmp : Comparison} {l : Label} (hl : Outlined p listing lhs)
    (hr : Outlined p listing rhs) (hT : T.Hosts p s c.depth)
    (hlow : low ≤ T.sp (c.depth + max lhs.peak (1 + rhs.peak)))
    (h : (test lhs.lower cmp rhs.lower l).Spans listing s c a b) :
    Outline p listing (Within low T.base) ((l, T.known c.depth) :: T.exits) [] a b
      (some (T.known c.depth))
      (some (T.known c.depth)) (lhs.sites (T.loop?.map Prod.snd) c.numbering ++
        rhs.sites (T.loop?.map Prod.snd) (c.numbering.past lhs)) := by
  obtain ⟨b₁, hops, hline, rfl⟩ := spans_test.mp h
  have hwithin := hT.within (Staging.le_sp_of_le hlow (Nat.le_add_right _ _))
  have hbranch : Outline p listing (Within low T.base) ((l, T.known c.depth) :: T.exits) [] b₁
      (b₁ + 1) (some (T.known c.depth)) (some (T.known c.depth)) [] := by
    refine .single (x := ⟨T.known c.depth, cmp.branchTo l, none⟩) hline
      (hwithin.mark (by cases cmp <;> rfl)) (.refl _) ?_
    intro accepts hneeds
    have haccepts := hneeds _ List.mem_cons_self _ (le_refl _)
    cases cmp <;> exact .branch haccepts
  have hops' := outline_operands hl hr hT hlow hops
  have houtline := (hops'.needing (List.subset_cons_self _ _)).append hbranch
  simp only [List.append_nil] at houtline
  exact houtline

/-- A jump needs its label to accept what is known. -/
lemma outline_jump {k : Knowledge} {l : Label}
    (h : listing[a]? = some (.b l) ∨ listing[a]? = some (.j l)) (hk : k.Within low high)
    (hl : (l, k) ∈ needs) :
    Outline p listing (Within low high) needs [] a (a + 1) (some k) none [] := by
  rcases h with h | h
  · exact .single (x := ⟨k, .b l, none⟩) h (hk.mark rfl) (.refl _) fun accepts hneeds =>
      .b (hneeds _ hl _ (le_refl k))
  · exact .single (x := ⟨k, .j l, none⟩) h (hk.mark rfl) (.refl _) fun accepts hneeds =>
      .j (hneeds _ hl _ (le_refl k))

/-- A label within the bounds is a signpost. -/
lemma outline_label {k : Knowledge} {l : Label} (h : listing[a]? = some (.label l))
    (hk : k.Within low high) (hin : Leads k? (some k)) :
    Outline p listing (Within low high) needs [(l, k)] a (a + 1) k? (some k) [] :=
  .label h (hk.mark rfl) hin

/-- A test restores the depth. -/
lemma depth_advance_test (lhs rhs : Expr) (cmp : Comparison) (l : Label) (c : Cursor) :
    ((test lhs.lower cmp rhs.lower l).advance c).depth = c.depth := by
  simp [test, operands]

/-- A test numbers the constructs of its operands. -/
lemma numbering_advance_test (lhs rhs : Expr) (cmp : Comparison) (l : Label) (c : Cursor) :
    ((test lhs.lower cmp rhs.lower l).advance c).numbering =
      (c.numbering.past lhs).past rhs := by
  simp [test, operands]

/-- The inside of a conditional: all three labels are reached with what is staged, and the jumps
between them stay inside. -/
lemma outline_branches {lhs rhs e e' : Expr} {cmp : Comparison} {n : Nat}
    (hl : Outlined p listing lhs) (hr : Outlined p listing rhs) (he : Outlined p listing e)
    (he' : Outlined p listing e') (hT : T.Hosts p s c.depth)
    (hlow : low ≤ T.sp (c.depth + max (max lhs.peak (1 + rhs.peak)) (max e.peak e'.peak)))
    (h : (concat [
      test lhs.lower cmp rhs.lower (.numbered .thenBody n),
      code [.label (.numbered .elseBody n)],
      e'.lower,
      code [.b (.numbered .join n), .label (.numbered .thenBody n)],
      e.lower,
      code [.label (.numbered .join n)]]).Spans listing s c a b) :
    Outline p listing (Within low T.base) T.exits [] a b (some (T.known c.depth))
      (some (T.known c.depth))
      (lhs.sites (T.loop?.map Prod.snd) c.numbering ++
        rhs.sites (T.loop?.map Prod.snd) (c.numbering.past lhs) ++
        e'.sites (T.loop?.map Prod.snd) ((c.numbering.past lhs).past rhs) ++
        e.sites (T.loop?.map Prod.snd) (((c.numbering.past lhs).past rhs).past e')) := by
  obtain ⟨b₁, htest, hline₁, b₂, hsecond, hjump, hline₂, b₃, hfirst, hline₃, rfl⟩ :=
    spans_branches.mp h
  set k := T.known c.depth with hk
  set needs := (.numbered .thenBody n, k) :: (.numbered .join n, k) :: T.exits with hneeds
  have hsub : T.exits ⊆ needs := by simp [hneeds]
  have hsub' : (.numbered .thenBody n, k) :: T.exits ⊆ needs :=
    List.cons_subset_cons _ (List.subset_cons_self _ _)
  have hd := depth_advance_test lhs rhs cmp (.numbered .thenBody n) c
  have hd' := (Expr.depth_advance_lower e' _).trans hd
  have hn := numbering_advance_test lhs rhs cmp (.numbered .thenBody n) c
  have hlow₀ : low ≤ T.sp (c.depth + max lhs.peak (1 + rhs.peak)) :=
    Staging.le_sp_of_le hlow (by omega)
  have hlow₁ : low ≤ T.sp (c.depth + e'.peak) := Staging.le_sp_of_le hlow (by omega)
  have hlow₂ : low ≤ T.sp (c.depth + e.peak) := Staging.le_sp_of_le hlow (by omega)
  have hwithin : k.Within low T.base :=
    hT.within (Staging.le_sp_of_le hlow (Nat.le_add_right _ _))
  have hsecond' := (he' T s _ (b₁ + 1) b₂ low (hd ▸ hT) (hd ▸ hlow₁) hsecond).needing hsub
  have hfirst' := (he T s _ (b₂ + 2) b₃ low (hd' ▸ hT) (hd' ▸ hlow₂) hfirst).needing hsub
  rw [hd, hn, ← hk] at hsecond'
  rw [hd', Expr.numbering_advance_lower, hn, ← hk] at hfirst'
  -- the lines, from the test to the last label
  have houtline := ((((outline_test hl hr hT hlow₀ htest).needing hsub').append
    (outline_label hline₁ hwithin (.refl _))).append hsecond').append
    (((outline_jump (.inl hjump) hwithin (by simp [hneeds])).append
      (outline_label hline₂ hwithin (.none (some k)))).append
      (hfirst'.append (outline_label hline₃ hwithin (.refl _))))
  simp only [List.append_nil, List.nil_append] at houtline
  refine houtline.close ?_
  intro x hx
  simp only [hneeds, List.mem_cons, List.mem_append, List.not_mem_nil] at hx ⊢
  tauto

/-- **Conditionals** have an outline if their parts have one. -/
lemma outlined_ifElse {lhs rhs e e' : Expr} (cmp : Comparison) (hl : Outlined p listing lhs)
    (hr : Outlined p listing rhs) (he : Outlined p listing e) (he' : Outlined p listing e') :
    Outlined p listing (.ifElse ⟨lhs, cmp, rhs⟩ e e') := by
  intro T s c a b low hT hlow h
  rw [Expr.lower, conditional, spans_numbered] at h
  rw [Expr.peak] at hlow
  rw [Expr.sites]
  exact outline_branches (c := { c with numbering := c.numbering.next .conditional })
    hl hr he he' hT hlow h.2

/-! ### Escapes -/

/-- **Escapes.** The word found after dropping what was pushed inside of the loop is the target, and
what is known there is what was known when the loop started. -/
lemma outlined_escape (how : Escape) : Outlined p listing (.escape how) := by
  intro T s c a b low hT hlow h
  obtain ⟨d, hd, hcode⟩ := spans_escape.mp h
  obtain ⟨⟨d', target⟩, hloop, rfl⟩ : ∃ x, T.loop? = some x ∧ x.1 = d := by
    rw [hT.loop] at hd
    exact Option.map_eq_some_iff.mp hd
  obtain ⟨hle, hwords⟩ := hT.staged d' target hloop
  obtain ⟨b₁, hdrop, hjump⟩ := spans_code_append.mp hcode
  obtain ⟨hload, hjr, rfl⟩ : listing[b₁]? = some (.lw how.register how.offset .stackPointer) ∧
      listing[b₁ + 1]? = some (.jr how.register) ∧ b₁ + 2 = b := by
    simpa using hjump
  have hwithin : (T.known d').Within low T.base :=
    ⟨Staging.le_sp_of_le hlow (by omega), by simp only [Staging.known, Staging.sp]; omega,
      hT.pushed⟩
  have hdropped : Outline p listing (Within low T.base) T.exits [] a b₁ (some (T.known c.depth))
      (some (T.known d')) [] := by
    refine .code hdrop ?_ ?_
    · split_ifs
      · trivial
      · exact ⟨(hT.within (Staging.le_sp_of_le hlow (Nat.le_add_right _ _))).mark rfl,
          fun _ _ => trivial⟩
    by_cases hpending : c.depth - d' = 0
    · obtain rfl : c.depth = d' := by omega
      simp
    · have hsp : T.sp c.depth + ((c.depth - d' : Nat) : Int) * wordSize = T.sp d' := by
        unfold Staging.sp wordSize
        omega
      simp only [hpending, if_false, List.foldlM_cons, List.foldlM_nil, Instruction.adjustStack,
        Knowledge.exec, Staging.known, hsp]
      rfl
  set k : Knowledge :=
    { T.known d' with
      regs := Function.update (T.known d').regs how.register (some (target how)) } with hk
  have hloaded : (T.known d').exec (.lw how.register how.offset .stackPointer) = some k := by
    have hr : how.register ≠ .stackPointer := by cases how <;> decide
    simp only [Knowledge.exec, Knowledge.learn, hr, if_false, if_true, Staging.known, hwords, hk]
  have hpost : (target how, T.known d') ∈ T.exits := by
    cases how <;> simp [Staging.exits, hloop]
  have hescape : Outline p listing (Within low T.base) T.exits [] (b₁ + 1) (b₁ + 2) (some k) none
      [.escape how (target how)] := by
    refine .single (x := ⟨k, .jr how.register, some (.escape how (target how))⟩) hjr
      ((hwithin.learn _).mark rfl) (.refl _) ?_
    intro accepts hneeds
    refine .escape (by simp [hk]) (hneeds _ hpost k ⟨rfl, ?_, fun _ _ h => h⟩)
    intro r l hl
    cases hl
  have houtline := (hdropped.append (.plain hload (hwithin.mark rfl) hloaded)).append hescape
  rw [Expr.sites, hloop]
  exact houtline.forget (.none _)
/-! ### Loops -/

/-- The address of a label is known to be in the word to which it is pushed. -/
lemma outline_la_push {r : Register} {l : Label} (hr : r ≠ .stackPointer) {k : Knowledge}
    (hwithin : k.Within low high) (hlow : low ≤ k.sp - 4) (hla : listing[a]? = some (.la r l))
    (hpush : (push r).Spans listing s c (a + 1) b) :
    Outline p listing (Within low high) needs [] a b (some k) (some {
      sp := k.sp - 4
      regs := Function.update k.regs r (some l)
      words := Function.update k.words k.sp (some l) }) [] := by
  have hk : k.exec (.la r l) = some { k with regs := Function.update k.regs r (some l) } := by
    simp only [Knowledge.exec, Knowledge.learn, hr, if_false]
  have hload : Outline p listing (Within low high) needs [] a (a + 1) (some k)
      (some { k with regs := Function.update k.regs r (some l) }) [] :=
    .plain hla (hwithin.mark rfl) hk
  have houtline := hload.append (outline_push r (hwithin.learn _) hlow hpush)
  simp only [Function.update_self] at houtline
  exact houtline

/-- Staging leads to what is staged inside of the loop. -/
lemma outline_stage {b' : Nat} (target : Escape → Label) (hT : T.Hosts p s c.depth)
    (hlow : low ≤ T.sp (c.depth + 2))
    (hla : listing[a]? = some (.la .exitTarget (target .exit)))
    (hpush : (push .exitTarget).Spans listing s c (a + 1) b)
    (hla' : listing[b]? = some (.la .restartTarget (target .restart)))
    (hpush' : (push .restartTarget).Spans listing s { c with depth := c.depth + 1 } (b + 1) b') :
    Outline p listing (Within low T.base) needs [] a b' (some (T.known c.depth))
      (some ((T.enter c.depth target).known (c.depth + 2))) [] := by
  have hwithin : (T.known c.depth).Within low T.base :=
    hT.within (Staging.le_sp_of_le hlow (Nat.le_add_right _ _))
  have hnext : low + 4 ≤ (T.known c.depth).sp - 4 ∧ (T.known c.depth).sp - 4 ≤ T.base := by
    simp only [Staging.known, Staging.sp] at hlow ⊢
    omega
  have hexit : Outline p listing (Within low T.base) needs [] a b (some (T.known c.depth)) _ [] :=
    outline_la_push (by decide) hwithin (by omega) hla hpush
  have houtline := hexit.append (outline_la_push (by decide)
    (((hwithin.store _).learn _).move (by omega) hnext.2) (by dsimp only; omega) hla' hpush')
  refine houtline.forget (.of_le ⟨?_, ?_, ?_⟩)
  · simp only [Staging.known, Staging.sp, Staging.enter]
    omega
  · intro r l hl
    cases hl
  · intro x l hl
    have hsp : T.sp c.depth - 4 = T.sp (c.depth + 1) := by
      unfold Staging.sp
      omega
    simpa only [Staging.known, Staging.enter, hsp] using hl

/-- Popping both targets leads back to what was staged before. -/
lemma outline_unstage {depth b' : Nat} {target : Escape → Label} {c' : Cursor}
    (hT : T.Hosts p s depth) (hlow : low ≤ T.sp (depth + 2))
    (hpop : (pop .restartTarget).Spans listing s c a b)
    (hpop' : (pop .exitTarget).Spans listing s c' b b') :
    Outline p listing (Within low T.base) needs [] a b'
      (some ((T.enter depth target).known (depth + 2))) (some (T.known depth)) [] := by
  have hwithin : ((T.enter depth target).known (depth + 2)).Within low T.base :=
    (hT.enter target).within hlow
  have hrestart : Outline p listing (Within low T.base) needs [] a b
      (some ((T.enter depth target).known (depth + 2))) _ [] :=
    outline_pop (by decide) hwithin hpop
  have hnext : low ≤ ((T.enter depth target).known (depth + 2)).sp + 4 ∧
      ((T.enter depth target).known (depth + 2)).sp + 4 ≤ T.base := by
    simp only [Staging.known, Staging.enter, Staging.sp] at hlow ⊢
    omega
  have houtline := hrestart.append (outline_pop (by decide)
    ((hwithin.learn _).move hnext.1 hnext.2) hpop')
  refine houtline.forget (.of_le ⟨?_, ?_, ?_⟩)
  · simp only [Staging.known, Staging.sp, Staging.enter]
    omega
  · intro r l hl
    cases hl
  · intro x l hl
    exact Staging.words_enter hT target hl

/-- **Loops.** The targets are staged around the loop, its head and its exit are reached with both
staged, and what was staged before is still there at the end. -/
lemma outline_staged (target : Escape → Label) {round : Fragment} {u : List Site}
    (hT : T.Hosts p s c.depth) (hlow : low ≤ T.sp (c.depth + 2))
    (hround : ∀ a b, round.Spans listing { s with loop? := some (c.depth + 2) }
      { c with depth := c.depth + 2 } a b →
      Outline p listing (Within low T.base) (T.enter c.depth target).exits [] a b
        (some ((T.enter c.depth target).known (c.depth + 2)))
        (some ((T.enter c.depth target).known (c.depth + 2))) u)
    (h : (staged (target .exit) (target .restart) round).Spans listing s c a b) :
    Outline p listing (Within low T.base) T.exits [] a b (some (T.known c.depth))
      (some (T.known c.depth)) u := by
  obtain ⟨hla, b₁, hpush, hla', b₂, hpush', hhead, b₃, hspans, hback, hexit, b₄, hpop, hpop'⟩ :=
    spans_staged.mp h
  set T' := T.enter c.depth target with hT'
  set k := T'.known (c.depth + 2) with hk
  have hwithin : k.Within low T.base := (hT.enter target).within hlow
  have hstage : Outline p listing (Within low T.base) T'.exits [] a b₂ (some (T.known c.depth))
      (some k) [] :=
    outline_stage target hT hlow hla hpush hla' hpush'
  have hloop : Outline p listing (Within low T.base) T'.exits _ b₂ (b₃ + 2) (some k) (some k) _ :=
    ((outline_label hhead hwithin (.refl _)).append (hround _ _ hspans)).append
      ((outline_jump (.inr hback) hwithin (by simp [hk, hT', Staging.enter, Staging.exits])).append
        (outline_label hexit hwithin (.none (some k))))
  have hunstage : Outline p listing (Within low T.base) T'.exits [] (b₃ + 2) b (some k)
      (some (T.known c.depth)) [] := outline_unstage hT hlow hpop hpop'
  have houtline := (hstage.append hloop).append hunstage
  simp only [List.append_nil, List.nil_append] at houtline
  refine houtline.close ?_
  intro x hx
  simp only [hT', Staging.exits, Staging.enter, List.mem_cons, List.mem_append,
    List.not_mem_nil] at hx ⊢
  tauto

/-- A round that tests first leads to the exit or to its own end. -/
lemma outline_whileRound {lhs rhs e : Expr} {cmp : Comparison} {n : Nat}
    (hl : Outlined p listing lhs) (hr : Outlined p listing rhs) (he : Outlined p listing e)
    (hT : T.Hosts p s c.depth)
    (hlow : low ≤ T.sp (c.depth + max (max lhs.peak (1 + rhs.peak)) e.peak))
    (hexit : (.numbered .whileExit n, T.known c.depth) ∈ T.exits)
    (h : (whileRound (test lhs.lower cmp rhs.lower) e.lower n).Spans listing s c a b) :
    Outline p listing (Within low T.base) T.exits [] a b (some (T.known c.depth))
      (some (T.known c.depth))
      (lhs.sites (T.loop?.map Prod.snd) c.numbering ++
        rhs.sites (T.loop?.map Prod.snd) (c.numbering.past lhs) ++
        e.sites (T.loop?.map Prod.snd) ((c.numbering.past lhs).past rhs)) := by
  obtain ⟨b₁, htest, hjump, hline, hbody⟩ := spans_whileRound.mp h
  set k := T.known c.depth with hk
  have hsub : T.exits ⊆ (.numbered .whileBody n, k) :: T.exits := List.subset_cons_self _ _
  have hd := depth_advance_test lhs rhs cmp (.numbered .whileBody n) c
  have hn := numbering_advance_test lhs rhs cmp (.numbered .whileBody n) c
  have hlow₁ : low ≤ T.sp (c.depth + max lhs.peak (1 + rhs.peak)) :=
    Staging.le_sp_of_le hlow (by omega)
  have hlow₂ : low ≤ T.sp (c.depth + e.peak) := Staging.le_sp_of_le hlow (by omega)
  have hwithin : k.Within low T.base :=
    hT.within (Staging.le_sp_of_le hlow (Nat.le_add_right _ _))
  have hbody' := (he T s _ (b₁ + 2) b low (hd ▸ hT) (hd ▸ hlow₂) hbody).needing hsub
  rw [hd, hn, ← hk] at hbody'
  have houtline := ((outline_test hl hr hT hlow₁ htest).append
    (outline_jump (.inr hjump) hwithin (hsub hexit))).append
    ((outline_label hline hwithin (.none (some k))).append hbody')
  simp only [List.append_nil, List.nil_append] at houtline
  refine houtline.close ?_
  intro x hx
  simp only [List.mem_cons, List.not_mem_nil] at hx ⊢
  tauto

/-- **Loops that test first** have an outline if their parts have one. -/
lemma outlined_whileDo {lhs rhs e : Expr} (cmp : Comparison) (hl : Outlined p listing lhs)
    (hr : Outlined p listing rhs) (he : Outlined p listing e) :
    Outlined p listing (.whileDo ⟨lhs, cmp, rhs⟩ e) := by
  intro T s c a b low hT hlow h
  rw [Expr.lower, whileLoop_eq, spans_numbered] at h
  rw [Expr.sites]
  set m := c.numbering.next .whileLoop with hm
  rw [Expr.peak, ← Nat.add_assoc] at hlow
  refine outline_staged (c := { c with numbering := m }) (Escape.whileTarget (m.count .whileLoop))
    hT (Staging.le_sp_of_le hlow (Nat.le_add_right _ _)) ?_ h.2
  intro a b hround
  exact outline_whileRound (c := { numbering := m, depth := c.depth + 2 }) hl hr he (hT.enter _)
    hlow (by simp [Staging.exits, Staging.enter, Escape.whileTarget]) hround

/-- A round that tests last leads to the exit or to its own end. -/
lemma outline_repeatRound {lhs rhs e : Expr} {cmp : Comparison} {n : Nat}
    (he : Outlined p listing e) (hl : Outlined p listing lhs) (hr : Outlined p listing rhs)
    (hT : T.Hosts p s c.depth)
    (hlow : low ≤ T.sp (c.depth + max (max lhs.peak (1 + rhs.peak)) e.peak))
    (hexit : (.numbered .repeatExit n, T.known c.depth) ∈ T.exits)
    (h : (repeatRound e.lower (test lhs.lower cmp rhs.lower) n).Spans listing s c a b) :
    Outline p listing (Within low T.base) T.exits [] a b (some (T.known c.depth))
      (some (T.known c.depth))
      (e.sites (T.loop?.map Prod.snd) c.numbering ++
        lhs.sites (T.loop?.map Prod.snd) (c.numbering.past e) ++
        rhs.sites (T.loop?.map Prod.snd) ((c.numbering.past e).past lhs)) := by
  obtain ⟨b₁, hbody, htest⟩ := spans_repeatRound.mp h
  have hd : (e.lower.advance c).depth = c.depth := by simp
  have hlow₁ : low ≤ T.sp (c.depth + e.peak) := Staging.le_sp_of_le hlow (by omega)
  have hlow₂ : low ≤ T.sp (c.depth + max lhs.peak (1 + rhs.peak)) :=
    Staging.le_sp_of_le hlow (by omega)
  have htest' := outline_test hl hr (hd ▸ hT) (hd ▸ hlow₂) htest
  rw [hd, Expr.numbering_advance_lower] at htest'
  have houtline := (he T s c a b₁ low hT hlow₁ hbody).append (htest'.close fun x hx => ?_)
  · rw [List.append_assoc]
    exact houtline
  · rcases List.mem_cons.mp hx with rfl | hx
    · exact .inl hexit
    · exact .inl hx

/-- **Loops that test last** have an outline if their parts have one. -/
lemma outlined_repeatUntil {lhs rhs e : Expr} (cmp : Comparison) (he : Outlined p listing e)
    (hl : Outlined p listing lhs) (hr : Outlined p listing rhs) :
    Outlined p listing (.repeatUntil e ⟨lhs, cmp, rhs⟩) := by
  intro T s c a b low hT hlow h
  rw [Expr.lower, repeatLoop_eq, spans_numbered] at h
  rw [Expr.sites]
  set m := c.numbering.next .repeatLoop with hm
  rw [Expr.peak, ← Nat.add_assoc] at hlow
  refine outline_staged (c := { c with numbering := m })
    (Escape.repeatTarget (m.count .repeatLoop)) hT
    (Staging.le_sp_of_le hlow (Nat.le_add_right _ _)) ?_ h.2
  intro a b hround
  exact outline_repeatRound (c := { numbering := m, depth := c.depth + 2 }) he hl hr (hT.enter _)
    hlow (by simp [Staging.exits, Staging.enter, Escape.repeatTarget]) hround

/-! ### Calls -/

/-- Each argument goes one word deeper. -/
lemma outline_args {args : List Expr} (hargs : ∀ arg ∈ args, Outlined p listing arg)
    (hT : T.Hosts p s c.depth) (hlow : low ≤ T.sp (c.depth + Expr.peakArgs args))
    (h : (Expr.lowerArgs args).Spans listing s c a b) :
    Outline p listing (Within low T.base) T.exits [] a b (some (T.known c.depth))
      (some (T.known (c.depth + args.length)))
      (Expr.sitesArgs (T.loop?.map Prod.snd) c.numbering args) := by
  induction args generalizing b with
  | nil =>
    obtain rfl := spans_nil.mp h
    exact .nil (.refl _)
  | cons arg args ih =>
    obtain ⟨b₁, hrest, b₂, harg, hpush⟩ := spans_lowerArgs_cons.mp h
    rw [Expr.peakArgs] at hlow
    have hrest' := ih (fun x hx => hargs x (List.mem_cons_of_mem _ hx))
      (Staging.le_sp_of_le hlow (by omega)) hrest
    have hd : ((Expr.lowerArgs args).advance c).depth = c.depth + args.length := by simp
    have hT' := hT.mono (Nat.le_add_right c.depth args.length)
    have hlow' : low ≤ T.sp (c.depth + args.length + arg.peak) :=
      Staging.le_sp_of_le hlow (by omega)
    have hlow₁ : low ≤ T.sp (c.depth + args.length + 1) := Staging.le_sp_of_le hlow (by omega)
    have harg' := hargs arg List.mem_cons_self T s _ b₁ b₂ low (hd ▸ hT') (hd ▸ hlow') harg
    rw [hd, Expr.numbering_advance_lowerArgs] at harg'
    have houtline := (hrest'.append harg').append
      (outline_push_known .accumulator hT' hlow₁ hpush)
    simp only [List.append_nil] at houtline
    rw [Expr.sitesArgs]
    exact houtline

/-- **Calls.** The callee releases the arguments and the word pushed before them, and no target of a
loop lies below. -/
lemma outlined_call {args : List Expr} (callee : String)
    (hargs : ∀ arg ∈ args, Outlined p listing arg) : Outlined p listing (.call callee args) := by
  intro T s c a b low hT hlow h
  obtain ⟨harity, b₁, hpush, b₂, hspans, hline, rfl⟩ := spans_call.mp h
  have hT' := hT.mono (Nat.le_add_right c.depth 1)
  rw [Expr.peak, ← Nat.add_assoc] at hlow
  have hargs' := outline_args (c := { c with depth := c.depth + 1 }) hargs hT' hlow hspans
  have hlow' : low ≤ T.sp (c.depth + 1 + args.length) :=
    Staging.le_sp_of_le hlow (Nat.add_le_add_left (Expr.length_le_peakArgs args) _)
  have hdeep : c.depth ≤ c.depth + 1 + args.length := by omega
  have hwithin := (hT.mono hdeep).within hlow'
  have hcall : Outline p listing (Within low T.base) T.exits [] b₂ (b₂ + 1)
      (some (T.known (c.depth + 1 + args.length)))
      (some ((T.known (c.depth + 1 + args.length)).release args.length))
      [.call callee args.length] := by
    refine .single (x := ⟨_, .jal (.entry callee), some (.call callee args.length)⟩) hline
      (hwithin.mark rfl) (.refl _) ?_
    intro accepts _
    refine .call ?_
    rw [hT.arity] at harity
    exact harity
  have hreleased : T.known c.depth ≤ (T.known (c.depth + 1 + args.length)).release args.length := by
    have hsp : T.sp (c.depth + 1 + args.length) + 4 * (args.length + 1) = T.sp c.depth := by
      unfold Staging.sp
      omega
    refine ⟨?_, ?_, ?_⟩
    · simp only [Staging.known, Knowledge.release, hsp]
    · intro r l hl
      cases hl
    · intro x l hl
      replace hl : T.words x = some l := hl
      have hx : ¬x ≤ T.sp c.depth := by
        intro hx
        rw [hT.free x hx] at hl
        cases hl
      simp only [Staging.known, Knowledge.release, hsp, hx, if_false]
      exact hl
  have houtline := ((outline_push_known .framePointer hT
    (Staging.le_sp_of_le hlow (by omega)) hpush).append hargs').append hcall
  simp only [List.append_nil, List.nil_append] at houtline
  rw [Expr.sites]
  exact houtline.forget (.of_le hreleased)

/-- **Every expression has an outline.** -/
theorem outlined (e : Expr) : Outlined p listing e := by
  induction e with
  | literal value => exact outlined_literal value
  | var slot => exact outlined_var slot
  | assign slot value ih => exact outlined_assign ih slot
  | binary lhs op rhs ihl ihr => exact outlined_binary ihl ihr op
  | ifElse lhs cmp rhs thenBody elseBody ihl ihr iht ihe =>
    exact outlined_ifElse cmp ihl ihr iht ihe
  | whileDo lhs cmp rhs body ihl ihr ihb => exact outlined_whileDo cmp ihl ihr ihb
  | repeatUntil body lhs cmp rhs ihb ihl ihr => exact outlined_repeatUntil cmp ihb ihl ihr
  | call callee args ih => exact outlined_call callee ih
  | seq first second ihf ihs => exact outlined_seq ihf ihs
  | skip => exact outlined_skip
  | escape how => exact outlined_escape how

end ImpRiscV
