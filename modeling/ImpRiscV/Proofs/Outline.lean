import Mathlib.Order.Basic
import ImpRiscV.Proofs.Walk

/-!
# Outlines of listings

An outline writes down before each line of a stretch of code what is known there, and checks that
no line spoils it: what a line leaves behind is at least what is written before the next line, and
what is known at a jump is at least what is written before its target. Outlines of consecutive
stretches make an outline of both, so that they are put together along the source. A walk cannot
leave an outline of the whole listing, so what holds of all that is written down, such as a bound on
the stack pointer, holds along the walk.

## Main definitions

* `ImpRiscV.Mark` — a line with what is known before it and the site to which it belongs.
* `ImpRiscV.Flows` — what is known before each of some lines goes over into the next.
* `ImpRiscV.Outline` — a stretch of a listing has an outline.
* `ImpRiscV.Chart`, `ImpRiscV.Chart.Closed` — an outline of a whole listing, and a stretch of it
  that no walk leaves.

## Main results

* `ImpRiscV.Outline.append` — outlines of consecutive stretches are put together.
* `ImpRiscV.Outline.close` — jumps to labels of the stretch itself need nothing from outside.
* `ImpRiscV.Chart.Closed.follows` — a walk stays in a closed stretch and knows what the outline
  says.
-/

set_option relaxedAutoImplicit false
set_option autoImplicit false

namespace ImpRiscV

/-! ### More and less knowledge -/

namespace Knowledge

/-- The stack pointer is the same, and what is known in one state is known in the other. -/
structure Le (k k' : Knowledge) : Prop where
  sp : k.sp = k'.sp
  regs : ∀ r l, k.regs r = some l → k'.regs r = some l
  words : ∀ a l, k.words a = some l → k'.words a = some l

/-- Knowledge is compared by what it allows to conclude. -/
instance instPreorderKnowledge : Preorder Knowledge where
  le := Le
  le_refl _ := ⟨rfl, fun _ _ h => h, fun _ _ h => h⟩
  le_trans _ _ _ h h' := ⟨h.sp.trans h'.sp, fun r l hl => h'.regs r l (h.regs r l hl),
    fun a l hl => h'.words a l (h.words a l hl)⟩

/-- What is known of one place may be replaced on both sides. -/
lemma update_mono {α : Type} [DecidableEq α] {f g : α → Option Label} {x y : Option Label}
    (h : ∀ a l, f a = some l → g a = some l) (hxy : ∀ l, x = some l → y = some l) (i : α) :
    ∀ a l, Function.update f i x a = some l → Function.update g i y a = some l := by
  intro a l hl
  by_cases ha : a = i
  · subst ha
    rw [Function.update_self] at hl ⊢
    exact hxy l hl
  · rw [Function.update_of_ne ha] at hl ⊢
    exact h a l hl

variable {k k' k₁ : Knowledge}

/-- With more knowledge a register is set as well. -/
lemma learn_mono (h : k ≤ k') {r : Register} {x y : Option Label}
    (hxy : ∀ l, x = some l → y = some l) (hk : k.learn r x = some k₁) :
    ∃ k₁', k'.learn r y = some k₁' ∧ k₁ ≤ k₁' := by
  unfold learn at hk ⊢
  split_ifs at hk ⊢ with hr
  obtain rfl := Option.some_inj.mp hk
  exact ⟨_, rfl, h.sp, update_mono h.regs hxy r, h.words⟩

/-- With more knowledge before a line there is more knowledge after it. -/
lemma exec_mono (h : k ≤ k') {i : Instruction Label} (hk : k.exec i = some k₁) :
    ∃ k₁', k'.exec i = some k₁' ∧ k₁ ≤ k₁' := by
  have hsame : ∀ x : Option Label, ∀ l, x = some l → x = some l := fun _ _ hl => hl
  cases i with
  | label | ecall | nop =>
    obtain rfl := Option.some_inj.mp hk
    exact ⟨k', rfl, h⟩
  | li | mv | arith | la => exact learn_mono h (hsame _) hk
  | lw rd n base =>
    refine learn_mono h ?_ hk
    intro l hl
    split_ifs at hl ⊢
    rw [← h.sp]
    exact h.words _ l hl
  | sw rs n base =>
    simp only [exec] at hk ⊢
    split_ifs at hk ⊢
    · obtain rfl := Option.some_inj.mp hk
      refine ⟨_, rfl, h.sp, h.regs, ?_⟩
      rw [← h.sp]
      exact update_mono h.words (h.regs rs) _
    · obtain rfl := Option.some_inj.mp hk
      exact ⟨k', rfl, h⟩
  | addi rd rs n =>
    simp only [exec] at hk ⊢
    split_ifs at hk ⊢
    · obtain rfl := Option.some_inj.mp hk
      exact ⟨_, rfl, by simp [h.sp], h.regs, h.words⟩
    · exact learn_mono h (hsame _) hk
  | branch | b | j | jal | jr => cases hk

/-- With more knowledge before a call there is more knowledge after it. -/
lemma release_mono (h : k ≤ k') (n : Nat) : k.release n ≤ k'.release n := by
  refine ⟨by simp [release, h.sp], ?_, ?_⟩
  · intro r l hl
    simp only [release] at hl ⊢
    split_ifs at hl ⊢
    exact h.regs r l hl
  · intro a l hl
    simp only [release, ← h.sp] at hl ⊢
    split_ifs at hl ⊢
    exact h.words a l hl

end Knowledge

/-! ### Marked lines -/

/-- A line with what is known before it. -/
structure Mark where
  /-- What is known before the line. -/
  before : Knowledge
  /-- The line. -/
  line : Instruction Label
  /-- The call or escape that the line performs. -/
  site? : Option Site := none

section flow

variable (p : Program) (accepts : Label → Knowledge → Prop)

/-- What is known after a marked line, if the walk goes on to the next line. A jump leads to a label
that accepts what is known. -/
inductive Mark.Passes : Mark → Option Knowledge → Prop
  | plain {k k' : Knowledge} {i : Instruction Label} (h : k.exec i = some k') :
    Passes ⟨k, i, none⟩ (some k')
  | branch {k : Knowledge} {cmp : Comparison} {r r' : Register} {l : Label} (h : accepts l k) :
    Passes ⟨k, .branch cmp r r' l, none⟩ (some k)
  | b {k : Knowledge} {l : Label} (h : accepts l k) : Passes ⟨k, .b l, none⟩ none
  | j {k : Knowledge} {l : Label} (h : accepts l k) : Passes ⟨k, .j l, none⟩ none
  | call {k : Knowledge} {callee : String} {args : Nat}
    (h : ∀ arity, p.arity? callee = some arity → arity.toNat = args) :
    Passes ⟨k, .jal (.entry callee), some (.call callee args)⟩ (some (k.release args))
  | escape {k : Knowledge} {how : Escape} {l : Label} (hl : k.regs how.register = some l)
    (h : accepts l k) : Passes ⟨k, .jr how.register, some (.escape how l)⟩ none
  | ret {k : Knowledge} {d : Declaration} (hd : d ∈ p.decls)
    (h : k.sp = 4 * (signed d.arity - d.arity.toNat)) : Passes ⟨k, .jr .returnAddress, none⟩ none

/-- What is known, if the walk gets here at all, is enough. -/
def Leads (k? k?' : Option Knowledge) : Prop := ∀ k, k? = some k → ∃ k', k?' = some k' ∧ k' ≤ k

/-- What is known before each line goes over into what is known before the next. -/
def Flows : Option Knowledge → List Mark → Option Knowledge → Prop
  | k?, [], k?' => Leads k? k?'
  | k?, x :: xs, k?' => Leads k? (some x.before) ∧ ∃ after, x.Passes p accepts after ∧
      Flows after xs k?'

variable {p accepts} {k? k?' k?'' : Option Knowledge} {xs ys : List Mark}

/-- What is known is enough for itself. -/
lemma Leads.refl (k? : Option Knowledge) : Leads k? k? := fun k hk => ⟨k, hk, le_refl k⟩

/-- Where the walk does not get, nothing has to be known. -/
lemma Leads.none (k? : Option Knowledge) : Leads none k? := fun _ h => by cases h

/-- Knowing more is enough. -/
lemma Leads.of_le {k k' : Knowledge} (h : k' ≤ k) : Leads (some k) (some k') := by
  intro k₁ hk
  obtain rfl := Option.some_inj.mp hk
  exact ⟨k', rfl, h⟩

/-- What is enough for enough is enough. -/
lemma Leads.trans (h : Leads k? k?') (h' : Leads k?' k?'') : Leads k? k?'' := by
  intro k hk
  obtain ⟨k', hk', hle⟩ := h k hk
  obtain ⟨k'', hk'', hle'⟩ := h' k' hk'
  exact ⟨k'', hk'', hle'.trans hle⟩

/-- What is known before the first line may be more. -/
lemma Flows.of_leads (h : Leads k? k?') (hxs : Flows p accepts k?' xs k?'') :
    Flows p accepts k? xs k?'' := by
  cases xs with
  | nil => exact h.trans hxs
  | cons x xs => exact ⟨h.trans hxs.1, hxs.2⟩

/-- What is known goes over from part to part. -/
lemma Flows.append (h : Flows p accepts k? xs k?') (h' : Flows p accepts k?' ys k?'') :
    Flows p accepts k? (xs ++ ys) k?'' := by
  induction xs generalizing k? with
  | nil => exact h'.of_leads h
  | cons x xs ih =>
    obtain ⟨hle, after, hpass, hrest⟩ := h
    exact ⟨hle, after, hpass, ih hrest⟩

/-- What is known at the start is enough for the first line, or for the end if there is none. -/
lemma Flows.head {k : Knowledge} (h : Flows p accepts (some k) xs k?') :
    (∃ y, xs[0]? = some y ∧ y.before ≤ k) ∨ xs.length = 0 := by
  cases xs with
  | nil => exact .inr rfl
  | cons y ys =>
    obtain ⟨k', hk', hle⟩ := h.1 k rfl
    obtain rfl := Option.some_inj.mp hk'
    exact .inl ⟨y, rfl, hle⟩

/-- Every marked line passes on to the next one, and the last line to the end. -/
lemma Flows.passes_or_ends (h : Flows p accepts k? xs k?') {i : Nat} {x : Mark}
    (hx : xs[i]? = some x) : ∃ after, x.Passes p accepts after ∧
      ∀ k, after = some k → (∃ y, xs[i + 1]? = some y ∧ y.before ≤ k) ∨
        xs.length = i + 1 ∧ Leads (some k) k?' := by
  induction xs generalizing k? i with
  | nil => simp at hx
  | cons y ys ih =>
    obtain ⟨-, after, hpass, hrest⟩ := h
    cases i with
    | succ i => simpa using ih hrest (by simpa using hx)
    | zero =>
      obtain rfl : y = x := by simpa using hx
      refine ⟨after, hpass, ?_⟩
      rintro k rfl
      cases ys with
      | nil => exact .inr ⟨rfl, hrest⟩
      | cons z zs => exact .inl (hrest.head.resolve_right (Nat.succ_ne_zero _))

/-- If there is no end, every marked line passes on to the next one. -/
lemma Flows.passes (h : Flows p accepts k? xs none) {i : Nat} {x : Mark} (hx : xs[i]? = some x) :
    ∃ after, x.Passes p accepts after ∧
      ∀ k, after = some k → ∃ y, xs[i + 1]? = some y ∧ y.before ≤ k := by
  obtain ⟨after, hpass, hnext⟩ := h.passes_or_ends hx
  refine ⟨after, hpass, fun k hk => ?_⟩
  rcases hnext k hk with hy | ⟨-, hend⟩
  · exact hy
  · obtain ⟨k', hk', -⟩ := hend k rfl
    cases hk'

end flow

/-! ### Outlines -/

/-- What is known at a label. -/
abbrev Signpost := Label × Knowledge

/-- Whoever knows what is known at the signposts may jump there. -/
def Accepted (accepts : Label → Knowledge → Prop) (posts : List Signpost) : Prop :=
  ∀ x ∈ posts, ∀ k, x.2 ≤ k → accepts x.1 k

section outline

variable (p : Program) (listing : List (Instruction Label)) (Q : Mark → Prop)

/-- The marked lines are an outline of the listing from position `a` up to position `b`. It goes
from one state of knowledge to another, needs some signposts outside, and has some inside, and each
marked line satisfies `Q`. -/
structure Outlines (needs posts : List Signpost) (a b : Nat) (k? k?' : Option Knowledge)
    (sites : List Site) (xs : List Mark) : Prop where
  /-- The lines follow position `a`. -/
  lines : xs.map Mark.line <+: listing.drop a
  /-- They end at position `b`. -/
  length : a + xs.length = b
  /-- The calls and escapes of the stretch. -/
  sites_eq : xs.filterMap Mark.site? = sites
  /-- The signposts inside. -/
  posts_mem : ∀ x ∈ posts, ⟨x.2, .label x.1, none⟩ ∈ xs
  /-- What is known goes over from line to line. -/
  flows : ∀ accepts : Label → Knowledge → Prop,
    (∀ y ∈ xs, ∀ l, y.line = .label l → ∀ k, y.before ≤ k → accepts l k) →
    Accepted accepts needs → Flows p accepts k? xs k?'
  /-- What is said of each line. -/
  holds : ∀ y ∈ xs, Q y

/-- The listing has an outline from position `a` up to position `b`. -/
def Outline (needs posts : List Signpost) (a b : Nat) (k? k?' : Option Knowledge)
    (sites : List Site) : Prop := ∃ xs, Outlines p listing Q needs posts a b k? k?' sites xs

variable {p listing Q} {needs needs' posts posts' : List Signpost} {a b c : Nat}
  {k? k?' k?'' : Option Knowledge} {u v : List Site}

/-- No lines have an outline. -/
lemma Outline.nil (h : Leads k? k?') : Outline p listing Q needs [] a a k? k?' [] := by
  refine ⟨[], List.nil_prefix, rfl, rfl, by simp, fun _ _ _ => h, by simp⟩

/-- The marked lines of consecutive stretches, one after another, are an outline of both. -/
lemma Outlines.append {xs ys : List Mark} (h : Outlines p listing Q needs posts a b k? k?' u xs)
    (h' : Outlines p listing Q needs posts' b c k?' k?'' v ys) :
    Outlines p listing Q needs (posts ++ posts') a c k? k?'' (u ++ v) (xs ++ ys) := by
  obtain ⟨hlines, rfl, rfl, hposts, hflows, hholds⟩ := h
  obtain ⟨hlines', rfl, rfl, hposts', hflows', hholds'⟩ := h'
  refine ⟨?_, ?_, by simp, ?_, ?_, ?_⟩
  · rw [List.map_append, Fragment.append_isPrefix_drop_iff, List.length_map]
    exact ⟨hlines, hlines'⟩
  · rw [List.length_append]
    omega
  · intro x hx
    rcases List.mem_append.mp hx with hx | hx
    · exact List.mem_append_left _ (hposts x hx)
    · exact List.mem_append_right _ (hposts' x hx)
  · intro accepts hlabels hneeds
    have hxs := hflows accepts (fun y hy => hlabels y (List.mem_append_left _ hy)) hneeds
    have hys := hflows' accepts (fun y hy => hlabels y (List.mem_append_right _ hy)) hneeds
    exact hxs.append hys
  · intro y hy
    rcases List.mem_append.mp hy with hy | hy
    · exact hholds y hy
    · exact hholds' y hy

/-- **Outlines of consecutive stretches are put together.** -/
theorem Outline.append (h : Outline p listing Q needs posts a b k? k?' u)
    (h' : Outline p listing Q needs posts' b c k?' k?'' v) :
    Outline p listing Q needs (posts ++ posts') a c k? k?'' (u ++ v) := by
  obtain ⟨xs, hxs⟩ := h
  obtain ⟨ys, hys⟩ := h'
  exact ⟨xs ++ ys, hxs.append hys⟩

/-- **Jumps to labels of the stretch itself need nothing from outside.** -/
theorem Outline.close (h : Outline p listing Q needs posts a b k? k?' u)
    (hneeds : ∀ x ∈ needs, x ∈ needs' ∨ x ∈ posts) :
    Outline p listing Q needs' [] a b k? k?' u := by
  obtain ⟨xs, hlines, hlen, hsites, hposts, hflows, hholds⟩ := h
  refine ⟨xs, hlines, hlen, hsites, by simp, ?_, hholds⟩
  intro accepts hlabels hout
  refine hflows accepts hlabels ?_
  intro x hx k hk
  rcases hneeds x hx with hx | hx
  · exact hout x hx k hk
  · exact hlabels _ (hposts x hx) x.1 rfl k hk

/-- An outline may need more signposts than it has to. -/
lemma Outline.needing (h : Outline p listing Q needs posts a b k? k?' u) (hneeds : needs ⊆ needs') :
    Outline p listing Q needs' posts a b k? k?' u := by
  obtain ⟨xs, hlines, hlen, hsites, hposts, hflows, hholds⟩ := h
  refine ⟨xs, hlines, hlen, hsites, hposts, ?_, hholds⟩
  intro accepts hlabels hout
  exact hflows accepts hlabels fun x hx => hout x (hneeds hx)

/-- Less may be known at the end. -/
lemma Outline.forget (h : Outline p listing Q needs posts a b k? k?' u) (hout : Leads k?' k?'') :
    Outline p listing Q needs posts a b k? k?'' u := by
  have h' := h.append (.nil hout)
  simp only [List.append_nil] at h'
  exact h'

/-- The outline of one line. -/
lemma Outline.single {x : Mark} (hx : listing[a]? = some x.line) (hQ : Q x)
    (hin : Leads k? (some x.before))
    (hpass : ∀ accepts, Accepted accepts needs → x.Passes p accepts k?') :
    Outline p listing Q needs [] a (a + 1) k? k?' x.site?.toList := by
  have hline : [x].map Mark.line <+: listing.drop a := by
    obtain ⟨rest, hrest⟩ := List.head?_eq_some_iff.mp (List.head?_drop.trans hx)
    exact ⟨rest, hrest.symm⟩
  refine ⟨[x], hline, rfl, by cases h : x.site? <;> simp [h], by simp, ?_, by simpa using hQ⟩
  intro accepts _ hneeds
  exact ⟨hin, k?', hpass accepts hneeds, .refl _⟩

/-- A line that does not jump has an outline. -/
lemma Outline.plain {k k' : Knowledge} {i : Instruction Label} (hi : listing[a]? = some i)
    (hQ : Q ⟨k, i, none⟩) (h : k.exec i = some k') :
    Outline p listing Q needs [] a (a + 1) (some k) (some k') [] :=
  .single (x := ⟨k, i, none⟩) hi hQ (.refl _) fun _ _ => .plain h

/-- A label is a signpost. What is known there is the less of what is known before it and at the
jumps to it. -/
lemma Outline.label {k : Knowledge} {l : Label} (hl : listing[a]? = some (.label l))
    (hQ : Q ⟨k, .label l, none⟩) (hin : Leads k? (some k)) :
    Outline p listing Q needs [(l, k)] a (a + 1) k? (some k) [] := by
  obtain ⟨rest, hrest⟩ := List.head?_eq_some_iff.mp (List.head?_drop.trans hl)
  refine ⟨[⟨k, .label l, none⟩], ⟨rest, hrest.symm⟩, rfl, rfl, by simp, ?_, by simpa using hQ⟩
  intro accepts _ _
  exact ⟨hin, some k, .plain rfl, .refl _⟩

/-- Less may be said of each line. -/
lemma Outline.mono {R : Mark → Prop} (h : Outline p listing Q needs posts a b k? k?' u)
    (hQR : ∀ x, Q x → R x) : Outline p listing R needs posts a b k? k?' u := by
  obtain ⟨xs, hlines, hlen, hsites, hposts, hflows, hholds⟩ := h
  exact ⟨xs, hlines, hlen, hsites, hposts, hflows, fun y hy => hQR _ (hholds y hy)⟩

variable (Q) in
/-- Each of some lines, with what is known before it, satisfies `Q`. -/
def Knowledge.Along : List (Instruction Label) → Knowledge → Prop
  | [], _ => True
  | i :: is, k => Q ⟨k, i, none⟩ ∧ ∀ k', k.exec i = some k' → Along is k'

/-- The outline of lines that do not jump. -/
lemma Outline.code {s : Scope} {cur : Cursor} {is : List (Instruction Label)} {k k' : Knowledge}
    (h : (Fragment.code is).Spans listing s cur a b) (hQ : k.Along Q is)
    (hk : is.foldlM Knowledge.exec k = some k') :
    Outline p listing Q needs [] a b (some k) (some k') [] := by
  induction is generalizing a k with
  | nil =>
    obtain rfl := Fragment.spans_code_nil.mp h
    obtain rfl : k = k' := by simpa using hk
    exact .nil (.refl _)
  | cons i is ih =>
    obtain ⟨hi, hrest⟩ := Fragment.spans_code_cons.mp h
    rw [List.foldlM_cons] at hk
    obtain ⟨k₁, hk₁, hk'⟩ := Option.bind_eq_some_iff.mp hk
    exact (Outline.plain hi hQ.1 hk₁).append (ih hrest (hQ.2 k₁ hk₁) hk')

end outline

/-! ### Walks follow outlines -/

/-- Calls and escapes are marked at the lines that perform them. -/
lemma Mark.Passes.site {p : Program} {accepts : Label → Knowledge → Prop} {x : Mark}
    {after : Option Knowledge} (h : x.Passes p accepts after) :
    x.line.isSite = x.site?.isSome ∧ ∀ site, x.site? = some site → site.line = x.line := by
  cases h with
  | plain h =>
    rename_i i
    cases i <;> first | exact ⟨rfl, by simp⟩ | cases h
  | branch | b | j | ret => exact ⟨rfl, by simp⟩
  | call => exact ⟨rfl, by simp [Site.line]⟩
  | @escape k how l hl h => exact ⟨by cases how <;> rfl, by simp [Site.line_escape]⟩

/-- At a return, the stack pointer depends on the arity only. -/
lemma Mark.Passes.sp_of_return {p : Program} {accepts : Label → Knowledge → Prop} {x : Mark}
    {after : Option Knowledge} (h : x.Passes p accepts after)
    (hx : x.line = .jr .returnAddress) :
    ∃ d ∈ p.decls, x.before.sp = 4 * (signed d.arity - d.arity.toNat) := by
  cases h with
  | ret hd h => exact ⟨_, hd, h⟩
  | @escape k how l hl h => cases how <;> cases hx
  | plain h =>
    cases hx
    cases h
  | branch | b | j | call => cases hx

/-- A jump through another register than the return address is an escape. -/
lemma Mark.Passes.escape_of_jump {p : Program} {accepts : Label → Knowledge → Prop} {x : Mark}
    {after : Option Knowledge} {r : Register} (h : x.Passes p accepts after)
    (hx : x.line = .jr r) (hr : r ≠ .returnAddress) :
    ∃ how l, x.site? = some (.escape how l) ∧ r = how.register ∧ x.before.regs r = some l := by
  cases h with
  | ret =>
    cases hx
    exact absurd rfl hr
  | @escape k how l hl h =>
    cases hx
    exact ⟨how, l, rfl, rfl, hl⟩
  | plain h =>
    cases hx
    cases h
  | branch | b | j | call => cases hx

/-- A walk goes on after a line that does not jump. -/
lemma successors_of_exec {p : Program} {listing : List (Instruction Label)} {w : Walker}
    {i : Instruction Label} {k : Knowledge} (hi : listing[w.pc]? = some i)
    (hk : w.known.exec i = some k) : p.successors listing w = some [⟨w.pc + 1, k⟩] := by
  unfold Program.successors
  rw [hi]
  cases i <;> first | cases hk; done | simp only [hk, Option.map_some]

/-- An outline of a whole listing, in which all jumps lead to labels of the listing. -/
structure Chart (p : Program) (listing : List (Instruction Label)) (xs : List Mark) : Prop where
  /-- All lines are marked. -/
  lines : xs.map Mark.line = listing
  /-- The calls and escapes are those of the program. -/
  sites : xs.filterMap Mark.site? = p.sites
  /-- What is known goes over from line to line. -/
  flows : Flows p (fun l k => ∃ y ∈ xs, y.line = .label l ∧ y.before ≤ k) none xs none

namespace Chart

variable {p : Program} {listing : List (Instruction Label)} {xs : List Mark}

/-- The outline has the lines of the listing. -/
lemma getElem?_listing (h : Chart p listing xs) {i : Nat} {x : Mark} (hx : xs[i]? = some x) :
    listing[i]? = some x.line := by
  rw [← h.lines, List.getElem?_map, hx]
  rfl

/-- In an outline, calls and escapes are marked at the lines that perform them. -/
lemma site_of_mem (h : Chart p listing xs) {x : Mark} (hx : x ∈ xs) :
    x.line.isSite = x.site?.isSome ∧ ∀ site, x.site? = some site → site.line = x.line := by
  obtain ⟨i, hi⟩ := List.mem_iff_getElem?.mp hx
  obtain ⟨after, hpass, -⟩ := h.flows.passes hi
  exact hpass.site

/-- **Calls and escapes match their lines**, one by one. -/
theorem filter_isSite (h : Chart p listing xs) :
    listing.filter Instruction.isSite = p.sites.map Site.line := by
  have hmem := fun x hx => h.site_of_mem (x := x) hx
  rw [← h.lines, ← h.sites]
  generalize xs = ys at hmem
  induction ys with
  | nil => rfl
  | cons y ys ih =>
    obtain ⟨hsite, hline⟩ := hmem y List.mem_cons_self
    have hrest := ih fun x hx => hmem x (List.mem_cons_of_mem _ hx)
    rw [List.map_cons, List.filter_cons, hsite, hrest]
    cases hy : y.site? with
    | none => simp [hy]
    | some site => simp [hy, hline site hy]

/-- The functions that are called are callees of the program. -/
lemma mem_callees (h : Chart p listing xs) {name : String} (hline : .jal (.entry name) ∈ listing) :
    name ∈ p.callees := by
  have hmem : Instruction.jal (.entry name) ∈ p.sites.map Site.line := by
    rw [← h.filter_isSite]
    exact List.mem_filter.mpr ⟨hline, rfl⟩
  obtain ⟨site, hsite, heq⟩ := List.mem_map.mp hmem
  refine List.mem_filterMap.mpr ⟨site, hsite, ?_⟩
  cases site with
  | call callee args =>
    obtain rfl := Label.entry.inj (Instruction.jal.inj heq)
    rfl
  | escape how target => cases (Site.line_escape how target).symm.trans heq

/-- A line belongs to the call or escape with which it is marked. -/
lemma siteAt_eq (h : Chart p listing xs) {i : Nat} {x : Mark} {site : Site} (hx : xs[i]? = some x)
    (hsite : x.site? = some site) : p.siteAt listing i = some site := by
  have hcount : (listing.take i).countP Instruction.isSite =
      ((xs.take i).filterMap Mark.site?).length := by
    rw [← h.lines, ← List.map_take, List.countP_map, List.length_filterMap_eq_countP]
    refine List.countP_congr ?_
    intro y hy
    simp [(h.site_of_mem (List.mem_of_mem_take hy)).1]
  obtain ⟨hlt, rfl⟩ := List.getElem?_eq_some_iff.mp hx
  have hsplit : xs.filterMap Mark.site? = (xs.take i).filterMap Mark.site? ++
      site :: (xs.drop (i + 1)).filterMap Mark.site? := by
    conv_lhs => rw [← List.take_append_drop i xs, List.drop_eq_getElem_cons hlt]
    rw [List.filterMap_append, List.filterMap_cons_some hsite]
  rw [Program.siteAt, hcount, ← h.sites, hsplit, List.getElem?_append_right (Nat.le_refl _),
    Nat.sub_self, List.getElem?_cons_zero]

variable (p xs) in
/-- A stretch of marked lines, from position `a` on, that no jump and no last line leaves. -/
structure Closed (a : Nat) (ys : List Mark) : Prop where
  /-- The lines are marked as in the outline of the whole listing. -/
  marks : ∀ i y, ys[i]? = some y → xs[a + i]? = some y
  /-- What is known goes over from line to line of the stretch. -/
  flows : Flows p (fun l k => ∃ y ∈ ys, y.line = .label l ∧ y.before ≤ k) none ys none

/-- The whole listing is a closed stretch. -/
lemma closed (h : Chart p listing xs) : Closed p xs 0 xs :=
  ⟨fun i y hy => by rwa [Nat.zero_add], h.flows⟩

/-- **One step.** A walk at a line of a closed stretch that knows what the outline says is not
stuck, and all next states are at lines of the stretch and know what the outline says. -/
theorem Closed.step {a : Nat} {ys : List Mark} (hys : Closed p xs a ys) (h : Chart p listing xs)
    (hp : p.compile = .ok listing) {w : Walker} {i : Nat} {x : Mark} (hpc : w.pc = a + i)
    (hx : ys[i]? = some x) (hle : x.before ≤ w.known) :
    ∃ next, p.successors listing w = some next ∧
      ∀ w' ∈ next, ∃ j y, w'.pc = a + j ∧ ys[j]? = some y ∧ y.before ≤ w'.known := by
  obtain ⟨after, hpass, hafter⟩ := hys.flows.passes hx
  have hmark : xs[w.pc]? = some x := hpc ▸ hys.marks i x hx
  have hline := h.getElem?_listing hmark
  have hnext : w.pc + 1 = a + (i + 1) := by rw [hpc, Nat.add_assoc]
  have hjump : ∀ l k, (∃ y ∈ ys, y.line = .label l ∧ y.before ≤ k) → k ≤ w.known →
      ∃ j, address listing l = some (a + j) ∧ ∃ y, ys[j]? = some y ∧ y.before ≤ w.known := by
    rintro l k ⟨y, hy, hyl, hyk⟩ hk
    obtain ⟨j, hj⟩ := List.mem_iff_getElem?.mp hy
    have hla := h.getElem?_listing (hys.marks j y hj)
    rw [hyl] at hla
    exact ⟨j, p.address_eq hp hla, y, hj, hyk.trans hk⟩
  cases hpass with
  | plain hexec =>
    obtain ⟨k, hk, hkle⟩ := Knowledge.exec_mono hle hexec
    obtain ⟨y, hy, hyle⟩ := hafter _ rfl
    refine ⟨_, successors_of_exec hline hk, ?_⟩
    intro w' hw'
    obtain rfl := List.mem_singleton.mp hw'
    exact ⟨i + 1, y, hnext, hy, hyle.trans hkle⟩
  | branch hl =>
    obtain ⟨j, hj, y, hy, hyle⟩ := hjump _ _ hl hle
    obtain ⟨z, hz, hzle⟩ := hafter _ rfl
    refine ⟨[{ w with pc := a + j }, { w with pc := w.pc + 1 }], ?_, ?_⟩
    · simp [Program.successors, hline, hj]
    intro w' hw'
    rcases List.mem_pair.mp hw' with rfl | rfl
    · exact ⟨j, y, rfl, hy, hyle⟩
    · exact ⟨i + 1, z, hnext, hz, hzle.trans hle⟩
  | b hl | j hl =>
    obtain ⟨j, hj, y, hy, hyle⟩ := hjump _ _ hl hle
    refine ⟨[{ w with pc := a + j }], by simp [Program.successors, hline, hj], ?_⟩
    intro w' hw'
    obtain rfl := List.mem_singleton.mp hw'
    exact ⟨j, y, rfl, hy, hyle⟩
  | @call k callee args hargs =>
    obtain ⟨y, hy, hyle⟩ := hafter _ rfl
    have hsite := h.siteAt_eq hmark rfl
    have hreleased : p.released listing w.pc (.entry callee) = some args := by
      cases hd : p.decls.find? (·.name == callee) with
      | none => simp [Program.released, hd, hsite]
      | some d =>
        have harity : p.arity? callee = some d.arity := by simp [Program.arity?, hd]
        simp [Program.released, hd, hargs d.arity harity]
    refine ⟨[⟨w.pc + 1, w.known.release args⟩], by simp [Program.successors, hline, hreleased], ?_⟩
    intro w' hw'
    obtain rfl := List.mem_singleton.mp hw'
    exact ⟨i + 1, y, hnext, hy, hyle.trans (Knowledge.release_mono hle args)⟩
  | @escape k how l hl hpost =>
    obtain ⟨j, hj, y, hy, hyle⟩ := hjump _ _ hpost hle
    have hreg : w.known.regs how.register = some l := hle.regs _ _ hl
    refine ⟨[{ w with pc := a + j }], ?_, ?_⟩
    · cases how <;> simp_all [Program.successors, Escape.register]
    · intro w' hw'
      obtain rfl := List.mem_singleton.mp hw'
      exact ⟨j, y, rfl, hy, hyle⟩
  | ret => exact ⟨[], by simp [Program.successors, hline], by simp⟩

/-- A walk in a state that knows what the outline says is not stuck. -/
lemma exists_successors_of_le (h : Chart p listing xs) (hp : p.compile = .ok listing) {w : Walker}
    {x : Mark} (hx : xs[w.pc]? = some x) (hle : x.before ≤ w.known) :
    ∃ next, p.successors listing w = some next := by
  obtain ⟨next, hnext, -⟩ := h.closed.step h hp (Nat.zero_add w.pc).symm hx hle
  exact ⟨next, hnext⟩

/-- **A walk stays in a closed stretch and knows what the outline says**, if the entry of its
function is there.

**Proof sketch.** Induction over the walk. It starts at the signpost of the entry, and each step
keeps to the outline. -/
theorem Closed.follows {a : Nat} {ys : List Mark} (hys : Closed p xs a ys)
    (h : Chart p listing xs) (hp : p.compile = .ok listing) {d : Declaration}
    (hd : ⟨.atEntry d.arity, .label (.entry d.name), none⟩ ∈ ys) {w : Walker}
    (hw : p.Walked listing d w) :
    ∃ i y, w.pc = a + i ∧ ys[i]? = some y ∧ y.before ≤ w.known := by
  induction hw with
  | @entry b hb =>
    obtain ⟨i, hi⟩ := List.mem_iff_getElem?.mp hd
    have hentry := p.address_eq hp (h.getElem?_listing (hys.marks i _ hi))
    obtain rfl : b = a + i := Option.some_inj.mp (hb.symm.trans hentry)
    exact ⟨i, _, rfl, hi, le_refl _⟩
  | step hw hnext hmem ih =>
    obtain ⟨i, x, hpc, hx, hle⟩ := ih
    obtain ⟨next, hnext', hall⟩ := hys.step h hp hpc hx hle
    obtain rfl := Option.some_inj.mp (hnext.symm.trans hnext')
    exact hall _ hmem

/-- **A walk through an outlined listing knows what the outline says**, if the entry of its function
is outlined. -/
theorem follows (h : Chart p listing xs) (hp : p.compile = .ok listing) {d : Declaration}
    (hd : ⟨.atEntry d.arity, .label (.entry d.name), none⟩ ∈ xs) {w : Walker}
    (hw : p.Walked listing d w) : ∃ x, xs[w.pc]? = some x ∧ x.before ≤ w.known := by
  obtain ⟨i, x, hpc, hx, hle⟩ := h.closed.follows h hp hd hw
  rw [Nat.zero_add] at hpc
  exact ⟨x, hpc ▸ hx, hle⟩

end Chart

end ImpRiscV
