import ImpRiscV.Proofs.ExpressionOutline

/-!
# Outlines of functions

A function pushes its return address, runs its body, for which nothing is staged, and releases its
frame. Its lines are a closed stretch of the listing: no walk through it leaves them but by a
return. So the outlines of the functions of a program make up an outline of its listing.

## Main definitions

* `ImpRiscV.Declaration.Bounds` — what is said of each line of a function.
* `ImpRiscV.Declaration.Outlines` — an outline of a function that keeps to the bounds.

## Main results

* `ImpRiscV.outline_function` — every function has an outline.
* `ImpRiscV.Program.exists_chart_closed` — every listing has an outline, in which the lines of each
  function are a closed stretch.
-/

set_option relaxedAutoImplicit false
set_option autoImplicit false

namespace ImpRiscV

open Fragment

section fragments

variable {p : Program} {listing : List (Instruction Label)} {s : Scope} {c : Cursor} {a b : Nat}
  {low high : Int}

open Mark (Within)

/-- What is staged where the body of a function starts: nothing. -/
def Staging.ofArity (arity : UInt64) : Staging where
  base := (Knowledge.atEntry arity).sp - 4
  words _ := none
  loop? := none

/-- Nothing is staged where the body of a function starts. -/
lemma Staging.hosts_ofArity (d : Declaration) :
    (Staging.ofArity d.arity).Hosts p
      { arity? := p.arity?, function := d.name, loop? := none } 0 :=
  ⟨rfl, rfl, fun _ _ => rfl, fun _ _ h => (by cases h), fun _ _ h => (by cases h)⟩

/-- Where the stack pointer stands at the entry of a function. -/
def Declaration.entrySp (d : Declaration) : Int := (Knowledge.atEntry d.arity).sp

/-- What is said of each line of a function: the stack pointer stays between its place at the entry
and the deepest word of the body, and what is stored relative to it is in between. Once the frame
has been released, the stack pointer is past the arguments, and nothing is stored relative to it. -/
def Declaration.Bounds (d : Declaration) (x : Mark) : Prop :=
  x.Within (d.entrySp - 4 - 4 * d.body.peak) d.entrySp ∨
    x.before.sp = d.entrySp + 4 * (signed d.arity + 1) ∧ x.line.storesOnStack = false

/-- The bounds may be moved up. -/
lemma Mark.Within.mono {x : Mark} {high' : Int} (h : x.Within low high) (hhigh : high ≤ high') :
    x.Within low high' := by
  refine ⟨⟨h.before.low_le, Int.le_trans h.before.le_high hhigh, ?_⟩, fun r n hstore => ?_⟩
  · intro a l hl
    exact Int.le_trans (h.before.words a l hl) hhigh
  · exact ⟨(h.store r n hstore).1, Int.le_trans (h.store r n hstore).2 hhigh⟩

/-- The lines before the body push one word. -/
lemma outline_prologue {d : Declaration} (h : (code (prologue d.name)).Spans listing s c a b) :
    Outline p listing d.Bounds [] [(.entry d.name, .atEntry d.arity)] a b none
      (some ((Staging.ofArity d.arity).known 0)) [] := by
  obtain ⟨hlabel, hrest⟩ := spans_code_cons.mp h
  obtain ⟨hmove, hsave⟩ := spans_code_cons.mp hrest
  have hpush : (push .returnAddress).Spans listing s c (a + 1 + 1) b := spans_push.mpr hsave
  have hentry : (Knowledge.atEntry d.arity).Within (d.entrySp - 4 - 4 * d.body.peak) d.entrySp :=
    ⟨by unfold Declaration.entrySp; omega, Int.le_refl _, fun _ _ hl => (by cases hl)⟩
  have hlow : d.entrySp - 4 - 4 * d.body.peak ≤ (Knowledge.atEntry d.arity).sp - 4 := by
    unfold Declaration.entrySp
    omega
  have houtline : Outline p listing (Within _ _) [] _ a b none _ _ :=
    (outline_label hlabel hentry (.none _)).append
      ((Outline.plain hmove (hentry.mark rfl) rfl).append
        (outline_push .returnAddress (hentry.learn _) hlow hpush))
  refine (houtline.mono fun _ => .inl).forget (.of_le ⟨rfl, ?_, ?_⟩)
  · intro r l hl
    cases hl
  · intro x l hl
    cases hl

/-- The lines after the body release the frame. -/
lemma outline_epilogue {d : Declaration} {size : Int} (hd : d ∈ p.decls)
    (hsize : frameSize d.arity = .ok size) (h : (code (epilogue size)).Spans listing s c a b) :
    Outline p listing d.Bounds [] [] a b (some ((Staging.ofArity d.arity).known 0)) none [] := by
  set T := Staging.ofArity d.arity with hT
  obtain ⟨b₁, hrestore, hreturn⟩ := spans_code_append.mp h
  obtain ⟨hline, rfl⟩ : listing[b₁]? = some (.jr .returnAddress) ∧ b₁ + 1 = b := by
    simpa using hreturn
  have hsize' := (frameSize_eq_ok_iff.mp hsize).1
  have hsp : (T.known 0).sp = d.entrySp - 4 := by
    simp only [hT, Staging.known, Staging.sp, Staging.ofArity, Declaration.entrySp]
    omega
  have hstart : (T.known 0).Within (d.entrySp - 4 - 4 * d.body.peak) d.entrySp :=
    ⟨by omega, by omega, fun _ _ hl => (by cases hl)⟩
  have hreleased : (T.known 0).sp + size = d.entrySp + 4 * (signed d.arity + 1) := by omega
  -- two lines with the frame, and three without it
  have halong : (T.known 0).Along d.Bounds (restore size) := by
    refine ⟨.inl (hstart.mark rfl), fun k₁ hk₁ => ?_⟩
    obtain rfl := Option.some_inj.mp hk₁
    refine ⟨.inl ((hstart.learn _).mark rfl), fun k₂ hk₂ => ?_⟩
    obtain rfl := Option.some_inj.mp hk₂
    refine ⟨.inr ⟨hreleased, rfl⟩, fun k₃ hk₃ => ?_⟩
    obtain rfl := Option.some_inj.mp hk₃
    refine ⟨.inr ⟨hreleased, rfl⟩, fun k₄ hk₄ => ?_⟩
    obtain rfl := Option.some_inj.mp hk₄
    exact ⟨.inr ⟨hreleased, rfl⟩, fun _ _ => trivial⟩
  have hpast : d.entrySp + 4 * (signed d.arity + 1) = 4 * (signed d.arity - d.arity.toNat) := by
    simp only [Declaration.entrySp, Knowledge.atEntry]
    omega
  exact (Outline.code hrestore halong rfl).append
    (.single (x := ⟨_, .jr .returnAddress, none⟩) hline (.inr ⟨hreleased, rfl⟩) (.refl _)
      fun accepts _ => .ret hd (hreleased.trans hpast))

/-- **Functions.** The body starts one word below the entry, and at the return the stack pointer is
where it was before the call, unless the arity is too large to be read without a sign. -/
lemma outline_function {d : Declaration} (hd : d ∈ p.decls)
    (h : d.lower.Spans listing { arity? := p.arity? } c a b) :
    Outline p listing d.Bounds [] [(.entry d.name, .atEntry d.arity)] a b none none
      (d.body.sites none c.numbering) := by
  obtain ⟨size, hsize, b₁, hprologue, b₂, hbody, hepilogue⟩ := spans_declaration.mp h
  set T := Staging.ofArity d.arity with hT
  have hbase : T.sp (0 + d.body.peak) = d.entrySp - 4 - 4 * d.body.peak ∧ T.base ≤ d.entrySp := by
    simp only [hT, Staging.sp, Staging.ofArity, Declaration.entrySp]
    omega
  have hrun := outlined (p := p) d.body T _ { c with depth := 0 } b₁ b₂ _
    (Staging.hosts_ofArity (p := p) d) (Int.le_of_eq hbase.1.symm) hbody
  have houtline := (outline_prologue hprologue).append
    ((hrun.mono fun x hx => .inl (hx.mono hbase.2)).append (outline_epilogue hd hsize hepilogue))
  simp only [List.append_nil, List.nil_append] at houtline
  exact houtline

/-- A function numbers the constructs of its body. -/
lemma numbering_advance_function {d : Declaration} (h : d.lower.Spans listing s c a b) :
    (d.lower.advance c).numbering = c.numbering.past d.body := by
  obtain ⟨-, -, -, -, hadvance⟩ :=
    Declaration.lower_of_success (failure?_emission_eq_none_iff.mp h.success)
  refine Numbering.ext_count fun k => ?_
  rw [Numbering.count_past, hadvance, Numbering.count_add, Expr.count_constructs]

variable (p) in
/-- The marked lines are an outline of a function that begins at its entry, needs nothing from
outside and keeps to the bounds of the function. -/
structure Declaration.Outlines (d : Declaration) (ys : List Mark) : Prop where
  /-- The entry is a signpost. -/
  entry : ⟨.atEntry d.arity, .label (.entry d.name), none⟩ ∈ ys
  /-- What is said of each line. -/
  bounds : ∀ y ∈ ys, d.Bounds y
  /-- What is known goes over from line to line. -/
  flows : Flows p (fun l k => ∃ y ∈ ys, y.line = .label l ∧ y.before ≤ k) none ys none

/-- No function runs on into the next one. -/
lemma outlines_decls {ds : List Declaration} (hds : ∀ d ∈ ds, d ∈ p.decls)
    (h : (concat (ds.map Declaration.lower)).Spans listing { arity? := p.arity? } c a b) :
    ∃ xs, Outlines p listing (fun _ => True) [] [] a b none none
        (Program.sitesFrom c.numbering ds) xs ∧
      ∀ d ∈ ds, ∃ before ys after, xs = before ++ (ys ++ after) ∧ d.Outlines p ys := by
  induction ds generalizing c a with
  | nil =>
    obtain rfl := spans_nil.mp h
    exact ⟨[], ⟨List.nil_prefix, rfl, rfl, by simp, fun _ _ _ => .refl _, by simp⟩, by simp⟩
  | cons d ds ih =>
    obtain ⟨b₁, hd, hrest⟩ := spans_append.mp h
    obtain ⟨xs, hxs, hall⟩ := ih (fun d' hd' => hds d' (List.mem_cons_of_mem _ hd')) hrest
    rw [numbering_advance_function hd] at hxs
    obtain ⟨ys, hys⟩ := outline_function (hds d List.mem_cons_self) hd
    have hfunction : d.Outlines p ys := by
      refine ⟨hys.posts_mem _ List.mem_cons_self, hys.holds, hys.flows _ ?_ fun x hx => by cases hx⟩
      intro y hy l hl k hk
      exact ⟨y, hy, hl, hk⟩
    have hplain : Outlines p listing (fun _ => True) [] [] a b₁ none none _ ys :=
      ⟨hys.lines, hys.length, hys.sites_eq, by simp, hys.flows, fun _ _ => trivial⟩
    refine ⟨ys ++ xs, hplain.append hxs, fun d' hd' => ?_⟩
    rcases List.mem_cons.mp hd' with rfl | hd'
    · exact ⟨[], ys, xs, rfl, hfunction⟩
    · obtain ⟨before, zs, after, rfl, hzs⟩ := hall d' hd'
      exact ⟨ys ++ before, zs, after, (List.append_assoc _ _ _).symm, hzs⟩

end fragments

namespace Program

variable {p : Program} {listing : List (Instruction Label)}

/-- **Every listing has an outline**, in which no walk through a function leaves its lines. -/
theorem exists_chart_closed (h : p.compile = .ok listing) : ∃ xs, Chart p listing xs ∧
    ∀ d ∈ p.decls, ∃ a ys, Chart.Closed p xs a ys ∧ d.Outlines p ys := by
  obtain ⟨xs, ⟨hlines, hlen, hsites, -, hflows, -⟩, hall⟩ :=
    outlines_decls (fun _ hd => hd) (spans_lower_of_compile h).2
  refine ⟨xs, ⟨?_, hsites, ?_⟩, fun d hd => ?_⟩
  · rw [List.drop_zero] at hlines
    exact hlines.eq_of_length (by rw [List.length_map]; omega)
  · refine hflows _ ?_ fun x hx => by cases hx
    intro y hy l hl k hk
    exact ⟨y, hy, hl, hk⟩
  · obtain ⟨before, ys, after, rfl, hys⟩ := hall d hd
    refine ⟨before.length, ys, ⟨fun i y hy => ?_, hys.flows⟩, hys⟩
    have hlt := (List.getElem?_eq_some_iff.mp hy).1
    rw [List.getElem?_append_right (Nat.le_add_right _ _), Nat.add_sub_cancel_left,
      List.getElem?_append_left hlt, hy]

/-- The outline of a listing has a signpost at the entry of each function. -/
theorem exists_chart (h : p.compile = .ok listing) : ∃ xs, Chart p listing xs ∧
    ∀ d ∈ p.decls, ⟨.atEntry d.arity, .label (.entry d.name), none⟩ ∈ xs := by
  obtain ⟨xs, hxs, hall⟩ := exists_chart_closed h
  refine ⟨xs, hxs, fun d hd => ?_⟩
  obtain ⟨a, ys, hclosed, hys⟩ := hall d hd
  obtain ⟨i, hi⟩ := List.mem_iff_getElem?.mp hys.entry
  exact List.mem_of_getElem? (hclosed.marks i _ hi)

end Program

end ImpRiscV
