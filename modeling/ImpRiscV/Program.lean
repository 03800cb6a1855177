import ImpRiscV.Expr.Equality

/-!
# Programs

A program is a list of function declarations, in the order in which their code is laid out. A
declaration fixes the number of arguments its callers supply; a call to a name that the program
does not declare is left to the linker, so nothing is known about its arity.

## Main definitions

* `ImpRiscV.Declaration`, `ImpRiscV.Program` — functions and the programs they form.
* `ImpRiscV.Program.arity?` — the declared number of arguments of a function.
* `ImpRiscV.Program.duplicate?` — the first name that is declared a second time.

## Main results

* `ImpRiscV.Program.duplicate?_eq_none_iff` — no name is reported exactly when all names differ.
* `ImpRiscV.Program.arity?_eq_some_iff` — then every declaration is found under its name.
-/

set_option relaxedAutoImplicit false
set_option autoImplicit false

namespace ImpRiscV

/-- A function: its name, the number of arguments it takes, and its body. The arguments are the
slots `1, …, arity` of its frame. -/
structure Declaration where
  /-- The name by which calls refer to the function. -/
  name : String
  /-- The number of arguments a caller pushes. -/
  arity : UInt64
  /-- The expression a call evaluates. -/
  body : Expr
deriving DecidableEq, Repr

/-- A list of functions, in the order in which their code is laid out. -/
structure Program where
  /-- The functions of the program. -/
  decls : List Declaration := []
deriving DecidableEq, Repr, Inhabited

/-- The first member of a list that is in `seen` or occurred earlier in the list. -/
def firstRepeat? (seen : List String) : List String → Option String
  | [] => none
  | x :: xs => if x ∈ seen then some x else firstRepeat? (x :: seen) xs

/-- Nothing is reported exactly when the members are distinct and none has been seen. -/
theorem firstRepeat?_eq_none_iff {seen xs : List String} :
    firstRepeat? seen xs = none ↔ xs.Nodup ∧ ∀ x ∈ xs, x ∉ seen := by
  induction xs generalizing seen with
  | nil => simp [firstRepeat?]
  | cons x xs ih =>
    by_cases hx : x ∈ seen
    · simp [firstRepeat?, hx]
    · simp only [firstRepeat?, hx, if_false, ih, List.mem_cons, not_or, List.nodup_cons]
      constructor
      · rintro ⟨hn, h⟩
        refine ⟨⟨fun hm => (h x hm).1 rfl, hn⟩, ?_⟩
        rintro y (rfl | hy)
        · exact hx
        · exact (h y hy).2
      · rintro ⟨⟨hm, hn⟩, h⟩
        exact ⟨hn, fun y hy => ⟨fun e => hm (e ▸ hy), h y (Or.inr hy)⟩⟩

namespace Program

/-- The declared number of arguments of a function, if the program declares it. -/
def arity? (p : Program) (name : String) : Option UInt64 :=
  (p.decls.find? (·.name == name)).map (·.arity)

/-- Nothing is known of a name exactly when no declaration has it. -/
theorem arity?_eq_none_iff {p : Program} {name : String} :
    p.arity? name = none ↔ ∀ d ∈ p.decls, d.name ≠ name := by
  simp [arity?]

/-- The first name, in program order, that an earlier declaration has already taken. -/
def duplicate? (p : Program) : Option String :=
  firstRepeat? [] (p.decls.map (·.name))

/-- A program has no duplicate exactly when its names are distinct. -/
theorem duplicate?_eq_none_iff {p : Program} :
    p.duplicate? = none ↔ (p.decls.map (·.name)).Nodup := by
  simp [duplicate?, firstRepeat?_eq_none_iff]

/-- In a program without duplicates, every declaration is found under its name. -/
theorem arity?_eq_some_iff {p : Program} (h : p.duplicate? = none) {name : String} {n : UInt64} :
    p.arity? name = some n ↔ ∃ d ∈ p.decls, d.name = name ∧ d.arity = n := by
  have hnodup := duplicate?_eq_none_iff.mp h
  constructor
  · intro hn
    obtain ⟨d, hd, rfl⟩ := Option.map_eq_some_iff.mp hn
    exact ⟨d, List.mem_of_find?_eq_some hd, by simpa using List.find?_some hd, rfl⟩
  · rintro ⟨d, hd, rfl, rfl⟩
    unfold arity?
    generalize p.decls = ds at hnodup hd
    induction ds with
    | nil => exact absurd hd List.not_mem_nil
    | cons e es ih =>
      obtain ⟨he, hes⟩ := List.nodup_cons.mp hnodup
      rcases List.mem_cons.mp hd with rfl | hd
      · simp
      · have hne : (e.name == d.name) = false := by
          rw [beq_eq_false_iff_ne]
          exact fun heq => he (List.mem_map.mpr ⟨d, hd, heq.symm⟩)
        rw [List.find?_cons, hne]
        exact ih hes hd

end Program

end ImpRiscV
