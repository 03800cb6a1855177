import ImpRiscV.Frame

/-!
# Labels

Generated code jumps to two families of labels. A function is entered at the label made of its
name and `_entry`. Each conditional and each loop has labels of its own, one per `Role`, that
share the number of the construct; constructs of one kind are numbered from 1 in the order in
which their code is generated. They are counted with 32 bits, so at most `2³² - 1` constructs of a
kind receive a number, and the next one is refused.

## Main definitions

* `ImpRiscV.Construct` — the kinds of expression that need labels.
* `ImpRiscV.Role` — what a label marks in the code of a construct.
* `ImpRiscV.Label` — a label, and `Label.text` for its spelling.
* `ImpRiscV.Allocated` — a construct that has its number, and with it its labels.
* `ImpRiscV.Numbering` — how many constructs of each kind have been numbered;
  `Numbering.allocate` numbers one more.

## Main results

* `ImpRiscV.Numbering.allocate_eq_ok_iff` — which number a construct receives, and when.
* `ImpRiscV.Numbering.count_next` — numbering a construct raises the count of its kind by one
  and leaves the others alone.
-/

set_option relaxedAutoImplicit false
set_option autoImplicit false

namespace ImpRiscV

/-- A kind of expression whose code has labels. -/
inductive Construct where
  /-- A conditional with two bodies. -/
  | conditional
  /-- A loop that tests before its body. -/
  | whileLoop
  /-- A loop that tests after its body. -/
  | repeatLoop
deriving DecidableEq, Repr, Inhabited

/-- The keyword that opens a construct in the source language. -/
def Construct.keyword : Construct → String
  | .conditional => "if"
  | .whileLoop => "while"
  | .repeatLoop => "repeat"

/-- What a label marks in the code of a construct. -/
inductive Role where
  /-- The body run when the test of a conditional holds. -/
  | thenBody
  /-- The body run when the test of a conditional fails. -/
  | elseBody
  /-- The end of a conditional. -/
  | join
  /-- The test of a `while`. -/
  | whileHead
  /-- The body of a `while`. -/
  | whileBody
  /-- The end of a `while`. -/
  | whileExit
  /-- The body of a `repeat`. -/
  | repeatHead
  /-- The end of a `repeat`. -/
  | repeatExit
deriving DecidableEq, Repr, Inhabited

namespace Role

/-- The construct to whose code the label belongs. -/
def construct : Role → Construct
  | .thenBody | .elseBody | .join => .conditional
  | .whileHead | .whileBody | .whileExit => .whileLoop
  | .repeatHead | .repeatExit => .repeatLoop

/-- The text before the number. -/
def stem : Role → String
  | .thenBody => "then_"
  | .elseBody => "else_"
  | .join => "exit_"
  | .whileHead => "loop_"
  | .whileBody => "loop_body_"
  | .whileExit => "loop_exit_"
  | .repeatHead => "repeat_"
  | .repeatExit => "repeat_exit_"

end Role

/-- A label of generated code. -/
inductive Label where
  /-- The entry point of a function. -/
  | entry (function : String)
  /-- A place in the code of the construct with the given number. -/
  | numbered (role : Role) (number : Nat)
deriving DecidableEq, Repr

/-- The spelling of a label in assembly text. -/
def Label.text : Label → String
  | .entry function => function ++ "_entry"
  | .numbered role number => role.stem ++ toString number

namespace Construct

/-- What the labels of a construct mark. -/
def roles : Construct → List Role
  | .conditional => [.thenBody, .elseBody, .join]
  | .whileLoop => [.whileHead, .whileBody, .whileExit]
  | .repeatLoop => [.repeatHead, .repeatExit]

/-- A construct has exactly the roles that belong to its code. -/
@[simp] theorem mem_roles_iff {k : Construct} {r : Role} : r ∈ k.roles ↔ r.construct = k := by
  cases k <;> cases r <;> decide

/-- The labels of the construct with the given number. -/
def labels (k : Construct) (number : Nat) : List Label :=
  k.roles.map (.numbered · number)

end Construct

/-- A construct that has received its number. -/
structure Allocated where
  /-- The kind of the construct. -/
  construct : Construct
  /-- Its number among the constructs of its kind. -/
  number : Nat
deriving DecidableEq, Repr

namespace Allocated

/-- The label of the construct for a role. -/
def label (a : Allocated) (r : Role) : Label := .numbered r a.number

/-- The labels of the construct. -/
def labels (a : Allocated) : List Label := a.construct.roles.map a.label

end Allocated

/-! ### Numbering -/

/-- The number of constructs of a kind that a counter of 32 bits cannot count. -/
def counterLimit : Nat := 0x100000000

/-- How many constructs of each kind have been numbered. -/
structure Numbering where
  /-- Numbered conditionals. -/
  conditionals : Nat := 0
  /-- Numbered `while` loops. -/
  whileLoops : Nat := 0
  /-- Numbered `repeat` loops. -/
  repeatLoops : Nat := 0
deriving DecidableEq, Repr, Inhabited

namespace Numbering

/-- How many constructs of a kind have been numbered. -/
def count (c : Construct) (m : Numbering) : Nat :=
  match c with
  | .conditional => m.conditionals
  | .whileLoop => m.whileLoops
  | .repeatLoop => m.repeatLoops

/-- The numbering after one more construct of a kind; `(m.next c).count c` is its number. -/
def next (c : Construct) (m : Numbering) : Numbering :=
  match c with
  | .conditional => { m with conditionals := m.conditionals + 1 }
  | .whileLoop => { m with whileLoops := m.whileLoops + 1 }
  | .repeatLoop => { m with repeatLoops := m.repeatLoops + 1 }

/-- The next construct of a kind, with the number that it is due. -/
def upcoming (c : Construct) (m : Numbering) : Allocated := ⟨c, (m.next c).count c⟩

/-- Number one more construct of a kind: the construct with its number, and the numbering that
includes it. The counter is raised first, and it may overflow. -/
def allocate (c : Construct) (m : Numbering) : Except Overflow (Allocated × Numbering) :=
  if (m.next c).count c < counterLimit then .ok (m.upcoming c, m.next c) else .error .addition

/-- Nothing is numbered at the start. -/
@[simp] theorem count_start (c : Construct) : count c {} = 0 := by cases c <;> rfl

/-- **Numbering counts by kind.** A construct raises the count of its own kind by one and leaves
the others alone. -/
@[simp] theorem count_next (c d : Construct) (m : Numbering) :
    (m.next c).count d = m.count d + if d = c then 1 else 0 := by
  cases c <;> cases d <;> rfl

/-- **Which number a construct receives:** the one after those of its kind, as long as a counter
can hold it. -/
theorem allocate_eq_ok_iff {c : Construct} {m m' : Numbering} {a : Allocated} :
    m.allocate c = .ok (a, m') ↔
      m.count c + 1 < counterLimit ∧ a = m.upcoming c ∧ m' = m.next c := by
  have hcount : (m.next c).count c = m.count c + 1 := by simp
  rw [allocate, hcount]
  by_cases h : m.count c + 1 < counterLimit
  · simp [h, eq_comm]
  · simp [h]

/-- A construct is refused exactly when its counter is full. -/
theorem allocate_eq_error_iff {c : Construct} {m : Numbering} {o : Overflow} :
    m.allocate c = .error o ↔ counterLimit ≤ m.count c + 1 ∧ o = .addition := by
  have hcount : (m.next c).count c = m.count c + 1 := by simp
  rw [allocate, hcount]
  by_cases h : m.count c + 1 < counterLimit
  · simp [h, Nat.not_le.mpr h]
  · simp [h, Nat.le_of_not_lt h, eq_comm]

/-- A numbering is determined by its counts. -/
theorem ext_count {m n : Numbering} (h : ∀ c, m.count c = n.count c) : m = n := by
  obtain ⟨a, b, c⟩ := m
  obtain ⟨a', b', c'⟩ := n
  have h₁ : a = a' := h .conditional
  have h₂ : b = b' := h .whileLoop
  have h₃ : c = c' := h .repeatLoop
  simp [h₁, h₂, h₃]

end Numbering

end ImpRiscV
