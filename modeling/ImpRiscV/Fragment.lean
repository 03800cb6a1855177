import ImpRiscV.Emission

/-!
# Fragments of code

The code of an expression depends on where it stands: on the function and the loop around it,
on how many constructs were numbered before it, and on how many words its function has pushed so
far. The first two are its `Scope`, which does not change from one fragment to the next; the
others are its `Cursor`, which every fragment moves on. A `Fragment` says which steps generate it at
a given place and how the cursor moves. The cursor moves in the same way whether or not something
failed, because no step is taken after a failure.

## Main definitions

* `ImpRiscV.Scope`, `ImpRiscV.Cursor` — where a fragment stands.
* `ImpRiscV.Fragment` — code that depends on where it stands; `f ++ g` is `f` followed by `g`,
  and `Fragment.concat` is a list of fragments in order.
* `ImpRiscV.Fragment.emission` — what the steps of a fragment leave behind.
* `ImpRiscV.Fragment.code`, `ImpRiscV.Fragment.fail`, `ImpRiscV.Fragment.record` — what can be
  emitted.
* `ImpRiscV.Fragment.numbered`, `ImpRiscV.Fragment.grow`, `ImpRiscV.Fragment.shrink` — what moves
  the cursor.
* `ImpRiscV.Fragment.inLoop`, `ImpRiscV.Fragment.inFunction` — what changes the scope.

## Main results

* `ImpRiscV.Fragment.append_assoc` — fragments form a monoid.
-/

set_option relaxedAutoImplicit false
set_option autoImplicit false

namespace ImpRiscV

/-- What surrounds a fragment. -/
structure Scope where
  /-- The number of arguments of each declared function. -/
  arity? : String → Option UInt64
  /-- The function to which the fragment belongs. -/
  function : String := ""
  /-- The number of words pushed when the innermost loop around the fragment had staged its
  targets; nothing outside of loops. -/
  loop? : Option Nat := none

/-- What came before a fragment. -/
structure Cursor where
  /-- The constructs numbered so far. -/
  numbering : Numbering := {}
  /-- The number of words that the function has pushed and not yet popped. -/
  depth : Nat := 0
deriving DecidableEq, Repr, Inhabited

/-- Code that depends on where it stands. -/
@[ext] structure Fragment where
  /-- The steps that generate the fragment at a given place. -/
  steps : Scope → Cursor → List Step
  /-- The cursor after the fragment. -/
  advance : Cursor → Cursor

namespace Fragment

/-- What the fragment leaves behind at a given place. -/
def emission (f : Fragment) (s : Scope) (c : Cursor) : Emission := .run (f.steps s c)

/-! ### Sequencing -/

/-- The fragment without code. -/
def nil : Fragment where
  steps _ _ := []
  advance c := c

/-- One fragment after another. -/
protected def append (f g : Fragment) : Fragment where
  steps s c := f.steps s c ++ g.steps s (f.advance c)
  advance c := g.advance (f.advance c)

/-- Fragments are sequenced by `++`. -/
instance instAppendFragment : Append Fragment := ⟨Fragment.append⟩

/-- The steps of the second fragment follow, from where the first leaves the cursor. -/
@[simp] theorem steps_append (f g : Fragment) (s : Scope) (c : Cursor) :
    (f ++ g).steps s c = f.steps s c ++ g.steps s (f.advance c) := rfl

/-- What the second fragment leaves behind follows what the first one leaves. -/
@[simp] theorem emission_append (f g : Fragment) (s : Scope) (c : Cursor) :
    (f ++ g).emission s c = f.emission s c ++ g.emission s (f.advance c) :=
  Emission.run_append _ _

/-- Each fragment moves the cursor in turn. -/
@[simp] theorem advance_append (f g : Fragment) (c : Cursor) :
    (f ++ g).advance c = g.advance (f.advance c) := rfl

/-- The empty fragment takes no step. -/
@[simp] theorem steps_nil (s : Scope) (c : Cursor) : nil.steps s c = [] := rfl

/-- The empty fragment leaves nothing behind. -/
@[simp] theorem emission_nil (s : Scope) (c : Cursor) : nil.emission s c = {} := rfl

/-- The empty fragment leaves the cursor alone. -/
@[simp] theorem advance_nil (c : Cursor) : nil.advance c = c := rfl

/-- Nothing before a fragment. -/
@[simp] theorem nil_append (f : Fragment) : nil ++ f = f := by ext1 <;> simp [funext_iff]

/-- Nothing after a fragment. -/
@[simp] theorem append_nil (f : Fragment) : f ++ nil = f := by ext1 <;> simp [funext_iff]

/-- **Fragments form a monoid.** -/
theorem append_assoc (f g h : Fragment) : f ++ g ++ h = f ++ (g ++ h) := by
  ext1 <;> simp [funext_iff, List.append_assoc]

/-- A list of fragments, one after another. -/
def concat : List Fragment → Fragment
  | [] => nil
  | f :: fs => f ++ concat fs

/-- No fragments are the empty fragment. -/
@[simp] theorem concat_nil : concat [] = nil := rfl

/-- A list of fragments begins with its first. -/
@[simp] theorem concat_cons (f : Fragment) (fs : List Fragment) :
    concat (f :: fs) = f ++ concat fs := rfl

/-- A list of fragments may be cut anywhere. -/
@[simp] theorem concat_append (fs gs : List Fragment) :
    concat (fs ++ gs) = concat fs ++ concat gs := by
  induction fs with
  | nil => simp
  | cons f fs ih => simp [ih, append_assoc]

/-! ### Steps -/

/-- Record an event. -/
def record (e : Event) : Fragment where
  steps _ _ := [.note e]
  advance c := c

/-- Add lines of code. -/
def code (is : List (Instruction Label)) : Fragment where
  steps _ _ := Step.emits is
  advance c := c

/-- Give up. -/
def fail (f : Failure) : Fragment where
  steps _ _ := [.fail f]
  advance c := c

/-- Continue with the result of an address computation, or give up if it overflows. -/
def withAddress (address : Except Overflow Int) (rest : Int → Fragment) : Fragment :=
  match address with
  | .ok x => rest x
  | .error step => fail (.overflow step)

/-- Recording an event is one step. -/
@[simp] theorem steps_record (e : Event) (s : Scope) (c : Cursor) :
    (record e).steps s c = [.note e] := rfl

/-- Lines of code are added one by one. -/
@[simp] theorem steps_code (is : List (Instruction Label)) (s : Scope) (c : Cursor) :
    (code is).steps s c = Step.emits is := rfl

/-- Giving up is one step. -/
@[simp] theorem steps_fail (f : Failure) (s : Scope) (c : Cursor) :
    (fail f).steps s c = [.fail f] := rfl

/-- Recording an event leaves the cursor alone. -/
@[simp] theorem advance_record (e : Event) (c : Cursor) : (record e).advance c = c := rfl

/-- Adding lines leaves the cursor alone. -/
@[simp] theorem advance_code (is : List (Instruction Label)) (c : Cursor) :
    (code is).advance c = c := rfl

/-- A failure leaves the cursor alone. -/
@[simp] theorem advance_fail (f : Failure) (c : Cursor) : (fail f).advance c = c := rfl

/-! ### Moving the cursor -/

/-- Count words that have been pushed. -/
def grow (words : Nat) : Fragment where
  steps _ _ := []
  advance c := { c with depth := c.depth + words }

/-- Count words that have been popped. -/
def shrink (words : Nat) : Fragment where
  steps _ _ := []
  advance c := { c with depth := c.depth - words }

/-- The steps that number a construct and continue with it, or give up if its counter is full. -/
def numbering (k : Construct) (m : Numbering) (rest : Allocated → Numbering → List Step) :
    List Step :=
  match m.allocate k with
  | .error overflow => [.fail (.overflow overflow)]
  | .ok (a, m') => .note (.numbered a.construct a.number) :: rest a m'

/-- Number a construct and continue with it. -/
def numbered (k : Construct) (rest : Allocated → Fragment) : Fragment where
  steps s c := numbering k c.numbering fun a m => (rest a).steps s { c with numbering := m }
  advance c := (rest (c.numbering.upcoming k)).advance { c with numbering := c.numbering.next k }

/-- Counting pushed words is no step. -/
@[simp] theorem steps_grow (n : Nat) (s : Scope) (c : Cursor) : (grow n).steps s c = [] := rfl

/-- Counting popped words is no step. -/
@[simp] theorem steps_shrink (n : Nat) (s : Scope) (c : Cursor) : (shrink n).steps s c = [] := rfl

/-- A construct is numbered before the steps of the rest. -/
@[simp] theorem steps_numbered (k : Construct) (rest : Allocated → Fragment) (s : Scope)
    (c : Cursor) : (numbered k rest).steps s c =
      numbering k c.numbering fun a m => (rest a).steps s { c with numbering := m } := rfl

/-- Pushed words add to the depth. -/
@[simp] theorem advance_grow (n : Nat) (c : Cursor) :
    (grow n).advance c = { c with depth := c.depth + n } := rfl

/-- Popped words are taken from the depth. -/
@[simp] theorem advance_shrink (n : Nat) (c : Cursor) :
    (shrink n).advance c = { c with depth := c.depth - n } := rfl

/-- Numbering a construct moves the numbering on before the rest moves the cursor. -/
@[simp] theorem advance_numbered (k : Construct) (rest : Allocated → Fragment) (c : Cursor) :
    (numbered k rest).advance c =
      (rest (c.numbering.upcoming k)).advance { c with numbering := c.numbering.next k } :=
  rfl

/-! ### Changing the scope -/

/-- The inside of a loop whose targets have just been staged. -/
def inLoop (f : Fragment) : Fragment where
  steps s c := f.steps { s with loop? := some c.depth } c
  advance := f.advance

/-- The inside of a function, which is in no loop and has pushed nothing. -/
def inFunction (name : String) (f : Fragment) : Fragment where
  steps s c := f.steps { s with function := name, loop? := none } { c with depth := 0 }
  advance c := f.advance { c with depth := 0 }

/-- The inside of a loop takes its steps in the scope of the loop. -/
@[simp] theorem steps_inLoop (f : Fragment) (s : Scope) (c : Cursor) :
    (inLoop f).steps s c = f.steps { s with loop? := some c.depth } c := rfl

/-- The inside of a function takes its steps in the scope of the function, where nothing is
pushed. -/
@[simp] theorem steps_inFunction (name : String) (f : Fragment) (s : Scope) (c : Cursor) :
    (inFunction name f).steps s c =
      f.steps { s with function := name, loop? := none } { c with depth := 0 } := rfl

/-- The scope has no influence on the cursor. -/
@[simp] theorem advance_inLoop (f : Fragment) (c : Cursor) :
    (inLoop f).advance c = f.advance c := rfl

/-- The inside of a function starts at depth zero. -/
@[simp] theorem advance_inFunction (name : String) (f : Fragment) (c : Cursor) :
    (inFunction name f).advance c = f.advance { c with depth := 0 } := rfl

end Fragment

end ImpRiscV
