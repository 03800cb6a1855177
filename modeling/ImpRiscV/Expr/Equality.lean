import ImpRiscV.Expr

/-!
# Deciding equality of expressions

Expressions nest through conditions and argument lists, so equality is decided by one
structural comparison of the two trees, proved to hold exactly of equal trees.

## Main definitions

* `ImpRiscV.Expr.same`, `ImpRiscV.Expr.sameList` — the comparison of two trees and of two
  argument lists.

## Main results

* `ImpRiscV.Expr.same_iff` — the comparison holds exactly of equal expressions, which gives the
  `DecidableEq` instance.
-/

set_option relaxedAutoImplicit false
set_option autoImplicit false

namespace ImpRiscV

namespace Expr

mutual

/-- Whether two expressions are the same tree. -/
def same : Expr → Expr → Bool
  | .literal v, .literal w => v == w
  | .var s, .var t => s == t
  | .assign s e, .assign t f => s == t && e.same f
  | .binary l o r, .binary l' o' r' => o == o' && l.same l' && r.same r'
  | .ifElse ⟨l, c, r⟩ t e, .ifElse ⟨l', c', r'⟩ t' e' =>
    c == c' && l.same l' && r.same r' && t.same t' && e.same e'
  | .whileDo ⟨l, c, r⟩ b, .whileDo ⟨l', c', r'⟩ b' =>
    c == c' && l.same l' && r.same r' && b.same b'
  | .repeatUntil b ⟨l, c, r⟩, .repeatUntil b' ⟨l', c', r'⟩ =>
    c == c' && b.same b' && l.same l' && r.same r'
  | .call f as, .call g bs => f == g && sameList as bs
  | .seq a b, .seq a' b' => a.same a' && b.same b'
  | .skip, .skip => true
  | .escape j, .escape k => j == k
  | _, _ => false

/-- Whether two argument lists have the same length and the same trees in the same places. -/
def sameList : List Expr → List Expr → Bool
  | [], [] => true
  | a :: as, b :: bs => a.same b && sameList as bs
  | _, _ => false

end

/-- If the comparison decides equality for every member of `as`, it does so for `as`. -/
theorem sameList_iff {as : List Expr} (h : ∀ a ∈ as, ∀ b, a.same b ↔ a = b) (bs : List Expr) :
    sameList as bs ↔ as = bs := by
  induction as generalizing bs with
  | nil => cases bs <;> simp [sameList]
  | cons a as ih =>
    cases bs with
    | nil => simp [sameList]
    | cons b bs =>
      have ha := h a List.mem_cons_self b
      have has := ih (fun a' ha' => h a' (List.mem_cons_of_mem _ ha')) bs
      simp [sameList, ha, has]

/-- **The comparison decides equality.** -/
theorem same_iff (a b : Expr) : a.same b ↔ a = b := by
  induction a generalizing b with
  | literal v => cases b <;> simp [same]
  | var s => cases b <;> simp [same]
  | assign s e ih => cases b <;> simp [same, ih]
  | binary l o r ihl ihr =>
    cases b <;> simp [same, ihl, ihr, and_assoc, and_left_comm]
  | ifElse l c r t e ihl ihr iht ihe =>
    rcases b with _ | _ | _ | _ | ⟨⟨⟩, _, _⟩ | _ | _ | _ | _ | _ | _ <;>
      simp [same, ihl, ihr, iht, ihe, and_assoc, and_left_comm]
  | whileDo l c r b' ihl ihr ihb =>
    rcases b with _ | _ | _ | _ | _ | ⟨⟨⟩, _⟩ | _ | _ | _ | _ | _ <;>
      simp [same, ihl, ihr, ihb, and_assoc, and_left_comm]
  | repeatUntil b' l c r ihb ihl ihr =>
    rcases b with _ | _ | _ | _ | _ | _ | ⟨_, ⟨⟩⟩ | _ | _ | _ | _ <;>
      simp [same, ihl, ihr, ihb, and_assoc, and_left_comm]
  | call f as ih => cases b <;> simp [same, sameList_iff ih]
  | seq x y ihx ihy => cases b <;> simp [same, ihx, ihy]
  | skip => cases b <;> simp [same]
  | escape j => cases b <;> simp [same]

/-- Equality of expressions is decided by comparing the trees. -/
instance instDecidableEqExpr : DecidableEq Expr := fun a b =>
  decidable_of_iff (a.same b = true) (same_iff a b)

end Expr

end ImpRiscV
