import ImpRiscV.Label

/-!
# Distinct labels are spelled differently

The text of a label determines it, whatever the names of the functions. A numbered label ends in
its number and the text before ends in an underscore, so the number is the longest run of digits
at the end; an entry label ends in a letter.

## Main results

* `ImpRiscV.Label.text_inj` — two labels have the same text exactly when they are the same label.
-/

set_option relaxedAutoImplicit false
set_option autoImplicit false

namespace ImpRiscV

namespace Label

/-! ### Reading a number from the end -/

/-- The characters of a number are digits. -/
theorem isDigit_of_mem_toString {n : Nat} {c : Char} (h : c ∈ (toString n).toList) :
    c.isDigit := by
  rw [Nat.toString_eq_repr, Nat.toList_repr] at h
  exact Nat.isDigit_of_mem_toDigits (by decide) (by decide) h

/-- A number has a last digit. -/
theorem toString_ne_nil (n : Nat) : (toString n).toList ≠ [] := by
  rw [Nat.toString_eq_repr, Nat.toList_repr]
  exact Nat.toDigits_ne_nil

/-- A number is determined by its decimal text. -/
theorem eq_of_toString_eq {m n : Nat} (h : toString m = toString n) : m = n := by
  have hd : Nat.toDigits 10 m = Nat.toDigits 10 n := by
    rw [← Nat.toList_repr, ← Nat.toList_repr, ← Nat.toString_eq_repr, ← Nat.toString_eq_repr, h]
  rw [← Nat.ofDigitChars_toDigits (b := 10) (n := m) (by decide) (by decide), hd,
    Nat.ofDigitChars_toDigits (by decide) (by decide)]

/-- Digits after an underscore are the longest run of digits at the end. -/
theorem takeWhile_isDigit_reverse {s d : List Char} (hs : s.getLast? = some '_')
    (hd : ∀ c ∈ d, c.isDigit) : (s ++ d).reverse.takeWhile Char.isDigit = d.reverse := by
  obtain ⟨s', rfl⟩ := List.getLast?_eq_some_iff.mp hs
  rw [List.reverse_append, List.takeWhile_append_of_pos (by simpa using hd)]
  simp

/-- Where digits follow an underscore, the text splits in only one way. -/
theorem append_digits_inj {s₁ s₂ d₁ d₂ : List Char} (hs₁ : s₁.getLast? = some '_')
    (hs₂ : s₂.getLast? = some '_') (hd₁ : ∀ c ∈ d₁, c.isDigit) (hd₂ : ∀ c ∈ d₂, c.isDigit)
    (h : s₁ ++ d₁ = s₂ ++ d₂) : s₁ = s₂ ∧ d₁ = d₂ := by
  have hd : d₁.reverse = d₂.reverse := by
    rw [← takeWhile_isDigit_reverse hs₁ hd₁, h, takeWhile_isDigit_reverse hs₂ hd₂]
  obtain rfl : d₁ = d₂ := List.reverse_inj.mp hd
  exact ⟨List.append_cancel_right h, rfl⟩

/-! ### Stems and entries -/

/-- The text before the number ends in an underscore. -/
theorem getLast?_stem (r : Role) : r.stem.toList.getLast? = some '_' := by
  cases r <;> rfl

/-- The text before the number determines the role. -/
theorem stem_inj {r s : Role} (h : r.stem = s.stem) : r = s := by
  revert h
  cases r <;> cases s <;> decide

/-- An entry label is no numbered label: one ends in a letter and the other in a digit. -/
theorem text_entry_ne_text_numbered (f : String) (r : Role) (n : Nat) :
    (entry f).text ≠ (numbered r n).text := by
  intro h
  have hl := congrArg (·.toList.getLast?) h
  obtain ⟨c, hc⟩ : ∃ c, (toString n).toList.getLast? = some c :=
    ⟨_, List.getLast?_eq_some_getLast (toString_ne_nil n)⟩
  have hdigit := isDigit_of_mem_toString (List.mem_of_getLast? hc)
  simp only [text, String.toList_append, List.getLast?_append, hc, Option.some_or] at hl
  obtain rfl : c = 'y' := by simpa using hl.symm
  exact absurd hdigit (by decide)

/-- **A label is determined by its text.**

**Proof sketch.** Two entry labels share their suffix, so the names agree. Two numbered labels
split after their last underscore, so stems and numbers agree one by one. A label of each family
cannot agree. -/
theorem text_inj {a b : Label} : a.text = b.text ↔ a = b := by
  refine ⟨fun h => ?_, congrArg text⟩
  match a, b with
  | .entry f, .entry g => exact congrArg entry ((String.append_left_inj _).mp h)
  | .entry f, .numbered r n => exact absurd h (text_entry_ne_text_numbered f r n)
  | .numbered r n, .entry f => exact absurd h.symm (text_entry_ne_text_numbered f r n)
  | .numbered r m, .numbered s n =>
    have hl : r.stem.toList ++ (toString m).toList = s.stem.toList ++ (toString n).toList := by
      simpa [text] using congrArg String.toList h
    obtain ⟨hstem, hnum⟩ := append_digits_inj (getLast?_stem r) (getLast?_stem s)
      (fun _ => isDigit_of_mem_toString) (fun _ => isDigit_of_mem_toString) hl
    rw [stem_inj (String.toList_inj.mp hstem), eq_of_toString_eq (String.toList_inj.mp hnum)]

end Label

end ImpRiscV
