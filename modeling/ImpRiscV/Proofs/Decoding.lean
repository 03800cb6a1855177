import Mathlib.Data.List.Basic
import Mathlib.Data.List.TakeWhile
import ImpRiscV.Label.Spelling
import ImpRiscV.Proofs.FunctionOutline

/-!
# Assembly text can be read back

Labels are written into assembly text as they are, so a label may spell an instruction, or hold
blanks or nothing at all. The text is still unambiguous as long as no label holds the end of a line
and no line but the definition of a label ends in a colon: then the colon tells definitions from
instructions, the first word of an instruction tells its form, and whatever follows the operands
before it is a label. This file reads text back in this way.

## Main definitions

* `ImpRiscV.Mnemonic` — the first words of instructions.
* `ImpRiscV.Assembly.decodeLine`, `ImpRiscV.Assembly.decode` — the line and the listing that a text
  stands for.
* `ImpRiscV.Instruction.Legible` — a line whose labels cannot be mistaken.

## Main results

* `ImpRiscV.Assembly.decode_render` — legible lines are read back from their text.
* `ImpRiscV.Program.assembly_determines_listing` — so the text of a program determines its listing.
-/

set_option relaxedAutoImplicit false
set_option autoImplicit false

namespace ImpRiscV

/-! ### Words -/

/-- The characters before the first `sep`, and those after it. -/
def splitFirst (sep : Char) (cs : List Char) : List Char × List Char :=
  (cs.takeWhile (· ≠ sep), (cs.dropWhile (· ≠ sep)).drop 1)

section split

variable {sep : Char} {w : List Char}

/-- A word without separators is split off at the first one. -/
lemma splitFirst_append (hw : sep ∉ w) (rest : List Char) :
    splitFirst sep (w ++ sep :: rest) = (w, rest) := by
  have hall : ∀ c ∈ w, decide (c ≠ sep) := fun c hc => decide_eq_true fun h => hw (h ▸ hc)
  rw [splitFirst, List.takeWhile_append_of_pos hall, List.dropWhile_append_of_pos hall]
  simp

/-- Without separator, all is one word. -/
lemma splitFirst_of_not_mem (hw : sep ∉ w) : splitFirst sep w = (w, []) := by
  have hall : ∀ c ∈ w, decide (c ≠ sep) := fun c hc => decide_eq_true fun h => hw (h ▸ hc)
  rw [splitFirst, List.takeWhile_eq_self_iff.mpr hall, List.dropWhile_eq_nil_iff.mpr hall]
  rfl

end split

/-- The first of some things whose name is the given word. -/
def named {α : Type} (name : α → String) (all : List α) (w : List Char) : Option α :=
  all.find? fun x => (name x).toList = w

/-! ### Numbers -/

/-- The number that some digits stand for. -/
def readNat (cs : List Char) : Option Nat :=
  if cs ≠ [] ∧ cs.all Char.isDigit then some (Nat.ofDigitChars 10 cs 0) else none

/-- The number that some digits, perhaps after a minus, stand for. -/
def readInt : List Char → Option Int
  | '-' :: cs => (readNat cs).map fun n => -n
  | cs => (readNat cs).map Int.ofNat

/-- Numbers are read back from their digits. -/
lemma readNat_toString (n : Nat) : readNat (toString n).toList = some n := by
  have hdigits : (toString n).toList.all Char.isDigit :=
    List.all_eq_true.mpr fun _ hc => Label.isDigit_of_mem_toString hc
  rw [readNat, if_pos ⟨Label.toString_ne_nil n, hdigits⟩, Nat.toString_eq_repr, Nat.toList_repr,
    Nat.ofDigitChars_toDigits (by decide) (by decide)]

/-- A number with sign is written with digits, perhaps after a minus. -/
lemma toList_toString_int (n : Int) :
    (∃ m : Nat, n = m ∧ (toString n).toList = (toString m).toList) ∨
      ∃ m : Nat, n = -m ∧ (toString n).toList = '-' :: (toString m).toList := by
  cases n with
  | ofNat m => exact .inl ⟨m, rfl, rfl⟩
  | negSucc m =>
    refine .inr ⟨m + 1, rfl, ?_⟩
    rw [Int.toString_eq_repr]
    simp [Int.repr, Nat.toString_eq_repr]

/-- **Numbers are read back from their text.** -/
theorem readInt_toString (n : Int) : readInt (toString n).toList = some n := by
  obtain ⟨m, rfl, htext⟩ | ⟨m, rfl, htext⟩ := toList_toString_int n
  · have hminus : ∀ cs, (toString m).toList ≠ '-' :: cs := by
      intro cs hcs
      have hdigit : '-'.isDigit := Label.isDigit_of_mem_toString (n := m) (by rw [hcs]; simp)
      exact absurd hdigit (by decide)
    have hread := readNat_toString m
    rw [htext]
    unfold readInt
    split
    · exact absurd ‹_› (hminus _)
    · rw [hread]
      rfl
  · rw [htext, readInt, readNat_toString]
    rfl

/-- The characters of a number are digits and a minus. -/
lemma mem_toString_int {n : Int} {c : Char} (hc : c ∈ (toString n).toList) :
    c = '-' ∨ c.isDigit := by
  obtain ⟨m, -, htext⟩ | ⟨m, -, htext⟩ := toList_toString_int n
  · rw [htext] at hc
    exact .inr (Label.isDigit_of_mem_toString hc)
  · rw [htext] at hc
    rcases List.mem_cons.mp hc with rfl | hc
    · exact .inl rfl
    · exact .inr (Label.isDigit_of_mem_toString hc)

/-! ### Mnemonics -/

/-- The first word of an instruction. -/
inductive Mnemonic where
  | li
  | la
  | lw
  | sw
  | mv
  | addi
  | arith (op : ArithOp)
  | branch (cmp : Comparison)
  | b
  | j
  | jal
  | jr
  | ecall
  | nop
deriving DecidableEq, Repr

namespace Mnemonic

/-- How a mnemonic is written. -/
def text : Mnemonic → String
  | .li => "li"
  | .la => "la"
  | .lw => "lw"
  | .sw => "sw"
  | .mv => "mv"
  | .addi => "addi"
  | .arith op => op.mnemonic
  | .branch cmp => cmp.mnemonic
  | .b => "b"
  | .j => "j"
  | .jal => "jal"
  | .jr => "jr"
  | .ecall => "ecall"
  | .nop => "nop"

/-- All mnemonics. -/
def all : List Mnemonic :=
  [.li, .la, .lw, .sw, .mv, .addi, .b, .j, .jal, .jr, .ecall, .nop] ++
    [ArithOp.add, .sub, .mul, .div].map .arith ++ [Comparison.eq, .lt, .gt, .le, .ge].map .branch

/-- Mnemonics are read back from their text. -/
lemma named_text (m : Mnemonic) : named text all m.text.toList = some m := by
  cases m with
  | arith op => cases op <;> decide
  | branch cmp => cases cmp <;> decide
  | _ => decide

/-- No mnemonic holds a blank. -/
lemma blank_not_mem_text (m : Mnemonic) : ' ' ∉ m.text.toList := by
  cases m with
  | arith op => cases op <;> decide
  | branch cmp => cases cmp <;> decide
  | _ => decide

end Mnemonic

/-! ### Registers and memory operands -/

namespace Register

/-- All registers. -/
def all : List Register := [.a0, .a7, .t1, .t2, .t3, .s0, .sp, .ra]

/-- Registers are read back from their names. -/
lemma named_name (r : Register) : named name all r.name.toList = some r := by
  cases r <;> decide

/-- No name of a register holds a blank. -/
lemma blank_not_mem_name (r : Register) : ' ' ∉ r.name.toList := by
  cases r <;> decide

end Register

namespace Assembly

/-- Read a register up to the next blank. -/
def takeRegister (cs : List Char) : Option (Register × List Char) :=
  (named Register.name Register.all (splitFirst ' ' cs).1).map (·, (splitFirst ' ' cs).2)

/-- A register is read before a blank. -/
lemma takeRegister_append (r : Register) (rest : List Char) :
    takeRegister (r.name.toList ++ ' ' :: rest) = some (r, rest) := by
  rw [takeRegister, splitFirst_append r.blank_not_mem_name, r.named_name]
  rfl

/-- A register is read at the end of a line. -/
lemma takeRegister_name (r : Register) : takeRegister r.name.toList = some (r, []) := by
  rw [takeRegister, splitFirst_of_not_mem r.blank_not_mem_name, r.named_name]
  rfl

/-- Read an offset and a base register in parentheses. -/
def readMemory (cs : List Char) : Option (Int × Register) := do
  let offset ← readInt (splitFirst '(' cs).1
  let base ← named Register.name Register.all (splitFirst '(' cs).2.dropLast
  return (offset, base)

/-- Memory operands are read back from their text. -/
lemma readMemory_memoryOperand (n : Int) (r : Register) :
    readMemory (Instruction.memoryOperand n r).toList = some (n, r) := by
  have htext : (Instruction.memoryOperand n r).toList =
      (toString n).toList ++ '(' :: (r.name.toList ++ [')']) := by
    simp [Instruction.memoryOperand]
  have hparen : '(' ∉ (toString n).toList := by
    intro h
    rcases mem_toString_int h with h | h
    · exact absurd h (by decide)
    · exact absurd h (by decide)
  rw [readMemory, htext, splitFirst_append hparen, readInt_toString, List.dropLast_concat,
    r.named_name]
  rfl

/-! ### Lines -/

/-- Read the operands of an instruction. What follows the other operands is a label. -/
def readOperands (cs : List Char) : Mnemonic → Option (Instruction String)
  | .li => do
    let (rd, cs) ← takeRegister cs
    return .li rd (← readInt cs)
  | .la => do
    let (rd, cs) ← takeRegister cs
    return .la rd (String.ofList cs)
  | .lw => do
    let (rd, cs) ← takeRegister cs
    let (offset, base) ← readMemory cs
    return .lw rd offset base
  | .sw => do
    let (rs, cs) ← takeRegister cs
    let (offset, base) ← readMemory cs
    return .sw rs offset base
  | .mv => do
    let (rd, cs) ← takeRegister cs
    let (rs, _) ← takeRegister cs
    return .mv rd rs
  | .addi => do
    let (rd, cs) ← takeRegister cs
    let (rs, cs) ← takeRegister cs
    return .addi rd rs (← readInt cs)
  | .arith op => do
    let (rd, cs) ← takeRegister cs
    let (rs₁, cs) ← takeRegister cs
    let (rs₂, _) ← takeRegister cs
    return .arith op rd rs₁ rs₂
  | .branch cmp => do
    let (rs₁, cs) ← takeRegister cs
    let (rs₂, cs) ← takeRegister cs
    return .branch cmp rs₁ rs₂ (String.ofList cs)
  | .b => some (.b (String.ofList cs))
  | .j => some (.j (String.ofList cs))
  | .jal => some (.jal (String.ofList cs))
  | .jr => do
    let (rs, _) ← takeRegister cs
    return .jr rs
  | .ecall => some .ecall
  | .nop => some .nop

/-- The line that a text without an end of line stands for. A text that ends in a colon is the
definition of a label. -/
def decodeLine (cs : List Char) : Option (Instruction String) :=
  if cs.getLast? = some ':' then some (.label (String.ofList cs.dropLast))
  else (named Mnemonic.text Mnemonic.all (splitFirst ' ' cs).1).bind
    (readOperands (splitFirst ' ' cs).2)

/-- The listing that a text stands for. Lines end in a newline. -/
def decode (text : String) : Option (List (Instruction String)) :=
  (text.toList.splitOn '\n').dropLast.mapM decodeLine

end Assembly

/-! ### Legible lines -/

/-- The characters are part of one line, and if the line ends with them, it does not end in a
colon. -/
structure Unmarked (cs : List Char) : Prop where
  /-- No end of line. -/
  newline : '\n' ∉ cs
  /-- No colon at the end. -/
  colon : cs.getLast? ≠ some ':'

/-- The labels of the line cannot be mistaken: none holds the end of a line, and the one that the
line refers to does not end in a colon. -/
structure Instruction.Legible (i : Instruction String) : Prop where
  /-- The label that the line defines. -/
  defined : ∀ l, i.definedLabel? = some l → '\n' ∉ l.toList
  /-- The label to which the line refers. -/
  target : ∀ l, i.target? = some l → Unmarked l.toList

namespace Unmarked

/-- Both parts are decided by looking at the characters. -/
instance instDecidableUnmarked (cs : List Char) : Decidable (Unmarked cs) :=
  decidable_of_iff ('\n' ∉ cs ∧ cs.getLast? ≠ some ':') ⟨fun h => ⟨h.1, h.2⟩, fun h => ⟨h.1, h.2⟩⟩

/-- Characters that cannot be mistaken may follow each other. -/
lemma append {xs ys : List Char} (hx : Unmarked xs) (hy : Unmarked ys) : Unmarked (xs ++ ys) := by
  refine ⟨fun h => ?_, fun h => ?_⟩
  · rcases List.mem_append.mp h with h | h
    · exact hx.newline h
    · exact hy.newline h
  · rw [List.getLast?_append] at h
    cases hlast : ys.getLast? with
    | none => exact hx.colon (by simpa [hlast] using h)
    | some c => exact hy.colon (by rw [hlast]; simpa [hlast] using h)

/-- A blank may come first. -/
lemma blank {cs : List Char} (h : Unmarked cs) : Unmarked (' ' :: cs) := by
  have hblank : Unmarked [' '] := by decide
  exact hblank.append h

/-- Names of registers cannot be mistaken. -/
lemma name (r : Register) : Unmarked r.name.toList := by
  cases r <;> decide

/-- Mnemonics cannot be mistaken. -/
lemma mnemonic (m : Mnemonic) : Unmarked m.text.toList := by
  cases m with
  | arith op => cases op <;> decide
  | branch cmp => cases cmp <;> decide
  | _ => decide

/-- Digits and signs cannot be mistaken. -/
lemma of_digits {cs : List Char} (h : ∀ c ∈ cs, c = '-' ∨ c.isDigit) : Unmarked cs := by
  have hnot : ∀ c : Char, ¬(c = '-' ∨ c.isDigit) → c ∉ cs := fun c hc hmem => hc (h c hmem)
  exact ⟨hnot _ (by decide), fun hlast => hnot _ (by decide) (List.mem_of_getLast? hlast)⟩

/-- Constants cannot be mistaken. -/
lemma constant (n : Int) : Unmarked (toString n).toList := of_digits fun _ => mem_toString_int

/-- Memory operands cannot be mistaken. -/
lemma memoryOperand (n : Int) (r : Register) :
    Unmarked (Instruction.memoryOperand n r).toList := by
  have hparens : Unmarked ['('] ∧ Unmarked [')'] := by decide
  simp only [Instruction.memoryOperand, String.toList_append]
  exact (((constant n).append hparens.1).append (name r)).append hparens.2

end Unmarked

/-- Legibility is decided by looking at the labels. -/
instance instDecidableLegible (i : Instruction String) : Decidable i.Legible :=
  decidable_of_iff ((∀ l ∈ i.definedLabel?, '\n' ∉ l.toList) ∧
    ∀ l ∈ i.target?, Unmarked l.toList) ⟨fun h => ⟨h.1, h.2⟩, fun h => ⟨h.1, h.2⟩⟩

namespace Assembly

/-- A text that stands on one line and is read as the instruction. -/
def Reads (cs : List Char) (i : Instruction String) : Prop :=
  '\n' ∉ cs ∧ decodeLine cs = some i

/-- A mnemonic without operands. -/
lemma reads_mnemonic (m : Mnemonic) {i : Instruction String} (h : readOperands [] m = some i) :
    Reads m.text.toList i := by
  have hm := Unmarked.mnemonic m
  refine ⟨hm.newline, ?_⟩
  rw [decodeLine, if_neg hm.colon, splitFirst_of_not_mem m.blank_not_mem_text, m.named_text]
  exact h

/-- A mnemonic and operands that do not end in a colon. -/
lemma reads_words (m : Mnemonic) (ops : List Char) {cs : List Char} {i : Instruction String}
    (hcs : cs = m.text.toList ++ ' ' :: ops) (hops : Unmarked ops)
    (h : readOperands ops m = some i) : Reads cs i := by
  subst hcs
  have hline := (Unmarked.mnemonic m).append hops.blank
  refine ⟨hline.newline, ?_⟩
  rw [decodeLine, if_neg hline.colon, splitFirst_append m.blank_not_mem_text, m.named_text]
  exact h

/-- The definition of a label ends in a colon. -/
lemma reads_label {l : String} (hl : '\n' ∉ l.toList) :
    Reads (Instruction.label l).text.toList (.label l) := by
  have htext : (Instruction.label l).text.toList = l.toList ++ [':'] := by
    simp [Instruction.text]
  rw [htext]
  refine ⟨fun hmem => ?_, ?_⟩
  · rcases List.mem_append.mp hmem with hmem | hmem
    · exact hl hmem
    · exact absurd hmem (by decide)
  · rw [decodeLine, if_pos (by simp), List.dropLast_concat, String.ofList_toList]

open Unmarked in
/-- **Legible lines are read back from their text.**

**Proof sketch.** Only the definition of a label ends in a colon. Any other text is a mnemonic and
its operands, of which all but the last hold no blank. -/
theorem reads_text {i : Instruction String} (h : i.Legible) : Reads i.text.toList i := by
  cases i with
  | label l => exact reads_label (h.defined l rfl)
  | li rd imm =>
    apply reads_words .li (rd.name.toList ++ ' ' :: (toString imm).toList)
    · simp [Instruction.text, Mnemonic.text]
    · exact (name rd).append (constant imm).blank
    · simp only [readOperands, takeRegister_append, Option.bind_eq_bind, Option.bind_some,
        readInt_toString]
      rfl
  | la rd l =>
    apply reads_words .la (rd.name.toList ++ ' ' :: l.toList)
    · simp [Instruction.text, Mnemonic.text]
    · exact (name rd).append (h.target l rfl).blank
    · simp [readOperands, takeRegister_append]
  | lw rd offset base =>
    apply reads_words .lw
      (rd.name.toList ++ ' ' :: (Instruction.memoryOperand offset base).toList)
    · simp [Instruction.text, Mnemonic.text]
    · exact (name rd).append (memoryOperand offset base).blank
    · simp [readOperands, takeRegister_append, readMemory_memoryOperand]
  | sw rs offset base =>
    apply reads_words .sw
      (rs.name.toList ++ ' ' :: (Instruction.memoryOperand offset base).toList)
    · simp [Instruction.text, Mnemonic.text]
    · exact (name rs).append (memoryOperand offset base).blank
    · simp [readOperands, takeRegister_append, readMemory_memoryOperand]
  | mv rd rs =>
    apply reads_words .mv (rd.name.toList ++ ' ' :: rs.name.toList)
    · simp [Instruction.text, Mnemonic.text]
    · exact (name rd).append (name rs).blank
    · simp [readOperands, takeRegister_append, takeRegister_name]
  | addi rd rs imm =>
    apply reads_words .addi
      (rd.name.toList ++ ' ' :: (rs.name.toList ++ ' ' :: (toString imm).toList))
    · simp [Instruction.text, Mnemonic.text]
    · exact (name rd).append ((name rs).append (constant imm).blank).blank
    · simp only [readOperands, takeRegister_append, Option.bind_eq_bind, Option.bind_some,
        readInt_toString]
      rfl
  | arith op rd rs₁ rs₂ =>
    apply reads_words (.arith op)
      (rd.name.toList ++ ' ' :: (rs₁.name.toList ++ ' ' :: rs₂.name.toList))
    · simp [Instruction.text, Mnemonic.text]
    · exact (name rd).append ((name rs₁).append (name rs₂).blank).blank
    · simp [readOperands, takeRegister_append, takeRegister_name]
  | branch cmp rs₁ rs₂ l =>
    apply reads_words (.branch cmp)
      (rs₁.name.toList ++ ' ' :: (rs₂.name.toList ++ ' ' :: l.toList))
    · simp [Instruction.text, Mnemonic.text]
    · exact (name rs₁).append ((name rs₂).append (h.target l rfl).blank).blank
    · simp [readOperands, takeRegister_append]
  | b l =>
    apply reads_words .b (l.toList)
    · simp [Instruction.text, Mnemonic.text]
    · exact h.target l rfl
    · simp [readOperands]
  | j l =>
    apply reads_words .j (l.toList)
    · simp [Instruction.text, Mnemonic.text]
    · exact h.target l rfl
    · simp [readOperands]
  | jal l =>
    apply reads_words .jal (l.toList)
    · simp [Instruction.text, Mnemonic.text]
    · exact h.target l rfl
    · simp [readOperands]
  | jr rs =>
    apply reads_words .jr (rs.name.toList)
    · simp [Instruction.text, Mnemonic.text]
    · exact name rs
    · simp [readOperands, takeRegister_name]
  | ecall => exact reads_mnemonic .ecall rfl
  | nop => exact reads_mnemonic .nop rfl

/-- **Listings of legible lines are read back from their text.** -/
theorem decode_render {is : List (Instruction String)} (h : ∀ i ∈ is, i.Legible) :
    decode (render is) = some is := by
  induction is with
  | nil => rfl
  | cons i is ih =>
    obtain ⟨hnewline, hline⟩ := reads_text (h i List.mem_cons_self)
    have hrest := ih fun j hj => h j (List.mem_cons_of_mem _ hj)
    have htext : (render (i :: is)).toList = i.text.toList ++ '\n' :: (render is).toList := by
      simp
    have hsplit : (render (i :: is)).toList.splitOn '\n' =
        i.text.toList :: (render is).toList.splitOn '\n' := by
      rw [htext]
      refine List.splitOnP_append_cons_of_forall_mem ?_ _ (by decide) _
      intro c hc
      exact beq_false_of_ne fun h => hnewline (h ▸ hc)
    have hne : (render is).toList.splitOn '\n' ≠ [] := List.splitOnP_ne_nil _ _
    rw [decode, hsplit, List.dropLast_cons_of_ne_nil hne, List.mapM_cons, hline]
    rw [decode] at hrest
    rw [hrest]
    rfl

end Assembly

/-! ### Programs -/

namespace Label

/-- Labels of constructs end in a digit, so they cannot be mistaken. -/
lemma unmarked_numbered (r : Role) (n : Nat) : Unmarked (numbered r n).text.toList := by
  have hstem : Unmarked r.stem.toList := by cases r <;> decide
  rw [text, String.toList_append]
  exact hstem.append (.of_digits fun _ hc => .inr (isDigit_of_mem_toString hc))

/-- An entry ends in a letter, whatever the name. -/
lemma unmarked_entry {name : String} (h : '\n' ∉ name.toList) :
    Unmarked (entry name).text.toList := by
  have hlast : "_entry".toList.getLast? = some 'y' := by decide
  rw [text, String.toList_append]
  refine ⟨fun hmem => ?_, ?_⟩
  · rcases List.mem_append.mp hmem with hmem | hmem
    · exact h hmem
    · exact absurd hmem (by decide)
  · rw [List.getLast?_append, hlast, Option.some_or]
    decide

end Label

namespace Instruction

/-- Renaming by distinct labels loses nothing. -/
lemma map_injective {α β : Type} {f : α → β} (hf : Function.Injective f) :
    Function.Injective (map f) := by
  intro i i' h
  cases i <;> cases i' <;> simp_all [map, hf.eq_iff]

/-- A line is legible if the names of the functions that it mentions hold no end of a line. -/
lemma legible_map {i : Instruction Label}
    (h : ∀ name, i.Mentions (.entry name) → '\n' ∉ name.toList) :
    (i.map Label.text).Legible := by
  refine ⟨fun l hl => ?_, fun l hl => ?_⟩
  · rw [definedLabel?_map] at hl
    obtain ⟨l, hdef, rfl⟩ := Option.map_eq_some_iff.mp hl
    cases l with
    | numbered r n => exact (Label.unmarked_numbered r n).newline
    | entry name => exact (Label.unmarked_entry (h name (.inl hdef))).newline
  · rw [target?_map] at hl
    obtain ⟨l, htarget, rfl⟩ := Option.map_eq_some_iff.mp hl
    cases l with
    | numbered r n => exact Label.unmarked_numbered r n
    | entry name => exact Label.unmarked_entry (h name (.inr htarget))

/-- The text of a line ends in the label that it mentions, before a colon at most. -/
lemma text_of_mentions {i : Instruction Label} {l : Label} (h : i.Mentions l) : ∃ w, ∃ x,
    (x = [] ∨ x = [':']) ∧ (i.map Label.text).text.toList = w ++ l.text.toList ++ x := by
  cases i <;> simp only [Mentions, definedLabel?, target?, reduceCtorEq, Option.some_inj, or_false,
    false_or] at h <;> subst h <;> simp only [map, text, String.toList_append]
  case label => exact ⟨[], [':'], .inr rfl, by simp⟩
  all_goals exact ⟨_, [], .inl rfl, (List.append_nil _).symm⟩

/-- No line with the text of one that mentions a construct mentions a function: names of functions
end in a letter, and numbers in a digit. -/
lemma not_mentions_entry {i j : Instruction Label} {r : Role} {n : Nat}
    (hi : i.Mentions (.numbered r n)) (h : (i.map Label.text).text = (j.map Label.text).text)
    (name : String) : ¬j.Mentions (.entry name) := by
  intro hj
  obtain ⟨w, x, hx, hitext⟩ := text_of_mentions hi
  obtain ⟨w', x', hx', hjtext⟩ := text_of_mentions hj
  have htexts : w ++ (Label.numbered r n).text.toList ++ x =
      w' ++ (Label.entry name).text.toList ++ x' := by rw [← hitext, ← hjtext, h]
  obtain ⟨c, hc⟩ : ∃ c, (toString n).toList.getLast? = some c :=
    Option.isSome_iff_exists.mp (List.getLast?_isSome.mpr (Label.toString_ne_nil n))
  have hdigit : c.isDigit := Label.isDigit_of_mem_toString (List.mem_of_getLast? hc)
  have hnumber : (w ++ (Label.numbered r n).text.toList).getLast? = some c := by
    rw [Label.text, String.toList_append, ← List.append_assoc, List.getLast?_append, hc,
      Option.some_or]
  have hletter : (w' ++ (Label.entry name).text.toList).getLast? = some 'y' := by
    simp [Label.text, List.getLast?_append]
  have hends : w ++ (Label.numbered r n).text.toList ≠ w' ++ (Label.entry name).text.toList := by
    intro heq
    rw [heq, hletter] at hnumber
    exact absurd (Option.some_inj.mp hnumber ▸ hdigit) (by decide)
  rcases hx with rfl | rfl <;> rcases hx' with rfl | rfl
  · exact hends (by simpa using htexts)
  · rw [List.append_nil] at htexts
    rw [htexts, List.getLast?_concat] at hnumber
    exact absurd (Option.some_inj.mp hnumber ▸ hdigit) (by decide)
  · rw [List.append_nil] at htexts
    rw [← htexts, List.getLast?_concat] at hletter
    exact absurd (Option.some_inj.mp hletter) (by decide)
  · exact hends (List.append_cancel_right htexts)

/-- **A line that mentions a construct is known from its text**, whatever the names of functions are
in the lines that it might be taken for. -/
theorem eq_of_text_eq {i j : Instruction Label} {r : Role} {n : Nat}
    (hi : i.Mentions (.numbered r n)) (h : (i.map Label.text).text = (j.map Label.text).text) :
    i = j := by
  have hilegible : (i.map Label.text).Legible :=
    legible_map fun name hname => absurd hname (not_mentions_entry hi rfl name)
  have hjlegible : (j.map Label.text).Legible :=
    legible_map fun name hname => absurd hname (not_mentions_entry hi h name)
  have hread := (Assembly.reads_text hilegible).2
  rw [h, (Assembly.reads_text hjlegible).2] at hread
  have hinj : Function.Injective Label.text := fun a b => Label.text_inj.mp
  exact (map_injective hinj (Option.some_inj.mp hread)).symm

end Instruction

namespace Program

variable {p : Program} {listing : List (Instruction Label)}

/-- No name that a program declares or calls holds the end of a line. -/
structure OneLine (p : Program) : Prop where
  /-- The declared names. -/
  declared : ∀ d ∈ p.decls, '\n' ∉ d.name.toList
  /-- The called names. -/
  called : ∀ callee ∈ p.callees, '\n' ∉ callee.toList

/-- The names of a program can be looked through. -/
instance instDecidableOneLine (p : Program) : Decidable p.OneLine :=
  decidable_of_iff ((∀ d ∈ p.decls, '\n' ∉ d.name.toList) ∧
    ∀ callee ∈ p.callees, '\n' ∉ callee.toList) ⟨fun h => ⟨h.1, h.2⟩, fun h => ⟨h.1, h.2⟩⟩

/-- The entries that a listing defines are those of declared functions. -/
lemma exists_decl_of_definedLabel (hp : p.compile = .ok listing) {name : String}
    (h : Label.entry name ∈ definedLabels listing) : ∃ d ∈ p.decls, d.name = name := by
  have hcount := List.count_pos_iff.mpr h
  rw [count_definedLabels hp, Numbering.fresh, Nat.zero_add, List.count_pos_iff] at hcount
  obtain ⟨d, hd, hname⟩ := List.mem_map.mp hcount
  exact ⟨d, hd, Label.entry.inj hname⟩

/-- The entries to which a listing refers are those of called functions. -/
lemma mem_callees_of_target (hp : p.compile = .ok listing) {i : Instruction Label}
    (hi : i ∈ listing) {name : String} (h : i.target? = some (.entry name)) :
    name ∈ p.callees := by
  have hreference : i.reference? ≠ some (.entry name) := by
    intro href
    have hmem : Mention.reference (.entry name) ∈ mentions listing :=
      reference_mem_mentions.mpr ⟨i, hi, href⟩
    have hcount := List.count_pos_iff.mpr hmem
    rw [count_references hp] at hcount
    simp [Mention.weight] at hcount
  obtain rfl : i = .jal (.entry name) := by
    cases i <;> simp_all [Instruction.target?, Instruction.reference?]
  obtain ⟨xs, hchart, -⟩ := exists_chart hp
  exact hchart.mem_callees hi

/-- The lines of a listing are legible if all names are. -/
lemma legible_of_compile (hp : p.compile = .ok listing) (hnames : p.OneLine)
    {i : Instruction Label} (hi : i ∈ listing) : (i.map Label.text).Legible := by
  refine Instruction.legible_map fun name hname => ?_
  rcases hname with hdef | htarget
  · obtain ⟨d, hd, rfl⟩ := exists_decl_of_definedLabel hp (List.mem_filterMap.mpr ⟨i, hi, hdef⟩)
    exact hnames.declared d hd
  · exact hnames.called _ (mem_callees_of_target hp hi htarget)

/-- The text of a program without ends of lines in its names is read back as its listing. -/
lemma decode_of_assembly {text : String} (hnames : p.OneLine) (h : p.assembly = .ok text) :
    ∃ listing, p.compile = .ok listing ∧
      Assembly.decode text = some (listing.map (Instruction.map Label.text)) := by
  cases hp : p.compile with
  | error e =>
    rw [assembly, hp] at h
    cases h
  | ok listing =>
    rw [assembly, hp] at h
    obtain rfl := Except.ok.inj h
    refine ⟨listing, rfl, Assembly.decode_render ?_⟩
    intro i hi
    obtain ⟨line, hline, rfl⟩ := List.mem_map.mp hi
    exact legible_of_compile hp hnames hline

/-- **Assembly text determines the lines.** Legible lines are read back from their text, so two
listings of legible lines with the same text are the same, and so are the listings of two programs
with the same text if no name in them holds the end of a line. -/
theorem assembly_determines_listing :
    (∀ is : List (Instruction String), (∀ i ∈ is, i.Legible) →
      Assembly.decode (Assembly.render is) = some is) ∧
    (∀ is js : List (Instruction String), (∀ i ∈ is, i.Legible) → (∀ i ∈ js, i.Legible) →
      Assembly.render is = Assembly.render js → is = js) ∧
    ∀ (p q : Program) (text : String), p.OneLine → q.OneLine → p.assembly = .ok text →
      q.assembly = .ok text → p.compile = q.compile := by
  refine ⟨fun is => Assembly.decode_render, fun is js his hjs heq => ?_,
    fun p q text hp hq hptext hqtext => ?_⟩
  · have hread := Assembly.decode_render his
    rw [heq, Assembly.decode_render hjs] at hread
    exact (Option.some_inj.mp hread).symm
  · obtain ⟨listing, hlisting, hread⟩ := decode_of_assembly hp hptext
    obtain ⟨listing', hlisting', hread'⟩ := decode_of_assembly hq hqtext
    rw [hread] at hread'
    have hinj : Function.Injective Label.text := fun a b => Label.text_inj.mp
    have hsame : listing = listing' :=
      List.map_injective_iff.mpr (Instruction.map_injective hinj) (Option.some_inj.mp hread')
    rw [hlisting, hlisting', hsame]

/-- Lines whose labels spell other lines, hold a colon, or are empty. -/
def oddLines : List (Instruction String) :=
  [.label "li a0 1", .label "nop:", .b "", .jal "add a0 sp", .la .exitTarget "a: b",
    .lw .accumulator (-8) .framePointer, .label ""]

/-- A function with an odd name and three expressions in a row, put together from the left. -/
def leftBlock : Program where
  decls := [
    { name := "b :", arity := 1, body :=
      .seq (.seq .skip (.call "j " [.var 1])) (.whileDo ⟨.var 1, .lt, .literal (-1)⟩ .skip) }]

/-- The same function with its expressions put together from the right. -/
def rightBlock : Program where
  decls := [
    { name := "b :", arity := 1, body :=
      .seq .skip (.seq (.call "j " [.var 1]) (.whileDo ⟨.var 1, .lt, .literal (-1)⟩ .skip)) }]

/-- The odd lines are read back, and as the two programs have the same text, they have the same
listing. -/
theorem assembly_determines_listing_odd :
    Assembly.decode (Assembly.render oddLines) = some oddLines ∧
      leftBlock.compile = rightBlock.compile := by
  obtain ⟨hread, -, hprograms⟩ := assembly_determines_listing
  obtain ⟨text, htext, htext'⟩ : ∃ text, leftBlock.assembly = .ok text ∧
      rightBlock.assembly = .ok text := ⟨_, rfl, rfl⟩
  exact ⟨hread oddLines (by decide),
    hprograms leftBlock rightBlock text (by decide) (by decide) htext htext'⟩

end Program

end ImpRiscV
