import ByteMachine.Instruction.Basic
import ByteMachine.Proofs.Parsing
import ByteMachine.Proofs.Tokens

/-!
Instructions as lines of assembly text. The text of an instruction is scanned as its prefixes, its
mnemonic and a number for its operand, and is parsed as a statement that names them.
-/
namespace ByteMachine

theorem Width.bytes_pos (w : Width) : 0 < w.bytes := by
  cases w <;> decide

open Assembly

namespace Opcode

theorem isName_mnemonic (op : Opcode) : IsName op.mnemonic.toList := by
  cases op <;> decide

theorem ofMnemonic?_toUpper (op : Opcode) :
    ofMnemonic? (String.ofList (op.mnemonic.toList.map Char.toUpper)) = some op := by
  cases op <;> decide

end Opcode

namespace Instruction

/-- An instruction that can stand in code: conditions, and an operand as long as its opcode
wants. -/
structure WellFormed (w : Widths) (i : Instruction) : Prop where
  isConditional : ∀ b ∈ i.prefixes, isConditional b = true
  length_operand : i.operand.length = i.opcode.operand.size w

instance (w : Widths) (i : Instruction) : Decidable (i.WellFormed w) :=
  decidable_of_iff
    (i.prefixes.all ByteMachine.isConditional = true ∧
      i.operand.length = i.opcode.operand.size w)
    ⟨fun h => ⟨List.all_eq_true.1 h.1, h.2⟩, fun h => ⟨List.all_eq_true.2 h.1, h.2⟩⟩

/-- The number that follows the mnemonic, if any. -/
def numbers (i : Instruction) : List Nat :=
  match i.opcode.operand with
  | .none => []
  | _ => [LittleEndian.decode i.operand]

def tokens (i : Instruction) : List Token :=
  i.prefixes.map .condition ++ .word i.opcode.mnemonic :: i.numbers.map .number

theorem decode_operand_lt {w : Widths} {i : Instruction} (h : i.WellFormed w) :
    LittleEndian.decode i.operand < Numeral.wordLimit := by
  have hsize : ∀ (w : Widths) (o : Operand), LittleEndian.limit (o.size w) ≤ 0x10000 := by
    rintro ⟨code, data⟩ o
    cases code <;> cases data <;> cases o <;> decide
  have hlt := LittleEndian.decode_lt i.operand
  rw [h.length_operand] at hlt
  have hword : 0x10000 < Numeral.wordLimit := by decide
  exact Nat.lt_trans (Nat.lt_of_lt_of_le hlt (hsize w _)) hword

theorem stops_blank (cs : List Char) : Stops (' ' :: cs) := by
  intro c hc
  cases hc
  decide

/-- What follows a mnemonic cannot be taken for a part of it. -/
theorem stops_operandChars (kind : Operand) (bytes : List UInt8) :
    Stops (operandChars kind bytes) := by
  cases kind with
  | none => exact forall_head_nil
  | immediateByte | immediateWord | codeAddress | dataAddress => exact stops_blank _

theorem lexes_operandChars {w : Widths} {i : Instruction} (h : i.WellFormed w) :
    Lexes (operandChars i.opcode.operand i.operand) (i.numbers.map .number) := by
  have hlt := decode_operand_lt h
  have hlength := h.length_operand
  unfold operandChars numbers
  cases hkind : i.opcode.operand with
  | none => exact .finished rfl
  | immediateByte | immediateWord =>
    exact .gap rfl (Printed.single (.decimal hlt (Numeral.spells_decimal _))).lexes
  | codeAddress | dataAddress =>
    have hne : i.operand ≠ [] := by
      rw [hkind] at hlength
      apply List.ne_nil_of_length_pos
      rw [hlength, Operand.size]
      exact Width.bytes_pos _
    have hspells := Numeral.spells_hexDigits hne
    exact .gap rfl (Printed.single (.hexadecimal hlt (.inl rfl) hspells)).lexes

theorem lexes_prefixes (prefixes : List UInt8) {rest : List Char} {ts : List Token}
    (h : Lexes rest ts) :
    Lexes (prefixes.flatMap (fun b => prefixChars b ++ [' ']) ++ rest)
      (prefixes.map .condition ++ ts) := by
  induction prefixes with
  | nil => exact h
  | cons b prefixes ih =>
    have hb : Token.Spelling (.condition b) (prefixChars b) :=
      Token.WellFormed.spelling_print (t := .condition b) trivial
    rw [List.flatMap_cons, List.append_assoc, List.append_assoc]
    exact .spelled hb (stops_blank _) (.gap rfl ih)

/-- The text of an instruction is scanned as the instruction. -/
theorem scan_text {w : Widths} {i : Instruction} (h : i.WellFormed w) :
    scan i.text.toList = .ok i.tokens := by
  have hmnemonic := Lexes.spelled (.word i.opcode.isName_mnemonic)
    (stops_operandChars _ i.operand) (lexes_operandChars h)
  rw [text, String.toList_ofList, tokens, List.append_assoc, scan_eq_ok_iff]
  exact lexes_prefixes i.prefixes hmnemonic

/-! ## Statements -/

def statement (line : Nat) (i : Instruction) : Statement :=
  ⟨line, none, i.prefixes, .instruction i.opcode (i.numbers.map .number)⟩

theorem parseArguments_numbers (i : Instruction) :
    parseArguments (i.numbers.map .number) = .ok (i.numbers.map .number) := by
  unfold numbers
  split <;> rfl

theorem parseStatement_tokens {w : Widths} {i : Instruction} (h : i.WellFormed w) (line : Nat) :
    parseStatement line i.tokens = .ok (i.statement line) := by
  have hlabel : splitLabel i.tokens = (none, i.tokens) := by
    unfold tokens
    cases i.prefixes <;> rfl
  have hprefixes : parsePrefixes i.tokens =
      .ok (i.prefixes, .word i.opcode.mnemonic :: i.numbers.map .number) :=
    parsePrefixes_eq_ok_iff.2 ⟨rfl, h.isConditional, nofun⟩
  have hbody : parseBody (.word i.opcode.mnemonic :: i.numbers.map .number) =
      .ok (.instruction i.opcode (i.numbers.map .number)) := by
    simp only [parseBody, Opcode.ofMnemonic?_toUpper, parseArguments_numbers]
    rfl
  refine parseStatement_eq_ok_iff.2 ⟨rfl, ?_, .inr rfl, _, ?_, hbody⟩
  · rw [hlabel]
    rfl
  · rw [hlabel]
    exact hprefixes

/-- The text of an instruction is parsed as the instruction. -/
theorem parseLine_text {w : Widths} {i : Instruction} (h : i.WellFormed w) (line : Nat) :
    parseLine line i.text.toList = .ok (i.statement line) := by
  rw [parseLine, scan_text h]
  exact parseStatement_tokens h line

/-! ## Line breaks -/

theorem unbroken_hexDigits (b : UInt8) : Text.Unbroken (Numeral.hexDigits b) :=
  Text.unbroken_of_isDigitOf (Numeral.isDigitOf_hexDigits b)

theorem unbroken_decimal (n : Nat) : Text.Unbroken (Numeral.decimal n).toList :=
  Text.unbroken_of_isDigitOf (Numeral.spells_decimal n).isDigit

theorem unbroken_hexAddress (bytes : List UInt8) : Text.Unbroken (Numeral.hexAddress bytes) :=
  Text.unbroken_cons.2 ⟨by decide, Text.unbroken_cons.2 ⟨by decide,
    Text.unbroken_flatMap fun b _ => unbroken_hexDigits b⟩⟩

theorem unbroken_operandChars (kind : Operand) (bytes : List UInt8) :
    Text.Unbroken (operandChars kind bytes) := by
  unfold operandChars
  cases kind with
  | none => nofun
  | immediateByte | immediateWord => exact Text.unbroken_cons.2 ⟨by decide, unbroken_decimal _⟩
  | codeAddress | dataAddress => exact Text.unbroken_cons.2 ⟨by decide, unbroken_hexAddress _⟩

/-- The text of an instruction is one line. -/
theorem unbroken_text (i : Instruction) : Text.Unbroken i.text.toList := by
  have hmnemonic : Text.Unbroken i.opcode.mnemonic.toList := by
    cases i.opcode <;> decide
  have hblank : Text.Unbroken [' '] := by decide
  have hcondition (b : UInt8) : Text.Unbroken (prefixChars b) :=
    Text.unbroken_cons.2 ⟨by decide, unbroken_hexDigits b⟩
  have hprefixes := Text.unbroken_flatMap (l := i.prefixes) fun b _ =>
    Text.unbroken_append.2 ⟨hcondition b, hblank⟩
  rw [text, String.toList_ofList]
  exact Text.unbroken_append.2
    ⟨Text.unbroken_append.2 ⟨hprefixes, hmnemonic⟩, unbroken_operandChars _ _⟩

end Instruction

end ByteMachine
