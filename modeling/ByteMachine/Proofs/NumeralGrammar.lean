import Mathlib.Algebra.Group.Nat.Defs
import ByteMachine.Proofs.Numerals

/-!
The grammar of numbers in a table. A number is written in decimal, or in hexadecimal behind a mark,
with any number of zeros in front, perhaps a plus sign before its digits, and white space around
everything. Whatever is written like this stands for one number, and exactly that number is read,
unless it takes more than a word.
-/
namespace ByteMachine

namespace Text

/-! ## White space -/

theorem exists_trimEnd (cs : List Char) :
    ∃ after, (∀ c ∈ after, isBlank c = true) ∧ cs = trimEnd cs ++ after := by
  refine ⟨(cs.reverse.takeWhile isBlank).reverse, fun c hc => ?_, ?_⟩
  · exact List.all_eq_true.1 List.all_takeWhile c (List.mem_reverse.1 hc)
  · rw [trimEnd, ← List.reverse_append, List.takeWhile_append_dropWhile, List.reverse_reverse]

/-- Trimming takes off nothing but white space. -/
theorem exists_trim (cs : List Char) :
    ∃ before after, (∀ c ∈ before, isBlank c = true) ∧ (∀ c ∈ after, isBlank c = true) ∧
      cs = before ++ trim cs ++ after := by
  obtain ⟨after, hafter, heq⟩ := exists_trimEnd (cs.dropWhile isBlank)
  refine ⟨cs.takeWhile isBlank, after, List.all_eq_true.1 List.all_takeWhile, hafter, ?_⟩
  rw [List.append_assoc, trim, ← heq, List.takeWhile_append_dropWhile]

theorem dropWhile_isBlank {before core : List Char} (hbefore : ∀ c ∈ before, isBlank c = true)
    (hcore : ∀ c ∈ core.head?, isBlank c = false) : (before ++ core).dropWhile isBlank = core := by
  rw [List.dropWhile_append_of_pos hbefore]
  cases core with
  | nil => rfl
  | cons c core => exact List.dropWhile_cons_of_neg (by simp [hcore c rfl])

/-- What neither begins nor ends with white space is left over by trimming. -/
theorem trim_eq {before core after : List Char} (hbefore : ∀ c ∈ before, isBlank c = true)
    (hafter : ∀ c ∈ after, isBlank c = true) (hne : core ≠ [])
    (hhead : ∀ c ∈ core.head?, isBlank c = false) (hlast : ∀ c ∈ core.getLast?, isBlank c = false) :
    trim (before ++ core ++ after) = core := by
  have hfront : (before ++ core ++ after).dropWhile isBlank = core ++ after := by
    obtain ⟨c, tail, rfl⟩ := List.exists_cons_of_ne_nil hne
    rw [List.append_assoc]
    exact dropWhile_isBlank hbefore hhead
  have hback : (after.reverse ++ core.reverse).dropWhile isBlank = core.reverse := by
    apply dropWhile_isBlank fun c hc => hafter c (List.mem_reverse.1 hc)
    rwa [List.head?_reverse]
  rw [trim, hfront, trimEnd, List.reverse_append, hback, List.reverse_reverse]

end Text

namespace Numeral

/-! ## The grammar -/

inductive Signed (base : Nat) : List Char → Nat → Prop where
  | plain {cs : List Char} {n : Nat} (h : Spells base cs n) : Signed base cs n
  | plus {cs : List Char} {n : Nat} (h : Spells base cs n) : Signed base ('+' :: cs) n

inductive Written : List Char → Nat → Prop where
  | decimal {cs : List Char} {n : Nat} (h : Signed 10 cs n) : Written cs n
  | hexadecimal {mark : Char} {cs : List Char} {n : Nat} (hmark : mark = 'x' ∨ mark = 'X')
      (h : Signed 16 cs n) : Written ('0' :: mark :: cs) n

/-- A text that is a number, with white space around it. -/
def StandsFor (text : String) (n : Nat) : Prop :=
  ∃ before core after, text.toList = before ++ core ++ after ∧
    (∀ c ∈ before, Text.isBlank c = true) ∧ (∀ c ∈ after, Text.isBlank c = true) ∧ Written core n

theorem Spells.head_ne_plus {base n : Nat} {cs : List Char} (h : Spells base cs n) :
    ∀ rest, cs ≠ '+' :: rest := by
  rintro rest rfl
  cases h.isDigit '+' List.mem_cons_self

/-! ## Reading -/

theorem readSigned_eq_some_iff {base n limit : Nat} {cs : List Char} (hbase : 0 < base)
    (hlimit : 0 < limit) : readSigned base limit cs = some n ↔ n < limit ∧ Signed base cs n := by
  unfold readSigned
  split
  · next rest =>
    rw [readDigits_eq_some_iff hbase hlimit]
    constructor
    · rintro ⟨hn, h⟩
      exact ⟨hn, .plus h⟩
    · rintro ⟨hn, h⟩
      cases h with
      | plain h => exact absurd rfl (h.head_ne_plus rest)
      | plus h => exact ⟨hn, h⟩
  · next hplus =>
    rw [readDigits_eq_some_iff hbase hlimit]
    constructor
    · rintro ⟨hn, h⟩
      exact ⟨hn, .plain h⟩
    · rintro ⟨hn, h⟩
      cases h with
      | plain h => exact ⟨hn, h⟩
      | plus h => exact absurd rfl (hplus _)

theorem afterHexMark_eq_some_iff {cs hex : List Char} :
    afterHexMark cs = some hex ↔ ∃ mark, (mark = 'x' ∨ mark = 'X') ∧ cs = '0' :: mark :: hex := by
  constructor
  · intro h
    unfold afterHexMark at h
    split at h
    · cases h
      exact ⟨'x', .inl rfl, rfl⟩
    · cases h
      exact ⟨'X', .inr rfl, rfl⟩
    · cases h
  · rintro ⟨mark, rfl | rfl, rfl⟩ <;> rfl

/-- No decimal number has the mark of a hexadecimal one. -/
theorem Signed.afterHexMark_eq {n : Nat} {cs : List Char} (h : Signed 10 cs n) :
    afterHexMark cs = none := by
  cases h with
  | plain h => exact afterHexMark_of_isDigitOf h.isDigit
  | plus h => rfl

def readTrimmed (limit : Nat) (cs : List Char) : Option Nat :=
  match afterHexMark cs with
  | some hex => readSigned 16 limit hex
  | none => readSigned 10 limit cs

theorem readTrimmed_eq_some_iff {limit n : Nat} {cs : List Char} (hlimit : 0 < limit) :
    readTrimmed limit cs = some n ↔ n < limit ∧ Written cs n := by
  unfold readTrimmed
  split
  · next hex hafter =>
    rw [readSigned_eq_some_iff (by decide) hlimit]
    constructor
    · rintro ⟨hn, h⟩
      obtain ⟨mark, hmark, rfl⟩ := afterHexMark_eq_some_iff.1 hafter
      exact ⟨hn, .hexadecimal hmark h⟩
    · rintro ⟨hn, h⟩
      cases h with
      | decimal h =>
        rw [h.afterHexMark_eq] at hafter
        cases hafter
      | hexadecimal hmark h =>
        rw [afterHexMark_eq_some_iff.2 ⟨_, hmark, rfl⟩] at hafter
        cases hafter
        exact ⟨hn, h⟩
  · next hafter =>
    rw [readSigned_eq_some_iff (by decide) hlimit]
    constructor
    · rintro ⟨hn, h⟩
      exact ⟨hn, .decimal h⟩
    · rintro ⟨hn, h⟩
      cases h with
      | decimal h => exact ⟨hn, h⟩
      | hexadecimal hmark h =>
        rw [afterHexMark_eq_some_iff.2 ⟨_, hmark, rfl⟩] at hafter
        cases hafter

/-- What is written stands for one number. A reader with a limit beyond both numbers would read
both. -/
theorem Written.unique {cs : List Char} {a b : Nat} (ha : Written cs a) (hb : Written cs b) :
    a = b := by
  have hreadA : readTrimmed (a + b + 1) cs = some a :=
    (readTrimmed_eq_some_iff (by omega)).2 ⟨by omega, ha⟩
  have hreadB : readTrimmed (a + b + 1) cs = some b :=
    (readTrimmed_eq_some_iff (by omega)).2 ⟨by omega, hb⟩
  exact Option.some.inj (hreadA.symm.trans hreadB)

/-! ## Numbers between white space -/

theorem bounds_of_digitValue {c : Char} {d : Nat} (h : digitValue c = some d) :
    0x30 ≤ c.toNat ∧ c.toNat ≤ 0x66 := by
  have hle : ∀ {a b : Char}, a ≤ b → a.toNat ≤ b.toNat := fun hab => hab
  unfold digitValue at h
  split at h
  · next hc => exact ⟨hle hc.1, Nat.le_trans (hle hc.2) (by decide)⟩
  · split at h
    · next hc => exact ⟨Nat.le_trans (by decide) (hle hc.1), Nat.le_trans (hle hc.2) (by decide)⟩
    · split at h
      · next hc => exact ⟨Nat.le_trans (by decide) (hle hc.1), hle hc.2⟩
      · cases h

theorem isBlank_of_isDigitOf {base : Nat} {c : Char} (h : isDigitOf base c = true) :
    Text.isBlank c = false := by
  unfold isDigitOf at h
  split at h
  · next d hd =>
    have hbounds := bounds_of_digitValue hd
    simp [Text.isBlank, Text.blankRanges]
    omega
  · cases h

theorem Signed.isBlank_eq_false {base n : Nat} {cs : List Char} (h : Signed base cs n) :
    cs ≠ [] ∧ ∀ c ∈ cs, Text.isBlank c = false := by
  cases h with
  | plain h => exact ⟨h.ne_nil, fun c hc => isBlank_of_isDigitOf (h.isDigit c hc)⟩
  | plus h =>
    refine ⟨List.cons_ne_nil _ _, List.forall_mem_cons.2 ⟨by decide, fun c hc => ?_⟩⟩
    exact isBlank_of_isDigitOf (h.isDigit c hc)

/-- There is no white space in a number. -/
theorem Written.isBlank_eq_false {cs : List Char} {n : Nat} (h : Written cs n) :
    cs ≠ [] ∧ ∀ c ∈ cs, Text.isBlank c = false := by
  cases h with
  | decimal h => exact h.isBlank_eq_false
  | hexadecimal hmark h =>
    simp only [ne_eq, List.cons_ne_nil, not_false_eq_true, List.forall_mem_cons, true_and]
    refine ⟨by decide, ?_, ?_⟩
    · rcases hmark with rfl | rfl <;> decide
    · exact h.isBlank_eq_false.2

theorem standsFor_iff_written_trim {text : String} {n : Nat} :
    StandsFor text n ↔ Written (Text.trim text.toList) n := by
  constructor
  · rintro ⟨before, core, after, heq, hbefore, hafter, h⟩
    obtain ⟨hne, hblank⟩ := h.isBlank_eq_false
    have hhead : ∀ c ∈ core.head?, Text.isBlank c = false := fun c hc =>
      hblank c (List.mem_of_mem_head? hc)
    have hlast : ∀ c ∈ core.getLast?, Text.isBlank c = false := fun c hc =>
      hblank c (List.mem_of_mem_getLast? hc)
    rwa [heq, Text.trim_eq hbefore hafter hne hhead hlast]
  · intro h
    obtain ⟨before, after, hbefore, hafter, heq⟩ := Text.exists_trim text.toList
    exact ⟨before, _, after, heq, hbefore, hafter, h⟩

theorem readWord_eq_some_iff {text : String} {n : Nat} :
    readWord text = some n ↔ n < wordLimit ∧ StandsFor text n := by
  rw [standsFor_iff_written_trim]
  exact readTrimmed_eq_some_iff (by decide)

/-- A number that is written in decimal is read back. -/
theorem readWord_decimal {n : Nat} (hn : n < wordLimit) : readWord (decimal n) = some n :=
  readWord_eq_some_iff.2 ⟨hn, [], (decimal n).toList, [], by simp, nofun, nofun,
    .decimal (.plain (spells_decimal n))⟩

/-- What is written as a number stands for one number only. -/
theorem StandsFor.unique {text : String} {a b : Nat} (ha : StandsFor text a)
    (hb : StandsFor text b) : a = b :=
  (standsFor_iff_written_trim.1 ha).unique (standsFor_iff_written_trim.1 hb)

theorem standsFor_hexadecimal {digit : Nat → Char}
    (hdigit : ∀ d < 16, digitValue (digit d) = some d) (n : Nat) :
    StandsFor ("0x" ++ String.ofList ((digits 16 n).map digit)) n :=
  ⟨[], _, [], by simp, nofun, nofun,
    .hexadecimal (.inl rfl) (.plain (spells_digits (by decide) (by decide) hdigit n))⟩

/-- A text is read as a number exactly if it stands for that number and the number is a word. So
every word that is printed is read back, in decimal or with hexadecimal digits of either case, and
where a text stands for a larger number, nothing is read. -/
theorem readWord_exact :
    (∀ text n, readWord text = some n ↔ n < 2 ^ 64 ∧ StandsFor text n) ∧
    (∀ text n, StandsFor text n → 2 ^ 64 ≤ n → readWord text = none) ∧
    ∀ n, n < 2 ^ 64 → readWord (decimal n) = some n ∧ readWord ("0x" ++ hexadecimal n) = some n ∧
      readWord ("0x" ++ String.ofList ((digits 16 n).map upperDigit)) = some n := by
  have hword : wordLimit = 2 ^ 64 := rfl
  simp only [← hword]
  refine ⟨fun text n => readWord_eq_some_iff, fun text n h hn => ?_, fun n hn => ⟨?_, ?_, ?_⟩⟩
  · rw [Option.eq_none_iff_forall_ne_some]
    intro k hk
    obtain ⟨hlt, hstands⟩ := readWord_eq_some_iff.1 hk
    have heq := h.unique hstands
    omega
  · exact readWord_decimal hn
  · exact readWord_eq_some_iff.2 ⟨hn, standsFor_hexadecimal (fun _ => digitValue_lowerDigit) n⟩
  · exact readWord_eq_some_iff.2 ⟨hn, standsFor_hexadecimal (fun _ => digitValue_upperDigit) n⟩

/-- A sign stands behind the mark and not before it, and zeros in front do not count. -/
example :
    readWord "\u2003 0X+00000000000000000fFfFfFfFfFfFfFfF\n" = some (2 ^ 64 - 1) ∧
      readWord "+0x5" = none ∧ readWord "0x" = none ∧ readWord "+" = none ∧
      readWord "18446744073709551616" = none := by
  decide

end Numeral

end ByteMachine
