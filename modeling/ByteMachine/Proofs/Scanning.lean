import ByteMachine.Assembly.Scanner
import ByteMachine.Proofs.Numerals
import ByteMachine.Text.Lines

/-!
Lines and the tokens they begin with. Texts without line breaks are the lines of the text that they
make up, and the first character of a token tells which kinds of token are out of the question.
-/
namespace ByteMachine

/-! ## Lines -/

namespace Text

theorem linesFrom_append {line : List Char} (hfeed : '\n' ∉ line) (begun rest : List Char) :
    linesFrom begun (line ++ '\n' :: rest) =
      finishLine (line.reverse ++ begun) :: linesFrom [] rest := by
  induction line generalizing begun with
  | nil => rfl
  | cons c line ih =>
    rw [List.mem_cons, not_or] at hfeed
    have hc : ∀ cs, linesFrom begun (c :: cs) = linesFrom (c :: begun) cs := by
      intro cs
      rw [linesFrom]
      exact fun h => hfeed.1 h.symm
    rw [List.cons_append, hc, ih hfeed.2, List.reverse_cons, List.append_assoc]
    rfl

theorem finishLine_of_getLast? {line : List Char} (h : line.getLast? ≠ some '\r') :
    finishLine line.reverse = line := by
  unfold finishLine
  split
  · next cs hcs => exact absurd (by rw [List.getLast?_eq_head?_reverse, hcs]; rfl) h
  · exact List.reverse_reverse line

def Unbroken (cs : List Char) : Prop :=
  ∀ c ∈ cs, c ≠ '\n' ∧ c ≠ '\r'

instance (cs : List Char) : Decidable (Unbroken cs) :=
  List.decidableBAll (fun c => c ≠ '\n' ∧ c ≠ '\r') cs

theorem unbroken_cons {c : Char} {cs : List Char} :
    Unbroken (c :: cs) ↔ (c ≠ '\n' ∧ c ≠ '\r') ∧ Unbroken cs :=
  List.forall_mem_cons

theorem unbroken_append {a b : List Char} : Unbroken (a ++ b) ↔ Unbroken a ∧ Unbroken b :=
  List.forall_mem_append

theorem unbroken_flatMap {α : Type} {l : List α} {f : α → List Char}
    (h : ∀ a ∈ l, Unbroken (f a)) : Unbroken (l.flatMap f) := by
  intro c hc
  obtain ⟨a, ha, hc⟩ := List.mem_flatMap.1 hc
  exact h a ha c hc

theorem unbroken_of_isDigitOf {base : Nat} {cs : List Char}
    (h : ∀ c ∈ cs, Numeral.isDigitOf base c = true) : Unbroken cs := by
  intro c hc
  have hdigit := h c hc
  constructor
  · rintro rfl
    cases hdigit
  · rintro rfl
    cases hdigit

/-- Lines that hold no line break are the lines of the text that they make up. -/
theorem lines_flatMap {ls : List (List Char)} (h : ∀ line ∈ ls, Unbroken line) :
    lines (String.ofList (ls.flatMap fun line => line ++ ['\n'])) = ls := by
  rw [lines, String.toList_ofList]
  induction ls with
  | nil => rfl
  | cons line ls ih =>
    obtain ⟨hline, hls⟩ := List.forall_mem_cons.1 h
    have hfeed : '\n' ∉ line := fun hmem => (hline _ hmem).1 rfl
    have hreturn : line.getLast? ≠ some '\r' := fun hlast =>
      (hline _ (List.mem_of_getLast? hlast)).2 rfl
    rw [List.flatMap_cons, List.append_assoc, List.singleton_append, linesFrom_append hfeed,
      List.append_nil, finishLine_of_getLast? hreturn, ih hls]

end Text

namespace Assembly

/-! ## Tokens -/

theorem character?_of_ne {c : Char} (h : c ≠ '\'') (cs : List Char) :
    character? (c :: cs) = none := by
  unfold character?
  split
  · next heq =>
    cases heq
    exact absurd rfl h
  · rfl

theorem directive?_of_ne {c : Char} (h : c ≠ '.') (cs : List Char) :
    directive? (c :: cs) = none := by
  unfold directive?
  split
  · next heq =>
    cases heq
    exact absurd rfl h
  · rfl

theorem condition?_of_ne {c : Char} (h : c ≠ '?') (cs : List Char) :
    condition? (c :: cs) = none := by
  unfold condition?
  split
  · next heq =>
    cases heq
    exact absurd rfl h
  · rfl

/-- A character that begins a name, a number or a comma, or nothing at all. -/
def isPlain (c : Char) : Bool :=
  c != '"' && c != '\'' && c != '.' && c != '?' && !isGap c

theorem scanToken_of_isPlain {c : Char} (hc : isPlain c = true) (cs : List Char) :
    scanToken (c :: cs) =
      .ok (label? (c :: cs) <|> number? (c :: cs) <|> word? (c :: cs) <|> comma? (c :: cs)) := by
  simp only [isPlain, Bool.and_eq_true, bne_iff_ne] at hc
  obtain ⟨⟨⟨⟨hquote, happly⟩, hpoint⟩, hmark⟩, -⟩ := hc
  have hplain : scanToken (c :: cs) = .ok (plainToken? (c :: cs)) := by
    unfold scanToken
    split
    · next heq =>
      cases heq
      exact absurd rfl hquote
    · rfl
  rw [hplain, plainToken?, character?_of_ne happly, directive?_of_ne hpoint, condition?_of_ne hmark]
  rfl

/-- Characters of a kind are taken off a text up to one that is not of that kind. -/
theorem span_append {kind : Char → Bool} {cs rest : List Char} (hcs : ∀ c ∈ cs, kind c = true)
    (hrest : ∀ c ∈ rest.head?, kind c = false) :
    (cs ++ rest).takeWhile kind = cs ∧ (cs ++ rest).dropWhile kind = rest := by
  rw [List.takeWhile_append_of_pos hcs, List.dropWhile_append_of_pos hcs]
  cases rest with
  | nil => simp
  | cons c rest =>
    have hc : kind c = false := hrest c rfl
    simp [hc]

theorem digits?_of_spells {base n : Nat} {cs rest : List Char} (h : Numeral.Spells base cs n)
    (hbase : 0 < base) (hn : n < Numeral.wordLimit)
    (hrest : ∀ c ∈ rest.head?, Numeral.isDigitOf base c = false) :
    digits? base (cs ++ rest) = some (.number n, rest) := by
  obtain ⟨htake, hdrop⟩ := span_append h.isDigit hrest
  simp only [digits?, htake, hdrop, h.readDigits_eq hbase hn]

/-! ## Numbers -/

theorem scanToken_number {c : Char} {cs rest : List Char} {t : Token} (hplain : isPlain c = true)
    (hstart : isNameStart c = false) (h : number? (c :: cs) = some (t, rest)) :
    scanToken (c :: cs) = .ok (some (t, rest)) := by
  have hlabel : label? (c :: cs) = none := by simp [label?, name?, hstart]
  rw [scanToken_of_isPlain hplain, hlabel, h]
  rfl

/-- A decimal digit begins a number and no name. -/
theorem isPlain_of_isDigitOf {c : Char} (h : Numeral.isDigitOf 10 c = true) :
    isPlain c = true ∧ isNameStart c = false := by
  obtain ⟨d, hd, rfl⟩ := Numeral.exists_upperDigit h
  have hall : ∀ d < 10, isPlain (Numeral.upperDigit d) = true ∧
      isNameStart (Numeral.upperDigit d) = false := by decide
  exact hall d hd

theorem number?_of_isDigitOf {c : Char} (h : Numeral.isDigitOf 10 c = false) (cs : List Char) :
    number? (c :: cs) = none := by
  have hmark : Numeral.afterHexMark (c :: cs) = none := by
    unfold Numeral.afterHexMark
    split
    · next heq =>
      cases heq
      cases h
    · next heq =>
      cases heq
      cases h
    · rfl
  have htake : (c :: cs).takeWhile (Numeral.isDigitOf 10) = [] := by
    rw [List.takeWhile_cons, h]
    rfl
  rw [number?, hmark, digits?, htake]
  rfl

end Assembly

end ByteMachine
