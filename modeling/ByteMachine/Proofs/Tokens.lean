import ByteMachine.Proofs.Lookahead
import ByteMachine.Proofs.NumeralGrammar
import ByteMachine.Proofs.Utf8

/-!
Tokens as they are written. Each kind of token has its spellings. A line of spelled tokens with
blanks between them is scanned as these tokens, and every line that can be scanned consists of such
tokens, with blanks around them and perhaps a comment at the end.
-/
namespace ByteMachine.Assembly

/-! ## Names -/

/-- A letter or an underscore, and after it letters, digits, underscores and points. -/
def IsName : List Char → Prop
  | [] => False
  | c :: cs => isNameStart c = true ∧ ∀ d ∈ cs, isNameChar d = true

instance (cs : List Char) : Decidable (IsName cs) :=
  match cs with
  | [] => .isFalse id
  | _ :: cs => @instDecidableAnd _ _ _ (List.decidableBAll (fun d => isNameChar d = true) cs)

theorem IsName.exists_cons {cs : List Char} (h : IsName cs) :
    ∃ c tail, cs = c :: tail ∧ isNameStart c = true ∧ ∀ d ∈ tail, isNameChar d = true := by
  cases cs with
  | nil => exact h.elim
  | cons c tail => exact ⟨c, tail, rfl, h.1, h.2⟩

theorem name?_of_isName {cs rest : List Char} (h : IsName cs)
    (hrest : ∀ c ∈ rest.head?, isNameChar c = false) :
    name? (cs ++ rest) = some (String.ofList cs, rest) := by
  obtain ⟨c, tail, rfl, hstart, htail⟩ := h.exists_cons
  obtain ⟨htake, hdrop⟩ := span_append htail hrest
  simp [name?, hstart, htake, hdrop]

theorem forall_head_nil {p : Char → Prop} : ∀ c ∈ ([] : List Char).head?, p c := nofun

theorem name?_toList {name : String} (h : IsName name.toList) :
    name? name.toList = some (name, []) := by
  have hname := name?_of_isName h forall_head_nil
  rwa [List.append_nil, String.ofList_toList] at hname

theorem name?_cases {cs rest : List Char} {name : String} (h : name? cs = some (name, rest)) :
    IsName name.toList ∧ cs = name.toList ++ rest := by
  cases cs with
  | nil => cases h
  | cons c cs =>
    rw [name?] at h
    split at h
    · next hstart =>
      cases h
      rw [String.toList_ofList]
      refine ⟨⟨hstart, fun d hd => ?_⟩, ?_⟩
      · exact List.all_eq_true.1 List.all_takeWhile d hd
      · rw [List.cons_append, List.takeWhile_append_dropWhile]
    · cases h

/-- What begins a name begins nothing else. -/
theorem isPlain_of_isNameStart {c : Char} (h : isNameStart c = true) :
    isPlain c = true ∧ Numeral.isDigitOf 10 c = false := by
  constructor
  · have hne : ∀ d, isNameStart d = false → c ≠ d := by
      rintro d hd rfl
      rw [hd] at h
      cases h
    simp [isPlain, isGap, hne '"' rfl, hne '\'' rfl, hne '.' rfl, hne '?' rfl, hne ' ' rfl,
      hne '\t' rfl]
  · rw [← Bool.not_eq_true]
    intro hdigit
    rw [(isPlain_of_isDigitOf hdigit).2] at h
    cases h

/-! ## Spellings -/

def quotedBy (quote c : Char) : List Char :=
  if c = quote ∨ c = '\\' then ['\\', c] else [c]

/-- What tokens can be: names are names, numbers fit into a word, and characters are ASCII. -/
def Token.WellFormed : Token → Prop
  | label name | directive name | word name => IsName name.toList
  | number n => n < Numeral.wordLimit
  | character b => b.toNat < 0x80
  | condition _ | text _ | comma => True

/-- The ways to write a token. Digits may have zeros in front, and hexadecimal ones may be of either
case. -/
inductive Token.Spelling : Token → List Char → Prop where
  | label {name : String} : IsName name.toList → Spelling (.label name) (name.toList ++ [':'])
  | directive {name : String} : IsName name.toList → Spelling (.directive name) ('.' :: name.toList)
  | condition {b : UInt8} {high low : Char} : Numeral.digitValue high = some (b.toNat / 16) →
      Numeral.digitValue low = some (b.toNat % 16) → Spelling (.condition b) ['?', high, low]
  | word {name : String} : IsName name.toList → Spelling (.word name) name.toList
  | decimal {n : Nat} {digits : List Char} : n < Numeral.wordLimit → Numeral.Spells 10 digits n →
      Spelling (.number n) digits
  | hexadecimal {n : Nat} {mark : Char} {digits : List Char} : n < Numeral.wordLimit →
      mark = 'x' ∨ mark = 'X' → Numeral.Spells 16 digits n →
      Spelling (.number n) ('0' :: mark :: digits)
  | character {b : UInt8} : b.toNat < 0x80 →
      Spelling (.character b) ('\'' :: (quotedBy '\'' (Char.ofNat b.toNat) ++ ['\'']))
  | text (text : String) :
      Spelling (.text text) ('"' :: (text.toList.flatMap (quotedBy '"') ++ ['"']))
  | comma : Spelling .comma [',']

theorem scanToken_label {name : String} (h : IsName name.toList) (rest : List Char) :
    scanToken (name.toList ++ ':' :: rest) = .ok (some (.label name, rest)) := by
  have hname : name? (name.toList ++ ':' :: rest) = some (name, ':' :: rest) := by
    rw [name?_of_isName h (by simp [isNameChar]), String.ofList_toList]
  have hlabel : label? (name.toList ++ ':' :: rest) = some (.label name, rest) := by
    simp only [label?, hname]
  obtain ⟨c, tail, hcs, hstart, -⟩ := h.exists_cons
  rw [hcs, List.cons_append] at hlabel ⊢
  rw [scanToken_of_isPlain (isPlain_of_isNameStart hstart).1, hlabel]
  rfl

theorem scanToken_directive {name : String} (h : IsName name.toList) :
    scanToken ('.' :: name.toList) = .ok (some (.directive name, [])) := by
  have hdirective : directive? ('.' :: name.toList) = some (.directive name, []) := by
    rw [directive?, name?_toList h]
  rw [scanToken_of_ne (by decide), plainToken?, hdirective]
  rfl

theorem scanToken_name {name : String} (h : IsName name.toList) :
    scanToken name.toList = .ok (some (.word name, [])) := by
  have hlabel : label? name.toList = none := by
    simp only [label?, name?_toList h]
  have hword : word? name.toList = some (.word name, []) := by
    rw [word?, name?_toList h]
  obtain ⟨c, tail, hcs, hstart, -⟩ := h.exists_cons
  obtain ⟨hplain, hdigit⟩ := isPlain_of_isNameStart hstart
  rw [hcs] at hlabel hword ⊢
  rw [scanToken_of_isPlain hplain, hlabel, number?_of_isDigitOf hdigit, hword]
  rfl

theorem scanToken_hexDigits {b : UInt8} {high low : Char}
    (hhigh : Numeral.digitValue high = some (b.toNat / 16))
    (hlow : Numeral.digitValue low = some (b.toNat % 16)) :
    scanToken ['?', high, low] = .ok (some (.condition b, [])) := by
  have hcondition : condition? ['?', high, low] = some (.condition b, []) := by
    simp only [condition?, hhigh, hlow, Nat.div_add_mod', UInt8.ofNat_toNat]
  rw [scanToken_of_ne (by decide), plainToken?, hcondition]
  rfl

theorem scanToken_decimal {n : Nat} {digits : List Char} (hn : n < Numeral.wordLimit)
    (h : Numeral.Spells 10 digits n) : scanToken digits = .ok (some (.number n, [])) := by
  have hdigits := digits?_of_spells h (by decide) hn forall_head_nil
  rw [List.append_nil] at hdigits
  have hnumber : number? digits = some (.number n, []) := by
    rw [number?, Numeral.afterHexMark_of_isDigitOf h.isDigit, hdigits]
    rfl
  obtain ⟨c, cs, rfl⟩ := List.exists_cons_of_ne_nil h.ne_nil
  obtain ⟨hplain, hstart⟩ := isPlain_of_isDigitOf (h.isDigit c List.mem_cons_self)
  exact scanToken_number hplain hstart hnumber

theorem scanToken_hexadecimal {n : Nat} {mark : Char} {digits : List Char}
    (hn : n < Numeral.wordLimit) (hmark : mark = 'x' ∨ mark = 'X')
    (h : Numeral.Spells 16 digits n) :
    scanToken ('0' :: mark :: digits) = .ok (some (.number n, [])) := by
  have hdigits := digits?_of_spells h (by decide) hn forall_head_nil
  rw [List.append_nil] at hdigits
  have hhex : Numeral.afterHexMark ('0' :: mark :: digits) = some digits := by
    rcases hmark with rfl | rfl <;> rfl
  have hnumber : number? ('0' :: mark :: digits) = some (.number n, []) := by
    rw [number?, hhex, Option.bind_some, hdigits]
    rfl
  exact scanToken_number rfl rfl hnumber

theorem unescape_of_quotedBy {quote c : Char} (hquote : quote = '\'' ∨ quote = '"')
    (h : c = quote ∨ c = '\\') : unescape c = some c := by
  rcases hquote with rfl | rfl <;> rcases h with rfl | rfl <;> rfl

theorem scanToken_character {b : UInt8} (hb : b.toNat < 0x80) :
    scanToken ('\'' :: (quotedBy '\'' (Char.ofNat b.toNat) ++ ['\''])) =
      .ok (some (.character b, [])) := by
  have hchar : (Char.ofNat b.toNat).toNat = b.toNat := Utf8.toNat_ofNat_char (.inl (by omega))
  have hquoted : quotedChar? (quotedBy '\'' (Char.ofNat b.toNat) ++ ['\'']) =
      some (Char.ofNat b.toNat, ['\'']) := by
    generalize Char.ofNat b.toNat = c
    unfold quotedBy
    split
    · next h =>
      have hescape := unescape_of_quotedBy (.inl rfl) h
      simp [quotedChar?, hescape]
    · next h =>
      rw [not_or] at h
      simp [quotedChar?, h.2]
  have hcharacter : character? ('\'' :: (quotedBy '\'' (Char.ofNat b.toNat) ++ ['\''])) =
      some (.character b, []) := by
    simp only [character?, hquoted, hchar, if_pos hb, UInt8.ofNat_toNat]
  rw [scanToken_of_ne (by decide), plainToken?_apostrophe, hcharacter]

theorem textFrom_flatMap (opening seen cs rest : List Char) :
    textFrom opening seen (cs.flatMap (quotedBy '"') ++ '"' :: rest) =
      .ok (String.ofList (seen.reverse ++ cs), rest) := by
  induction cs generalizing seen with
  | nil => simp [textFrom]
  | cons c cs ih =>
    rw [List.flatMap_cons, List.append_assoc, quotedBy]
    split
    · next h =>
      have hescape := unescape_of_quotedBy (.inr rfl) h
      simp [textFrom, hescape, ih]
    · next h =>
      rw [not_or] at h
      rw [List.singleton_append, textFrom_cons h.1 h.2, ih]
      simp

theorem scanToken_text (text : String) :
    scanToken ('"' :: (text.toList.flatMap (quotedBy '"') ++ ['"'])) =
      .ok (some (.text text, [])) := by
  rw [scanToken, textFrom_flatMap, List.reverse_nil, List.nil_append, String.ofList_toList]
  rfl

/-- A token that is spelled is scanned. -/
theorem scanToken_of_spelling {t : Token} {cs : List Char} (h : t.Spelling cs) :
    scanToken cs = .ok (some (t, [])) := by
  cases h with
  | label hname => exact scanToken_label hname []
  | directive hname => exact scanToken_directive hname
  | condition hhigh hlow => exact scanToken_hexDigits hhigh hlow
  | word hname => exact scanToken_name hname
  | decimal hn hdigits => exact scanToken_decimal hn hdigits
  | hexadecimal hn hmark hdigits => exact scanToken_hexadecimal hn hmark hdigits
  | character hb => exact scanToken_character hb
  | text text => exact scanToken_text text
  | comma => rfl

/-! ## What is scanned -/

/-- Whatever is found is a token as it has to be, and takes something off the front of the text. -/
def Takes (find : List Char → Option (Token × List Char)) : Prop :=
  ∀ cs t rest, find cs = some (t, rest) →
    t.WellFormed ∧ ∃ front, front ≠ [] ∧ cs = front ++ rest

theorem Takes.orElse {f g : List Char → Option (Token × List Char)} (hf : Takes f) (hg : Takes g) :
    Takes fun cs => f cs <|> g cs := by
  intro cs t rest h
  cases hfound : f cs with
  | some found =>
    simp only [hfound] at h
    cases h
    exact hf cs t rest hfound
  | none =>
    simp only [hfound] at h
    exact hg cs t rest h

theorem takes_character : Takes character? := by
  intro cs t rest h
  obtain ⟨c, tail, rfl, hquoted, hc, rfl⟩ := character?_eq_some_iff.1 h
  obtain ⟨front, -, rfl⟩ := quotedChar?_cases hquoted
  refine ⟨?_, '\'' :: (front ++ ['\'']), List.cons_ne_nil _ _, by simp⟩
  rw [Token.WellFormed, Utf8.toNat_ofNat_byte (by omega)]
  exact hc

theorem takes_directive : Takes directive? := by
  intro cs t rest h
  obtain ⟨name, tail, rfl, hname, rfl⟩ := directive?_eq_some_iff.1 h
  obtain ⟨hwell, rfl⟩ := name?_cases hname
  exact ⟨hwell, _, List.cons_ne_nil _ _, rfl⟩

theorem takes_condition : Takes condition? := by
  intro cs t rest h
  obtain ⟨a, b, high, low, rfl, -, -, rfl⟩ := condition?_eq_some_iff.1 h
  exact ⟨trivial, ['?', a, b], List.cons_ne_nil _ _, rfl⟩

theorem takes_label : Takes label? := by
  intro cs t rest h
  obtain ⟨name, hname, rfl⟩ := label?_eq_some_iff.1 h
  obtain ⟨hwell, rfl⟩ := name?_cases hname
  exact ⟨hwell, name.toList ++ [':'], by simp, by simp⟩

theorem takes_word : Takes word? := by
  intro cs t rest h
  obtain ⟨name, hname, rfl⟩ := word?_eq_some_iff.1 h
  obtain ⟨hwell, rfl⟩ := name?_cases hname
  obtain ⟨c, front, hcs, -⟩ := hwell.exists_cons
  exact ⟨hwell, name.toList, by simp [hcs], rfl⟩

theorem takes_comma : Takes comma? := by
  intro cs t rest h
  obtain ⟨rfl, rfl⟩ := comma?_eq_some_iff.1 h
  exact ⟨trivial, [','], List.cons_ne_nil _ _, rfl⟩

theorem takes_digits {base : Nat} (hbase : 0 < base) : Takes (digits? base) := by
  intro cs t rest h
  obtain ⟨n, hn, hspells, rfl, rfl⟩ := (digits?_eq_some_iff hbase).1 h
  exact ⟨hn, _, hspells.ne_nil, List.takeWhile_append_dropWhile.symm⟩

theorem takes_number : Takes number? := by
  intro cs t rest h
  unfold number? at h
  rcases Option.or_eq_some_iff.1 h with hhex | ⟨-, hdecimal⟩
  · obtain ⟨hex, hmark, hdigits⟩ := Option.bind_eq_some_iff.1 hhex
    obtain ⟨hwell, front, -, rfl⟩ := takes_digits (by decide) _ _ _ hdigits
    obtain ⟨mark, -, rfl⟩ := Numeral.afterHexMark_eq_some_iff.1 hmark
    exact ⟨hwell, '0' :: mark :: front, List.cons_ne_nil _ _, rfl⟩
  · exact takes_digits (by decide) _ _ _ hdecimal

theorem takes_plainToken : Takes plainToken? :=
  takes_character.orElse (takes_directive.orElse (takes_condition.orElse (takes_label.orElse
    (takes_number.orElse (takes_word.orElse takes_comma)))))

theorem exists_of_textFrom {opening seen cs rest : List Char} {text : String}
    (h : textFrom opening seen cs = .ok (text, rest)) :
    ∃ front, front ≠ [] ∧ cs = front ++ rest := by
  fun_induction textFrom opening seen cs with
  | case1 => cases h
  | case2 seen tail =>
    cases h
    exact ⟨['"'], List.cons_ne_nil _ _, rfl⟩
  | case3 => cases h
  | case4 seen c tail d hd ih =>
    obtain ⟨front, -, rfl⟩ := ih h
    exact ⟨'\\' :: c :: front, List.cons_ne_nil _ _, rfl⟩
  | case5 => cases h
  | case6 seen c tail _ _ _ ih =>
    obtain ⟨front, -, rfl⟩ := ih h
    exact ⟨c :: front, List.cons_ne_nil _ _, rfl⟩

/-- A token that is scanned is as it has to be, and has characters of its own. -/
theorem scanToken_cases {cs rest : List Char} {t : Token}
    (h : scanToken cs = .ok (some (t, rest))) :
    t.WellFormed ∧ ∃ front, front ≠ [] ∧ cs = front ++ rest := by
  cases cs with
  | nil => cases h
  | cons c cs =>
    by_cases hquote : c = '"'
    · subst hquote
      obtain ⟨⟨text, left⟩, htext, h⟩ := exists_ok_of_bind h
      cases h
      obtain ⟨front, -, rfl⟩ := exists_of_textFrom htext
      exact ⟨trivial, '"' :: front, List.cons_ne_nil _ _, rfl⟩
    · rw [scanToken_of_ne hquote] at h
      exact takes_plainToken _ _ _ (Except.ok.inj h)

/-! ## Lines -/

/-- Lines of tokens, with blanks wherever they do not stand inside a token, and perhaps a comment at
the end. -/
inductive Lexes : List Char → List Token → Prop where
  | finished {cs : List Char} : isFinished cs = true → Lexes cs []
  | gap {c : Char} {cs : List Char} {ts : List Token} :
      isGap c = true → Lexes cs ts → Lexes (c :: cs) ts
  | token {cs rest : List Char} {t : Token} {ts : List Token} :
      scanToken cs = .ok (some (t, rest)) → Lexes rest ts → Lexes cs (t :: ts)

theorem Lexes.gaps {gap cs : List Char} {ts : List Token} (hgap : ∀ c ∈ gap, isGap c = true)
    (h : Lexes cs ts) : Lexes (gap ++ cs) ts := by
  induction gap with
  | nil => exact h
  | cons c gap ih =>
    obtain ⟨hc, hgap⟩ := List.forall_mem_cons.1 hgap
    exact .gap hc (ih hgap)

theorem isGap_iff {c : Char} : isGap c = true ↔ c = ' ' ∨ c = '\t' := by
  simp [isGap]

theorem scanToken_of_isGap {c : Char} (h : isGap c = true) (cs : List Char) :
    scanToken (c :: cs) = .ok none := by
  rcases isGap_iff.1 h with rfl | rfl <;> rfl

theorem scanToken_of_isFinished {cs : List Char} (h : isFinished cs = true) :
    scanToken cs = .ok none := by
  cases cs with
  | nil => rfl
  | cons c cs =>
    obtain rfl : c = ';' := by simpa [isFinished] using h
    rfl

theorem dropWhile_isGap_of_isFinished {cs : List Char} (h : isFinished cs = true) :
    cs.dropWhile isGap = cs := by
  cases cs with
  | nil => rfl
  | cons c cs =>
    obtain rfl : c = ';' := by simpa [isFinished] using h
    rfl

theorem length_lt_of_scanToken {cs rest : List Char} {t : Token}
    (h : scanToken cs = .ok (some (t, rest))) : rest.length < cs.length := by
  obtain ⟨-, front, hfront, rfl⟩ := scanToken_cases h
  have hpos := List.length_pos_iff.2 hfront
  rw [List.length_append]
  omega

theorem scanFrom_gap {c : Char} (hc : isGap c = true) (fuel : Nat) (seen : List Token)
    (cs : List Char) : scanFrom (fuel + 1) seen (c :: cs) = scanFrom (fuel + 1) seen cs := by
  rw [scanFrom, scanFrom, List.dropWhile_cons_of_pos hc]

theorem scanFrom_of_scanToken {cs rest : List Char} {t : Token}
    (h : scanToken cs = .ok (some (t, rest))) (fuel : Nat) (seen : List Token) :
    scanFrom (fuel + 1) seen cs = scanFrom fuel (t :: seen) rest := by
  have hdrop : cs.dropWhile isGap = cs := by
    cases cs with
    | nil => rfl
    | cons c cs =>
      refine List.dropWhile_cons_of_neg fun hgap => ?_
      rw [scanToken_of_isGap hgap] at h
      cases h
  simp only [scanFrom, hdrop, h]
  rfl

/-- A token takes a character at least, so there is fuel for as many tokens as characters. -/
theorem scanFrom_of_lexes {cs : List Char} {ts : List Token} (h : Lexes cs ts) {fuel : Nat}
    (hfuel : cs.length < fuel) (seen : List Token) :
    scanFrom fuel seen cs = .ok (seen.reverse ++ ts) := by
  induction h generalizing fuel seen with
  | finished hfinished =>
    obtain ⟨fuel, rfl⟩ := Nat.exists_eq_add_one_of_ne_zero (Nat.ne_zero_of_lt hfuel)
    simp only [scanFrom, dropWhile_isGap_of_isFinished hfinished,
      scanToken_of_isFinished hfinished, List.append_nil]
    exact if_pos hfinished
  | gap hc _ ih =>
    obtain ⟨fuel, rfl⟩ := Nat.exists_eq_add_one_of_ne_zero (Nat.ne_zero_of_lt hfuel)
    rw [scanFrom_gap hc, ih (Nat.lt_of_succ_lt hfuel)]
  | token htoken _ ih =>
    obtain ⟨fuel, rfl⟩ := Nat.exists_eq_add_one_of_ne_zero (Nat.ne_zero_of_lt hfuel)
    have hlength := length_lt_of_scanToken htoken
    rw [scanFrom_of_scanToken htoken, ih (by omega), List.reverse_cons, List.append_assoc]
    rfl

theorem lexes_of_scanFrom {fuel : Nat} {seen ts : List Token} {cs : List Char}
    (h : scanFrom fuel seen cs = .ok ts) : ∃ more, ts = seen.reverse ++ more ∧ Lexes cs more := by
  induction fuel generalizing seen cs with
  | zero => cases h
  | succ fuel ih =>
    have hsplit : cs = cs.takeWhile isGap ++ cs.dropWhile isGap :=
      List.takeWhile_append_dropWhile.symm
    have hgap : ∀ c ∈ cs.takeWhile isGap, isGap c = true := List.all_eq_true.1 List.all_takeWhile
    obtain ⟨found, hfound, h⟩ := exists_ok_of_bind h
    cases found with
    | none =>
      dsimp only at h
      split at h
      · next hfinished =>
        cases h
        refine ⟨[], (List.append_nil _).symm, ?_⟩
        rw [hsplit]
        exact (Lexes.finished hfinished).gaps hgap
      · cases h
    | some found =>
      obtain ⟨t, rest⟩ := found
      obtain ⟨more, rfl, hrest⟩ := ih h
      refine ⟨t :: more, by simp, ?_⟩
      rw [hsplit]
      exact (Lexes.token hfound hrest).gaps hgap

/-- A line is scanned as tokens exactly if it is a line of these tokens. -/
theorem scan_eq_ok_iff {line : List Char} {ts : List Token} :
    scan line = .ok ts ↔ Lexes line ts := by
  constructor
  · intro h
    obtain ⟨more, rfl, hlexes⟩ := lexes_of_scanFrom h
    exact hlexes
  · intro h
    exact scanFrom_of_lexes h (Nat.lt_succ_self line.length) []

theorem Lexes.wellFormed {line : List Char} {ts : List Token} (h : Lexes line ts) :
    ∀ t ∈ ts, t.WellFormed := by
  induction h with
  | finished => nofun
  | gap _ _ ih => exact ih
  | token htoken _ ih => exact List.forall_mem_cons.2 ⟨(scanToken_cases htoken).1, ih⟩

/-! ## Printing -/

/-- The plainest way to write a token. -/
def Token.print : Token → List Char
  | label name => name.toList ++ [':']
  | directive name => '.' :: name.toList
  | condition b => '?' :: Numeral.hexDigits b
  | word name => name.toList
  | number n => (Numeral.decimal n).toList
  | character b => '\'' :: (quotedBy '\'' (Char.ofNat b.toNat) ++ ['\''])
  | text t => '"' :: (t.toList.flatMap (quotedBy '"') ++ ['"'])
  | comma => [',']

theorem Token.WellFormed.spelling_print {t : Token} (h : t.WellFormed) : t.Spelling t.print := by
  cases t with
  | label name => exact .label h
  | directive name => exact .directive h
  | condition b =>
    have hb := b.toNat_lt
    exact .condition (Numeral.digitValue_upperDigit (by omega))
      (Numeral.digitValue_upperDigit (by omega))
  | word name => exact .word h
  | number n => exact .decimal h (Numeral.spells_decimal n)
  | character b => exact .character h
  | text t => exact .text t
  | comma => exact .comma

/-- Tokens written one after the other, with one blank or more between them. -/
inductive Printed : List Token → List Char → Prop where
  | nil : Printed [] []
  | single {t : Token} {cs : List Char} : t.Spelling cs → Printed [t] cs
  | cons {t u : Token} {ts : List Token} {rest : List Char} (cs gap : List Char) : t.Spelling cs →
      gap ≠ [] → (∀ c ∈ gap, isGap c = true) → Printed (u :: ts) rest →
      Printed (t :: u :: ts) (cs ++ (gap ++ rest))

theorem exists_printed {ts : List Token} (h : ∀ t ∈ ts, t.WellFormed) :
    ∃ line, Printed ts line := by
  induction ts with
  | nil => exact ⟨[], .nil⟩
  | cons t ts ih =>
    obtain ⟨ht, hts⟩ := List.forall_mem_cons.1 h
    obtain ⟨rest, hrest⟩ := ih hts
    cases ts with
    | nil => exact ⟨t.print, .single ht.spelling_print⟩
    | cons u ts =>
      exact ⟨t.print ++ ([' '] ++ rest),
        .cons _ _ ht.spelling_print (List.cons_ne_nil _ _) (by simp [isGap]) hrest⟩

theorem stops_of_gap {gap : List Char} (hgap : ∀ c ∈ gap, isGap c = true) (hne : gap ≠ [])
    (rest : List Char) : Stops (gap ++ rest) := by
  obtain ⟨c, gap, rfl⟩ := List.exists_cons_of_ne_nil hne
  intro d hd
  cases hd
  rcases isGap_iff.1 (hgap c List.mem_cons_self) with rfl | rfl <;> simp

/-- A token that is spelled begins a line if nothing behind it could belong to it. -/
theorem Lexes.spelled {t : Token} {cs rest : List Char} {ts : List Token} (ht : t.Spelling cs)
    (hstops : Stops rest) (h : Lexes rest ts) : Lexes (cs ++ rest) (t :: ts) := by
  have htoken := scanToken_append (scanToken_of_spelling ht) hstops
  rw [List.nil_append] at htoken
  exact .token htoken h

theorem Printed.lexes {ts : List Token} {line : List Char} (h : Printed ts line) :
    Lexes line ts := by
  induction h with
  | nil => exact .finished rfl
  | single ht => exact .token (scanToken_of_spelling ht) (.finished rfl)
  | @cons t u ts rest cs gap ht hne hgap _ ih =>
    exact .spelled ht (stops_of_gap hgap hne rest) (ih.gaps hgap)

/-- Scanning takes back printing. Tokens can be printed exactly if they are as tokens have to be,
and whichever spellings are chosen and however many blanks stand between them, these tokens are
scanned. Every line that can be scanned at all has such tokens, so they can be printed and are
scanned again. -/
theorem scan_printed :
    (∀ ts, (∃ line, Printed ts line) ↔ ∀ t ∈ ts, t.WellFormed) ∧
    (∀ ts line, Printed ts line → scan line = .ok ts) ∧
    ∀ line ts, scan line = .ok ts → (∀ t ∈ ts, t.WellFormed) ∧
      ∃ line', Printed ts line' ∧ scan line' = .ok ts := by
  refine ⟨fun ts => ⟨?_, exists_printed⟩, fun ts line h => scan_eq_ok_iff.2 h.lexes, ?_⟩
  · rintro ⟨line, h⟩
    exact h.lexes.wellFormed
  · intro line ts h
    have hwell := (scan_eq_ok_iff.1 h).wellFormed
    obtain ⟨line', hline'⟩ := exists_printed hwell
    exact ⟨hwell, line', hline', scan_eq_ok_iff.2 hline'.lexes⟩

def mixedLine : List Char := "a:\t?e5 push.b  0X1f , '\\'' \"é\\\"\n\" .x".toList

def mixedTokens : List Token :=
  [.label "a", .condition 0xE5, .word "push.b", .number 31, .comma, .character 39, .text "é\"\n",
   .directive "x"]

set_option maxRecDepth 4000 in
theorem scan_printed_mixed :
    Printed mixedTokens mixedLine ∧ scan mixedLine = .ok mixedTokens ∧
      ∀ t ∈ mixedTokens, t.WellFormed := by
  have hblank : ∀ c ∈ [' '], isGap c = true := by simp [isGap]
  have hprinted : Printed mixedTokens mixedLine :=
    .cons "a:".toList ['\t'] (.label (by decide)) (by decide) (by simp [isGap]) <|
    .cons "?e5".toList [' '] (.condition rfl rfl) (by decide) hblank <|
    .cons "push.b".toList [' ', ' '] (.word (by decide)) (by decide) (by simp [isGap]) <|
    .cons "0X1f".toList [' ']
      (.hexadecimal (by decide) (.inr rfl) ⟨by decide, by simp; decide, rfl⟩) (by decide) hblank <|
    .cons [','] [' '] .comma (by decide) hblank <|
    .cons "'\\''".toList [' '] (.character (by decide)) (by decide) hblank <|
    .cons "\"é\\\"\n\"".toList [' '] (.text _) (by decide) hblank <|
    .single (.directive (by decide))
  obtain ⟨-, hscan, hback⟩ := scan_printed
  have hmixed := hscan mixedTokens mixedLine hprinted
  exact ⟨hprinted, hmixed, (hback mixedLine mixedTokens hmixed).1⟩

end ByteMachine.Assembly
