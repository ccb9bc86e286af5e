import ByteMachine.Proofs.Placement
import ByteMachine.Proofs.Scanning

/-!
How far ahead the scanner looks. A token that has been found is found again if a blank or a comment
comes to stand behind the text, whichever kinds of token are tried before it.
-/
namespace ByteMachine.Assembly

/-! ## What is found -/

theorem quotedChar?_cases {cs rest : List Char} {c : Char} (h : quotedChar? cs = some (c, rest)) :
    ∃ front, front ≠ [] ∧ cs = front ++ rest := by
  match cs with
  | [] => cases h
  | [d] =>
    have hrest : rest = [] := by
      by_cases hd : d = '\\' <;> simp [quotedChar?, hd] at h <;> exact h.2
    exact ⟨[d], List.cons_ne_nil _ _, by simp [hrest]⟩
  | d :: e :: cs =>
    by_cases hd : d = '\\'
    · cases he : unescape e with
      | none =>
        simp only [quotedChar?, hd, he, if_pos] at h
        cases h
        exact ⟨[d], List.cons_ne_nil _ _, rfl⟩
      | some f =>
        simp only [quotedChar?, hd, he, if_pos] at h
        cases h
        exact ⟨[d, e], List.cons_ne_nil _ _, rfl⟩
    · simp only [quotedChar?, hd, if_false] at h
      cases h
      exact ⟨[c], List.cons_ne_nil _ _, rfl⟩

theorem exists_cons_cons {front : List Char} (h : front ≠ []) (c : Char) (rest : List Char) :
    ∃ d e tail, front ++ c :: rest = d :: e :: tail := by
  match front with
  | [d] => exact ⟨d, c, rest, rfl⟩
  | d :: e :: front => exact ⟨d, e, front ++ c :: rest, rfl⟩

/-- Two characters are enough to tell what stands between single quotes. -/
theorem quotedChar?_append (d e : Char) (cs ext : List Char) :
    quotedChar? (d :: e :: cs ++ ext) =
      (quotedChar? (d :: e :: cs)).map fun found => (found.1, found.2 ++ ext) := by
  by_cases hd : d = '\\' <;> cases he : unescape e <;> simp [quotedChar?, hd, he]

theorem label?_eq_some_iff {cs rest : List Char} {t : Token} :
    label? cs = some (t, rest) ↔
      ∃ name, name? cs = some (name, ':' :: rest) ∧ t = .label name := by
  constructor
  · intro h
    unfold label? at h
    split at h
    · next name tail hname =>
      cases h
      exact ⟨name, hname, rfl⟩
    · cases h
  · rintro ⟨name, hname, rfl⟩
    simp only [label?, hname]

theorem word?_eq_some_iff {cs rest : List Char} {t : Token} :
    word? cs = some (t, rest) ↔ ∃ name, name? cs = some (name, rest) ∧ t = .word name := by
  constructor
  · intro h
    unfold word? at h
    split at h
    · next name tail hname =>
      cases h
      exact ⟨name, hname, rfl⟩
    · cases h
  · rintro ⟨name, hname, rfl⟩
    rw [word?, hname]

theorem directive?_eq_some_iff {cs rest : List Char} {t : Token} :
    directive? cs = some (t, rest) ↔
      ∃ name tail, cs = '.' :: tail ∧ name? tail = some (name, rest) ∧ t = .directive name := by
  constructor
  · intro h
    unfold directive? at h
    split at h
    · next tail =>
      split at h
      · next name rest hname =>
        cases h
        exact ⟨name, tail, rfl, hname, rfl⟩
      · cases h
    · cases h
  · rintro ⟨name, tail, rfl, hname, rfl⟩
    rw [directive?, hname]

theorem condition?_eq_some_iff {cs rest : List Char} {t : Token} :
    condition? cs = some (t, rest) ↔ ∃ a b high low, cs = '?' :: a :: b :: rest ∧
      Numeral.digitValue a = some high ∧ Numeral.digitValue b = some low ∧
      t = .condition (UInt8.ofNat (high * 16 + low)) := by
  constructor
  · intro h
    unfold condition? at h
    split at h
    · next a b tail =>
      split at h
      · next high low ha hb =>
        cases h
        exact ⟨a, b, high, low, rfl, ha, hb, rfl⟩
      · cases h
    · cases h
  · rintro ⟨a, b, high, low, rfl, ha, hb, rfl⟩
    simp only [condition?, ha, hb]

theorem character?_eq_some_iff {cs rest : List Char} {t : Token} :
    character? cs = some (t, rest) ↔ ∃ c tail, cs = '\'' :: tail ∧
      quotedChar? tail = some (c, '\'' :: rest) ∧ c.toNat < 0x80 ∧
      t = .character (UInt8.ofNat c.toNat) := by
  constructor
  · intro h
    unfold character? at h
    split at h
    · next tail =>
      split at h
      · next c rest hquoted =>
        split at h
        · next hc =>
          cases h
          exact ⟨c, tail, rfl, hquoted, hc, rfl⟩
        · cases h
      · cases h
    · cases h
  · rintro ⟨c, tail, rfl, hquoted, hc, rfl⟩
    simp only [character?, hquoted, if_pos hc]

theorem comma?_eq_some_iff {cs rest : List Char} {t : Token} :
    comma? cs = some (t, rest) ↔ cs = ',' :: rest ∧ t = .comma := by
  constructor
  · intro h
    unfold comma? at h
    split at h
    · cases h
      exact ⟨rfl, rfl⟩
    · cases h
  · rintro ⟨rfl, rfl⟩
    rfl

theorem digits?_eq_some_iff {base : Nat} (hbase : 0 < base) {cs rest : List Char} {t : Token} :
    digits? base cs = some (t, rest) ↔ ∃ n, n < Numeral.wordLimit ∧
      Numeral.Spells base (cs.takeWhile (Numeral.isDigitOf base)) n ∧
      rest = cs.dropWhile (Numeral.isDigitOf base) ∧ t = .number n := by
  constructor
  · intro h
    unfold digits? at h
    split at h
    · next n hn =>
      cases h
      obtain ⟨hword, hspells⟩ := (Numeral.readDigits_eq_some_iff hbase (by decide)).1 hn
      exact ⟨n, hword, hspells, rfl, rfl⟩
    · cases h
  · rintro ⟨n, hn, hspells, rfl, rfl⟩
    rw [digits?, hspells.readDigits_eq hbase hn]

/-! ## What may stand behind a line -/

/-- Nothing that could belong to the token before it: the end, a blank, or a comment. -/
def Stops (ext : List Char) : Prop :=
  ∀ c ∈ ext.head?, c ∈ [' ', '\t', ';']

theorem Stops.forall_head {ext : List Char} (h : Stops ext) {p : Char → Prop}
    (hp : p ' ' ∧ p '\t' ∧ p ';') : ∀ c ∈ ext.head?, p c := by
  intro c hc
  have hmem := h c hc
  simp only [List.mem_cons, List.not_mem_nil, or_false] at hmem
  rcases hmem with rfl | rfl | rfl
  · exact hp.1
  · exact hp.2.1
  · exact hp.2.2

/-- What is found in a text is found if something stands behind the text, which is left over. -/
def Steady {α : Type} (find : List Char → Option (α × List Char)) : Prop :=
  ∀ cs ext, Stops ext → find (cs ++ ext) = (find cs).map fun found => (found.1, found.2 ++ ext)

theorem Steady.orElse {α : Type} {f g : List Char → Option (α × List Char)} (hf : Steady f)
    (hg : Steady g) : Steady fun cs => f cs <|> g cs := by
  intro cs ext hext
  simp only [hf cs ext hext, hg cs ext hext]
  cases f cs <;> rfl

theorem takeWhile_append_of_head {kind : Char → Bool} (cs : List Char) {ext : List Char}
    (h : ∀ c ∈ ext.head?, kind c = false) : (cs ++ ext).takeWhile kind = cs.takeWhile kind := by
  induction cs with
  | nil => cases ext <;> simp_all
  | cons c cs ih => simp only [List.cons_append, List.takeWhile_cons, ih]

theorem dropWhile_append_of_head {kind : Char → Bool} (cs : List Char) {ext : List Char}
    (h : ∀ c ∈ ext.head?, kind c = false) :
    (cs ++ ext).dropWhile kind = cs.dropWhile kind ++ ext := by
  induction cs with
  | nil => cases ext <;> simp_all
  | cons c cs ih =>
    rw [List.cons_append, List.dropWhile_cons, List.dropWhile_cons, ih]
    split <;> rfl

theorem steady_name : Steady name? := by
  intro cs ext hext
  have hchar := hext.forall_head (p := fun c => isNameChar c = false) (by decide)
  cases cs with
  | nil =>
    cases ext with
    | nil => rfl
    | cons c ext =>
      have hc : isNameStart c = false :=
        hext.forall_head (p := fun c => isNameStart c = false) (by decide) c rfl
      simp [name?, hc]
  | cons c cs =>
    rw [List.cons_append, name?, name?, takeWhile_append_of_head cs hchar,
      dropWhile_append_of_head cs hchar]
    split <;> rfl

theorem steady_word : Steady word? := by
  intro cs ext hext
  rw [word?, word?, steady_name cs ext hext]
  cases name? cs <;> rfl

theorem steady_label : Steady label? := by
  intro cs ext hext
  rw [label?, label?, steady_name cs ext hext]
  cases name? cs with
  | none => rfl
  | some found =>
    obtain ⟨name, rest⟩ := found
    cases rest with
    | nil =>
      cases ext with
      | nil => rfl
      | cons c ext =>
        have hc : c ≠ ':' := hext.forall_head (p := (· ≠ ':')) (by decide) c rfl
        simp [hc]
    | cons c rest =>
      by_cases hc : c = ':' <;> simp [hc]

theorem steady_directive : Steady directive? := by
  intro cs ext hext
  cases cs with
  | nil =>
    cases ext with
    | nil => rfl
    | cons c ext =>
      have hc : c ≠ '.' := hext.forall_head (p := (· ≠ '.')) (by decide) c rfl
      exact directive?_of_ne hc ext
  | cons c cs =>
    by_cases hc : c = '.'
    · subst hc
      rw [List.cons_append, directive?, directive?, steady_name cs ext hext]
      cases name? cs <;> rfl
    · rw [List.cons_append, directive?_of_ne hc, directive?_of_ne hc]
      rfl

theorem steady_condition : Steady condition? := by
  intro cs ext hext
  have hdigit := hext.forall_head (p := fun c => Numeral.digitValue c = none) (by decide)
  match cs, ext with
  | [], [] => rfl
  | [], c :: ext =>
    have hc : c ≠ '?' := hext.forall_head (p := (· ≠ '?')) (by decide) c rfl
    exact condition?_of_ne hc ext
  | c :: cs, ext =>
    by_cases hc : c = '?'
    · subst hc
      match cs, ext with
      | [], [] => rfl
      | [], [a] => rfl
      | [], a :: b :: ext => simp [condition?, hdigit a rfl]
      | [a], [] => rfl
      | [a], b :: ext => cases ha : Numeral.digitValue a <;> simp [condition?, ha, hdigit b rfl]
      | a :: b :: cs, ext =>
        cases ha : Numeral.digitValue a <;> cases hb : Numeral.digitValue b <;>
          simp [condition?, ha, hb]
    · rw [List.cons_append, condition?_of_ne hc, condition?_of_ne hc]
      rfl

theorem steady_digits (base : Nat) : Steady (digits? base) := by
  intro cs ext hext
  have hdigit : ∀ c ∈ ext.head?, Numeral.isDigitOf base c = false := by
    intro c hc
    have hnone := hext.forall_head (p := fun c => Numeral.digitValue c = none) (by decide) c hc
    rw [Numeral.isDigitOf, hnone]
  rw [digits?, digits?, takeWhile_append_of_head cs hdigit, dropWhile_append_of_head cs hdigit]
  cases Numeral.readDigits base Numeral.wordLimit (cs.takeWhile (Numeral.isDigitOf base)) <;> rfl

theorem afterHexMark_append (cs : List Char) {ext : List Char} (hext : Stops ext) :
    Numeral.afterHexMark (cs ++ ext) = (Numeral.afterHexMark cs).map (· ++ ext) := by
  have hmark := hext.forall_head (p := fun c => c ≠ '0' ∧ c ≠ 'x' ∧ c ≠ 'X') (by decide)
  match cs, ext with
  | [], [] => rfl
  | [], c :: ext =>
    have hc := (hmark c rfl).1
    unfold Numeral.afterHexMark
    split <;> simp_all
  | [c], [] => simp [Numeral.afterHexMark]
  | [c], d :: ext =>
    obtain ⟨-, hx, hX⟩ := hmark d rfl
    unfold Numeral.afterHexMark
    split <;> simp_all
  | c :: d :: cs, ext =>
    simp only [List.cons_append]
    unfold Numeral.afterHexMark
    split <;> simp_all

theorem steady_number : Steady number? := by
  intro cs ext hext
  rw [number?, number?, afterHexMark_append cs hext, steady_digits 10 cs ext hext]
  cases Numeral.afterHexMark cs with
  | none => cases digits? 10 cs <;> rfl
  | some hex =>
    rw [Option.map_some, Option.bind_some, Option.bind_some,
      steady_digits 16 hex ext hext]
    cases digits? 16 hex <;> cases digits? 10 cs <;> rfl

theorem steady_comma : Steady comma? := by
  intro cs ext hext
  cases cs with
  | nil =>
    cases ext with
    | nil => rfl
    | cons c ext =>
      have hc : c ≠ ',' := hext.forall_head (p := (· ≠ ',')) (by decide) c rfl
      simp [comma?, hc]
  | cons c cs => by_cases hc : c = ',' <;> simp [comma?, hc]

/-- Between single quotes stand a character and what may not be missing behind it. -/
theorem character?_append {cs rest : List Char} {t : Token} (h : character? cs = some (t, rest))
    (ext : List Char) : character? (cs ++ ext) = some (t, rest ++ ext) := by
  obtain ⟨c, tail, rfl, hquoted, hc, rfl⟩ := character?_eq_some_iff.1 h
  obtain ⟨front, hfront, rfl⟩ := quotedChar?_cases hquoted
  obtain ⟨d, e, tail, htail⟩ := exists_cons_cons hfront '\'' rest
  rw [htail] at hquoted ⊢
  refine character?_eq_some_iff.2 ⟨c, d :: e :: tail ++ ext, rfl, ?_, hc, rfl⟩
  rw [quotedChar?_append, hquoted]
  rfl

/-- A character of a text that is neither a quote nor a backslash stands for itself. -/
theorem textFrom_cons {c : Char} (hquote : c ≠ '"') (hslash : c ≠ '\\')
    (opening seen cs : List Char) :
    textFrom opening seen (c :: cs) = textFrom opening (c :: seen) cs := by
  rw [textFrom]
  · exact hquote
  · exact fun h => absurd h hslash
  · exact fun _ _ h => absurd h hslash

/-- A backslash in a text is either its last character or has a character behind it. -/
theorem ne_backslash {c : Char} {cs : List Char} (hlast : c = '\\' → cs = [] → False)
    (hescape : ∀ d tail, c = '\\' → cs = d :: tail → False) : c ≠ '\\' := by
  intro hc
  cases cs with
  | nil => exact hlast hc rfl
  | cons d tail => exact hescape d tail hc rfl

theorem textFrom_append {opening seen cs rest : List Char} {text : String}
    (h : textFrom opening seen cs = .ok (text, rest)) (opening' ext : List Char) :
    textFrom opening' seen (cs ++ ext) = .ok (text, rest ++ ext) := by
  fun_induction textFrom opening seen cs with
  | case1 => cases h
  | case2 seen rest' =>
    cases h
    rfl
  | case3 => cases h
  | case4 seen c rest' d hd ih =>
    rw [List.cons_append, List.cons_append, textFrom, hd]
    exact ih h
  | case5 => cases h
  | case6 seen c rest' hquote hlast hescape ih =>
    rw [List.cons_append, textFrom_cons hquote (ne_backslash hlast hescape)]
    exact ih h

theorem scanToken_of_ne {c : Char} (h : c ≠ '"') (cs : List Char) :
    scanToken (c :: cs) = .ok (plainToken? (c :: cs)) := by
  unfold scanToken
  split
  · next heq =>
    cases heq
    exact absurd rfl h
  · rfl

theorem plainToken?_apostrophe (cs : List Char) :
    plainToken? ('\'' :: cs) = character? ('\'' :: cs) := by
  have hrest : (directive? ('\'' :: cs) <|> condition? ('\'' :: cs) <|> label? ('\'' :: cs) <|>
      number? ('\'' :: cs) <|> word? ('\'' :: cs) <|> comma? ('\'' :: cs)) = none := rfl
  rw [plainToken?, hrest]
  cases character? ('\'' :: cs) <;> rfl

/-- A token that begins a text begins what has the text in front of a blank or a comment too. -/
theorem scanToken_append {cs rest ext : List Char} {t : Token}
    (h : scanToken cs = .ok (some (t, rest))) (hext : Stops ext) :
    scanToken (cs ++ ext) = .ok (some (t, rest ++ ext)) := by
  have hsteady : Steady fun cs => directive? cs <|> condition? cs <|> label? cs <|> number? cs <|>
      word? cs <|> comma? cs :=
    steady_directive.orElse (steady_condition.orElse (steady_label.orElse
      (steady_number.orElse (steady_word.orElse steady_comma))))
  cases cs with
  | nil => cases h
  | cons c cs =>
    by_cases hquote : c = '"'
    · subst hquote
      obtain ⟨⟨text, left⟩, htext, h⟩ := exists_ok_of_bind h
      cases h
      have hlonger := textFrom_append htext ('"' :: (cs ++ ext)) ext
      simp only [List.cons_append, scanToken, hlonger]
      rfl
    · rw [scanToken_of_ne hquote] at h
      rw [List.cons_append, scanToken_of_ne hquote]
      have hfound := Except.ok.inj h
      by_cases happly : c = '\''
      · subst happly
        rw [plainToken?_apostrophe] at hfound ⊢
        exact congrArg Except.ok (character?_append hfound ext)
      · have hcharacter : ∀ tail, plainToken? (c :: tail) =
            (directive? (c :: tail) <|> condition? (c :: tail) <|> label? (c :: tail) <|>
              number? (c :: tail) <|> word? (c :: tail) <|> comma? (c :: tail)) := by
          intro tail
          rw [plainToken?, character?_of_ne happly]
          rfl
        rw [hcharacter] at hfound ⊢
        have hlonger := hsteady (c :: cs) ext hext
        simp only [hfound, Option.map_some] at hlonger
        exact congrArg Except.ok hlonger

end ByteMachine.Assembly
