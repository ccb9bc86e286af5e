import ByteMachine.Proofs.Truncation

/-!
Where scanning fails. The scanner reads the tokens of a line up to something that it does not get
past. Either no token begins there, or a text is opened that is never closed, or there is a
backslash in a text that makes no escape.
-/
namespace ByteMachine.Assembly

/-! ## The way of the scanner -/

/-- The scanner reads tokens off a line and comes to what is left of it. -/
inductive Reaches : List Char → List Token → List Char → Prop where
  | here {cs : List Char} : Reaches cs [] cs
  | gap {c : Char} {cs rest : List Char} {ts : List Token} :
      isGap c = true → Reaches cs ts rest → Reaches (c :: cs) ts rest
  | token {cs next rest : List Char} {t : Token} {ts : List Token} :
      scanToken cs = .ok (some (t, next)) → Reaches next ts rest → Reaches cs (t :: ts) rest

/-- What the scanner does not get past, with the error for it. -/
inductive Halts : List Char → ScanError → Prop where
  | stuck {rest : List Char} : rest ≠ [] → (∀ c ∈ rest.head?, c ∉ [' ', '\t', ';']) →
      scanToken rest = .ok none → Halts rest (.stuck rest)
  | broken {rest : List Char} {e : ScanError} : scanToken rest = .error e → Halts rest e

theorem Reaches.gaps {gap cs rest : List Char} {ts : List Token}
    (hgap : ∀ c ∈ gap, isGap c = true) (h : Reaches cs ts rest) : Reaches (gap ++ cs) ts rest := by
  induction gap with
  | nil => exact h
  | cons c gap ih =>
    obtain ⟨hc, hgap⟩ := List.forall_mem_cons.1 hgap
    exact .gap hc (ih hgap)

theorem reaches_of_scanFrom {fuel : Nat} {seen : List Token} {cs : List Char} {e : ScanError}
    (hfuel : cs.length < fuel) (h : scanFrom fuel seen cs = .error e) :
    ∃ ts rest, Reaches cs ts rest ∧ Halts rest e := by
  induction fuel generalizing seen cs with
  | zero => exact absurd hfuel (Nat.not_lt_zero _)
  | succ fuel ih =>
    have hsplit : cs = cs.takeWhile isGap ++ cs.dropWhile isGap :=
      List.takeWhile_append_dropWhile.symm
    have hgap : ∀ c ∈ cs.takeWhile isGap, isGap c = true := List.all_eq_true.1 List.all_takeWhile
    have hhead := List.head?_dropWhile_not isGap cs
    rw [scanFrom] at h
    generalize cs.takeWhile isGap = gap at hsplit hgap
    generalize cs.dropWhile isGap = tail at h hsplit hhead
    subst hsplit
    cases hfound : scanToken tail with
    | error broken =>
      simp only [hfound] at h
      cases h
      exact ⟨[], tail, Reaches.here.gaps hgap, .broken hfound⟩
    | ok found =>
      simp only [hfound] at h
      cases found with
      | none =>
        cases hfinished : isFinished tail with
        | true =>
          simp only [hfinished] at h
          cases h
        | false =>
          simp only [hfinished] at h
          cases h
          refine ⟨[], tail, Reaches.here.gaps hgap, .stuck ?_ ?_ hfound⟩
          · rintro rfl
            cases hfinished
          · intro c hc
            obtain ⟨tail, rfl⟩ := List.head?_eq_some_iff.1 hc
            simp_all [isFinished, isGap]
      | some found =>
        obtain ⟨t, next⟩ := found
        have hlength := length_lt_of_scanToken hfound
        rw [List.length_append] at hfuel
        obtain ⟨ts, rest, hreaches, hhalts⟩ := ih (by omega) h
        exact ⟨t :: ts, rest, (Reaches.token hfound hreaches).gaps hgap, hhalts⟩

theorem Reaches.scanFrom_eq {cs rest : List Char} {ts : List Token} (h : Reaches cs ts rest)
    {fuel : Nat} (hfuel : cs.length < fuel) (seen : List Token) : ∃ left, rest.length < left ∧
      scanFrom fuel seen cs = scanFrom left (ts.reverse ++ seen) rest := by
  induction h generalizing fuel seen with
  | here => exact ⟨fuel, hfuel, rfl⟩
  | gap hc _ ih =>
    obtain ⟨fuel, rfl⟩ := Nat.exists_eq_add_one_of_ne_zero (Nat.ne_zero_of_lt hfuel)
    rw [scanFrom_gap hc]
    exact ih (Nat.lt_of_succ_lt hfuel) seen
  | token htoken _ ih =>
    obtain ⟨fuel, rfl⟩ := Nat.exists_eq_add_one_of_ne_zero (Nat.ne_zero_of_lt hfuel)
    have hlength := length_lt_of_scanToken htoken
    rw [scanFrom_of_scanToken htoken, List.reverse_cons, List.append_assoc]
    exact ih (by omega) _

theorem Halts.scanFrom_eq {rest : List Char} {e : ScanError} (h : Halts rest e) (fuel : Nat)
    (seen : List Token) : scanFrom (fuel + 1) seen rest = .error e := by
  cases h with
  | stuck hne hhead htoken =>
    obtain ⟨c, rest, rfl⟩ := List.exists_cons_of_ne_nil hne
    have hc := hhead c rfl
    simp only [List.mem_cons, List.not_mem_nil, or_false, not_or] at hc
    have hgap : ¬ isGap c = true := by simp [isGap, hc]
    have hfinished : isFinished (c :: rest) = false := by simp [isFinished, hc]
    simp only [scanFrom, List.dropWhile_cons_of_neg hgap, htoken, hfinished]
    rfl
  | broken htoken =>
    cases rest with
    | nil => cases htoken
    | cons c rest =>
      have hgap : ¬ isGap c = true := by
        intro hgap
        rw [scanToken_of_isGap hgap] at htoken
        cases htoken
      simp only [scanFrom, List.dropWhile_cons_of_neg hgap, htoken]
      rfl

/-- A line is refused exactly where the scanner comes to something that it does not get past. -/
theorem scan_eq_error_iff {line : List Char} {e : ScanError} :
    scan line = .error e ↔ ∃ ts rest, Reaches line ts rest ∧ Halts rest e := by
  constructor
  · exact reaches_of_scanFrom (Nat.lt_succ_self line.length)
  · rintro ⟨ts, rest, hreaches, hhalts⟩
    obtain ⟨left, hleft, heq⟩ := hreaches.scanFrom_eq (Nat.lt_succ_self line.length) []
    obtain ⟨left, rfl⟩ := Nat.exists_eq_add_one_of_ne_zero (Nat.ne_zero_of_lt hleft)
    rw [scan, heq]
    exact hhalts.scanFrom_eq left _

/-- The line in front of what the scanner does not get past is scanned as the tokens read so far. -/
theorem Reaches.exists_front {line rest : List Char} {ts : List Token} (h : Reaches line ts rest) :
    ∃ front, line = front ++ rest ∧ Lexes front ts ∧ Detached front rest := by
  induction h with
  | here => exact ⟨[], rfl, .finished rfl, nofun⟩
  | @gap c cs rest ts hc _ ih =>
    obtain ⟨front, rfl, hlexes, -⟩ := ih
    refine ⟨c :: front, rfl, .gap hc hlexes, fun name left hname => ?_⟩
    have hstart : isNameStart c = false := by
      rcases isGap_iff.1 hc with rfl | rfl <;> rfl
    simp [name?, hstart] at hname
  | token htoken _ ih =>
    obtain ⟨front, rfl, hlexes, hdetached⟩ := ih
    obtain ⟨-, chars, -, rfl⟩ := scanToken_cases htoken
    rw [← List.append_assoc] at htoken
    exact ⟨chars ++ front, (List.append_assoc _ _ _).symm,
      .token (scanToken_of_append htoken hdetached) hlexes, detached_of_scanToken htoken⟩

/-! ## Texts -/

def escapes : List Char := ['n', 't', 'r', '0', '\\', '\'', '"']

theorem unescape_eq_none_iff {c : Char} : unescape c = none ↔ c ∉ escapes := by
  unfold unescape escapes
  grind

/-- The inside of a text that has not been closed: each of its quotes is part of an escape, and
every backslash makes one. -/
inductive Open : List Char → Prop where
  | nil : Open []
  | escape {c : Char} {cs : List Char} : c ∈ escapes → Open cs → Open ('\\' :: c :: cs)
  | plain {c : Char} {cs : List Char} : c ≠ '"' → c ≠ '\\' → Open cs → Open (c :: cs)

inductive Breaks (opening : List Char) : List Char → ScanError → Prop where
  | unclosed {body : List Char} : Open body → Breaks opening body (.unclosed opening)
  | badEscape {body tail : List Char} : Open body → (∀ c ∈ tail.head?, c ∉ escapes) →
      Breaks opening (body ++ '\\' :: tail) (.badEscape ('\\' :: tail))

theorem Breaks.escape {opening cs : List Char} {c : Char} {e : ScanError} (hc : c ∈ escapes)
    (h : Breaks opening cs e) : Breaks opening ('\\' :: c :: cs) e := by
  cases h with
  | unclosed hbody => exact .unclosed (.escape hc hbody)
  | badEscape hbody htail => exact .badEscape (.escape hc hbody) htail

theorem Breaks.plain {opening cs : List Char} {c : Char} {e : ScanError} (hquote : c ≠ '"')
    (hslash : c ≠ '\\') (h : Breaks opening cs e) : Breaks opening (c :: cs) e := by
  cases h with
  | unclosed hbody => exact .unclosed (.plain hquote hslash hbody)
  | badEscape hbody htail => exact .badEscape (.plain hquote hslash hbody) htail

theorem breaks_of_textFrom {opening seen cs : List Char} {e : ScanError}
    (h : textFrom opening seen cs = .error e) : Breaks opening cs e := by
  fun_induction textFrom opening seen cs with
  | case1 seen =>
    cases h
    exact .unclosed .nil
  | case2 seen tail => cases h
  | case3 seen =>
    cases h
    refine .badEscape .nil fun d hc => ?_
    cases hc
  | case4 seen c tail d hd ih =>
    have hc : c ∈ escapes := by
      apply Decidable.byContradiction
      intro hc
      rw [unescape_eq_none_iff.2 hc] at hd
      cases hd
    exact (ih h).escape hc
  | case5 seen c tail hd =>
    cases h
    refine .badEscape .nil fun d hc => ?_
    cases hc
    exact unescape_eq_none_iff.1 hd
  | case6 seen c tail hquote hlast hescape ih =>
    exact (ih h).plain hquote (ne_backslash hlast hescape)

/-! ## Where no token begins -/

def kinds : List (List Char → Option (Token × List Char)) :=
  [character?, directive?, condition?, label?, number?, word?, comma?]

theorem plainToken?_eq_none_iff {cs : List Char} :
    plainToken? cs = none ↔ ∀ find ∈ kinds, find cs = none := by
  simp [plainToken?, kinds]

/-- No token begins here, and nothing that this begins with would be a token if it stood alone,
apart from the first digits of a number that is too large for a word. -/
structure NoToken (input : List Char) : Prop where
  not_quoted : input.head? ≠ some '"'
  not_found : ∀ find ∈ kinds, find input = none
  not_scanned : scanToken input = .ok none
  too_large : ∀ front t, front <+: input → scanToken front = .ok (some (t, [])) →
    Numeral.wordLimit ≤ Numeral.valueOf 10 (input.takeWhile (Numeral.isDigitOf 10))

theorem exists_name?_append {cs rest : List Char} {name : String}
    (h : name? cs = some (name, rest)) (ext : List Char) :
    ∃ found, name? (cs ++ ext) = some found := by
  obtain ⟨hchars, hsplit⟩ := name?_cases h
  obtain ⟨c, tail, hchars, hstart, -⟩ := hchars.exists_cons
  rw [hsplit, hchars, List.cons_append, List.cons_append, name?, if_pos hstart]
  exact ⟨_, rfl⟩

/-- If a token is found, but none with something behind it, then it is a number. -/
theorem number?_of_kindAt {c : Char} {cs ext rest : List Char} {t : Token}
    (h : kindAt c cs = some (t, rest)) (hext : kindAt c (cs ++ ext) = none) :
    number? cs = some (t, rest) ∧ number? (cs ++ ext) = none := by
  unfold kindAt at h hext
  split_ifs at h hext
  · rw [character?_append h] at hext
    cases hext
  · obtain ⟨name, tail, rfl, hname, rfl⟩ := directive?_eq_some_iff.1 h
    obtain ⟨found, hfound⟩ := exists_name?_append hname ext
    rw [List.cons_append, directive?, hfound] at hext
    cases hext
  · obtain ⟨a, b, high, low, rfl, ha, hb, rfl⟩ := condition?_eq_some_iff.1 h
    simp only [List.cons_append, condition?, ha, hb] at hext
    cases hext
  · obtain ⟨rfl, rfl⟩ := comma?_eq_some_iff.1 h
    cases hext
  · cases hname : name? cs with
    | none =>
      rw [named?_eq_none_iff.2 hname] at h
      cases h
    | some found =>
      obtain ⟨longer, hlonger⟩ := exists_name?_append hname ext
      rw [named?_eq_none_iff, hlonger] at hext
      cases hext
  · exact ⟨h, hext⟩

theorem wordLimit_le_of_number? {c : Char} {cs ext rest : List Char} {t : Token}
    (h : number? (c :: cs) = some (t, rest)) (hext : number? (c :: cs ++ ext) = none) :
    Numeral.wordLimit ≤ Numeral.valueOf 10 ((c :: cs ++ ext).takeWhile (Numeral.isDigitOf 10)) := by
  have hdigit : Numeral.isDigitOf 10 c = true := by
    rw [← Bool.not_eq_false]
    intro hc
    rw [number?_of_isDigitOf hc] at h
    cases h
  have hdigits := digits?_eq_none_iff.1 (Option.or_eq_none_iff.1 hext).2
  apply Nat.le_of_not_lt
  intro hlt
  have hspells : Numeral.Spells 10 ((c :: cs ++ ext).takeWhile (Numeral.isDigitOf 10)) _ :=
    ⟨by simp [hdigit], List.all_eq_true.1 List.all_takeWhile, rfl⟩
  rw [hspells.readDigits_eq (by decide) hlt] at hdigits
  cases hdigits

theorem plainToken?_of_scanToken {cs : List Char} (h : scanToken cs = .ok none) :
    cs.head? ≠ some '"' ∧ plainToken? cs = none := by
  cases cs with
  | nil => exact ⟨nofun, rfl⟩
  | cons c cs =>
    by_cases hquote : c = '"'
    · subst hquote
      obtain ⟨⟨text, rest⟩, -, hfound⟩ := exists_ok_of_bind h
      cases hfound
    · rw [scanToken_of_ne hquote] at h
      exact ⟨by simpa using hquote, Except.ok.inj h⟩

theorem noToken_of_scanToken {input : List Char} (h : scanToken input = .ok none) :
    NoToken input := by
  obtain ⟨hquote, hplain⟩ := plainToken?_of_scanToken h
  refine ⟨hquote, plainToken?_eq_none_iff.1 hplain, h, ?_⟩
  rintro front t ⟨ext, rfl⟩ hfront
  cases front with
  | nil => cases hfront
  | cons c front =>
    have hc : c ≠ '"' := fun hc => hquote (congrArg some hc)
    rw [scanToken_of_ne hc, plainToken?_cons] at hfront
    rw [List.cons_append, plainToken?_cons, ← List.cons_append] at hplain
    obtain ⟨hnumber, hext⟩ := number?_of_kindAt (Except.ok.inj hfront) hplain
    exact wordLimit_le_of_number? hnumber hext

/-! ## Refused lines -/

/-- Lines that the scanner may refuse, each with its error. -/
inductive Refused : List Char → ScanError → Prop where
  | stuck {front input : List Char} {ts : List Token} : scan front = .ok ts → input ≠ [] →
      (∀ c ∈ input.head?, c ∉ [' ', '\t', ';']) → NoToken input →
      Refused (front ++ input) (.stuck input)
  | unclosed {front body : List Char} {ts : List Token} : scan front = .ok ts → Open body →
      Refused (front ++ '"' :: body) (.unclosed ('"' :: body))
  | badEscape {front body tail : List Char} {ts : List Token} : scan front = .ok ts → Open body →
      (∀ c ∈ tail.head?, c ∉ escapes) →
      Refused (front ++ '"' :: (body ++ '\\' :: tail)) (.badEscape ('\\' :: tail))

theorem Refused.rest_suffix {line : List Char} {e : ScanError} (h : Refused line e) :
    e.rest <:+ line := by
  cases h with
  | stuck => exact List.suffix_append _ _
  | unclosed => exact List.suffix_append _ _
  | @badEscape front body tail =>
    exact ⟨front ++ '"' :: body, by simp [ScanError.rest]⟩

theorem breaks_of_scanToken {cs : List Char} {e : ScanError} (h : scanToken cs = .error e) :
    ∃ body, cs = '"' :: body ∧ Breaks cs body e := by
  cases cs with
  | nil => cases h
  | cons c body =>
    by_cases hquote : c = '"'
    · subst hquote
      refine ⟨body, rfl, ?_⟩
      cases htext : textFrom ('"' :: body) [] body with
      | ok found =>
        rw [scanToken, htext] at h
        cases h
      | error broken =>
        rw [scanToken, htext] at h
        cases h
        exact breaks_of_textFrom htext
    · rw [scanToken_of_ne hquote] at h
      cases h

theorem refused_of_halts {front rest : List Char} {ts : List Token} {e : ScanError}
    (hfront : scan front = .ok ts) (h : Halts rest e) : Refused (front ++ rest) e := by
  cases h with
  | stuck hne hhead htoken => exact .stuck hfront hne hhead (noToken_of_scanToken htoken)
  | broken htoken =>
    obtain ⟨body, rfl, hbreaks⟩ := breaks_of_scanToken htoken
    cases hbreaks with
    | unclosed hbody => exact .unclosed hfront hbody
    | badEscape hbody htail => exact .badEscape hfront hbody htail

/-- A line is refused in three ways only, and the error holds the end of the line from the fault
on. What is in front of the fault, or of the text that the fault is in, can be scanned alone. -/
theorem scan_error_exact {line : List Char} {e : ScanError} (h : scan line = .error e) :
    e.rest <:+ line ∧ Refused line e := by
  obtain ⟨ts, rest, hreaches, hhalts⟩ := scan_eq_error_iff.1 h
  obtain ⟨front, rfl, hlexes, -⟩ := hreaches.exists_front
  have hrefused := refused_of_halts (scan_eq_ok_iff.2 hlexes) hhalts
  exact ⟨hrefused.rest_suffix, hrefused⟩

/-- A number that is too large for a word, right behind a condition. -/
def overflowingLine : List Char := "a: 'b' ?e518446744073709551616".toList

/-- A text whose last quote is part of an escape. -/
def unclosedLine : List Char := "push 0x1f, \"b\\\" ; c".toList

/-- A text with an escape and with a backslash that makes none. -/
def misspeltLine : List Char := ".ascii \"b\" \"\\n\\x\"".toList

theorem scan_error_exact_samples :
    (scan overflowingLine = .error (.stuck "18446744073709551616".toList) ∧
      Refused overflowingLine (.stuck "18446744073709551616".toList)) ∧
    (scan unclosedLine = .error (.unclosed "\"b\\\" ; c".toList) ∧
      Refused unclosedLine (.unclosed "\"b\\\" ; c".toList)) ∧
    scan misspeltLine = .error (.badEscape "\\x\"".toList) ∧
      Refused misspeltLine (.badEscape "\\x\"".toList) := by
  have hstuck : scan overflowingLine = .error (.stuck "18446744073709551616".toList) := rfl
  have hunclosed : scan unclosedLine = .error (.unclosed "\"b\\\" ; c".toList) := rfl
  have hescape : scan misspeltLine = .error (.badEscape "\\x\"".toList) := rfl
  exact ⟨⟨hstuck, (scan_error_exact hstuck).2⟩, ⟨hunclosed, (scan_error_exact hunclosed).2⟩,
    hescape, (scan_error_exact hescape).2⟩

end ByteMachine.Assembly
