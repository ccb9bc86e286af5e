import Mathlib.Data.List.TakeWhile
import Mathlib.Tactic.SplitIfs
import ByteMachine.Proofs.Tokens

/-!
Lines that are cut off. The first character of a token tells of which kind it is, and a token that
is found in a line is found again when the line is cut off somewhere behind it, unless the cut goes
through a name.
-/
namespace ByteMachine.Assembly

/-! ## Cutting a line off behind a token -/

theorem eq_append_of_append {cs ext rest : List Char} (front : List Char)
    (h : cs ++ ext = front ++ (rest ++ ext)) : cs = front ++ rest := by
  rw [← List.append_assoc] at h
  exact List.append_cancel_right h

/-- What is found in a text, and leaves `ext` over, is found without `ext` too. -/
def Local {α : Type} (find : List Char → Option (α × List Char)) : Prop :=
  ∀ cs ext a rest, find (cs ++ ext) = some (a, rest ++ ext) → find cs = some (a, rest)

theorem dropWhile_of_append {kind : Char → Bool} {cs ext rest : List Char}
    (h : (cs ++ ext).dropWhile kind = rest ++ ext) :
    (cs ++ ext).takeWhile kind = cs.takeWhile kind ∧ cs.dropWhile kind = rest := by
  induction cs with
  | nil =>
    have hsplit : [] ++ ext = ext.takeWhile kind ++ (rest ++ ext) := by
      rw [← h]
      exact List.takeWhile_append_dropWhile.symm
    obtain ⟨htake, hrest⟩ := List.append_eq_nil_iff.1 (eq_append_of_append _ hsplit).symm
    exact ⟨htake, hrest.symm⟩
  | cons c cs ih =>
    by_cases hc : kind c = true
    · rw [List.cons_append, List.dropWhile_cons_of_pos hc] at h
      rw [List.cons_append, List.takeWhile_cons_of_pos hc, List.takeWhile_cons_of_pos hc,
        List.dropWhile_cons_of_pos hc]
      exact ⟨congrArg _ (ih h).1, (ih h).2⟩
    · rw [List.cons_append, List.dropWhile_cons_of_neg hc] at h
      rw [List.cons_append, List.takeWhile_cons_of_neg hc, List.takeWhile_cons_of_neg hc,
        List.dropWhile_cons_of_neg hc]
      exact ⟨rfl, eq_append_of_append [] h⟩

theorem local_name : Local name? := by
  intro cs ext name rest h
  obtain ⟨hname, hsplit⟩ := name?_cases h
  obtain ⟨c, tail, hchars, -⟩ := hname.exists_cons
  obtain rfl := eq_append_of_append _ hsplit
  rw [hchars, List.cons_append, List.cons_append, name?] at h
  rw [hchars, List.cons_append, name?]
  split at h
  · next hstart =>
    obtain ⟨hchars, hdrop⟩ := Prod.mk.inj (Option.some.inj h)
    obtain ⟨htake, hrest⟩ := dropWhile_of_append hdrop
    rw [if_pos hstart, ← htake, hchars, hrest]
  · cases h

theorem local_directive : Local directive? := by
  intro cs ext t rest h
  obtain ⟨name, tail, hpoint, hname, rfl⟩ := directive?_eq_some_iff.1 h
  obtain ⟨-, rfl⟩ := name?_cases hname
  obtain rfl := eq_append_of_append ('.' :: name.toList) hpoint
  rw [← List.append_assoc] at hname
  exact directive?_eq_some_iff.2 ⟨name, _, rfl, local_name _ ext name rest hname, rfl⟩

theorem local_condition : Local condition? := by
  intro cs ext t rest h
  obtain ⟨a, b, high, low, hcs, ha, hb, rfl⟩ := condition?_eq_some_iff.1 h
  obtain rfl := eq_append_of_append ['?', a, b] hcs
  exact condition?_eq_some_iff.2 ⟨a, b, high, low, rfl, ha, hb, rfl⟩

theorem local_comma : Local comma? := by
  intro cs ext t rest h
  obtain ⟨hcs, rfl⟩ := comma?_eq_some_iff.1 h
  obtain rfl := eq_append_of_append [','] hcs
  rfl

theorem quotedChar?_of_append {cs ext rest : List Char} {c d : Char}
    (h : quotedChar? (cs ++ ext) = some (c, (d :: rest) ++ ext)) :
    quotedChar? cs = some (c, d :: rest) := by
  obtain ⟨front, hfront, hsplit⟩ := quotedChar?_cases h
  obtain ⟨e, f, tail, htail⟩ := exists_cons_cons hfront d rest
  obtain rfl := (eq_append_of_append _ hsplit).trans htail
  rw [quotedChar?_append] at h
  obtain ⟨⟨g, left⟩, hfound, hcut⟩ := Option.map_eq_some_iff.1 h
  obtain ⟨rfl, hleft⟩ := Prod.mk.inj hcut
  obtain rfl : left = d :: rest := List.append_cancel_right hleft
  exact hfound

theorem local_character : Local character? := by
  intro cs ext t rest h
  obtain ⟨c, tail, hcs, hquoted, hc, rfl⟩ := character?_eq_some_iff.1 h
  obtain ⟨front, -, rfl⟩ := quotedChar?_cases hquoted
  have hsplit : front ++ '\'' :: (rest ++ ext) = front ++ '\'' :: rest ++ ext := by simp
  rw [hsplit] at hcs hquoted
  obtain rfl := eq_append_of_append ['\''] hcs
  exact character?_eq_some_iff.2 ⟨c, _, rfl, quotedChar?_of_append hquoted, hc, rfl⟩

theorem local_digits {base : Nat} (hbase : 0 < base) : Local (digits? base) := by
  intro cs ext t rest h
  obtain ⟨n, hn, hspells, hdrop, rfl⟩ := (digits?_eq_some_iff hbase).1 h
  obtain ⟨htake, hrest⟩ := dropWhile_of_append hdrop.symm
  exact (digits?_eq_some_iff hbase).2 ⟨n, hn, htake ▸ hspells, hrest.symm, rfl⟩

/-- A label if a colon follows the name, else a word. -/
def named? (cs : List Char) : Option (Token × List Char) :=
  label? cs <|> word? cs

theorem named?_eq_some_iff {cs rest : List Char} {t : Token} :
    named? cs = some (t, rest) ↔ ∃ name,
      (name? cs = some (name, ':' :: rest) ∧ t = .label name) ∨
      (name? cs = some (name, rest) ∧ rest.head? ≠ some ':' ∧ t = .word name) := by
  constructor
  · intro h
    unfold named? at h
    cases hlabel : label? cs with
    | some found =>
      rw [hlabel] at h
      cases h
      obtain ⟨name, hname, rfl⟩ := label?_eq_some_iff.1 hlabel
      exact ⟨name, .inl ⟨hname, rfl⟩⟩
    | none =>
      rw [hlabel] at h
      obtain ⟨name, hname, rfl⟩ := word?_eq_some_iff.1 h
      refine ⟨name, .inr ⟨hname, fun hhead => ?_, rfl⟩⟩
      obtain ⟨tail, rfl⟩ := List.head?_eq_some_iff.1 hhead
      rw [label?_eq_some_iff.2 ⟨name, hname, rfl⟩] at hlabel
      cases hlabel
  · rintro ⟨name, ⟨hname, rfl⟩ | ⟨hname, hcolon, rfl⟩⟩
    · rw [named?, label?_eq_some_iff.2 ⟨name, hname, rfl⟩]
      rfl
    · have hlabel : label? cs = none := by
        rw [Option.eq_none_iff_forall_ne_some]
        rintro ⟨t, left⟩ hfound
        obtain ⟨name', hname', rfl⟩ := label?_eq_some_iff.1 hfound
        rw [hname] at hname'
        cases hname'
        exact hcolon rfl
      rw [named?, hlabel, word?_eq_some_iff.2 ⟨name, hname, rfl⟩]
      rfl

theorem named?_eq_none_iff {cs : List Char} : named? cs = none ↔ name? cs = none := by
  cases hname : name? cs <;> simp [named?, label?, word?, hname]

theorem local_named : Local named? := by
  intro cs ext t rest h
  obtain ⟨name, ⟨hname, rfl⟩ | ⟨hname, hcolon, rfl⟩⟩ := named?_eq_some_iff.1 h
  · exact named?_eq_some_iff.2 ⟨name, .inl ⟨local_name _ ext _ (':' :: rest) hname, rfl⟩⟩
  · refine named?_eq_some_iff.2 ⟨name, .inr ⟨local_name _ ext _ rest hname, fun hhead => ?_, rfl⟩⟩
    rw [List.head?_append, hhead] at hcolon
    exact hcolon rfl

/-! ## Names that follow -/

/-- A name that begins here is the same one with `ext` behind it. -/
def Detached (cs ext : List Char) : Prop :=
  ∀ name rest, name? cs = some (name, rest) → name? (cs ++ ext) = some (name, rest ++ ext)

theorem Detached.takeWhile_eq {c : Char} {cs ext : List Char} (h : Detached (c :: cs) ext)
    (hc : isNameStart c = true) :
    (cs ++ ext).takeWhile isNameChar = cs.takeWhile isNameChar := by
  have hname : name? (c :: cs) =
      some (String.ofList (c :: cs.takeWhile isNameChar), cs.dropWhile isNameChar) := by
    rw [name?, if_pos hc]
  have hlonger := h _ _ hname
  rw [List.cons_append, name?, if_pos hc] at hlonger
  exact (dropWhile_of_append (Prod.mk.inj (Option.some.inj hlonger)).2).1

theorem isNameChar_of_isDigitOf {base : Nat} {c : Char} (h : Numeral.isDigitOf base c = true) :
    isNameChar c = true := by
  have hall : ∀ n < 0x67, (Numeral.digitValue (Char.ofNat n)).isSome = true →
      isNameChar (Char.ofNat n) = true := by decide
  unfold Numeral.isDigitOf at h
  split at h
  · next d hd =>
    obtain ⟨-, hle⟩ := Numeral.bounds_of_digitValue hd
    rw [← Char.ofNat_toNat c] at hd ⊢
    exact hall c.toNat (by omega) (by rw [hd]; rfl)
  · cases h

theorem takeWhile_takeWhile_of_imp {p q : Char → Bool} (h : ∀ c, p c = true → q c = true)
    (cs : List Char) : (cs.takeWhile q).takeWhile p = cs.takeWhile p := by
  have hboth : (fun c => p c && q c) = p := by
    funext c
    rw [Bool.and_eq_left_iff_imp]
    exact h c
  rw [List.takeWhile_takeWhile]
  simp [hboth]

theorem digits?_eq_none_iff {base : Nat} {cs : List Char} : digits? base cs = none ↔
    Numeral.readDigits base Numeral.wordLimit (cs.takeWhile (Numeral.isDigitOf base)) = none := by
  unfold digits?
  split <;> simp [*]

/-- A number that is too large behind its mark is too large without `ext`, since its digits are all
in the name that the mark begins. -/
theorem digits?_of_detached {mark : Char} {hex ext : List Char} (hmark : mark = 'x' ∨ mark = 'X')
    (h : Detached (mark :: hex) ext) (hnone : digits? 16 (hex ++ ext) = none) :
    digits? 16 hex = none := by
  have hstart : isNameStart mark = true := by rcases hmark with rfl | rfl <;> rfl
  rw [digits?_eq_none_iff, ← takeWhile_takeWhile_of_imp fun c => isNameChar_of_isDigitOf] at hnone ⊢
  rwa [← h.takeWhile_eq hstart]

theorem number?_of_append {cs ext rest : List Char} {t : Token}
    (h : number? (cs ++ ext) = some (t, rest ++ ext)) (hrest : Detached rest ext) :
    number? cs = some (t, rest) := by
  unfold number? at h ⊢
  rcases Option.or_eq_some_iff.1 h with hhex | ⟨hhex, hdecimal⟩
  · obtain ⟨hex, hafter, hdigits⟩ := Option.bind_eq_some_iff.1 hhex
    obtain ⟨mark, hmark, hcs⟩ := Numeral.afterHexMark_eq_some_iff.1 hafter
    obtain ⟨-, front, -, rfl⟩ := takes_digits (by decide) _ _ _ hdigits
    obtain rfl := eq_append_of_append ('0' :: mark :: front) hcs
    rw [← List.append_assoc] at hdigits
    have hshorter : Numeral.afterHexMark ('0' :: mark :: front ++ rest) = some (front ++ rest) :=
      Numeral.afterHexMark_eq_some_iff.2 ⟨mark, hmark, rfl⟩
    rw [hshorter, Option.bind_some, local_digits (by decide) _ _ _ _ hdigits]
    rfl
  · have hdigits := local_digits (by decide) _ _ _ _ hdecimal
    have hnone : (Numeral.afterHexMark cs).bind (digits? 16) = none := by
      rw [Option.bind_eq_none_iff]
      intro hex hafter
      obtain ⟨mark, hmark, rfl⟩ := Numeral.afterHexMark_eq_some_iff.1 hafter
      have hlonger := Option.bind_eq_none_iff.1 hhex (hex ++ ext)
        (Numeral.afterHexMark_eq_some_iff.2 ⟨mark, hmark, rfl⟩)
      obtain ⟨n, -, -, rfl, -⟩ := (digits?_eq_some_iff (by decide)).1 hdigits
      have hdrop : ('0' :: mark :: hex).dropWhile (Numeral.isDigitOf 10) = mark :: hex := by
        rcases hmark with rfl | rfl <;> rfl
      exact digits?_of_detached hmark (hdrop ▸ hrest) hlonger
    rw [hnone, hdigits]
    rfl

/-! ## The kind of a token -/

/-- The one kind of token that a character can begin, among those without double quotes. -/
def kindAt (c : Char) : List Char → Option (Token × List Char) :=
  if c = '\'' then character?
  else if c = '.' then directive?
  else if c = '?' then condition?
  else if c = ',' then comma?
  else if isNameStart c then named?
  else number?

theorem comma?_of_ne {c : Char} (h : c ≠ ',') (cs : List Char) : comma? (c :: cs) = none := by
  rw [Option.eq_none_iff_forall_ne_some]
  rintro ⟨t, rest⟩ hfound
  exact h (List.cons.inj (comma?_eq_some_iff.1 hfound).1).1

theorem plainToken?_cons (c : Char) (cs : List Char) :
    plainToken? (c :: cs) = kindAt c (c :: cs) := by
  unfold kindAt
  split_ifs with happly hpoint hmark hcomma hstart
  · subst happly
    exact plainToken?_apostrophe cs
  · subst hpoint
    change (none <|> directive? ('.' :: cs) <|> none) = directive? ('.' :: cs)
    cases directive? ('.' :: cs) <;> rfl
  · subst hmark
    change (none <|> none <|> condition? ('?' :: cs) <|> none) = condition? ('?' :: cs)
    cases condition? ('?' :: cs) <;> rfl
  · subst hcomma
    rfl
  · rw [plainToken?, character?_of_ne happly, directive?_of_ne hpoint, condition?_of_ne hmark,
      comma?_of_ne hcomma, number?_of_isDigitOf (isPlain_of_isNameStart hstart).2, named?]
    cases label? (c :: cs) <;> cases word? (c :: cs) <;> rfl
  · rw [plainToken?, character?_of_ne happly, directive?_of_ne hpoint, condition?_of_ne hmark,
      comma?_of_ne hcomma]
    simp only [label?, word?, name?, if_neg hstart]
    cases number? (c :: cs) <;> rfl

/-- A token that is found in a line is found when the line is cut off behind it. -/
theorem kindAt_of_append {c : Char} {cs ext rest : List Char} {t : Token}
    (h : kindAt c (cs ++ ext) = some (t, rest ++ ext)) (hrest : Detached rest ext) :
    kindAt c cs = some (t, rest) := by
  unfold kindAt at h ⊢
  split_ifs at h ⊢
  · exact local_character cs ext t rest h
  · exact local_directive cs ext t rest h
  · exact local_condition cs ext t rest h
  · exact local_comma cs ext t rest h
  · exact local_named cs ext t rest h
  · exact number?_of_append h hrest

theorem textFrom_ne_append (opening seen ext rest : List Char) (text : String) :
    textFrom opening seen ext ≠ .ok (text, rest ++ ext) := by
  intro h
  obtain ⟨front, hfront, hsplit⟩ := exists_of_textFrom h
  have hnil : [] = front ++ rest := eq_append_of_append front hsplit
  exact hfront (List.append_eq_nil_iff.1 hnil.symm).1

theorem textFrom_of_append {opening seen cs ext rest : List Char} {text : String}
    (h : textFrom opening seen (cs ++ ext) = .ok (text, rest ++ ext)) (opening' : List Char) :
    textFrom opening' seen cs = .ok (text, rest) := by
  fun_induction textFrom opening' seen cs with
  | case1 seen => exact absurd h (textFrom_ne_append _ _ _ _ _)
  | case2 seen tail =>
    obtain ⟨rfl, hrest⟩ := Prod.mk.inj (Except.ok.inj h)
    rw [List.append_cancel_right hrest]
  | case3 seen =>
    cases ext with
    | nil => cases h
    | cons c ext =>
      rw [List.singleton_append, textFrom] at h
      split at h
      · have hsplit : rest ++ c :: ext = (rest ++ [c]) ++ ext := by simp
        rw [hsplit] at h
        exact absurd h (textFrom_ne_append _ _ _ _ _)
      · cases h
  | case4 seen c tail d hd ih =>
    rw [List.cons_append, List.cons_append, textFrom, hd] at h
    exact ih h
  | case5 seen c tail hd =>
    rw [List.cons_append, List.cons_append, textFrom, hd] at h
    cases h
  | case6 seen c tail hquote hlast hescape ih =>
    rw [List.cons_append, textFrom_cons hquote (ne_backslash hlast hescape)] at h
    exact ih h

theorem scanToken_of_append {cs ext rest : List Char} {t : Token}
    (h : scanToken (cs ++ ext) = .ok (some (t, rest ++ ext))) (hrest : Detached rest ext) :
    scanToken cs = .ok (some (t, rest)) := by
  obtain ⟨-, front, hfront, hsplit⟩ := scanToken_cases h
  obtain rfl := eq_append_of_append _ hsplit
  obtain ⟨c, front, rfl⟩ := List.exists_cons_of_ne_nil hfront
  by_cases hquote : c = '"'
  · subst hquote
    obtain ⟨⟨text, left⟩, htext, hok⟩ := exists_ok_of_bind h
    cases hok
    have hshorter : textFrom ('"' :: (front ++ rest)) [] (front ++ rest) = .ok (text, rest) :=
      textFrom_of_append htext _
    rw [List.cons_append, scanToken, hshorter]
    rfl
  · rw [List.cons_append, List.cons_append, scanToken_of_ne hquote, plainToken?_cons] at h
    rw [List.cons_append, scanToken_of_ne hquote, plainToken?_cons]
    exact congrArg Except.ok (kindAt_of_append (Except.ok.inj h) hrest)

theorem scanToken_of_isNameStart {c : Char} (h : isNameStart c = true) (cs : List Char) :
    scanToken (c :: cs) = .ok (named? (c :: cs)) := by
  obtain ⟨hplain, hdigit⟩ := isPlain_of_isNameStart h
  have hcomma : c ≠ ',' := by
    rintro rfl
    cases h
  rw [scanToken_of_isPlain hplain, number?_of_isDigitOf hdigit, comma?_of_ne hcomma, named?]
  cases label? (c :: cs) <;> cases word? (c :: cs) <;> rfl

/-- The cut behind a token that is found does not go through a name at the beginning. -/
theorem detached_of_scanToken {cs ext rest : List Char} {t : Token}
    (h : scanToken (cs ++ ext) = .ok (some (t, rest ++ ext))) : Detached cs ext := by
  intro name left hname
  have hlonger : ∃ name' left', name? (cs ++ ext) = some (name', left' ++ ext) := by
    obtain ⟨hchars, hsplit⟩ := name?_cases hname
    obtain ⟨c, tail, hchars, hstart, -⟩ := hchars.exists_cons
    rw [hsplit, hchars, List.cons_append, List.cons_append, scanToken_of_isNameStart hstart] at h
    rw [hsplit, hchars]
    obtain ⟨name', ⟨hfound, -⟩ | ⟨hfound, -⟩⟩ := named?_eq_some_iff.1 (Except.ok.inj h)
    · exact ⟨name', ':' :: rest, hfound⟩
    · exact ⟨name', rest, hfound⟩
  obtain ⟨name', left', hfound⟩ := hlonger
  have hsame := (local_name cs ext name' left' hfound).symm.trans hname
  obtain ⟨rfl, rfl⟩ := Prod.mk.inj (Option.some.inj hsame)
  exact hfound

end ByteMachine.Assembly
