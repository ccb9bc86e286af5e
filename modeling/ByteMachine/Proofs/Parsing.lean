import ByteMachine.Proofs.Placement

/-!
How the lines of a source become statements.
-/
namespace ByteMachine.Assembly

/-- A statement is what its tokens say in order: a label, conditions if the body is an instruction,
and the body. -/
theorem parseStatement_eq_ok_iff {line : Nat} {tokens : List Token} {s : Statement} :
    parseStatement line tokens = .ok s ↔
      s.line = line ∧ (splitLabel tokens).1 = s.label ∧
        (s.prefixes = [] ∨ s.body.isInstruction = true) ∧
        ∃ rest, parsePrefixes (splitLabel tokens).2 = .ok (s.prefixes, rest) ∧
          parseBody rest = .ok s.body := by
  unfold parseStatement
  generalize splitLabel tokens = parts
  constructor
  · intro h
    obtain ⟨⟨prefixes, rest⟩, hprefixes, h⟩ := exists_ok_of_bind h
    obtain ⟨body, hbody, h⟩ := exists_ok_of_bind h
    split at h
    · cases h
    · next hstray =>
      cases h
      refine ⟨rfl, rfl, ?_, rest, hprefixes, hbody⟩
      simpa [Decidable.or_iff_not_imp_left] using hstray
  · obtain ⟨number, label, prefixes, body⟩ := s
    rintro ⟨rfl, rfl, hstray, rest, hprefixes, hbody⟩
    have hno : ¬ (!prefixes.isEmpty && !body.isInstruction) = true := by
      rcases hstray with rfl | hbody <;> simp_all
    simp only [hprefixes, hbody, bind, Except.bind, if_neg hno]
    rfl

/-- The prefixes are the conditions at the front, and what is left begins with something else. -/
theorem parsePrefixes_eq_ok_iff {tokens rest : List Token} {prefixes : List UInt8} :
    parsePrefixes tokens = .ok (prefixes, rest) ↔
      tokens = prefixes.map .condition ++ rest ∧ (∀ b ∈ prefixes, isConditional b = true) ∧
        ∀ b, rest.head? ≠ some (.condition b) := by
  constructor
  · intro h
    fun_induction parsePrefixes tokens generalizing prefixes with
    | case1 b ts hb ih =>
      obtain ⟨⟨bs, left⟩, hts, h⟩ := exists_ok_of_bind h
      cases h
      obtain ⟨rfl, hprefixes, hrest⟩ := ih hts
      exact ⟨rfl, List.forall_mem_cons.2 ⟨hb, hprefixes⟩, hrest⟩
    | case2 b ts hb => cases h
    | case3 ts hts =>
      cases h
      refine ⟨rfl, nofun, fun b hb => ?_⟩
      obtain ⟨left, rfl⟩ := List.head?_eq_some_iff.1 hb
      exact hts b left rfl
  · rintro ⟨rfl, hprefixes, hrest⟩
    induction prefixes with
    | nil =>
      rw [List.map_nil, List.nil_append, parsePrefixes.eq_def]
      split
      · exact absurd rfl (hrest _)
      · rfl
    | cons b prefixes ih =>
      obtain ⟨hb, hprefixes⟩ := List.forall_mem_cons.1 hprefixes
      rw [List.map_cons, List.cons_append, parsePrefixes, if_pos hb, ih hprefixes]
      rfl

/-- The label is the one at the front, and without one the tokens begin with something else. -/
theorem splitLabel_eq_iff {tokens rest : List Token} {label : Option String} :
    splitLabel tokens = (label, rest) ↔
      tokens = label.toList.map .label ++ rest ∧
        (label = none → ∀ name, rest.head? ≠ some (.label name)) := by
  constructor
  · intro h
    unfold splitLabel at h
    split at h
    · cases h
      exact ⟨rfl, nofun⟩
    · next hts =>
      cases h
      refine ⟨rfl, fun _ name hname => ?_⟩
      obtain ⟨left, rfl⟩ := List.head?_eq_some_iff.1 hname
      exact hts name left rfl
  · rintro ⟨rfl, hrest⟩
    cases label with
    | some name => rfl
    | none =>
      unfold splitLabel
      split
      · next hts =>
        rw [Option.toList_none, List.map_nil, List.nil_append] at hts
        subst hts
        exact absurd rfl (hrest rfl _)
      · rfl

theorem parseStatement_of_line {line : Nat} {tokens : List Token} {s : Statement}
    (h : parseStatement line tokens = .ok s) (line' : Nat) :
    parseStatement line' tokens = .ok { s with line := line' } := by
  obtain ⟨-, hrest⟩ := parseStatement_eq_ok_iff.1 h
  exact parseStatement_eq_ok_iff.2 ⟨rfl, hrest⟩

theorem parseLine_eq_ok_iff {number : Nat} {line : List Char} {s : Statement} :
    parseLine number line = .ok s ↔
      ∃ tokens, scan line = .ok tokens ∧ parseStatement number tokens = .ok s := by
  unfold parseLine
  cases scan line with
  | error e => exact ⟨nofun, nofun⟩
  | ok tokens =>
    constructor
    · intro h
      exact ⟨tokens, rfl, h⟩
    · rintro ⟨_, ⟨⟩, h⟩
      exact h

theorem line_of_parseLine {number : Nat} {line : List Char} {s : Statement}
    (h : parseLine number line = .ok s) : s.line = number := by
  obtain ⟨tokens, -, hparse⟩ := parseLine_eq_ok_iff.1 h
  exact (parseStatement_eq_ok_iff.1 hparse).1

/-! ## Properties -/

def Owner.directive : Owner → String
  | page => "property"
  | program => "module"

theorem parseProperty_eq_ok_iff {owner : Owner} {ts : List Token} {body : Body} :
    parseProperty owner ts = .ok body ↔ ∃ name t value, ts = [.word name, t] ∧
      t.argument? = some value ∧ body = .property owner name value := by
  constructor
  · intro h
    unfold parseProperty at h
    split at h
    · cases h
    · next name t ts =>
      cases hvalue : t.argument? with
      | none => simp [hvalue] at h
      | some value =>
        simp only [hvalue] at h
        cases ts with
        | nil =>
          cases h
          exact ⟨name, t, value, rfl, hvalue, rfl⟩
        | cons u us => cases h
    · cases h
  · rintro ⟨name, t, value, rfl, hvalue, rfl⟩
    simp only [parseProperty, hvalue]

/-- A body is a property if its tokens are the directive for it, a name and a value. -/
theorem parseBody_eq_property_iff {ts : List Token} {owner : Owner} {name : String}
    {value : Argument} : parseBody ts = .ok (.property owner name value) ↔
      ∃ t, ts = [.directive owner.directive, .word name, t] ∧ t.argument? = some value := by
  constructor
  · intro h
    unfold parseBody at h
    split at h
    · cases h
    · split at h
      · cases h
      · obtain ⟨arguments, -, h⟩ := exists_ok_of_bind h
        cases h
    · split at h
      · next hname =>
        obtain ⟨_, t, _, rfl, hvalue, heq⟩ := parseProperty_eq_ok_iff.1 h
        cases heq
        exact ⟨t, by rw [hname]; rfl, hvalue⟩
      · split at h
        · next hname =>
          obtain ⟨_, t, _, rfl, hvalue, heq⟩ := parseProperty_eq_ok_iff.1 h
          cases heq
          exact ⟨t, by rw [hname]; rfl, hvalue⟩
        · obtain ⟨arguments, -, h⟩ := exists_ok_of_bind h
          cases h
    · cases h
  · rintro ⟨t, rfl, hvalue⟩
    have hproperty : parseProperty owner [.word name, t] = .ok (.property owner name value) :=
      parseProperty_eq_ok_iff.2 ⟨name, t, value, rfl, hvalue, rfl⟩
    cases owner <;> exact hproperty

/-- A line is a property if its tokens behind the label are those of a property. -/
theorem parseStatement_property_iff {line : Nat} {tokens : List Token} {label : Option String}
    {owner : Owner} {name : String} {value : Argument} :
    parseStatement line tokens = .ok ⟨line, label, [], .property owner name value⟩ ↔
      ∃ t, splitLabel tokens = (label, [.directive owner.directive, .word name, t]) ∧
        t.argument? = some value := by
  rw [parseStatement_eq_ok_iff]
  constructor
  · rintro ⟨-, rfl, -, rest, hprefixes, hbody⟩
    obtain rfl := (parsePrefixes_eq_ok_iff.1 hprefixes).1.symm
    obtain ⟨t, hrest, hvalue⟩ := parseBody_eq_property_iff.1 hbody
    exact ⟨t, Prod.ext rfl hrest, hvalue⟩
  · rintro ⟨t, hsplit, hvalue⟩
    rw [hsplit]
    exact ⟨rfl, rfl, .inl rfl, _, rfl, parseBody_eq_property_iff.2 ⟨t, rfl, hvalue⟩⟩

/-! ## Sources -/

def parseFrom (first : Nat) (ls : List (List Char)) : Except Error (List Statement) :=
  (ls.zipIdx first).mapM fun (line, number) => onLine number (parseLine number line)

theorem parse_eq_parseFrom (source : String) : parse source = parseFrom 1 (Text.lines source) := rfl

theorem parseFrom_cons_eq_ok_iff {first : Nat} {line : List Char} {ls : List (List Char)}
    {ss : List Statement} : parseFrom first (line :: ls) = .ok ss ↔
      ∃ s rest, parseLine first line = .ok s ∧ parseFrom (first + 1) ls = .ok rest ∧
        ss = s :: rest := by
  rw [parseFrom, List.zipIdx_cons, List.mapM_cons]
  constructor
  · intro h
    obtain ⟨s, hs, h⟩ := exists_ok_of_bind h
    obtain ⟨rest, hrest, h⟩ := exists_ok_of_bind h
    cases h
    exact ⟨s, rest, onLine_eq_ok.1 hs, hrest, rfl⟩
  · rintro ⟨s, rest, hs, hrest, rfl⟩
    have hline : onLine first (parseLine first line) = .ok s := onLine_eq_ok.2 hs
    rw [parseFrom] at hrest
    simp only [hline, hrest]
    rfl

theorem exists_line_of_mem {first : Nat} {ls : List (List Char)} {ss : List Statement}
    (h : parseFrom first ls = .ok ss) {s : Statement} (hs : s ∈ ss) :
    ∃ line ∈ ls, parseLine s.line line = .ok s := by
  induction ls generalizing first ss with
  | nil =>
    cases h
    cases hs
  | cons line ls ih =>
    obtain ⟨t, rest, ht, hrest, rfl⟩ := parseFrom_cons_eq_ok_iff.1 h
    rcases List.mem_cons.1 hs with rfl | hs
    · exact ⟨line, List.mem_cons_self, line_of_parseLine ht ▸ ht⟩
    · obtain ⟨other, hother, hline⟩ := ih hrest hs
      exact ⟨other, List.mem_cons_of_mem _ hother, hline⟩

theorem exists_statement_of_mem {first : Nat} {ls : List (List Char)} {ss : List Statement}
    (h : parseFrom first ls = .ok ss) {line : List Char} (hline : line ∈ ls) :
    ∃ s ∈ ss, parseLine s.line line = .ok s := by
  induction ls generalizing first ss with
  | nil => cases hline
  | cons other ls ih =>
    obtain ⟨t, rest, ht, hrest, rfl⟩ := parseFrom_cons_eq_ok_iff.1 h
    rcases List.mem_cons.1 hline with rfl | hline
    · exact ⟨t, List.mem_cons_self, line_of_parseLine ht ▸ ht⟩
    · obtain ⟨s, hs, hsline⟩ := ih hrest hline
      exact ⟨s, List.mem_cons_of_mem _ hs, hsline⟩

end ByteMachine.Assembly
