import ByteMachine.Proofs.Parsing

/-!
The grammar of statements. A statement is an optional label, conditions, and a body: nothing, a
mnemonic with arguments, a directive with arguments, or a property. Its relations say which tokens
have such a form and what they stand for, and parsing accepts exactly these tokens.
-/
namespace ByteMachine

theorem Opcode.ofMnemonic?_eq_some_iff {name : String} {opcode : Opcode} :
    ofMnemonic? name = some opcode ↔ opcode.mnemonic = name := by
  constructor
  · intro h
    simpa using List.find?_some h
  · rintro rfl
    exact ofMnemonic?_mnemonic opcode

namespace Assembly

@[simp] theorem Directive.name_ofName (name : String) : (ofName name).name = name := by
  unfold ofName
  split <;> rfl

namespace Grammar

/-! ## The relations -/

/-- The token is an argument, or the value of a property. -/
inductive ArgumentForm : Token → Argument → Prop where
  | number (n : Nat) : ArgumentForm (.number n) (.number n)
  | character (b : UInt8) : ArgumentForm (.character b) (.number b.toNat)
  | text (t : String) : ArgumentForm (.text t) (.text t)
  | word (name : String) : ArgumentForm (.word name) (.label name)

inductive ListForm : List Token → List Argument → Prop where
  | last {t : Token} {a : Argument} (ha : ArgumentForm t a) : ListForm [t] [a]
  | comma {t : Token} {a : Argument} {ts : List Token} {arguments : List Argument}
      (ha : ArgumentForm t a) (harguments : ListForm ts arguments) :
      ListForm (t :: .comma :: ts) (a :: arguments)

inductive ArgumentsForm : List Token → List Argument → Prop where
  | none : ArgumentsForm [] []
  | some {ts : List Token} {arguments : List Argument} (h : ListForm ts arguments) :
      ArgumentsForm ts arguments

/-- The tokens are the body of a statement. A mnemonic may be written in small letters. The two
directives that give a property take a name and a value, and every other one takes arguments; one
that is not known is held by its name. -/
inductive BodyForm : List Token → Body → Prop where
  | blank : BodyForm [] .blank
  | instruction {name : String} {opcode : Opcode} {ts : List Token} {arguments : List Argument}
      (hname : String.ofList (name.toList.map Char.toUpper) = opcode.mnemonic)
      (harguments : ArgumentsForm ts arguments) :
      BodyForm (.word name :: ts) (.instruction opcode arguments)
  | directive {d : Directive} {ts : List Token} {arguments : List Argument}
      (hname : Directive.ofName d.name = d) (hproperty : d.name ≠ "property")
      (hmodule : d.name ≠ "module") (harguments : ArgumentsForm ts arguments) :
      BodyForm (.directive d.name :: ts) (.directive d arguments)
  | property {owner : Owner} {name : String} {t : Token} {value : Argument}
      (hvalue : ArgumentForm t value) :
      BodyForm [.directive owner.directive, .word name, t] (.property owner name value)

/-- The tokens are a statement: its label, its conditions and its body, in this order. Only an
instruction has conditions, and they are the bytes from E0 to EF. -/
inductive StatementForm (line : Nat) : List Token → Statement → Prop where
  | mk {label : Option String} {prefixes : List UInt8} {body : Body} {ts : List Token}
      (hprefixes : ∀ b ∈ prefixes, 0xE0 ≤ b ∧ b ≤ 0xEF)
      (hinstruction : prefixes = [] ∨ body.isInstruction = true) (hbody : BodyForm ts body) :
      StatementForm line (label.toList.map .label ++ prefixes.map .condition ++ ts)
        ⟨line, label, prefixes, body⟩

/-! ## Arguments -/

theorem argument?_eq_some_iff {t : Token} {a : Argument} :
    t.argument? = some a ↔ ArgumentForm t a := by
  constructor
  · intro h
    cases t with
    | label name | directive name | condition b | comma => cases h
    | word name =>
      cases h
      exact .word name
    | number n =>
      cases h
      exact .number n
    | character b =>
      cases h
      exact .character b
    | text t =>
      cases h
      exact .text t
  · intro h
    cases h <;> rfl

theorem parseArgument_eq_ok_iff {t : Token} {a : Argument} :
    parseArgument t = .ok a ↔ ArgumentForm t a := by
  rw [← argument?_eq_some_iff, parseArgument]
  cases t.argument? with
  | none => exact iff_of_false nofun nofun
  | some b => rw [Except.ok.injEq, Option.some.injEq]

theorem parseArgumentList_eq_ok_iff {ts : List Token} {arguments : List Argument} :
    parseArgumentList ts = .ok arguments ↔ ListForm ts arguments := by
  constructor
  · intro h
    fun_induction parseArgumentList ts generalizing arguments with
    | case1 => cases h
    | case2 t =>
      obtain ⟨a, ha, h⟩ := exists_ok_of_bind h
      cases h
      exact .last (parseArgument_eq_ok_iff.1 ha)
    | case3 t ts ih =>
      obtain ⟨a, ha, h⟩ := exists_ok_of_bind h
      obtain ⟨rest, hrest, h⟩ := exists_ok_of_bind h
      cases h
      exact .comma (parseArgument_eq_ok_iff.1 ha) (ih hrest)
    | case4 t u ts hcomma =>
      obtain ⟨a, -, h⟩ := exists_ok_of_bind h
      cases h
  · intro h
    induction h with
    | last ha =>
      rw [parseArgumentList, parseArgument_eq_ok_iff.2 ha]
      rfl
    | comma ha _ ih =>
      rw [parseArgumentList, parseArgument_eq_ok_iff.2 ha, ih]
      rfl

theorem parseArguments_eq_ok_iff {ts : List Token} {arguments : List Argument} :
    parseArguments ts = .ok arguments ↔ ArgumentsForm ts arguments := by
  constructor
  · intro h
    cases ts with
    | nil =>
      cases h
      exact .none
    | cons t ts => exact .some (parseArgumentList_eq_ok_iff.1 h)
  · intro h
    cases h with
    | none => rfl
    | some h =>
      have hlist := parseArgumentList_eq_ok_iff.2 h
      cases h <;> exact hlist

/-! ## Bodies -/

theorem parseBody_eq_ok_iff {ts : List Token} {body : Body} :
    parseBody ts = .ok body ↔ BodyForm ts body := by
  constructor
  · intro h
    unfold parseBody at h
    split at h
    · cases h
      exact .blank
    · split at h
      · cases h
      · next hopcode =>
        obtain ⟨arguments, harguments, h⟩ := exists_ok_of_bind h
        cases h
        exact .instruction (Opcode.ofMnemonic?_eq_some_iff.1 hopcode).symm
          (parseArguments_eq_ok_iff.1 harguments)
    · next name ts =>
      split at h
      · next hname =>
        obtain ⟨property, t, value, rfl, hvalue, rfl⟩ := parseProperty_eq_ok_iff.1 h
        have hform : BodyForm [.directive Owner.page.directive, .word property, t] _ :=
          .property (argument?_eq_some_iff.1 hvalue)
        rwa [hname]
      · next hproperty =>
        split at h
        · next hname =>
          obtain ⟨property, t, value, rfl, hvalue, rfl⟩ := parseProperty_eq_ok_iff.1 h
          have hform : BodyForm [.directive Owner.program.directive, .word property, t] _ :=
            .property (argument?_eq_some_iff.1 hvalue)
          rwa [hname]
        · next hmodule =>
          obtain ⟨arguments, harguments, h⟩ := exists_ok_of_bind h
          cases h
          have hname : (Directive.ofName name).name = name := Directive.name_ofName name
          have hform : BodyForm (.directive (Directive.ofName name).name :: ts) _ :=
            .directive (congrArg Directive.ofName hname) (hname.symm ▸ hproperty)
              (hname.symm ▸ hmodule) (parseArguments_eq_ok_iff.1 harguments)
          rwa [hname] at hform
    · cases h
  · intro h
    cases h with
    | blank => rfl
    | instruction hname harguments =>
      simp only [parseBody, hname, Opcode.ofMnemonic?_mnemonic, parseArguments_eq_ok_iff.2 harguments]
      rfl
    | directive hname hproperty hmodule harguments =>
      simp only [parseBody, if_neg hproperty, if_neg hmodule, hname,
        parseArguments_eq_ok_iff.2 harguments]
      rfl
    | property hvalue =>
      exact parseBody_eq_property_iff.2 ⟨_, rfl, argument?_eq_some_iff.2 hvalue⟩

/-! ## Statements -/

/-- A body begins neither with a condition nor with a label, so what stands before it ends there. -/
theorem BodyForm.head?_ne {ts : List Token} {body : Body} (h : BodyForm ts body) :
    (∀ b, ts.head? ≠ some (.condition b)) ∧ ∀ name, ts.head? ≠ some (.label name) := by
  cases h <;> exact ⟨nofun, nofun⟩

/-- Tokens are taken for a statement exactly if the grammar says that they are this statement. So
those of no form are refused. -/
theorem parseStatement_accepts_grammar {line : Nat} {tokens : List Token} {s : Statement} :
    parseStatement line tokens = .ok s ↔ StatementForm line tokens s := by
  rw [parseStatement_eq_ok_iff]
  constructor
  · obtain ⟨number, found, prefixes, body⟩ := s
    cases hsplit : splitLabel tokens with | mk label rest =>
    dsimp only
    rintro ⟨rfl, rfl, hinstruction, ts, hprefixes, hbody⟩
    obtain ⟨rfl, -⟩ := splitLabel_eq_iff.1 hsplit
    obtain ⟨rfl, hconditional, -⟩ := parsePrefixes_eq_ok_iff.1 hprefixes
    rw [← List.append_assoc]
    exact .mk (fun b hb => isConditional_iff.1 (hconditional b hb)) hinstruction
      (parseBody_eq_ok_iff.1 hbody)
  · rintro @⟨label, prefixes, body, ts, hprefixes, hinstruction, hbody⟩
    obtain ⟨hcondition, hlabel⟩ := hbody.head?_ne
    have hsplit : splitLabel (label.toList.map .label ++ prefixes.map .condition ++ ts) =
        (label, prefixes.map .condition ++ ts) := by
      refine splitLabel_eq_iff.2 ⟨List.append_assoc _ _ _, fun _ => ?_⟩
      cases prefixes with
      | nil => exact hlabel
      | cons b prefixes => exact nofun
    rw [hsplit]
    exact ⟨rfl, rfl, hinstruction, ts, parsePrefixes_eq_ok_iff.2
      ⟨rfl, fun b hb => isConditional_iff.2 (hprefixes b hb), hcondition⟩,
      parseBody_eq_ok_iff.2 hbody⟩

example : parseStatement 1 [.label "loop", .condition 0xE1, .word "jmp", .word "loop"] =
    .ok ⟨1, some "loop", [0xE1], .instruction .jump [.label "loop"]⟩ := by decide

example : parseStatement 1 [.condition 0xE1, .directive "byte", .number 1] =
    .error .strayPrefixes := by decide

end Grammar

end Assembly

end ByteMachine
