import ByteMachine.Proofs.Exports
import ByteMachine.Proofs.Parsing
import ByteMachine.Proofs.Reencoding
import ByteMachine.Proofs.Tokens

/-!
Saving what was assembled. Names and numbers hold none of the bytes that frame tables, so of all
that a source puts into the tables of its module only a quoted value of a property can be refused.
-/
namespace ByteMachine

/-! ## Characters of framing bytes -/

namespace Utf8

/-- A byte below the ones of longer sequences is in the encoding of one character only. -/
theorem mem_encodeChar_iff {b : UInt8} (hb : b.toNat < 0x80) {c : Char} :
    b ∈ encodeChar c ↔ c = Char.ofNat b.toNat := by
  constructor
  · intro h
    have hlong : ∀ n < 0x100, 0x80 ≤ n → b ≠ UInt8.ofNat n := by
      rintro n hn hle rfl
      rw [toNat_ofNat_byte hn] at hb
      omega
    have hvalid := toNat_valid c
    have hchar : Char.ofNat c.toNat = c := Char.ofNat_toNat c
    generalize hn : c.toNat = n at hvalid hchar
    unfold encodeChar at h
    simp only [hn] at h
    split at h
    case isTrue hlt =>
      obtain rfl := List.mem_singleton.1 h
      rw [toNat_ofNat_byte (by omega), hchar]
    split at h
    case isTrue =>
      simp only [List.mem_cons, List.not_mem_nil, or_false] at h
      rcases h with h | h <;> exact absurd h (hlong _ (by omega) (by omega))
    split at h
    case isTrue =>
      simp only [List.mem_cons, List.not_mem_nil, or_false] at h
      rcases h with h | h | h <;> exact absurd h (hlong _ (by omega) (by omega))
    case isFalse =>
      simp only [List.mem_cons, List.not_mem_nil, or_false] at h
      rcases h with h | h | h | h <;> exact absurd h (hlong _ (by omega) (by omega))
  · rintro rfl
    have hchar : (Char.ofNat b.toNat).toNat = b.toNat := toNat_ofNat_char (.inl (by omega))
    simp [encodeChar, hchar, hb]

theorem mem_encode_iff {b : UInt8} (hb : b.toNat < 0x80) {text : String} :
    b ∈ encode text ↔ Char.ofNat b.toNat ∈ text.toList := by
  rw [encode, List.mem_flatMap]
  constructor
  · rintro ⟨c, hc, h⟩
    rwa [(mem_encodeChar_iff hb).1 h] at hc
  · intro h
    exact ⟨_, h, (mem_encodeChar_iff hb).2 rfl⟩

end Utf8

namespace Framing

def framingChars : List Char := ['\x00', '\x02', '\x03', '\x1C', '\x1E']

theorem mem_framingChars {c : Char} :
    c ∈ framingChars ↔ ∃ b, isControl b = true ∧ Char.ofNat b.toNat = c := by
  have hchars : framingChars = ([0x00, 0x02, 0x03, 0x1C, 0x1E] : List UInt8).map fun b =>
      Char.ofNat b.toNat := rfl
  simp only [hchars, List.mem_map, Module.isControl_iff]

theorem mem_encode_of_isControl {b : UInt8} (hb : isControl b = true) {field : String} :
    b ∈ Utf8.encode field ↔ Char.ofNat b.toNat ∈ field.toList := by
  apply Utf8.mem_encode_iff
  simp only [Module.isControl_iff, List.mem_cons, List.not_mem_nil, or_false] at hb
  rcases hb with rfl | rfl | rfl | rfl | rfl <;> decide

theorem clean_iff {field : String} : Clean field ↔ ∀ c ∈ framingChars, c ∉ field.toList := by
  constructor
  · intro h c hc hmem
    obtain ⟨b, hb, rfl⟩ := mem_framingChars.1 hc
    exact h.not_mem hb ((mem_encode_of_isControl hb).2 hmem)
  · intro h b hb
    rw [← Bool.not_eq_true]
    intro hcontrol
    exact h _ (mem_framingChars.2 ⟨b, hcontrol, rfl⟩) ((mem_encode_of_isControl hcontrol).1 hb)

/-- A field whose characters are of a kind that no framing character is. -/
theorem clean_of_kind {kind : Char → Bool} {field : String}
    (hfield : ∀ c ∈ field.toList, kind c = true) (hkind : framingChars.any kind = false) :
    Clean field := by
  rw [clean_iff]
  intro c hc hmem
  exact List.any_eq_false.1 hkind c hc (hfield c hmem)

theorem clean_decimal (n : Nat) : Clean (Numeral.decimal n) :=
  clean_of_kind (Numeral.spells_decimal n).isDigit (by decide)

theorem clean_of_isName {name : String} (h : Assembly.IsName name.toList) : Clean name := by
  have hkind : framingChars.any Assembly.isNameChar = false := by decide
  refine clean_of_kind ?_ hkind
  obtain ⟨c, tail, hcs, hstart, htail⟩ := h.exists_cons
  rw [hcs, List.forall_mem_cons]
  refine ⟨?_, htail⟩
  rw [Assembly.isNameStart, Bool.or_eq_true] at hstart
  rcases hstart with hc | hc <;> simp [Assembly.isNameChar, Char.isAlphanum, hc]

/-! ## Whom a writer blames -/

/-- Whenever a writer refuses, it is for a byte that frames tables in a field of the given kind. -/
def Blames (o : Output) (isField : String → Prop) : Prop :=
  ∀ e, o.result = .error e → ∃ field b, isField field ∧ b ∈ Utf8.encode field ∧
    isControl b = true ∧ e = .format (.controlByte field b)

section

variable {isField : String → Prop}

theorem blames_of (bytes : List UInt8) : Blames (.of bytes) isField :=
  nofun

theorem Blames.andThen {o p : Output} (ho : Blames o isField) (hp : Blames p isField) :
    Blames (o.andThen p) isField := by
  intro e h
  unfold Output.andThen at h
  split at h
  · exact hp e h
  · next e' he' =>
    cases h
    exact ho e he'

theorem blames_checkField {field : String} (h : isField field) :
    Blames (.check (checkField field)) isField := by
  intro e he
  cases hfind : (Utf8.encode field).find? isControl with
  | none =>
    rw [Output.check, checkField, hfind] at he
    cases he
  | some b =>
    rw [Output.check, checkField, hfind] at he
    cases he
    exact ⟨field, b, h, List.mem_of_find?_eq_some hfind, List.find?_some hfind, rfl⟩

theorem blames_recordsOutput {t : Table} (h : ∀ r ∈ t, isField r.name ∧ isField r.value) :
    Blames (recordsOutput t) isField := by
  induction t with
  | nil => exact blames_of []
  | cons r t ih =>
    obtain ⟨⟨hname, hvalue⟩, ht⟩ := List.forall_mem_cons.1 h
    exact ((blames_checkField hname).andThen
      ((blames_checkField hvalue).andThen (blames_of _))).andThen (ih ht)

theorem blames_tableOutput {name : String} (hname : nul ∉ Utf8.encode name) {t : Table}
    (h : ∀ r ∈ t, isField r.name ∧ isField r.value) : Blames (tableOutput name t) isField := by
  rw [tableOutput, textOutput_of_not_mem hname]
  exact (blames_of _).andThen
    ((blames_of _).andThen ((blames_recordsOutput h).andThen (blames_of _)))

end

end Framing

namespace Module

open Framing

variable {isField : String → Prop}

theorem blames_pageOutput {s : Section} {p : Page s}
    (h : ∀ r ∈ p.properties, isField r.name ∧ isField r.value) :
    Blames (pageOutput p) isField := by
  rw [pageOutput, blockOutput_of_le (nul_not_mem_name s) (length_contents_le p)]
  exact (blames_tableOutput (nul_not_mem_propertiesName s) h).andThen (blames_of _)

/-- A module that cannot be written has a framing byte in some field, which is named. -/
theorem blames_output {m : Module}
    (h : ∀ t ∈ m.tables, ∀ r ∈ t, isField r.name ∧ isField r.value) :
    Blames m.output isField := by
  simp only [tables, List.forall_mem_cons] at h
  obtain ⟨hproperties, hexports, hcode, hdata, -⟩ := h
  rw [output, textOutput_of_not_mem (by decide)]
  exact (blames_of _).andThen ((blames_tableOutput (by decide) hproperties).andThen
    ((blames_tableOutput (by decide) hexports).andThen
      ((blames_pageOutput hcode).andThen (blames_pageOutput hdata))))

end Module

namespace Assembly

open Framing

/-! ## Values in quotes -/

/-- A text that a line of the source gives in quotes as the value of a property. -/
def QuotedValue (source text : String) : Prop :=
  ∃ line ∈ Text.lines source, ∃ tokens label owner name, scan line = .ok tokens ∧
    splitLabel tokens = (label, [.directive (Owner.directive owner), .word name, .text text])

theorem mem_of_splitLabel {tokens rest : List Token} {label : Option String}
    (h : splitLabel tokens = (label, rest)) :
    (∀ name, label = some name → .label name ∈ tokens) ∧ ∀ t ∈ rest, t ∈ tokens := by
  obtain ⟨rfl, -⟩ := splitLabel_eq_iff.1 h
  refine ⟨?_, fun t ht => List.mem_append_right _ ht⟩
  rintro name rfl
  exact List.mem_cons_self

theorem isName_of_parseLine {number : Nat} {line : List Char} {s : Statement} {name : String}
    (h : parseLine number line = .ok s) (hname : s.label = some name) : IsName name.toList := by
  obtain ⟨tokens, hscan, hparse⟩ := parseLine_eq_ok_iff.1 h
  obtain ⟨-, hlabel, -⟩ := parseStatement_eq_ok_iff.1 hparse
  have hmem := (mem_of_splitLabel (Prod.eta (splitLabel tokens)).symm).1 name (hlabel.trans hname)
  exact (scan_eq_ok_iff.1 hscan).wellFormed _ hmem

/-- A value is a quoted text, or clean. -/
theorem clean_value {t : Token} (ht : t.WellFormed) {value : Argument}
    (h : t.argument? = some value) : Clean value.value ∨ t = .text value.value := by
  cases t with
  | label name | directive name | condition b | comma => cases h
  | number n =>
    cases h
    exact .inl (clean_decimal n)
  | character b =>
    cases h
    exact .inl (clean_decimal b.toNat)
  | word name =>
    cases h
    exact .inl (clean_of_isName ht)
  | text text =>
    cases h
    exact .inr rfl

theorem prefixes_of_property {number : Nat} {tokens : List Token} {s : Statement} {owner : Owner}
    {name : String} {value : Argument} (h : parseStatement number tokens = .ok s)
    (hbody : s.body = .property owner name value) : s.prefixes = [] := by
  obtain ⟨-, -, hprefixes, -⟩ := parseStatement_eq_ok_iff.1 h
  rw [hbody] at hprefixes
  exact hprefixes.resolve_right nofun

theorem clean_of_property {source : String} {statements : List Statement}
    (hparse : parse source = .ok statements) {s : Statement} (hs : s ∈ statements) {owner : Owner}
    {name : String} {value : Argument} (hbody : s.body = .property owner name value) :
    Clean name ∧ (Clean value.value ∨ QuotedValue source value.value) := by
  obtain ⟨line, hline, h⟩ := exists_line_of_mem hparse hs
  obtain ⟨tokens, hscan, hstatement⟩ := parseLine_eq_ok_iff.1 h
  have hprefixes := prefixes_of_property hstatement hbody
  obtain ⟨number, label, prefixes, body⟩ := s
  obtain rfl : prefixes = [] := hprefixes
  obtain rfl : body = .property owner name value := hbody
  obtain ⟨t, hsplit, hvalue⟩ := parseStatement_property_iff.1 hstatement
  have hwell : ∀ u ∈ [.directive owner.directive, .word name, t], u.WellFormed := fun u hu =>
    (scan_eq_ok_iff.1 hscan).wellFormed u ((mem_of_splitLabel hsplit).2 u hu)
  refine ⟨clean_of_isName (hwell (.word name) (by simp)), ?_⟩
  rcases clean_value (hwell t (by simp)) hvalue with hclean | htext
  · exact .inl hclean
  · rw [htext] at hsplit
    exact .inr ⟨line, hline, tokens, label, owner, name, hscan, hsplit⟩

theorem exists_property_of_quoted {source text : String} {statements : List Statement}
    (hparse : parse source = .ok statements) (h : QuotedValue source text) :
    ∃ s ∈ statements, ∃ owner name, s.body = .property owner name (.text text) := by
  obtain ⟨line, hline, tokens, label, owner, name, hscan, hsplit⟩ := h
  obtain ⟨s, hs, hparsed⟩ := exists_statement_of_mem hparse hline
  have hproperty : parseStatement s.line tokens =
      .ok ⟨s.line, label, [], .property owner name (.text text)⟩ :=
    parseStatement_property_iff.2 ⟨.text text, hsplit, rfl⟩
  have heq := parseLine_eq_ok_iff.2 ⟨tokens, hscan, hproperty⟩
  rw [hparsed] at heq
  exact ⟨s, hs, owner, name, congrArg Statement.body (Except.ok.inj heq)⟩

/-! ## Tables of assembled modules -/

namespace FirstPass

variable {source : String} {m : Module}

theorem properties_eq (f : FirstPass source) (hm : assemble source = .ok m) :
    m.properties = programProperties (sections f.statements) ∧
      m.code.properties = pageProperties .code (sections f.statements) ∧
      m.data.properties = pageProperties .data (sections f.statements) := by
  rw [f.assemble_eq] at hm
  obtain ⟨emitted, -, hm⟩ := exists_ok_of_bind hm
  obtain ⟨code, hcode, hm⟩ := exists_ok_of_bind hm
  obtain ⟨data, hdata, hm⟩ := exists_ok_of_bind hm
  cases hm
  exact ⟨rfl, (Page.make_eq_ok_iff.1 hcode).1, (Page.make_eq_ok_iff.1 hdata).1⟩

theorem mem_pageProperties {page : Section} {items : List (Section × Statement)} {r : Record} :
    r ∈ pageProperties page items ↔ ∃ s name value, (page, s) ∈ items ∧
      s.body = .property .page name value ∧ r = ⟨name, value.value⟩ := by
  rw [pageProperties, List.mem_filterMap]
  constructor
  · rintro ⟨⟨p, s⟩, hmem, h⟩
    simp only [pageProperty?] at h
    split at h
    · next name value hbody =>
      split at h
      · next hpage =>
        cases h
        exact ⟨s, name, value, hpage ▸ hmem, hbody, rfl⟩
      · cases h
    · cases h
  · rintro ⟨s, name, value, hmem, hbody, rfl⟩
    exact ⟨(page, s), hmem, by simp only [pageProperty?, hbody, if_pos]⟩

theorem mem_programProperties {items : List (Section × Statement)} {r : Record} :
    r ∈ programProperties items ↔ ∃ item ∈ items, ∃ name value,
      item.2.body = .property .program name value ∧ r = ⟨name, value.value⟩ := by
  rw [programProperties, List.mem_filterMap]
  constructor
  · rintro ⟨⟨p, s⟩, hmem, h⟩
    simp only [programProperty?] at h
    split at h
    · next name value hbody =>
      cases h
      exact ⟨(p, s), hmem, name, value, hbody, rfl⟩
    · cases h
  · rintro ⟨⟨p, s⟩, hmem, name, value, hbody, rfl⟩
    simp only at hbody
    exact ⟨(p, s), hmem, by simp only [programProperty?, hbody]⟩

/-- What the tables of an assembled module hold besides its exports are the properties of the
source. -/
theorem exists_property_of_mem (f : FirstPass source) (hm : assemble source = .ok m) {t : Table}
    (ht : t ∈ m.tables) {r : Record} (hr : r ∈ t) :
    r ∈ m.exports ∨ ∃ s ∈ f.statements, ∃ owner name value,
      s.body = .property owner name value ∧ r = ⟨name, value.value⟩ := by
  obtain ⟨hproperties, hcode, hdata⟩ := f.properties_eq hm
  have hpage {page : Section} (h : r ∈ pageProperties page (sections f.statements)) :
      ∃ s ∈ f.statements, ∃ owner name value,
        s.body = .property owner name value ∧ r = ⟨name, value.value⟩ := by
    obtain ⟨s, name, value, hmem, hs⟩ := mem_pageProperties.1 h
    exact ⟨s, mem_of_mem_sections hmem, .page, name, value, hs⟩
  simp only [Module.tables, List.mem_cons, List.not_mem_nil, or_false] at ht
  rcases ht with rfl | rfl | rfl | rfl
  · rw [hproperties] at hr
    obtain ⟨item, hmem, name, value, hs⟩ := mem_programProperties.1 hr
    exact .inr ⟨item.2, mem_of_mem_sections hmem, .program, name, value, hs⟩
  · exact .inl hr
  · exact .inr (hpage (hcode ▸ hr))
  · exact .inr (hpage (hdata ▸ hr))

theorem exists_record_of_property (f : FirstPass source) (hm : assemble source = .ok m)
    {s : Statement} (hs : s ∈ f.statements) {owner : Owner} {name : String} {value : Argument}
    (hbody : s.body = .property owner name value) :
    ∃ t ∈ m.tables, ⟨name, value.value⟩ ∈ t := by
  obtain ⟨hproperties, hcode, hdata⟩ := f.properties_eq hm
  rw [← sections_snd f.statements] at hs
  obtain ⟨⟨page, s⟩, hmem, rfl⟩ := List.mem_map.1 hs
  cases owner with
  | program =>
    refine ⟨m.properties, by simp [Module.tables], ?_⟩
    rw [hproperties]
    exact mem_programProperties.2 ⟨_, hmem, name, value, hbody, rfl⟩
  | page =>
    have hrecord := mem_pageProperties.2 ⟨s, name, value, hmem, hbody, rfl⟩
    cases page with
    | code => exact ⟨m.code.properties, by simp [Module.tables], hcode ▸ hrecord⟩
    | data => exact ⟨m.data.properties, by simp [Module.tables], hdata ▸ hrecord⟩

/-- Exports are labels with their offsets, so they are clean. -/
theorem clean_of_mem_exports (f : FirstPass source) (hm : assemble source = .ok m) {r : Record}
    (hr : r ∈ m.exports) : Clean r.name ∧ Clean r.value := by
  obtain ⟨symbol, hlookup, -, hvalue⟩ := f.symbol_of_mem_exports hm hr
  obtain ⟨p, hp, hlabel⟩ := f.exists_of_lookup hlookup
  obtain ⟨line, -, hline⟩ := exists_line_of_mem f.parse_eq (f.statement_mem hp)
  rw [hvalue]
  exact ⟨clean_of_isName (isName_of_parseLine hline hlabel), clean_decimal symbol.offset⟩

/-- A field of an assembled module is clean, or a quoted value of its source. -/
theorem clean_or_quoted (f : FirstPass source) (hm : assemble source = .ok m) {t : Table}
    (ht : t ∈ m.tables) {r : Record} (hr : r ∈ t) :
    Clean r.name ∧ (Clean r.value ∨ QuotedValue source r.value) := by
  rcases f.exists_property_of_mem hm ht hr with hexport | ⟨s, hs, owner, name, value, hbody, rfl⟩
  · obtain ⟨hname, hvalue⟩ := f.clean_of_mem_exports hm hexport
    exact ⟨hname, .inl hvalue⟩
  · exact clean_of_property f.parse_eq hs hbody

end FirstPass

/-- What stops an assembled module from being saved. Writing it to a sink without a limit succeeds
exactly if no quoted value of a property of the source holds one of the characters that frame
tables. If it fails, it is because of such a character in such a value, which the error names; so
neither the sizes of the pages nor names, numbers and exports ever make it fail. And if it succeeds,
the module is read back from what was written. -/
theorem saved_unless_quoted {source : String} {m : Module} (hm : assemble source = .ok m) :
    ((∃ w, Sink.fill m.write none = (.ok (), w)) ↔
      ∀ text, QuotedValue source text →
        ∀ c ∈ ['\x00', '\x02', '\x03', '\x1C', '\x1E'], c ∉ text.toList) ∧
    (∀ e w, Sink.fill m.write none = (.error e, w) →
      ∃ text b, QuotedValue source text ∧ e = .format (.controlByte text b) ∧
        Char.ofNat b.toNat ∈ text.toList ∧
        Char.ofNat b.toNat ∈ ['\x00', '\x02', '\x03', '\x1C', '\x1E']) ∧
    ∀ w, Sink.fill m.write none = (.ok (), w) →
      Module.read (Source.ofBytes w) = .ok m (Source.ofBytes []) := by
  obtain ⟨f⟩ := FirstPass.exists_of_assemble hm
  have hfields : ∀ t ∈ m.tables, ∀ r ∈ t,
      Clean r.name ∧ (Clean r.value ∨ QuotedValue source r.value) :=
    fun t ht r hr => f.clean_or_quoted hm ht hr
  refine ⟨⟨?_, ?_⟩, ?_, fun w hw => Module.read_of_fill hw⟩
  · rintro ⟨w, hw⟩ text htext
    obtain ⟨s, hs, owner, name, hbody⟩ := exists_property_of_quoted f.parse_eq htext
    obtain ⟨t, ht, hr⟩ := f.exists_record_of_property hm hs hbody
    have hclean := Module.cleanTable_of_not_holds (Module.fill_write_eq_ok hw).1
    exact clean_iff.1 (hclean t ht _ hr).2
  · intro hquoted
    have hclean : ∀ t ∈ m.tables, CleanTable t := by
      intro t ht r hr
      obtain ⟨hname, hvalue | hvalue⟩ := hfields t ht r hr
      · exact ⟨hname, hvalue⟩
      · exact ⟨hname, clean_iff.2 (hquoted _ hvalue)⟩
    exact ⟨m.fileBytes, Module.fill_write_of_not_holds fun h =>
      let ⟨t, ht, hno⟩ := Module.not_cleanTable_of_holds h; hno (hclean t ht)⟩
  · intro e w hw
    have hblames : Blames m.output fun field => Clean field ∨ QuotedValue source field :=
      Module.blames_output fun t ht r hr =>
        let ⟨hname, hvalue⟩ := hfields t ht r hr; ⟨.inl hname, hvalue⟩
    rw [Module.write_eq, Output.fill_unlimited] at hw
    obtain ⟨text, b, hclean | hquoted, hmem, hcontrol, rfl⟩ := hblames e (congrArg Prod.fst hw)
    · exact absurd hmem (hclean.not_mem hcontrol)
    · exact ⟨text, b, hquoted, rfl, (mem_encode_of_isControl hcontrol).1 hmem,
        mem_framingChars.2 ⟨b, hcontrol, rfl⟩⟩

/-- A source with a quoted value that holds quotes, a tab and a character of two bytes. -/
def labelled : String := ".module title \"\\\"\té\\\"\"\n.property size 0x10\ngo: exit\n.export go"

def labelledStatements : List Statement :=
  [⟨1, none, [], .property .program "title" (.text "\"\té\"")⟩,
   ⟨2, none, [], .property .page "size" (.number 16)⟩, ⟨3, some "go", [], .instruction .exit []⟩,
   ⟨4, none, [], .directive .exports [.label "go"]⟩]

/-- A source with a quoted value that ends with the character of a zero byte. -/
def mislabelled : String := "exit\n.data\nend: .property title \"x\\0\""

theorem saved_unless_quoted_labelled :
    (∃ m w, assemble labelled = .ok m ∧ Sink.fill m.write none = (.ok (), w) ∧
      Module.read (Source.ofBytes w) = .ok m (Source.ofBytes [])) ∧
    ∃ m, assemble mislabelled = .ok m ∧ QuotedValue mislabelled "x\x00" ∧
      ¬ ∃ w, Sink.fill m.write none = (.ok (), w) := by
  constructor
  · obtain ⟨m, hm⟩ : ∃ m, assemble labelled = .ok m := exists_ok_of_isOk (by decide +kernel)
    obtain ⟨hsaved, -, hread⟩ := saved_unless_quoted hm
    have hparse : parse labelled = .ok labelledStatements := by decide +kernel
    obtain ⟨w, hw⟩ := hsaved.2 fun text htext => by
      obtain ⟨s, hs, owner, name, hbody⟩ := exists_property_of_quoted hparse htext
      simp only [labelledStatements, List.mem_cons, List.not_mem_nil, or_false] at hs
      rcases hs with rfl | rfl | rfl | rfl <;> cases hbody
      simp
    exact ⟨m, w, hm, hw, hread w hw⟩
  · obtain ⟨m, hm⟩ : ∃ m, assemble mislabelled = .ok m := exists_ok_of_isOk (by decide +kernel)
    have hquoted : QuotedValue mislabelled "x\x00" :=
      ⟨"end: .property title \"x\\0\"".toList, by decide, _, some "end", .page, "title", rfl, rfl⟩
    refine ⟨m, hm, hquoted, fun hfill => ?_⟩
    exact (saved_unless_quoted hm).1.1 hfill _ hquoted '\x00' (by simp) (by decide)

end Assembly

end ByteMachine
