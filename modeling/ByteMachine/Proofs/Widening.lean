import ByteMachine.Proofs.Exports
import ByteMachine.Proofs.Lockstep

/-!
Wider addresses for the code. With two more lines at its end a source is assembled to a program
whose jumps have longer operands, so that everything behind them stands elsewhere. No label of the
code may be used as data; then the two programs cannot be told apart by running them.
-/
namespace ByteMachine

theorem Table.width_push_two (t : Table) : (t.push "address_width" "2").width = .ok .two := by
  have hget : (t.push "address_width" "2").get? "address_width" = some "2" := by
    rw [get?, push, List.filter_append]
    exact congrArg (Option.map Record.value) List.getLast?_concat
  simp only [width, hget]
  rfl

def Widths.widened (w : Widths) : Widths :=
  ⟨.two, w.data⟩

namespace Assembly

/-! ## Two more lines -/

def wideningLines : List (List Char) :=
  [".code".toList, ".property address_width 2".toList]

def wideningStatements (line : Nat) : List Statement :=
  [⟨line + 1, none, [], .directive .code []⟩,
   ⟨line + 2, none, [], .property .page "address_width" (.number 2)⟩]

def wideningItems (line : Nat) : List (Section × Statement) :=
  (wideningStatements line).map (Prod.mk .code)

theorem size_wideningItems {line : Nat} {item : Section × Statement}
    (h : item ∈ wideningItems line) (w : Widths) (page : Section) : item.2.size w page = .ok 0 := by
  simp only [wideningItems, wideningStatements, List.map_cons, List.map_nil, List.mem_cons,
    List.not_mem_nil, or_false] at h
  rcases h with rfl | rfl <;> rfl

theorem jumpsToLabel_wideningItems {line : Nat} {item : Section × Statement}
    (h : item ∈ wideningItems line) : item.2.body.jumpsToLabel = true := by
  simp only [wideningItems, wideningStatements, List.map_cons, List.map_nil, List.mem_cons,
    List.not_mem_nil, or_false] at h
  rcases h with rfl | rfl <;> rfl

theorem parse_wideningLines (line : Nat) :
    (wideningLines.zipIdx (1 + line)).mapM
        (fun (line, number) => onLine number (parseLine number line)) =
      .ok (wideningStatements line) := by
  rw [Nat.add_comm]
  rfl

theorem parse_append {source wide : String} {statements : List Statement}
    (hparse : parse source = .ok statements)
    (hlines : Text.lines wide = Text.lines source ++ wideningLines) :
    parse wide = .ok (statements ++ wideningStatements (Text.lines source).length) := by
  have hrest := parse_wideningLines (Text.lines source).length
  unfold parse at hparse ⊢
  rw [hlines, List.zipIdx_append, List.mapM_append, hparse, hrest]
  rfl

theorem sectionsOnto_append (line : Nat) (statements : List Statement) (current : Section)
    (done : List (Section × Statement)) :
    sectionsOnto current done (statements ++ wideningStatements line) =
      sectionsOnto current done statements ++ wideningItems line := by
  induction statements generalizing current done with
  | nil => simp [sectionsOnto, wideningStatements, wideningItems, Body.switch]
  | cons s statements ih => exact ih _ _

theorem sections_append (line : Nat) (statements : List Statement) :
    sections (statements ++ wideningStatements line) =
      sections statements ++ wideningItems line :=
  sectionsOnto_append line statements .code []

theorem width_widened {w : Widths} {items : List (Section × Statement)} (line : Nat)
    (h : ∀ page, (pageProperties page items).width = .ok (w.of page)) (page : Section) :
    (pageProperties page (items ++ wideningItems line)).width = .ok (w.widened.of page) := by
  rw [pageProperties, List.filterMap_append]
  cases page with
  | code => exact Table.width_push_two _
  | data =>
    have hnone : (wideningItems line).filterMap (pageProperty? .data) = [] := rfl
    rw [hnone, List.append_nil]
    exact h .data

/-! ## Places -/

section

variable {w : Widths} {s : Statement}

theorem size_widened_of_data (hjump : ∀ arguments, s.body ≠ .instruction .jump arguments) :
    s.size w.widened .data = s.size w .data := by
  unfold Statement.size
  cases hbody : s.body with
  | blank | property owner name value => rfl
  | instruction opcode arguments =>
    have hne : opcode ≠ .jump := by
      rintro rfl
      exact hjump arguments hbody
    cases opcode <;> first | exact absurd rfl hne | rfl
  | directive d arguments => cases d <;> rfl

theorem operand_widened_le (hcode : w.code = .one) (operand : Operand) :
    operand.size w.widened ≤ 2 * operand.size w := by
  cases operand with
  | none | immediateByte | immediateWord => simp [Operand.size]
  | codeAddress => simp [Operand.size, hcode, Widths.widened, Width.bytes]
  | dataAddress => exact Nat.le_mul_of_pos_left _ Nat.two_pos

theorem size_widened_of_code (hcode : w.code = .one) {n : Nat} (h : s.size w .code = .ok n) :
    ∃ n' ≤ 2 * n, s.size w.widened .code = .ok n' := by
  unfold Statement.size at h ⊢
  cases hbody : s.body with
  | blank | property owner name value => exact ⟨0, Nat.zero_le _, rfl⟩
  | instruction opcode arguments =>
    rw [hbody] at h
    cases h
    refine ⟨_, ?_, rfl⟩
    have hoperand := operand_widened_le hcode opcode.operand
    simp only [Opcode.size]
    omega
  | directive d arguments =>
    rw [hbody] at h
    cases d with
    | unknown name => cases h
    | code | data | exports => exact ⟨0, Nat.zero_le _, rfl⟩
    | bytes | words | texts =>
      cases h
      exact ⟨_, by omega, rfl⟩
    | addresses =>
      cases h
      refine ⟨_, ?_, rfl⟩
      simp [Widths.of, hcode, Widths.widened, Width.bytes]

end

namespace FirstPass

variable {source wide : String}

/-- A source whose code can have wider addresses: the operands of jumps are all of its bytes that
depend on where its code is. -/
structure Widenable (f : FirstPass source) : Prop extends f.Structured where
  width_eq : f.widths.code = .one
  /-- All jumps are in the code. -/
  noJump : ∀ p ∈ f.layout.placed, p.page = .data →
    ∀ arguments, p.statement.body ≠ .instruction .jump arguments
  /-- No instruction that pushes its operand has a label of the code for it, and neither do the
  directives for bytes, words and addresses. -/
  noCodeLabel : ∀ p ∈ f.layout.placed, p.statement.body.page = none →
    ∀ name symbol, .label name ∈ p.statement.body.numbers →
      f.layout.symbols.lookup name = some symbol → symbol.page ≠ .code

/-- The source with two more lines has the statements of the source and two more. -/
structure Widens (f : FirstPass source) (g : FirstPass wide) (line : Nat) : Prop where
  statements_eq : g.statements = f.statements ++ wideningStatements line
  widths_eq : g.widths = f.widths.widened

/-- Every statement of a source that is assembled is emitted. -/
theorem exists_emit (f : FirstPass source) {m : Module} (hm : assemble source = .ok m)
    {p : Placed} (hp : p ∈ f.layout.placed) : ∃ e, emit f.scope p = .ok e := by
  obtain ⟨emitted, hemitted, -⟩ := f.exists_emitted hm
  obtain ⟨a, b, hsplit⟩ := List.append_of_mem (List.mem_reverse.2 hp)
  rw [hsplit] at hemitted
  obtain ⟨es, fs, -, hfs, -⟩ := emitAll_append hemitted
  obtain ⟨e, gs, he, -⟩ := emitAll_cons hfs
  exact ⟨e, he⟩

variable {f : FirstPass source} {g : FirstPass wide} {m : Module} {line : Nat}

theorem Widenable.span_le (hf : f.Widenable) (hm : assemble source = .ok m)
    {item : Section × Statement} (hitem : item ∈ sections f.statements) :
    ∃ n n', item.2.size f.widths item.1 = .ok n ∧
      item.2.size f.widths.widened item.1 = .ok n' ∧
      (item.1 = .data → n' = n) ∧ n' ≤ 2 * n := by
  obtain ⟨p, hp, rfl⟩ := f.exists_placed_of_mem hitem
  obtain ⟨e, he⟩ := f.exists_emit hm hp
  obtain ⟨-, hsize⟩ := emit_size he
  refine ⟨e.bytes.length, ?_⟩
  cases hpage : p.page with
  | code =>
    rw [hpage] at hsize
    obtain ⟨n', hle, hsize'⟩ := size_widened_of_code hf.width_eq hsize
    simp only [Placed.item, hpage]
    refine ⟨n', hsize, hsize', fun hdata => ?_, hle⟩
    cases hdata
  | data =>
    rw [hpage] at hsize
    have hsize' := size_widened_of_data (w := f.widths) (hf.noJump p hp hpage)
    simp only [Placed.item, hpage]
    exact ⟨_, hsize, hsize'.trans hsize, fun _ => rfl, by omega⟩

/-- The data stay where they are, and the code becomes at most twice as long. -/
theorem Widenable.extent_le (hf : f.Widenable) (hm : assemble source = .ok m)
    {items : List (Section × Statement)} (hitems : items ⊆ sections f.statements) :
    extent f.widths.widened .data items = extent f.widths .data items ∧
      extent f.widths.widened .code items ≤ 2 * extent f.widths .code items := by
  induction items with
  | nil => exact ⟨rfl, Nat.le_refl _⟩
  | cons item items ih =>
    obtain ⟨hdata, hcode⟩ := ih fun i hi => hitems (List.mem_cons_of_mem _ hi)
    obtain ⟨n, n', hn, hn', heq, hle⟩ := hf.span_le hm (hitems List.mem_cons_self)
    obtain ⟨page, s⟩ := item
    cases page with
    | code =>
      rw [extent_cons, extent_cons, extent_cons, extent_cons, if_pos rfl, if_pos rfl,
        Statement.span_of_size hn, Statement.span_of_size hn', hdata]
      exact ⟨rfl, by omega⟩
    | data =>
      rw [extent_cons, extent_cons, extent_cons, extent_cons, if_pos rfl, if_pos rfl,
        Statement.span_of_size hn, Statement.span_of_size hn', hdata, heq rfl]
      exact ⟨rfl, by simpa using hcode⟩

theorem extent_append_wideningItems (w : Widths) (page : Section)
    (items : List (Section × Statement)) :
    extent w page (items ++ wideningItems line) = extent w page items := by
  have hnone : extent w page (wideningItems line) = 0 := by cases page <;> rfl
  rw [extent_append, hnone, Nat.add_zero]

/-- The source with two more lines passes the first pass. -/
theorem Widenable.exists_widens (hf : f.Widenable) (hm : assemble source = .ok m)
    (hlines : Text.lines wide = Text.lines source ++ wideningLines) :
    ∃ g : FirstPass wide, Widens f g (Text.lines source).length := by
  have hparse := parse_append f.parse_eq hlines
  generalize (Text.lines source).length = line at hparse ⊢
  have hsections := sections_append line f.statements
  have hwidth := width_widened line f.width_eq
  rw [← hsections] at hwidth
  have hsizes : ∀ item ∈ sections (f.statements ++ wideningStatements line),
      ∃ n, item.2.size f.widths.widened item.1 = .ok n := by
    rw [hsections]
    refine List.forall_mem_append.2 ⟨fun item hitem => ?_, fun item hitem => ?_⟩
    · obtain ⟨-, n', -, hn', -⟩ := hf.span_le hm hitem
      exact ⟨n', hn'⟩
    · exact ⟨0, size_wideningItems hitem _ _⟩
  have hlabels : (((sections (f.statements ++ wideningStatements line)).map Prod.snd).filterMap
      Statement.label).Nodup := by
    have hnodup := f.agrees.nodup
    have hnone : ((wideningItems line).map Prod.snd).filterMap Statement.label = [] := rfl
    rw [f.agrees.keys, (List.reverse_perm _).nodup_iff] at hnodup
    rw [hsections, List.map_append, List.filterMap_append, hnone, List.append_nil]
    exact hnodup
  have hfit : ∀ page, extent f.widths.widened page (sections (f.statements ++
      wideningStatements line)) ≤ (f.widths.widened.of page).maxValue := by
    intro page
    obtain ⟨hdata, hcode⟩ := hf.extent_le hm (List.Subset.refl _)
    have hle := f.agrees.size_le page
    rw [f.agrees.size_eq] at hle
    rw [hsections, extent_append_wideningItems]
    cases page with
    | code =>
      simp only [Widths.of, hf.width_eq, Width.maxValue, Widths.widened] at hle hcode ⊢
      omega
    | data => exact hdata ▸ hle
  obtain ⟨layout, hlayout⟩ := exists_layOut hsizes hlabels hfit
  exact ⟨⟨_, _, layout, hparse, hwidth, hlayout⟩, rfl, rfl⟩

/-- A label that a statement looks for anywhere but in the code is one of the data. -/
theorem Widenable.page_eq_data (hf : f.Widenable) {p : Placed} (hp : p ∈ f.layout.placed)
    (hpage : p.statement.body.page ≠ some .code) {name : String}
    (hname : .label name ∈ p.statement.body.numbers) {n : Nat}
    (hvalue : f.scope.value p.statement.body.page (.label name) = .ok n) {symbol : Symbol}
    (hsymbol : f.layout.symbols.lookup name = some symbol) : symbol.page = .data := by
  cases hwanted : p.statement.body.page with
  | none =>
    cases hcode : symbol.page with
    | data => rfl
    | code => exact absurd hcode (hf.noCodeLabel p hp hwanted name symbol hname hsymbol)
  | some wanted =>
    rw [hwanted] at hpage hvalue
    obtain ⟨symbol', hsymbol', hfound, -⟩ := offset_cases hvalue
    obtain rfl : symbol = symbol' := Option.some.inj (hsymbol.symm.trans hsymbol')
    cases wanted with
    | code => exact absurd rfl hpage
    | data => exact hfound

namespace Widens

theorem sections_eq (hg : Widens f g line) :
    sections g.statements = sections f.statements ++ wideningItems line := by
  rw [hg.statements_eq, sections_append]

/-- The labels of the data stay where they are. -/
theorem lookup_eq (hg : Widens f g line) (hf : f.Widenable) (hm : assemble source = .ok m)
    {name : String} {symbol : Symbol} (h : f.layout.symbols.lookup name = some symbol) :
    ∃ offset, g.layout.symbols.lookup name = some ⟨symbol.page, offset, symbol.line⟩ ∧
      (symbol.page = .data → offset = symbol.offset) := by
  obtain ⟨before, page, s, after, hitems, hlabel, rfl⟩ := f.split_of_lookup h
  have hagrees := g.agrees
  rw [hg.sections_eq, hitems, List.append_assoc, List.cons_append, hg.widths_eq] at hagrees
  have hbefore : before ⊆ sections f.statements := by
    rw [hitems]
    exact List.subset_append_left _ _
  refine ⟨_, hagrees.lookup hlabel, ?_⟩
  rintro rfl
  exact (hf.extent_le hm hbefore).1

theorem item_cases (hg : Widens f g line) {q : Placed} (hq : q ∈ g.layout.placed) :
    (∃ p ∈ f.layout.placed, q.item = p.item) ∨ q.item ∈ wideningItems line := by
  have hitem := g.item_mem hq
  rw [hg.sections_eq] at hitem
  rcases List.mem_append.1 hitem with hold | hnew
  · obtain ⟨p, hp, heq⟩ := f.exists_placed_of_mem hold
    exact .inl ⟨p, hp, heq.symm⟩
  · exact .inr hnew

/-- The code is one of instructions with wider addresses, too. -/
theorem structured (hg : Widens f g line) (hf : f.Widenable) : g.Structured where
  isInstruction q hq hpage hsize := by
    rcases hg.item_cases hq with ⟨p, hp, hitem⟩ | hnew
    · obtain ⟨hpage', hstatement⟩ := Prod.mk.inj hitem
      rw [hstatement] at hsize ⊢
      refine hf.isInstruction p hp (hpage'.symm.trans hpage) fun hzero => hsize ?_
      obtain ⟨n', hle, hsize'⟩ := size_widened_of_code hf.width_eq hzero
      rw [hg.widths_eq, hsize', Nat.le_zero.1 hle]
    · exact absurd (size_wideningItems hnew g.widths .code) hsize
  jumpsToLabel q hq hpage := by
    rcases hg.item_cases hq with ⟨p, hp, hitem⟩ | hnew
    · obtain ⟨hpage', hstatement⟩ := Prod.mk.inj hitem
      rw [hstatement]
      exact hf.jumpsToLabel p hp (hpage'.symm.trans hpage)
    · exact jumpsToLabel_wideningItems hnew

/-- What is not about places in the code is the same with wider addresses. -/
theorem serves (hg : Widens f g line) (hf : f.Widenable) (hm : assemble source = .ok m)
    {p : Placed} (hp : p ∈ f.layout.placed) (hpage : p.statement.body.page ≠ some .code)
    (haddresses : ∀ arguments, p.statement.body = .directive .addresses arguments →
      p.page = .data) : f.scope.Serves g.scope p.page p.statement.body where
  value_eq a ha n hn := by
    refine Scope.value_of_lookup (fun name symbol hname hsymbol => ?_) hn
    subst hname
    have hdata := hf.page_eq_data hp hpage ha hn hsymbol
    obtain ⟨offset, hlookup, hoffset⟩ := hg.lookup_eq hf hm hsymbol
    exact ⟨symbol.line, hoffset hdata ▸ hlookup⟩
  operandForm_eq opcode arguments hbody := by
    have hwidths : g.scope.widths = f.scope.widths.widened := hg.widths_eq
    rw [hbody] at hpage
    rw [hwidths]
    cases hop : opcode.operand with
    | codeAddress => exact absurd (congrArg Operand.page hop) hpage
    | none | immediateByte | immediateWord | dataAddress => rfl
  width_eq arguments hbody := by
    have hwidths : g.scope.widths = f.scope.widths.widened := hg.widths_eq
    rw [haddresses arguments hbody, hwidths]
    rfl

/-- A label that is looked for in the code has a place there that wider addresses reach. -/
theorem exists_value (hg : Widens f g line) (hf : f.Widenable) (hm : assemble source = .ok m)
    {name : String} {n : Nat} (h : f.scope.value (some .code) (.label name) = .ok n) :
    ∃ n', g.scope.value (some .code) (.label name) = .ok n' ∧ n' ≤ g.widths.code.maxValue := by
  obtain ⟨symbol, hsymbol, hpage, -⟩ := offset_cases h
  obtain ⟨offset, hlookup, -⟩ := hg.lookup_eq hf hm hsymbol
  have hle := Nat.le_trans (g.offset_le_size hlookup) (g.agrees.size_le symbol.page)
  rw [hpage] at hlookup hle
  refine ⟨offset, ?_, hle⟩
  have hscope : g.scope.symbols.lookup name = some ⟨.code, offset, symbol.line⟩ := hlookup
  simp only [Scope.value, Scope.offset, hscope]
  rfl

theorem exists_exportRecord (hg : Widens f g line) (hf : f.Widenable)
    (hm : assemble source = .ok m) {a : Argument} {r : Record}
    (h : f.scope.exportRecord a = .ok r) :
    ∃ r', g.scope.exportRecord a = .ok r' ∧ r'.name = r.name := by
  cases a with
  | number n => cases h
  | text t => cases h
  | label name =>
    obtain ⟨n, hn, h⟩ := exists_ok_of_bind h
    cases h
    obtain ⟨n', hn', -⟩ := hg.exists_value hf hm hn
    have hoffset : g.scope.offset (some .code) name = .ok n' := hn'
    exact ⟨⟨name, Numeral.decimal n'⟩, by rw [Scope.exportRecord, hoffset]; rfl, rfl⟩

theorem exists_jump_operand (hg : Widens f g line) (hf : f.Widenable)
    (hm : assemble source = .ok m) {p : Placed} (hp : p ∈ f.layout.placed) (hpage : p.page = .code)
    {arguments : List Argument} (hbody : p.statement.body = .instruction .jump arguments)
    {operand : List UInt8} (h : f.scope.operand .jump arguments = .ok operand) :
    ∃ operand', g.scope.operand .jump arguments = .ok operand' := by
  obtain ⟨name, rfl, -⟩ := hf.jump_operand hp hpage hbody h
  rcases operand_cases h with ⟨hform, -, -⟩ | ⟨page, width, a, hform, harguments, hencode⟩
  · cases hform
  · cases hform
    cases harguments
    obtain ⟨n, hn, -, -⟩ := encode_cases hencode
    obtain ⟨n', hn', hle⟩ := hg.exists_value hf hm hn
    refine ⟨LittleEndian.encode g.scope.widths.code.bytes n', ?_⟩
    have hfits : n' ≤ g.scope.widths.code.maxValue := hle
    simp only [Scope.operand, Opcode.operand, Scope.operandForm, Scope.encode, hn', bind,
      Except.bind, if_pos hfits]
    rfl

end Widens

/-- Addresses are emitted into the data only. -/
theorem Widenable.page_of_addresses (hf : f.Widenable) {p : Placed} (hp : p ∈ f.layout.placed)
    {e : Emitted} (he : emit f.scope p = .ok e) {arguments : List Argument}
    (hbody : p.statement.body = .directive .addresses arguments) : p.page = .data := by
  cases hpage : p.page with
  | data => rfl
  | code =>
    have hsize : p.statement.size f.widths .code = .ok arguments.length := by
      simp [Statement.size, hbody, Widths.of, hf.width_eq, Width.bytes]
    have hsome : arguments.length ≠ 0 := by
      intro hnone
      rw [List.length_eq_zero_iff.1 hnone] at hbody
      simp only [emit, hbody] at he
      cases he
    have hinstruction := hf.isInstruction p hp hpage (by simpa [hsize] using hsome)
    rw [hbody] at hinstruction
    cases hinstruction

/-- What a statement emits, apart from what depends on places in the code: its bytes if it is one
of the data, and the names that it exports. -/
def fixedPart (e : Emitted) : List UInt8 × List String :=
  (pageContents .data [e], e.exports.map Record.name)

theorem pageContents_eq_fixedPart (emitted : List Emitted) :
    pageContents .data emitted = ((emitted.map fixedPart).map Prod.fst).flatten := by
  induction emitted with
  | nil => rfl
  | cons e es ih =>
    rw [List.map_cons, List.map_cons, List.flatten_cons, ← ih]
    exact pageContents_append .data [e] es

theorem names_eq_fixedPart (emitted : List Emitted) :
    (emitted.flatMap Emitted.exports).map Record.name =
      ((emitted.map fixedPart).map Prod.snd).flatten := by
  induction emitted with
  | nil => rfl
  | cons e es ih => simp [fixedPart, ih]

namespace Widens

/-- Every statement is emitted with wider addresses, too. -/
theorem exists_emit (hg : Widens f g line) (hf : f.Widenable) (hm : assemble source = .ok m)
    {p : Placed} (hp : p ∈ f.layout.placed) {e : Emitted} (he : emit f.scope p = .ok e) :
    ∃ e', emit g.scope p = .ok e' ∧ fixedPart e' = fixedPart e := by
  by_cases hpage : p.statement.body.page = some .code
  · unfold emit at he ⊢
    cases hbody : p.statement.body with
    | blank | property owner name value => simp [hbody, Body.page] at hpage
    | instruction opcode arguments =>
      obtain rfl : opcode = .jump := by
        rw [hbody] at hpage
        cases opcode <;> first | rfl | cases hpage
      have hcode : p.page = .code := by
        cases hdata : p.page with
        | code => rfl
        | data => exact absurd hbody (hf.noJump p hp hdata arguments)
      rw [hbody] at he
      obtain ⟨operand, hoperand, he⟩ := exists_ok_of_bind he
      cases he
      obtain ⟨operand', hoperand'⟩ := hg.exists_jump_operand hf hm hp hcode hbody hoperand
      simp only [hoperand', hcode]
      exact ⟨_, rfl, rfl⟩
    | directive d arguments =>
      obtain rfl : d = .exports := by
        rw [hbody] at hpage
        cases d <;> first | rfl | cases hpage
      rw [hbody] at he
      obtain ⟨⟨⟩, hcheck, he⟩ := exists_ok_of_bind he
      obtain ⟨records, hrecords, he⟩ := exists_ok_of_bind he
      cases he
      obtain ⟨records', hrecords', hnames⟩ :=
        exists_mapM Record.name (fun _ _ _ hr => hg.exists_exportRecord hf hm hr) hrecords
      simp only [emitDirective, hcheck, hrecords']
      exact ⟨_, rfl, by simp [fixedPart, pageContents_cons, hnames]⟩
  · have hserves := hg.serves hf hm hp hpage fun _ hbody => hf.page_of_addresses hp he hbody
    exact ⟨e, Scope.emit_of_serves rfl rfl rfl hserves he, rfl⟩

/-- With wider addresses the data are the same, and so are the exported names. -/
theorem exists_emitAll (hg : Widens f g line) (hf : f.Widenable) (hm : assemble source = .ok m)
    {emitted : List Emitted} (h : emitAll f.scope f.layout.placed.reverse = .ok emitted) :
    ∃ emitted', emitAll g.scope g.layout.placed.reverse = .ok emitted' ∧
      pageContents .data emitted' = pageContents .data emitted ∧
      (emitted'.flatMap Emitted.exports).map Record.name =
        (emitted.flatMap Emitted.exports).map Record.name := by
  have hemit : ∀ p ∈ f.layout.placed.reverse, ∀ e,
      onLine p.statement.line (emit f.scope p) = .ok e →
      ∃ e', onLine p.statement.line (emit g.scope p) = .ok e' ∧ fixedPart e' = fixedPart e := by
    intro p hp e he
    obtain ⟨e', he', hfixed⟩ := hg.exists_emit hf hm (List.mem_reverse.1 hp) (onLine_eq_ok.1 he)
    exact ⟨e', onLine_eq_ok.2 he', hfixed⟩
  obtain ⟨emitted', hemitted', hfixed⟩ := exists_mapM fixedPart hemit h
  have hold : emitAll g.scope f.layout.placed.reverse = .ok emitted' := hemitted'
  have hnew : ∀ scope, (wideningItems line).mapM (fun item =>
      onLine item.2.line (emit scope ⟨item.1, 0, item.2⟩)) =
        .ok [⟨.code, [], []⟩, ⟨.code, [], []⟩] := fun _ => rfl
  rw [emitAll_eq_items, f.agrees.placed_eq, placements_item] at hold
  refine ⟨emitted' ++ [⟨.code, [], []⟩, ⟨.code, [], []⟩], ?_, ?_, ?_⟩
  · rw [emitAll_eq_items, g.agrees.placed_eq, placements_item, hg.sections_eq, List.mapM_append,
      hold, hnew]
    rfl
  · rw [pageContents_append, pageContents_eq_fixedPart, hfixed, ← pageContents_eq_fixedPart]
    exact List.append_nil _
  · rw [List.flatMap_append, List.map_append, names_eq_fixedPart emitted', hfixed,
      ← names_eq_fixedPart]
    exact List.append_nil _

end Widens

/-! ## Programs -/

def inProgramItem (item : Section × Statement) : Bool :=
  Placed.inProgram ⟨item.1, 0, item.2⟩

theorem program_items (f : FirstPass source) :
    f.program.map Placed.item = (sections f.statements).filter inProgramItem := by
  rw [← placements_item f.widths (sections f.statements), ← f.agrees.placed_eq, List.filter_map]
  rfl

theorem target_eq_items (f : FirstPass source) (name : String) :
    f.target name = (((sections f.statements).takeWhile fun item =>
      item.2.label ≠ some name).filter inProgramItem).length := by
  rw [← placements_item f.widths (sections f.statements), ← f.agrees.placed_eq, List.takeWhile_map,
    List.filter_map, List.length_map]
  rfl

namespace Widens

/-- The program with wider addresses consists of the same instructions. -/
theorem parallel (hg : Widens f g line) (hf : f.Widenable) (hm : assemble source = .ok m) :
    Parallel f g where
  statement_eq index := by
    have hitems : g.program.map Placed.item = f.program.map Placed.item := by
      have hnone : (wideningItems line).filter inProgramItem = [] := rfl
      rw [program_items, program_items, hg.sections_eq, List.filter_append, hnone, List.append_nil]
    have hstatements := congrArg (List.map Prod.snd) hitems
    rw [List.map_map, List.map_map] at hstatements
    have heq : g.program.map Placed.statement = f.program.map Placed.statement := hstatements
    rw [← List.getElem?_map, ← List.getElem?_map, heq]
  target_eq name := by
    rw [target_eq_items, target_eq_items, hg.sections_eq, List.takeWhile_append]
    split
    · next hall =>
      have hnone : ((wideningItems line).takeWhile fun item => item.2.label ≠ some name).filter
          inProgramItem = [] := rfl
      rw [(List.takeWhile_prefix _).eq_of_length hall, List.filter_append, hnone, List.append_nil]
    · rfl
  operand_eq p hp opcode arguments operand hbody hjump hoperand := by
    rw [program, List.mem_filter, List.mem_reverse] at hp
    have hpage : p.statement.body.page ≠ some .code := by
      rw [hbody]
      cases opcode <;>
        first | exact absurd rfl hjump | simp [Body.page, Opcode.operand, Operand.page]
    have hserves := hg.serves hf hm hp.1 hpage fun _ haddresses => by
      rw [hbody] at haddresses
      cases haddresses
    rw [hbody] at hserves
    exact Scope.operand_of_value (hserves.operandForm_eq opcode arguments rfl) hserves.value_eq
      hoperand

end Widens

/-! ## Runs -/

def startIndex (f : FirstPass source) : Option String → Nat
  | none => 0
  | some name => f.target name

/-- A processor that is started at an exported symbol, or at none, is at an instruction. -/
theorem Structured.exists_start (hs : f.Structured) (hm : assemble source = .ok m)
    {symbol : Option String} (hsymbol : ∀ name ∈ symbol, name ∈ m.exports.map Record.name)
    (h : Host) :
    ∃ p, Host.start m symbol h = .ok p { h with stack := h.stack.clear } ∧
      f.At m (f.startIndex symbol) p ∧ p.state = .running ∧ p.steps = 0 := by
  obtain ⟨position, hentry, hindex⟩ : ∃ position, Host.entry m symbol = .ok position ∧
      f.Entry position (f.startIndex symbol) := by
    cases symbol with
    | none => exact ⟨0, rfl, .first⟩
    | some name =>
      obtain ⟨symbol, hlookup, hpage, hresolve⟩ := f.resolve_of_mem hm (hsymbol name rfl)
      exact ⟨symbol.offset, Host.entry_of_resolve hresolve, .label hlookup hpage⟩
  have hposition := hindex.position_eq hs
  obtain ⟨p, hstart, hholds, hvalue, hrun, hsteps⟩ :=
    Host.start_of_entry h hentry (hposition ▸ position_le hm hs)
  exact ⟨p, hstart, ⟨hholds, fun _ => hvalue.trans hposition.symm⟩, hrun, hsteps⟩

/-- Making the addresses of the code wider preserves what a program does. If the code consists of
instructions, the jumps are in the code and to labels, and no label of the code is used as a plain
number, then the source with two more lines is assembled to a module with the same data, and a run
of it from any exported symbol, or from the beginning, goes step by step as one of the original
module. However many steps the two runs have made, the next ones both leave their processors
running, both halt them, or both fail with the same kind of error; and they leave the counts of
steps, the value stacks and the outputs the same. -/
theorem widening_preserves_runs (hf : f.Widenable) (hm : assemble source = .ok m)
    (hlines : Text.lines wide = Text.lines source ++ wideningLines) :
    ∃ m', assemble wide = .ok m' ∧ m'.widths = m.widths.widened ∧
      m'.data.contents = m.data.contents ∧
      ∀ (symbol : Option String), (∀ name ∈ symbol, name ∈ m.exports.map Record.name) →
      ∀ (capacity : Nat) (limit : Option Nat) (sink : Sink), ∃ p p' h,
        Host.start m symbol (.create capacity limit sink) = .ok p h ∧
        Host.start m' symbol (.create capacity limit sink) = .ok p' h ∧
        ∀ n, Action.Alike Lockstep.SameOutcome Lockstep.Indistinct
          (Host.step m ((Host.step m).after (p, h) n))
          (Host.step m' ((Host.step m').after (p', h) n)) := by
  obtain ⟨g, hg⟩ := hf.exists_widens hm hlines
  obtain ⟨emitted, hemitted, hwidths, hcontents⟩ := f.exists_emitted hm
  obtain ⟨emitted', hemitted', hdata, hnames⟩ := hg.exists_emitAll hf hm hemitted
  obtain ⟨m', hm', hwidths', hcontents', hexports'⟩ := g.assemble_of_emitAll hemitted'
  have hwiden : m'.widths = m.widths.widened := by rw [hwidths', hg.widths_eq, hwidths]
  have hsame : m'.data.contents = m.data.contents :=
    (hcontents' .data).trans (hdata.trans (hcontents .data).symm)
  have hparallel := hg.parallel hf hm
  have hstructured := hf.toStructured
  have hlock := hparallel.lockstep hstructured (hg.structured hf) hm hm' hsame
    (by rw [hwiden]; rfl)
  refine ⟨m', hm', hwiden, hsame, fun symbol hsymbol capacity limit sink => ?_⟩
  have hsymbol' : ∀ name ∈ symbol, name ∈ m'.exports.map Record.name := by
    rw [hexports', hnames, ← f.exports_eq hm hemitted]
    exact hsymbol
  have hindex : g.startIndex symbol = f.startIndex symbol := by
    cases symbol with
    | none => rfl
    | some name => exact hparallel.target_eq name
  obtain ⟨p, hstart, hat, hrun, hsteps⟩ :=
    hstructured.exists_start hm hsymbol (.create capacity limit sink)
  obtain ⟨p', hstart', hat', hrun', hsteps'⟩ :=
    (hg.structured hf).exists_start hm' hsymbol' (.create capacity limit sink)
  have htwins : Twins f g m m' p p' :=
    ⟨hsteps'.trans hsteps.symm, hrun'.trans hrun.symm, _, hat, hindex ▸ hat'⟩
  have hbeside (h : Host) : Beside (Twins f g m m') (p, h) (p', h) := ⟨htwins, rfl⟩
  exact ⟨p, p', _, hstart, hstart', hlock.alike_after (hbeside _)⟩

def echo : String :=
  "a: push.d t\njmp a\n.export a\n.data\nt: .byte 65"

def wideEcho : String :=
  echo ++ "\n.code\n.property address_width 2"

def echoStatements : List Statement :=
  [⟨1, some "a", [], .instruction .pushDirect [.label "t"]⟩,
   ⟨2, none, [], .instruction .jump [.label "a"]⟩,
   ⟨3, none, [], .directive .exports [.label "a"]⟩, ⟨4, none, [], .directive .data []⟩,
   ⟨5, some "t", [], .directive .bytes [.number 65]⟩]

set_option maxRecDepth 4000 in
def echoPass : FirstPass echo where
  statements := echoStatements
  widths := ⟨.one, .one⟩
  layout :=
    { codeSize := 4
      dataSize := 1
      symbols := [("t", ⟨.data, 0, 5⟩), ("a", ⟨.code, 0, 1⟩)]
      placed := (placements ⟨.one, .one⟩ (sections echoStatements)).reverse }
  parse_eq := rfl
  width_eq := by intro page; cases page <;> rfl
  layOut_eq := rfl

def echoModule : Module :=
  { properties := []
    exports := [⟨"a", "0"⟩]
    code := ⟨[], #[0x41, 0x00, 0x20, 0x00], .one, Table.width_nil, by decide⟩
    data := ⟨[], #[0x41], .one, Table.width_nil, by decide⟩ }

theorem assemble_echo : assemble echo = .ok echoModule := by
  rw [echoPass.assemble_eq]
  rfl

theorem echoPass_widenable : echoPass.Widenable where
  isInstruction := by
    intro p hp hpage hsize
    have hbody : ∀ p ∈ echoPass.layout.placed, p.page = .code →
        p.statement.body.isInstruction = true ∨ p.statement.size ⟨.one, .one⟩ .code = .ok 0 := by
      decide
    rcases hbody p hp hpage with hi | hzero
    · exact hi
    · exact absurd hzero hsize
  jumpsToLabel := by decide
  width_eq := rfl
  noJump := by
    intro p hp hpage arguments hjump
    have hbody : ∀ p ∈ echoPass.layout.placed, p.page = .data →
        p.statement.body.isInstruction = false := by decide
    have hno := hbody p hp hpage
    rw [hjump] at hno
    cases hno
  noCodeLabel := by
    intro p hp hpage name symbol hname
    have hnumbers : ∀ p ∈ echoPass.layout.placed, p.statement.body.page = none →
        ∀ a ∈ p.statement.body.numbers, a.isLabel = false := by decide
    cases hnumbers p hp hpage _ hname

theorem widening_preserves_runs_echo :
    Text.lines wideEcho = Text.lines echo ++ wideningLines ∧
      ∃ m', assemble wideEcho = .ok m' ∧ m'.widths = ⟨.two, .one⟩ ∧ m'.data.contents = [0x41] ∧
        ∃ p p' h, Host.start echoModule (some "a") (.create 2 (some 9) {}) = .ok p h ∧
          Host.start m' (some "a") (.create 2 (some 9) {}) = .ok p' h ∧
          ∀ n, Action.Alike Lockstep.SameOutcome Lockstep.Indistinct
            (Host.step echoModule ((Host.step echoModule).after (p, h) n))
            (Host.step m' ((Host.step m').after (p', h) n)) := by
  have hlines : Text.lines wideEcho = Text.lines echo ++ wideningLines := by decide +kernel
  obtain ⟨m', hm', hwidths, hdata, hruns⟩ :=
    widening_preserves_runs echoPass_widenable assemble_echo hlines
  have hexported : ∀ name ∈ some "a", name ∈ echoModule.exports.map Record.name := by
    rintro name ⟨⟩
    decide
  exact ⟨hlines, m', hm', hwidths, hdata, hruns (some "a") hexported 2 (some 9) {}⟩

end FirstPass

end Assembly

end ByteMachine
