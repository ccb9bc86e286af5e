import ByteMachine.Assembly.Assemble
import ByteMachine.Proofs.Placement

/-!
The two passes of the assembler. What a statement emits is as long as the first pass said, so that
each statement begins where it was placed and each label stands for the bytes behind it.
-/
namespace ByteMachine

namespace Assembly

/-! ## Sizes -/

theorem encode_cases {scope : Scope} {page : Option Section} {width : Width} {a : Argument}
    {bytes : List UInt8} (h : scope.encode page width a = .ok bytes) :
    ∃ n, scope.value page a = .ok n ∧ n ≤ width.maxValue ∧
      bytes = LittleEndian.encode width.bytes n := by
  obtain ⟨n, hn, h⟩ := exists_ok_of_bind h
  split at h
  · next hle =>
    cases h
    exact ⟨n, hn, hle, rfl⟩
  · cases h

theorem length_encode_argument {scope : Scope} {page : Option Section} {width : Width}
    {a : Argument} {bytes : List UInt8} (h : scope.encode page width a = .ok bytes) :
    bytes.length = width.bytes := by
  obtain ⟨n, -, -, rfl⟩ := encode_cases h
  exact LittleEndian.length_encode _ _

theorem operand_cases {scope : Scope} {opcode : Opcode} {arguments : List Argument}
    {bytes : List UInt8} (h : scope.operand opcode arguments = .ok bytes) :
    (Scope.operandForm scope.widths opcode.operand = none ∧ arguments = [] ∧ bytes = []) ∨
      ∃ page width a, Scope.operandForm scope.widths opcode.operand = some (page, width) ∧
        arguments = [a] ∧ scope.encode page width a = .ok bytes := by
  unfold Scope.operand at h
  split at h
  · next hform =>
    cases h
    exact .inl ⟨hform, rfl, rfl⟩
  · next page width a hform => exact .inr ⟨page, width, a, hform, rfl, h⟩
  · cases h
  · cases h

theorem size_eq_operandForm (w : Widths) (o : Operand) :
    o.size w = ((Scope.operandForm w o).map fun form => form.2.bytes).getD 0 := by
  cases o <;> rfl

theorem length_operand {scope : Scope} {opcode : Opcode} {arguments : List Argument}
    {bytes : List UInt8} (h : scope.operand opcode arguments = .ok bytes) :
    bytes.length = opcode.operand.size scope.widths := by
  rw [size_eq_operandForm]
  rcases operand_cases h with ⟨hform, -, rfl⟩ | ⟨page, width, a, hform, -, he⟩
  · simp [hform]
  · simp [hform, length_encode_argument he]

/-- Where each argument becomes so many bytes, all of them become the sum. -/
theorem length_flatten_mapM {f : Argument → Except AssemblyError (List UInt8)} {g : Argument → Nat}
    (hf : ∀ a bytes, f a = .ok bytes → bytes.length = g a) :
    ∀ {arguments : List Argument} {pieces : List (List UInt8)},
      arguments.mapM f = .ok pieces →
        pieces.flatten.length = (arguments.map g).foldr (· + ·) 0 := by
  intro arguments
  induction arguments with
  | nil =>
    intro pieces h
    cases h
    rfl
  | cons a arguments ih =>
    intro pieces h
    rw [List.mapM_cons] at h
    obtain ⟨bytes, hb, h⟩ := exists_ok_of_bind h
    obtain ⟨rest, hr, h⟩ := exists_ok_of_bind h
    cases h
    simp [hf a bytes hb, ih hr]

theorem length_encodeAll {scope : Scope} {width : Width} {arguments : List Argument}
    {bytes : List UInt8} (h : scope.encodeAll width arguments = .ok bytes) :
    bytes.length = width.bytes * arguments.length := by
  obtain ⟨pieces, hp, h⟩ := exists_ok_of_bind h
  cases h
  rw [length_flatten_mapM (fun _ _ => length_encode_argument) hp, ← List.sum_eq_foldr,
    List.map_const', List.sum_replicate_nat, Nat.mul_comm]

theorem length_textBytes {a : Argument} {bytes : List UInt8} (h : textBytes a = .ok bytes) :
    bytes.length = a.textSize := by
  cases a with
  | number n => cases h
  | label name => cases h
  | text t =>
    cases h
    simp [Argument.textSize]

theorem emitDirective_size {scope : Scope} {page : Section} {d : Directive}
    {arguments : List Argument} {e : Emitted} {s : Statement}
    (hs : s.body = .directive d arguments) (h : emitDirective scope page d arguments = .ok e) :
    e.page = page ∧ s.size scope.widths page = .ok e.bytes.length := by
  unfold Statement.size
  rw [hs]
  obtain ⟨u, hc, h⟩ := exists_ok_of_bind h
  cases d with
  | bytes =>
    obtain ⟨bytes, hb, h⟩ := exists_ok_of_bind h
    cases h
    simp [length_encodeAll hb, Width.bytes]
  | words =>
    obtain ⟨bytes, hb, h⟩ := exists_ok_of_bind h
    cases h
    simp [length_encodeAll hb, Width.bytes]
  | addresses =>
    obtain ⟨bytes, hb, h⟩ := exists_ok_of_bind h
    cases h
    simp [length_encodeAll hb]
  | texts =>
    obtain ⟨pieces, hp, h⟩ := exists_ok_of_bind h
    cases h
    simp only [length_flatten_mapM (fun _ _ => length_textBytes) hp, and_self]
  | exports =>
    obtain ⟨records, hr, h⟩ := exists_ok_of_bind h
    cases h
    exact ⟨rfl, rfl⟩
  | code =>
    cases h
    exact ⟨rfl, rfl⟩
  | data =>
    cases h
    exact ⟨rfl, rfl⟩
  | unknown name => cases hc

/-- What a statement emits goes to its page and has the size that the first pass counted. -/
theorem emit_size {scope : Scope} {p : Placed} {e : Emitted} (h : emit scope p = .ok e) :
    e.page = p.page ∧ p.statement.size scope.widths p.page = .ok e.bytes.length := by
  unfold emit at h
  cases hb : p.statement.body with
  | blank =>
    simp only [hb] at h
    cases h
    exact ⟨rfl, by simp [Statement.size, hb]⟩
  | property owner name value =>
    simp only [hb] at h
    cases h
    exact ⟨rfl, by simp [Statement.size, hb]⟩
  | instruction opcode arguments =>
    simp only [hb] at h
    obtain ⟨operand, ho, h⟩ := exists_ok_of_bind h
    cases h
    refine ⟨rfl, ?_⟩
    simp [Statement.size, hb, Instruction.encode, length_operand ho, Opcode.size, Nat.add_comm]
  | directive d arguments =>
    simp only [hb] at h
    exact emitDirective_size hb h

theorem emitAll_append {scope : Scope} {a b : List Placed} {emitted : List Emitted}
    (h : emitAll scope (a ++ b) = .ok emitted) :
    ∃ es fs, emitAll scope a = .ok es ∧ emitAll scope b = .ok fs ∧ emitted = es ++ fs := by
  unfold emitAll at h ⊢
  rw [List.mapM_append] at h
  obtain ⟨es, he, h⟩ := exists_ok_of_bind h
  obtain ⟨fs, hf, h⟩ := exists_ok_of_bind h
  cases h
  exact ⟨es, fs, he, hf, rfl⟩

theorem emitAll_cons {scope : Scope} {p : Placed} {rest : List Placed} {emitted : List Emitted}
    (h : emitAll scope (p :: rest) = .ok emitted) :
    ∃ e es, emit scope p = .ok e ∧ emitAll scope rest = .ok es ∧ emitted = e :: es := by
  unfold emitAll at h ⊢
  rw [List.mapM_cons] at h
  obtain ⟨e, he, h⟩ := exists_ok_of_bind h
  obtain ⟨es, hes, h⟩ := exists_ok_of_bind h
  cases h
  exact ⟨e, es, onLine_eq_ok.1 he, hes, rfl⟩

theorem pageContents_append (page : Section) (es fs : List Emitted) :
    pageContents page (es ++ fs) = pageContents page es ++ pageContents page fs := by
  simp [pageContents]

theorem pageContents_cons (page : Section) (e : Emitted) (es : List Emitted) :
    pageContents page (e :: es) =
      (if e.page = page then e.bytes else []) ++ pageContents page es := by
  by_cases h : e.page = page <;> simp [pageContents, h]

/-- What has been emitted fills a page as far as its statements extend. -/
theorem length_pageContents {scope : Scope} {placed : List Placed} (page : Section) :
    ∀ {emitted : List Emitted}, emitAll scope placed = .ok emitted →
      (pageContents page emitted).length = extent scope.widths page (placed.map Placed.item) := by
  induction placed with
  | nil =>
    intro emitted h
    cases h
    rfl
  | cons p rest ih =>
    intro emitted h
    obtain ⟨e, es, he, hes, rfl⟩ := emitAll_cons h
    obtain ⟨hpage, hsize⟩ := emit_size he
    rw [pageContents_cons, List.length_append, ih hes, List.map_cons, extent_cons, hpage]
    by_cases hp : p.page = page
    · subst hp
      simp [Placed.item, Statement.span_of_size hsize]
    · simp [Placed.item, hp]

end Assembly

/-! ## Pages -/

theorem Page.make_of_le {s : Section} {properties : Table} {contents : List UInt8} {width : Width}
    (hw : properties.width = .ok width) (hl : contents.length ≤ width.maxValue) :
    ∃ p, Page.make s properties contents = .ok p ∧ p.properties = properties ∧
      p.contents = contents ∧ p.width = width := by
  refine ⟨⟨properties, contents.toArray, width, hw, by simpa using hl⟩, ?_, rfl, ?_, rfl⟩
  · unfold Page.make
    split
    · next e he => rw [hw] at he; cases he
    · next v he =>
      obtain rfl : width = v := by rw [hw] at he; cases he; rfl
      simp [hl]
  · simp [Page.contents]

def Module.contents (m : Module) : Section → List UInt8
  | .code => m.code.contents
  | .data => m.data.contents

/-! ## The passes of a source -/

namespace Assembly

/-- A source that the first pass accepts: its statements, the widths that its properties ask for,
and the layout. -/
structure FirstPass (source : String) where
  statements : List Statement
  widths : Widths
  layout : Layout
  parse_eq : parse source = .ok statements
  width_eq : ∀ page, (pageProperties page (sections statements)).width = .ok (widths.of page)
  layOut_eq : layOut widths (sections statements) = .ok layout

namespace FirstPass

variable {source : String}

def scope (f : FirstPass source) : Scope := ⟨f.widths, f.layout.symbols⟩

def labels (f : FirstPass source) : List String := f.statements.filterMap Statement.label

/-- Every source that is assembled passes the first pass. -/
theorem exists_of_assemble {m : Module} (h : assemble source = .ok m) :
    Nonempty (FirstPass source) := by
  obtain ⟨statements, hparse, h⟩ := exists_ok_of_bind h
  obtain ⟨code, hcode, h⟩ := exists_ok_of_bind h
  obtain ⟨data, hdata, h⟩ := exists_ok_of_bind h
  obtain ⟨layout, hlayout, -⟩ := exists_ok_of_bind h
  refine ⟨⟨statements, ⟨code, data⟩, layout, hparse, ?_, hlayout⟩⟩
  intro page
  cases page
  · exact hcode
  · exact hdata

theorem agrees (f : FirstPass source) : f.layout.Agrees f.widths (sections f.statements) :=
  layOut_agrees f.layOut_eq

theorem assemble_eq (f : FirstPass source) :
    assemble source = (do
      let emitted ← emitAll f.scope f.layout.placed.reverse
      let code ← Page.make .code (pageProperties .code (sections f.statements))
        (pageContents .code emitted)
      let data ← Page.make .data (pageProperties .data (sections f.statements))
        (pageContents .data emitted)
      return ⟨programProperties (sections f.statements), emitted.flatMap Emitted.exports, code,
        data⟩) := by
  have hc := f.width_eq .code
  have hd := f.width_eq .data
  simp only [assemble, f.parse_eq, hc, hd, bind, Except.bind]
  have hl := f.layOut_eq
  simp only [Widths.of, hl]
  rfl

/-- The pages are never too long for the widths that the first pass was given. -/
theorem assemble_of_emitAll (f : FirstPass source) {emitted : List Emitted}
    (h : emitAll f.scope f.layout.placed.reverse = .ok emitted) :
    ∃ m, assemble source = .ok m ∧ m.widths = f.widths ∧
      (∀ page, m.contents page = pageContents page emitted) ∧
      m.exports = emitted.flatMap Emitted.exports := by
  have hlen : ∀ page, (pageContents page emitted).length ≤ (f.widths.of page).maxValue := by
    intro page
    rw [length_pageContents page h, f.agrees.placed_eq, placements_item]
    exact f.agrees.size_eq page ▸ f.agrees.size_le page
  obtain ⟨code, hcode, -, hcc, hcw⟩ := Page.make_of_le (f.width_eq .code) (hlen .code)
  obtain ⟨data, hdata, -, hdc, hdw⟩ := Page.make_of_le (f.width_eq .data) (hlen .data)
  refine ⟨⟨programProperties (sections f.statements), emitted.flatMap Emitted.exports, code, data⟩,
    ?_, ?_, ?_, rfl⟩
  · rw [f.assemble_eq, h]
    simp only [bind, Except.bind, hcode, hdata]
    rfl
  · simp [Module.widths, hcw, hdw, Widths.of]
  · intro page
    cases page
    · exact hcc
    · exact hdc

theorem exists_emitted (f : FirstPass source) {m : Module} (h : assemble source = .ok m) :
    ∃ emitted, emitAll f.scope f.layout.placed.reverse = .ok emitted ∧ m.widths = f.widths ∧
      ∀ page, m.contents page = pageContents page emitted := by
  have h' := h
  rw [f.assemble_eq] at h'
  obtain ⟨emitted, he, -⟩ := exists_ok_of_bind h'
  obtain ⟨m', hm', hw, hc, -⟩ := f.assemble_of_emitAll he
  obtain rfl : m' = m := by rw [hm'] at h; cases h; rfl
  exact ⟨emitted, he, hw, hc⟩

/-- The statements are emitted as they stand in the source, each at the place where the bytes
before it end. -/
theorem placed_append_cons (f : FirstPass source) {before after : List (Section × Statement)}
    {page : Section} {s : Statement} (h : sections f.statements = before ++ (page, s) :: after) :
    f.layout.placed.reverse = placements f.widths before ++
      ⟨page, extent f.widths page before, s⟩ ::
        placementsFrom f.widths (before ++ [(page, s)]) after := by
  rw [f.agrees.placed_eq, h, placements_append_cons]

/-- The pages of an assembled module have the lengths laid out. -/
theorem length_contents (f : FirstPass source) {m : Module} (hm : assemble source = .ok m)
    (page : Section) : (m.contents page).length = f.layout.size page := by
  obtain ⟨emitted, he, -, hc⟩ := f.exists_emitted hm
  rw [hc, length_pageContents page he, f.agrees.placed_eq, placements_item, f.agrees.size_eq]
  rfl

/-- In an assembled module the bytes of a statement stand at the place of the statement. -/
theorem contents_append (f : FirstPass source) {m : Module} (hm : assemble source = .ok m)
    {before after : List (Section × Statement)} {page : Section} {s : Statement}
    (h : sections f.statements = before ++ (page, s) :: after) :
    ∃ e pre post, emit f.scope ⟨page, extent f.widths page before, s⟩ = .ok e ∧
      m.contents page = pre ++ e.bytes ++ post ∧ pre.length = extent f.widths page before := by
  obtain ⟨emitted, he, -, hc⟩ := f.exists_emitted hm
  rw [f.placed_append_cons h] at he
  obtain ⟨es, fs, hes, hfs, rfl⟩ := emitAll_append he
  obtain ⟨e, gs, hemit, -, rfl⟩ := emitAll_cons hfs
  refine ⟨e, pageContents page es, pageContents page gs, hemit, ?_, ?_⟩
  · rw [hc, pageContents_append, pageContents_cons, if_pos (emit_size hemit).1, List.append_assoc]
  · rw [length_pageContents page hes, placements_item]
    rfl

/-- The two passes agree. Wherever emission arrives, each page holds as many bytes as the first
pass had counted, and a statement emits as many as it has counted for it. So an assembled module
has pages of the lengths laid out, and each label, of which there are no two alike, stands for the
place where the bytes of its statement begin. -/
theorem passes_agree (f : FirstPass source) :
    (∀ before page s after, sections f.statements = before ++ (page, s) :: after →
      ∃ l, layOut f.widths before = .ok l ∧
        f.layout.placed.reverse[before.length]? = some ⟨page, l.size page, s⟩ ∧
        ∀ es, emitAll f.scope (f.layout.placed.reverse.take before.length) = .ok es →
          (∀ q, (pageContents q es).length = l.size q) ∧
          ∀ e, emit f.scope ⟨page, l.size page, s⟩ = .ok e →
            e.page = page ∧ s.size f.widths page = .ok e.bytes.length) ∧
    (∀ es, emitAll f.scope f.layout.placed.reverse = .ok es →
      ∃ m, assemble source = .ok m ∧ ∀ page, m.contents page = pageContents page es) ∧
    (f.layout.symbols.map Prod.fst = f.labels.reverse ∧ f.labels.Nodup) ∧
    ∀ m, assemble source = .ok m →
      (∀ page, (m.contents page).length = f.layout.size page) ∧
      ∀ before page s after name, sections f.statements = before ++ (page, s) :: after →
        s.label = some name →
        ∃ symbol e pre post, f.layout.symbols.lookup name = some symbol ∧ symbol.page = page ∧
          emit f.scope ⟨page, symbol.offset, s⟩ = .ok e ∧
          m.contents page = pre ++ e.bytes ++ post ∧ pre.length = symbol.offset := by
  refine ⟨?_, ?_, ?_, ?_⟩
  · intro before page s after h
    have hl := f.layOut_eq
    rw [h] at hl
    obtain ⟨l, hbefore⟩ := layOut_of_append hl
    have hsize := (layOut_agrees hbefore).size_eq
    refine ⟨l, hbefore, ?_, ?_⟩
    · rw [f.placed_append_cons h, hsize, List.getElem?_append_right (by simp [length_placements])]
      simp [length_placements]
    · intro es hes
      rw [f.placed_append_cons h, List.take_left' (length_placements _ _)] at hes
      refine ⟨?_, fun e he => emit_size he⟩
      intro q
      rw [length_pageContents q hes, placements_item, hsize]
      rfl
  · intro es hes
    obtain ⟨m, hm, -, hc, -⟩ := f.assemble_of_emitAll hes
    exact ⟨m, hm, hc⟩
  · have hk := f.agrees.keys
    rw [sections_snd] at hk
    have hn := f.agrees.nodup
    rw [hk] at hn
    exact ⟨hk, (List.pairwise_reverse.1 hn).imp Ne.symm⟩
  · intro m hm
    constructor
    · exact f.length_contents hm
    · intro before page s after name h hs
      obtain ⟨e, pre, post, he, hcontents, hpre⟩ := f.contents_append hm h
      have hagrees := f.agrees
      rw [h] at hagrees
      exact ⟨_, e, pre, post, hagrees.lookup hs, rfl, he, hcontents, hpre⟩

def greeting : String :=
  "go: push.b 'A'\n.data\nend: .string \"é\", \"\"\n.code\n?E0 jmp go"

def greetingStatements : List Statement :=
  [⟨1, some "go", [], .instruction .pushByte [.number 65]⟩,
   ⟨2, none, [], .directive .data []⟩,
   ⟨3, some "end", [], .directive .texts [.text "é", .text ""]⟩,
   ⟨4, none, [], .directive .code []⟩,
   ⟨5, none, [0xE0], .instruction .jump [.label "go"]⟩]

set_option maxRecDepth 4000 in
def greetingPass : FirstPass greeting where
  statements := greetingStatements
  widths := ⟨.one, .one⟩
  layout :=
    { codeSize := 5
      dataSize := 4
      symbols := [("end", ⟨.data, 0, 3⟩), ("go", ⟨.code, 0, 1⟩)]
      placed := (placements ⟨.one, .one⟩ (sections greetingStatements)).reverse }
  parse_eq := rfl
  width_eq := by intro page; cases page <;> rfl
  layOut_eq := rfl

theorem passes_agree_greeting :
    ∃ m, assemble greeting = .ok m ∧ m.code.contents = [0x40, 0x41, 0xE0, 0x20, 0x00] ∧
      ∀ page, (m.contents page).length = greetingPass.layout.size page := by
  obtain ⟨-, hassemble, -, hpages⟩ := passes_agree greetingPass
  obtain ⟨m, hm, hcontents⟩ := hassemble
    [⟨.code, [0x40, 0x41], []⟩, ⟨.data, [], []⟩, ⟨.data, [0xC3, 0xA9, 0, 0], []⟩, ⟨.code, [], []⟩,
      ⟨.code, [0xE0, 0x20, 0x00], []⟩] rfl
  exact ⟨m, hm, hcontents .code, (hpages m hm).1⟩

end FirstPass

end Assembly

end ByteMachine
