import ByteMachine.Proofs.History
import ByteMachine.Proofs.InstructionText
import ByteMachine.Proofs.Passes

/-!
Disassembly. A listing names the address widths of the two pages and then gives one instruction a
line, as text. It is assembled exactly if the instructions fit into the code page, and gives back
their bytes.
-/
namespace ByteMachine

namespace Assembly

/-! ## Listings -/

def widthLine (width : Width) : List Char :=
  (".property address_width " ++ Numeral.decimal width.bytes).toList

/-- The lines in front of the instructions. They end in the code. -/
def listingHeader (w : Widths) : List (List Char) :=
  [widthLine w.code, ".data".toList, widthLine w.data, ".code".toList]

def listing (w : Widths) (is : List Instruction) : String :=
  let lines := listingHeader w ++ is.map fun i => i.text.toList
  String.ofList (lines.flatMap fun line => line ++ ['\n'])

def headerStatements (w : Widths) : List Statement :=
  [⟨1, none, [], .property .page "address_width" (.number w.code.bytes)⟩,
   ⟨2, none, [], .directive .data []⟩,
   ⟨3, none, [], .property .page "address_width" (.number w.data.bytes)⟩,
   ⟨4, none, [], .directive .code []⟩]

/-- The statements of the instructions, whose lines are counted from `line`. -/
def instructionStatements (line : Nat) : List Instruction → List Statement
  | [] => []
  | i :: is => i.statement line :: instructionStatements (line + 1) is

def listingStatements (w : Widths) (is : List Instruction) : List Statement :=
  headerStatements w ++ instructionStatements 5 is

variable {w : Widths} {is : List Instruction}

theorem unbroken_header (w : Widths) : ∀ line ∈ listingHeader w, Text.Unbroken line := by
  have hwidth (width : Width) : Text.Unbroken (widthLine width) := by
    cases width <;> decide
  have hdata : Text.Unbroken ".data".toList := by decide
  have hcode : Text.Unbroken ".code".toList := by decide
  intro line hline
  simp only [listingHeader, List.mem_cons, List.not_mem_nil, or_false] at hline
  rcases hline with rfl | rfl | rfl | rfl
  · exact hwidth w.code
  · exact hdata
  · exact hwidth w.data
  · exact hcode

theorem lines_listing (w : Widths) (is : List Instruction) :
    Text.lines (listing w is) = listingHeader w ++ is.map fun i => i.text.toList := by
  refine Text.lines_flatMap (List.forall_mem_append.2 ⟨unbroken_header w, fun line hline => ?_⟩)
  obtain ⟨i, -, rfl⟩ := List.mem_map.1 hline
  exact i.unbroken_text

theorem parseLine_widthLine (line : Nat) (width : Width) :
    parseLine line (widthLine width) =
      .ok ⟨line, none, [], .property .page "address_width" (.number width.bytes)⟩ := by
  cases width <;> rfl

theorem parse_header (w : Widths) :
    ((listingHeader w).zipIdx 1).mapM
        (fun (line, number) => onLine number (parseLine number line)) =
      .ok (headerStatements w) := by
  simp only [listingHeader, List.zipIdx_cons, List.mapM_cons, parseLine_widthLine]
  rfl

theorem parse_instructions (h : ∀ i ∈ is, i.WellFormed w) (first : Nat) :
    ((is.map fun i => i.text.toList).zipIdx first).mapM
        (fun (line, number) => onLine number (parseLine number line)) =
      .ok (instructionStatements first is) := by
  induction is generalizing first with
  | nil => rfl
  | cons i is ih =>
    obtain ⟨hi, his⟩ := List.forall_mem_cons.1 h
    simp only [List.map_cons, List.zipIdx_cons, List.mapM_cons, i.parseLine_text hi, ih his]
    rfl

theorem parse_listing (h : ∀ i ∈ is, i.WellFormed w) :
    parse (listing w is) = .ok (listingStatements w is) := by
  rw [parse, lines_listing, List.zipIdx_append, List.mapM_append, parse_header]
  simp only [listingHeader, List.length_cons, List.length_nil, parse_instructions h]
  rfl

/-! ## The first pass -/

def headerItems (w : Widths) : List (Section × Statement) :=
  [.code, .data, .data, .code].zip (headerStatements w)

def instructionItems (first : Nat) (is : List Instruction) : List (Section × Statement) :=
  (instructionStatements first is).map (Prod.mk .code)

theorem sectionsOnto_instructions (first : Nat) (is : List Instruction)
    (done : List (Section × Statement)) :
    sectionsOnto .code done (instructionStatements first is) =
      done.reverse ++ instructionItems first is := by
  induction is generalizing first done with
  | nil => simp [instructionStatements, instructionItems, sectionsOnto]
  | cons i is ih =>
    have hswitch : (i.statement first).body.switch .code = .code := rfl
    simp [instructionStatements, instructionItems, sectionsOnto, hswitch, ih (first + 1)]

theorem sections_listing (w : Widths) (is : List Instruction) :
    sections (listingStatements w is) = headerItems w ++ instructionItems 5 is :=
  sectionsOnto_instructions 5 is (headerItems w).reverse

theorem pageProperties_instructions (page : Section) (first : Nat) (is : List Instruction) :
    pageProperties page (instructionItems first is) = [] := by
  induction is generalizing first with
  | nil => rfl
  | cons i is ih => exact ih (first + 1)

theorem width_listing (w : Widths) (is : List Instruction) (page : Section) :
    (pageProperties page (sections (listingStatements w is))).width = .ok (w.of page) := by
  have hheader : ∀ w : Widths, (pageProperties page (headerItems w)).width = .ok (w.of page) := by
    rintro ⟨code, data⟩
    cases page <;> cases code <;> cases data <;> rfl
  have hnone := pageProperties_instructions page 5 is
  rw [pageProperties] at hnone
  rw [sections_listing, pageProperties, List.filterMap_append, hnone, List.append_nil]
  exact hheader w

theorem size_statement {i : Instruction} (h : i.WellFormed w) (line : Nat) (page : Section) :
    (i.statement line).size w page = .ok i.encode.length := by
  have hlength : i.encode.length = i.prefixes.length + i.opcode.size w := by
    rw [Instruction.encode, List.length_append, List.length_cons, h.length_operand, Opcode.size,
      Nat.add_comm 1]
  rw [hlength]
  rfl

theorem extent_instructions (h : ∀ i ∈ is, i.WellFormed w) (first : Nat) (page : Section) :
    extent w page (instructionItems first is) =
      if page = .code then (is.flatMap Instruction.encode).length else 0 := by
  induction is generalizing first with
  | nil => simp [instructionItems, instructionStatements]
  | cons i is ih =>
    obtain ⟨hi, his⟩ := List.forall_mem_cons.1 h
    have hspan := Statement.span_of_size (size_statement hi first page)
    have hcons : instructionItems first (i :: is) =
        (.code, i.statement first) :: instructionItems (first + 1) is := rfl
    rw [hcons, extent_cons, ih his, List.flatMap_cons, List.length_append]
    cases page with
    | code => rw [if_pos rfl, if_pos rfl, if_pos rfl, hspan]
    | data => rfl

/-- The instructions are all that takes room. -/
theorem extent_listing (h : ∀ i ∈ is, i.WellFormed w) (page : Section) :
    extent w page (sections (listingStatements w is)) =
      if page = .code then (is.flatMap Instruction.encode).length else 0 := by
  have hheader : extent w page (headerItems w) = 0 := by cases page <;> rfl
  rw [sections_listing, extent_append, hheader, extent_instructions h, Nat.zero_add]

theorem size_of_mem_instructions (h : ∀ i ∈ is, i.WellFormed w) (first : Nat) :
    ∀ item ∈ instructionItems first is,
      item.2.label = none ∧ ∃ n, item.2.size w item.1 = .ok n := by
  induction is generalizing first with
  | nil => nofun
  | cons i is ih =>
    obtain ⟨hi, his⟩ := List.forall_mem_cons.1 h
    exact List.forall_mem_cons.2 ⟨⟨rfl, _, size_statement hi first .code⟩, ih his (first + 1)⟩

theorem size_of_mem_listing (h : ∀ i ∈ is, i.WellFormed w) :
    ∀ item ∈ sections (listingStatements w is),
      item.2.label = none ∧ ∃ n, item.2.size w item.1 = .ok n := by
  rw [sections_listing]
  refine List.forall_mem_append.2 ⟨?_, size_of_mem_instructions h 5⟩
  simp [headerItems, headerStatements, Statement.size]

/-- A listing passes the first pass if its instructions fit. -/
theorem exists_firstPass (h : ∀ i ∈ is, i.WellFormed w)
    (hfit : (is.flatMap Instruction.encode).length ≤ w.code.maxValue) :
    ∃ f : FirstPass (listing w is), f.statements = listingStatements w is ∧ f.widths = w := by
  have hpages : ∀ page,
      extent w page (sections (listingStatements w is)) ≤ (w.of page).maxValue := by
    intro page
    rw [extent_listing h]
    cases page with
    | code => exact hfit
    | data => exact Nat.zero_le _
  have hlabels :
      ((sections (listingStatements w is)).map Prod.snd).filterMap Statement.label = [] := by
    rw [List.filterMap_map, List.filterMap_eq_nil_iff]
    exact fun item hitem => (size_of_mem_listing h item hitem).1
  obtain ⟨layout, hlayout⟩ := exists_layOut
    (fun item hitem => (size_of_mem_listing h item hitem).2) (hlabels ▸ List.nodup_nil) hpages
  exact ⟨⟨_, w, layout, parse_listing h, width_listing w is, hlayout⟩, rfl, rfl⟩

theorem firstPass_eq (h : ∀ i ∈ is, i.WellFormed w) (f : FirstPass (listing w is)) :
    f.statements = listingStatements w is ∧ f.widths = w := by
  have hstatements : f.statements = listingStatements w is := by
    have hparse := f.parse_eq
    rw [parse_listing h] at hparse
    exact (Except.ok.inj hparse).symm
  have hwidth : ∀ page, f.widths.of page = w.of page := by
    intro page
    have hpage := f.width_eq page
    rw [hstatements, width_listing] at hpage
    exact (Except.ok.inj hpage).symm
  refine ⟨hstatements, ?_⟩
  calc f.widths = ⟨f.widths.of .code, f.widths.of .data⟩ := rfl
    _ = ⟨w.of .code, w.of .data⟩ := by rw [hwidth, hwidth]
    _ = w := rfl

/-! ## The second pass -/

/-- A number with as many bytes as it is emitted with gives them back. -/
theorem encode_number {scope : Scope} {width : Width} {bytes : List UInt8}
    (h : bytes.length = width.bytes) (page : Option Section) :
    scope.encode page width (.number (LittleEndian.decode bytes)) = .ok bytes := by
  have hlt := LittleEndian.decode_lt bytes
  rw [h, Width.lt_iff_le_maxValue] at hlt
  have hvalue : scope.value page (.number (LittleEndian.decode bytes)) =
      .ok (LittleEndian.decode bytes) := rfl
  simp only [Scope.encode, hvalue, bind, Except.bind, if_pos hlt]
  rw [← h, LittleEndian.encode_decode]
  rfl

theorem operand_numbers {scope : Scope} {i : Instruction} (h : i.WellFormed scope.widths) :
    scope.operand i.opcode (i.numbers.map .number) = .ok i.operand := by
  have hlength := h.length_operand
  unfold Scope.operand Instruction.numbers
  cases hkind : i.opcode.operand with
  | none =>
    rw [hkind, Operand.size] at hlength
    rw [List.eq_nil_of_length_eq_zero hlength]
    rfl
  | immediateByte | immediateWord | codeAddress | dataAddress =>
    rw [hkind] at hlength
    exact encode_number hlength _

theorem emit_statement {scope : Scope} {i : Instruction} (h : i.WellFormed scope.widths)
    (offset line : Nat) :
    emit scope ⟨.code, offset, i.statement line⟩ = .ok ⟨.code, i.encode, []⟩ := by
  simp only [emit, Instruction.statement, operand_numbers h]
  rfl

theorem emitAll_instructions {scope : Scope} (h : ∀ i ∈ is, i.WellFormed scope.widths) (first : Nat)
    (before : List (Section × Statement)) :
    emitAll scope (placementsFrom scope.widths before (instructionItems first is)) =
      .ok (is.map fun i => ⟨.code, i.encode, []⟩) := by
  induction is generalizing first before with
  | nil => rfl
  | cons i is ih =>
    obtain ⟨hi, his⟩ := List.forall_mem_cons.1 h
    have hcons : instructionItems first (i :: is) =
        (.code, i.statement first) :: instructionItems (first + 1) is := rfl
    have hrest := ih his (first + 1) (before ++ [(.code, i.statement first)])
    unfold emitAll at hrest ⊢
    rw [hcons, placementsFrom, List.mapM_cons, hrest, emit_statement hi]
    rfl

theorem pageContents_instructions (is : List Instruction) :
    pageContents .code (is.map fun i => ⟨.code, i.encode, []⟩) = is.flatMap Instruction.encode := by
  induction is with
  | nil => rfl
  | cons i is ih => rw [List.map_cons, pageContents_cons, if_pos rfl, ih, List.flatMap_cons]

def headerEmitted : List Emitted :=
  [⟨.code, [], []⟩, ⟨.data, [], []⟩, ⟨.data, [], []⟩, ⟨.code, [], []⟩]

theorem emitAll_header (scope : Scope) (w : Widths) :
    emitAll scope (placements scope.widths (headerItems w)) = .ok headerEmitted := rfl

/-- What a listing emits into the code page is its instructions. -/
theorem exists_emitAll (h : ∀ i ∈ is, i.WellFormed w) (f : FirstPass (listing w is)) :
    ∃ emitted, emitAll f.scope f.layout.placed.reverse = .ok emitted ∧
      pageContents .code emitted = is.flatMap Instruction.encode := by
  obtain ⟨hstatements, hwidths⟩ := firstPass_eq h f
  have hscope : ∀ i ∈ is, i.WellFormed f.scope.widths := by
    have hw : f.scope.widths = w := hwidths
    rw [hw]
    exact h
  have hplaced : f.layout.placed.reverse =
      placements f.scope.widths (headerItems w) ++
        placementsFrom f.scope.widths (headerItems w) (instructionItems 5 is) := by
    rw [f.agrees.placed_eq, hstatements, sections_listing]
    exact placementsFrom_append f.widths (headerItems w) (instructionItems 5 is) []
  have hheader := emitAll_header f.scope w
  have hinstructions := emitAll_instructions hscope 5 (headerItems w)
  refine ⟨headerEmitted ++ is.map fun i => ⟨.code, i.encode, []⟩, ?_, ?_⟩
  · unfold emitAll at hheader hinstructions ⊢
    rw [hplaced, List.mapM_append, hheader, hinstructions]
    rfl
  · rw [pageContents_append, pageContents_instructions]
    rfl

/-! ## Both passes -/

theorem assemble_listing (h : ∀ i ∈ is, i.WellFormed w)
    (hfit : (is.flatMap Instruction.encode).length ≤ w.code.maxValue) :
    ∃ m, assemble (listing w is) = .ok m ∧ m.widths = w ∧
      m.code.contents = is.flatMap Instruction.encode := by
  obtain ⟨f, -, hwidths⟩ := exists_firstPass h hfit
  obtain ⟨emitted, hemitted, hcode⟩ := exists_emitAll h f
  obtain ⟨m, hm, hmw, hcontents, -⟩ := f.assemble_of_emitAll hemitted
  exact ⟨m, hm, hmw.trans hwidths, (hcontents .code).trans hcode⟩

theorem fits_of_assemble (h : ∀ i ∈ is, i.WellFormed w) {m : Module}
    (hm : assemble (listing w is) = .ok m) :
    (is.flatMap Instruction.encode).length ≤ w.code.maxValue := by
  obtain ⟨f⟩ := FirstPass.exists_of_assemble hm
  obtain ⟨hstatements, hwidths⟩ := firstPass_eq h f
  have hle := f.agrees.size_le .code
  rw [f.agrees.size_eq, hstatements, hwidths, extent_listing h, if_pos rfl] at hle
  exact hle

end Assembly

/-! ## What a processor records -/

theorem Flat.wellFormed_of_fetch {image : Image} {pc next : Nat} {i : Instruction}
    (h : fetch image pc = .ok (i, next)) : i.WellFormed image.widths := by
  obtain ⟨-, hlength, -⟩ := fetch_stands h
  obtain ⟨byte, -, -, -, -, hprefixes, -⟩ := fetch_cases h
  rw [← takeWhile_prefixes] at hprefixes
  refine ⟨fun b hb => ?_, hlength⟩
  have hall := List.all_takeWhile (p := isConditional) (l := image.code.drop pc)
  rw [hprefixes] at hb
  exact List.all_eq_true.1 hall b hb

namespace Processor

variable {m : Module} {p q : Processor} {n : Nat}

/-- A step that succeeds records the instruction at the program counter. -/
theorem last_of_step_ok {r : Processor} {s t : ValueStack} {call : Option Syscall}
    (hq : Consistent m q) (h : step m (q, s) = .ok call (r, t)) :
    ∃ i next, Flat.fetch (.of m) q.pc.value = .ok (i, next) ∧ r.last = some (q.pc, i) := by
  have hrun : q.state = .running := running_of_step_ok h
  cases hflat : Flat.step (.of m) s.capacity q.pc.value s.bytes with
  | failed failure stack =>
    obtain ⟨e, t', hfailed, -⟩ := step_of_failed hrun hq.holds hflat
    rw [hfailed] at h
    cases h
  | done state call' pc stack =>
    obtain ⟨i, next, a, t', hfetch, hdone, -⟩ := step_of_done hrun hq.holds hflat
    rw [hdone] at h
    cases h
    exact ⟨i, next, hfetch, rfl⟩

/-- An instruction that a processor has recorded is one that can be listed. -/
theorem wellFormed_of_history {entry : Nat} (hstart : start m entry = .ok p) (h : History m p n q) :
    ∀ origin i, q.last = some (origin, i) → i.WellFormed m.widths := by
  obtain ⟨hp, hsteps⟩ := consistent_start hstart
  induction h with
  | start =>
    obtain ⟨pc, -, rfl⟩ := start_cases hstart
    nofun
  | completed hq hstep ih =>
    obtain ⟨i, next, hfetch, hlast⟩ := last_of_step_ok (hq.consistent hp hsteps).1 hstep
    intro origin i' hi
    rw [hlast] at hi
    cases hi
    exact Flat.wellFormed_of_fetch hfetch
  | failed _ hstep ih =>
    intro origin i hi
    rw [(step_error_eq hstep).2.1] at hi
    exact ih origin i hi
  | faulted e _ ih => exact ih

end Processor

namespace Assembly

/-- Instructions that are well-formed for two address widths, which all those are that a processor
records, are listed as a source that is assembled exactly if they fit into the code page; the code
of the module is then their bytes. -/
theorem listing_reassembles :
    (∀ (w : Widths) (is : List Instruction), (∀ i ∈ is, i.WellFormed w) →
      ((∃ m, assemble (listing w is) = .ok m) ↔
        (is.flatMap fun i => i.prefixes ++ [i.opcode.code] ++ i.operand).length ≤
          w.code.maxValue) ∧
      ∀ m, assemble (listing w is) = .ok m → m.widths = w ∧
        m.code.contents = is.flatMap fun i => i.prefixes ++ [i.opcode.code] ++ i.operand) ∧
    ∀ (m : Module) (entry n : Nat) (p q : Processor), Processor.start m entry = .ok p →
      Processor.History m p n q →
      ∀ origin i, q.last = some (origin, i) → i.WellFormed m.widths := by
  constructor
  · intro w is h
    have hencode : (fun i : Instruction => i.prefixes ++ [i.opcode.code] ++ i.operand) =
        Instruction.encode := by
      funext i
      rw [Instruction.encode, List.append_assoc, List.singleton_append]
    rw [hencode]
    refine ⟨⟨?_, fun hfit => ?_⟩, fun m hm => ?_⟩
    · rintro ⟨m, hm⟩
      exact fits_of_assemble h hm
    · obtain ⟨m, hm, -⟩ := assemble_listing h hfit
      exact ⟨m, hm⟩
    · obtain ⟨m', hm', hwidths, hcode⟩ := assemble_listing h (fits_of_assemble h hm)
      rw [hm] at hm'
      cases hm'
      exact ⟨hwidths, hcode⟩
  · intro m entry n p q hstart hq
    exact Processor.wellFormed_of_history hstart hq

def tour : List Instruction :=
  [⟨[0xE0, 0xEF], .jump, [0x05, 0x01]⟩, ⟨[], .pushWord, [0x34, 0x12]⟩, ⟨[], .pushByte, [0xFF]⟩,
   ⟨[0xE7], .pushString, [0x0C]⟩, ⟨[], .exit, []⟩]

/-- The tour is assembled to its bytes, and the jump of `hop` is an instruction that it could
hold. -/
theorem listing_reassembles_tour :
    (∀ i ∈ tour, i.WellFormed ⟨.two, .one⟩) ∧
    (∃ m, assemble (listing ⟨.two, .one⟩ tour) = .ok m ∧
      m.code.contents = [0xE0, 0xEF, 0x20, 0x05, 0x01, 0x44, 0x34, 0x12, 0x40, 0xFF, 0xE7, 0x43,
        0x0C, 0x00]) ∧
    ∃ p q, Processor.start Processor.hop 0 = .ok p ∧ Processor.History Processor.hop p 1 q ∧
      ∀ origin i, q.last = some (origin, i) → i.WellFormed Processor.hop.widths := by
  have htour : ∀ i ∈ tour, i.WellFormed ⟨.two, .one⟩ := by decide
  obtain ⟨hlist, hrecord⟩ := listing_reassembles
  obtain ⟨hassemble, hcontents⟩ := hlist ⟨.two, .one⟩ tour htour
  obtain ⟨m, hm⟩ := hassemble.2 (by decide)
  obtain ⟨p, hp, hjump⟩ : ∃ p, Processor.start Processor.hop 0 = .ok p ∧
      Processor.step Processor.hop (p, .empty 0) = .ok none (Processor.hopped, .empty 0) :=
    ⟨_, rfl, rfl⟩
  have hhistory := Processor.History.start.completed hjump
  exact ⟨htour, ⟨m, hm, (hcontents m hm).2⟩, p, _, hp, hhistory, hrecord _ _ _ _ _ hp hhistory⟩

end Assembly

end ByteMachine
