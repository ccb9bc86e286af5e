import ByteMachine.Proofs.History

/-!
Instructions that are assembled and then decoded. Wherever an instruction is laid out in the code,
a processor that comes there decodes the prefixes, the opcode and the operand that were written,
and finds the next statement right behind them, whatever else the code consists of.
-/
namespace ByteMachine

/-! ## What is decoded -/

namespace Module

variable {m : Module} {pc : Address} {d : Decoded}

/-- The prefixes are those at the program counter, and the opcode is the byte behind them. -/
theorem decode_cases (h : m.decode pc = .ok d) :
    m.code.conditionals pc = .ok (d.instruction.prefixes, d.position) ∧
      m.code.byteAt d.position = .ok d.instruction.opcode.code := by
  obtain ⟨⟨prefixes, position⟩, hprefixes, h⟩ := exists_ok_of_bind h
  obtain ⟨byte, hbyte, h⟩ := exists_ok_of_bind h
  split at h
  · cases h
  · next opcode hopcode =>
    obtain ⟨next, -, h⟩ := exists_ok_of_bind h
    cases h
    exact ⟨hprefixes, by rw [hbyte, Opcode.code_of_ofCode? hopcode]⟩

end Module

/-- A jump whose operand lies inside the code goes there, and does nothing else. -/
theorem Processor.step_of_jump {m : Module} {q : Processor} {s : ValueStack} {d : Decoded}
    (hrun : q.state = .running) (hd : m.decode q.pc = .ok d) (hsound : d.Sound m)
    (hop : d.instruction.opcode = .jump) {target : Address} (htarget : m.code.Holds target)
    (hvalue : LittleEndian.decode d.instruction.operand = target.value)
    (hlt : target.value < m.code.length) :
    step m (q, s) = .ok none (q.retire d.instruction target, s) := by
  have hperform : Flat.perform (.of m) s.capacity d.instruction d.next.value s.bytes =
      .done .running none target.value s.bytes := by
    simp only [Flat.perform, hop, hvalue, Flat.Image.of, m.code.length_contents, if_pos hlt]
  obtain ⟨a, t, hstep, ha, hav, -, hbytes, hcapacity⟩ := step_of_perform hrun hd hsound hperform
  obtain rfl : a = target := ha.eq_of_value htarget hav
  obtain rfl : t = s := ValueStack.eq_of_bytes_eq hbytes hcapacity
  exact hstep

/-! ## Statements that are laid out -/

namespace Assembly.FirstPass

variable {source : String} {f : FirstPass source} {m : Module}

def statementsOf (f : FirstPass source) (page : Section) : List Placed :=
  f.layout.placed.reverse.filter fun p => p.page = page

theorem mem_of_statementsOf {page : Section} {index : Nat} {p : Placed}
    (h : (f.statementsOf page)[index]? = some p) : p ∈ f.layout.placed ∧ p.page = page := by
  have hmem := List.mem_of_getElem? h
  rw [statementsOf, List.mem_filter, List.mem_reverse, decide_eq_true_eq] at hmem
  exact hmem

/-- Each statement of a page is laid out where the one before it ends, and the page ends with the
last of them. -/
theorem offset_next {page : Section} {index : Nat} {p : Placed}
    (h : (f.statementsOf page)[index]? = some p) :
    (∀ q, (f.statementsOf page)[index + 1]? = some q →
      q.offset = p.offset + p.statement.span f.widths page) ∧
    ((f.statementsOf page)[index + 1]? = none →
      f.layout.size page = p.offset + p.statement.span f.widths page) := by
  obtain ⟨a, b, hsplit, rfl, hp⟩ := exists_split_of_filter h
  have htest : ∀ q : Placed, decide (q.page = page) = true → q.page = page :=
    fun _ hq => of_decide_eq_true hq
  have hnext := placeAmong_succ htest (fun _ _ hq => if_neg (of_decide_eq_false hq)) hsplit hp
  rw [placeAmong] at hnext
  constructor
  · intro q hq
    rw [statementsOf] at hq
    rw [hq] at hnext
    exact hnext
  · intro hnone
    rw [statementsOf] at hnone
    rw [hnone] at hnext
    exact hnext

def number? (f : FirstPass source) : Argument → Option Nat
  | .number n => some n
  | .label name => (f.layout.symbols.lookup name).map Symbol.offset
  | .text _ => none

theorem number?_of_value {page : Option Section} {a : Argument} {n : Nat}
    (h : f.scope.value page a = .ok n) : f.number? a = some n := by
  cases a with
  | number k =>
    cases h
    rfl
  | text t => cases h
  | label name =>
    simp only [Scope.value, Scope.offset] at h
    cases hlookup : f.scope.symbols.lookup name with
    | none => simp [hlookup] at h
    | some symbol =>
      have hoffset : symbol.offset = n := by
        simp only [hlookup] at h
        repeat' split at h
        all_goals cases h
        all_goals rfl
      rw [number?, show f.layout.symbols.lookup name = some symbol from hlookup, ← hoffset]
      rfl

/-- The bytes of an operand are those of the number that its argument stands for, none of which is
cut off. -/
theorem number?_of_operand {opcode : Opcode} {arguments : List Argument} {operand : List UInt8}
    (h : f.scope.operand opcode arguments = .ok operand) :
    (arguments = [] ∧ operand = []) ∨
      ∃ a, arguments = [a] ∧ f.number? a = some (LittleEndian.decode operand) := by
  rcases operand_cases h with ⟨-, rfl, rfl⟩ | ⟨page, width, a, -, rfl, hencode⟩
  · exact .inl ⟨rfl, rfl⟩
  · obtain ⟨n, hvalue, hle, rfl⟩ := encode_cases hencode
    refine .inr ⟨a, rfl, ?_⟩
    rw [LittleEndian.decode_encode _ _ ((Width.lt_iff_le_maxValue _ _).2 hle)]
    exact number?_of_value hvalue

/-- The operand for a label is the place of the label. -/
theorem decode_operand_label {opcode : Opcode} {name : String} {operand : List UInt8}
    (h : f.scope.operand opcode [.label name] = .ok operand) {symbol : Symbol}
    (hlookup : f.layout.symbols.lookup name = some symbol) :
    LittleEndian.decode operand = symbol.offset := by
  rcases number?_of_operand h with ⟨hnil, -⟩ | ⟨a, ha, hnumber⟩
  · cases hnil
  · cases ha
    rw [number?, hlookup] at hnumber
    exact (Option.some.inj hnumber).symm

/-- An instruction of the code is decoded from the place where it was laid out, up to the place
where its statement ends. -/
theorem exists_decoded (f : FirstPass source) (hm : assemble source = .ok m) {p : Placed}
    (hp : p ∈ f.layout.placed) (hpage : p.page = .code) {opcode : Opcode}
    {arguments : List Argument} (hbody : p.statement.body = .instruction opcode arguments) :
    ∃ pc d operand, m.code.programCounter p.offset = .ok pc ∧ m.decode pc = .ok d ∧ d.Sound m ∧
      f.scope.operand opcode arguments = .ok operand ∧
      d.instruction = ⟨p.statement.prefixes, opcode, operand⟩ ∧
      d.position.value = p.offset + p.statement.prefixes.length ∧
      d.next.value = p.offset + p.statement.span f.widths .code := by
  obtain ⟨operand, hoperand, hfetch⟩ := f.fetch_placed hm hp hpage hbody
  have hlt := Flat.lt_of_fetch hfetch
  have hle : p.offset ≤ m.code.length := by
    rw [← m.code.length_contents]
    exact Nat.le_of_lt hlt
  obtain ⟨pc, hpc, hholds, hvalue⟩ := m.code.exists_programCounter hle
  rw [← hvalue] at hfetch
  obtain ⟨d, hd, hsound, hinstruction, hnext⟩ := Module.decode_of_fetch hholds hfetch
  rw [hvalue] at hnext
  have hspan : p.statement.span f.widths .code =
      p.statement.prefixes.length + opcode.size m.widths := by
    obtain ⟨-, -, hwidths, -⟩ := f.exists_emitted hm
    rw [hwidths]
    exact Statement.span_of_size (by simp [Statement.size, hbody])
  have hend := hsound.next_eq
  rw [hinstruction] at hend
  refine ⟨pc, d, operand, hpc, hd, hsound, hoperand, hinstruction, ?_, hnext⟩
  rw [Opcode.size] at hspan
  simp only at hend
  omega

/-- An instruction of the code decodes to itself. A processor that comes to the place where it was
laid out, in whatever surroundings, finds the prefixes of the statement, its opcode behind them and
an operand that is the number of its argument in full. The instruction lies inside the code, and
the next statement of the code, or its end, is right behind it. A jump to a label inside the code
goes there. -/
theorem instruction_decodes (f : FirstPass source) (hm : assemble source = .ok m) {index : Nat}
    {p : Placed} (hp : (f.statementsOf .code)[index]? = some p) {opcode : Opcode}
    {arguments : List Argument} (hbody : p.statement.body = .instruction opcode arguments) :
    ∃ pc d, m.code.programCounter p.offset = .ok pc ∧ m.decode pc = .ok d ∧
      (d.instruction.prefixes = p.statement.prefixes ∧ d.instruction.opcode = opcode) ∧
      (m.code.conditionals pc = .ok (p.statement.prefixes, d.position) ∧
        d.position.value = p.offset + p.statement.prefixes.length ∧
        m.code.byteAt d.position = .ok opcode.code) ∧
      (m.code.slice (d.position.value + 1) (opcode.operand.size m.widths) =
          .ok d.instruction.operand ∧
        ((arguments = [] ∧ d.instruction.operand = []) ∨
          ∃ a, arguments = [a] ∧
            f.number? a = some (LittleEndian.decode d.instruction.operand))) ∧
      (d.next.value = d.position.value + opcode.size m.widths ∧ d.next.value ≤ m.code.length ∧
        (∀ q, (f.statementsOf .code)[index + 1]? = some q → q.offset = d.next.value) ∧
        ((f.statementsOf .code)[index + 1]? = none → m.code.length = d.next.value)) ∧
      ∀ name symbol, opcode = .jump → arguments = [.label name] →
        f.layout.symbols.lookup name = some symbol → symbol.offset < m.code.length →
        ∃ target, m.code.programCounter symbol.offset = .ok target ∧
          ∀ (q : Processor) (s : ValueStack), q.pc = pc → q.state = .running →
            Processor.step m (q, s) = .ok none (q.retire d.instruction target, s) := by
  obtain ⟨hmem, hpage⟩ := mem_of_statementsOf hp
  obtain ⟨pc, d, operand, hpc, hd, hsound, hoperand, hinstruction, hposition, hnext⟩ :=
    f.exists_decoded hm hmem hpage hbody
  obtain ⟨hconditionals, hbyte⟩ := Module.decode_cases hd
  obtain ⟨hfollowing, hlast⟩ := f.offset_next hp
  rw [← hnext] at hfollowing hlast
  have hend := hsound.next_eq
  have hslice := m.code.slice_of_le hsound.size_le
  rw [← hsound.operand_eq] at hslice
  rw [hinstruction] at hend hslice hconditionals hbyte
  refine ⟨pc, d, hpc, hd, ?_, ⟨hconditionals, hposition, hbyte⟩, ?_, ?_, ?_⟩
  · rw [hinstruction]
    exact ⟨rfl, rfl⟩
  · rw [hinstruction]
    exact ⟨hslice, number?_of_operand hoperand⟩
  · refine ⟨?_, hsound.next_le, hfollowing, ?_⟩
    · rw [Opcode.size, ← Nat.add_assoc]
      exact hend.symm
    · intro hnone
      rw [← m.code.length_contents, ← hlast hnone]
      exact f.length_contents hm .code
  · intro name symbol hjump harguments hlookup hlt
    subst hjump harguments
    have htarget := decode_operand_label hoperand hlookup
    obtain ⟨target, htargetpc, hholds, hoffset⟩ :=
      m.code.exists_programCounter (Nat.le_of_lt hlt)
    refine ⟨target, htargetpc, ?_⟩
    intro q s hq hrun
    subst hq
    refine Processor.step_of_jump hrun hd hsound ?_ hholds ?_ (hoffset ▸ hlt)
    · rw [hinstruction]
    · rw [hinstruction, hoffset]
      exact htarget

/-- A program whose code holds a byte like a prefix and a byte like an opcode between its
instructions. -/
def interleaved : String :=
  ".property address_width 2\n.byte 0xE5\n?E1 jmp on\n.byte 0x44\non: push.w 'A'"

def interleavedStatements : List Statement :=
  [⟨1, none, [], .property .page "address_width" (.number 2)⟩,
   ⟨2, none, [], .directive .bytes [.number 0xE5]⟩,
   ⟨3, none, [0xE1], .instruction .jump [.label "on"]⟩,
   ⟨4, none, [], .directive .bytes [.number 0x44]⟩,
   ⟨5, some "on", [], .instruction .pushWord [.number 65]⟩]

set_option maxRecDepth 4000 in
def interleavedPass : FirstPass interleaved where
  statements := interleavedStatements
  widths := ⟨.two, .one⟩
  layout :=
    { codeSize := 9
      symbols := [("on", ⟨.code, 6, 5⟩)]
      placed := (placements ⟨.two, .one⟩ (sections interleavedStatements)).reverse }
  parse_eq := rfl
  width_eq := by intro page; cases page <;> rfl
  layOut_eq := rfl

def interleavedModule : Module :=
  { properties := []
    exports := []
    code := ⟨[⟨"address_width", "2"⟩],
      #[0xE5, 0xE1, 0x20, 0x06, 0x00, 0x44, 0x44, 0x41, 0x00], .two, Table.width_two, by decide⟩
    data := ⟨[], #[], .one, Table.width_nil, Page.size_empty_le .one⟩ }

theorem assemble_interleaved : assemble interleaved = .ok interleavedModule := by
  rw [interleavedPass.assemble_eq]
  rfl

/-- The jump is decoded from its own place, not from the byte before it, and leads over the byte
behind it. -/
theorem instruction_decodes_interleaved :
    ∃ pc d target, interleavedModule.code.programCounter 1 = .ok pc ∧
      interleavedModule.decode pc = .ok d ∧ d.instruction = ⟨[0xE1], .jump, [0x06, 0x00]⟩ ∧
      d.next.value = 5 ∧ interleavedModule.code.programCounter 6 = .ok target ∧
      Processor.step interleavedModule (⟨pc, .running, 0, none⟩, .empty 0) =
        .ok none (⟨target, .running, 1, some (pc, d.instruction)⟩, .empty 0) := by
  have hplaced : (interleavedPass.statementsOf .code)[2]? =
      some ⟨.code, 1, ⟨3, none, [0xE1], .instruction .jump [.label "on"]⟩⟩ := rfl
  obtain ⟨pc, d, hpc, hd, -, -, -, ⟨-, -, hnext, -⟩, hjump⟩ :=
    interleavedPass.instruction_decodes assemble_interleaved hplaced rfl
  obtain ⟨target, htarget, hstep⟩ := hjump "on" ⟨.code, 6, 5⟩ rfl rfl rfl (by decide)
  refine ⟨pc, d, target, hpc, hd, ?_, ?_, htarget, ?_⟩
  · cases hpc
    cases hd
    rfl
  · exact (hnext ⟨.code, 5, ⟨4, none, [], .directive .bytes [.number 0x44]⟩⟩ rfl).symm
  · rw [hstep _ _ rfl rfl]
    cases hpc
    cases hd
    rfl

end Assembly.FirstPass

end ByteMachine
