import ByteMachine.Proofs.Decoding

/-!
What the addressing modes read of the data that directives lay out. A text is read up to its first
zero byte, an address is followed to the byte that it points at, and anything else is read as the
first byte that was laid out.
-/
namespace ByteMachine

/-! ## Texts and zero bytes -/

namespace Utf8

def beforeNul (text : String) : String :=
  String.ofList (text.toList.takeWhile (· != '\x00'))

theorem ofNat_byte_ne_zero {n : Nat} (hpos : 0 < n) (hlt : n < 0x100) : UInt8.ofNat n ≠ 0 := by
  intro h
  have hn := toNat_ofNat_byte hlt
  rw [h] at hn
  have hzero : (0 : UInt8).toNat = 0 := rfl
  omega

/-- Only NUL has a zero byte in its encoding. -/
theorem ne_zero_of_mem_encodeChar {c : Char} (hc : c ≠ '\x00') {b : UInt8}
    (hb : b ∈ encodeChar c) : b ≠ 0 := by
  have hpos : 0 < c.toNat := by
    apply Nat.pos_of_ne_zero
    intro h
    exact hc (Char.toNat_inj.1 h)
  have hv := toNat_valid c
  generalize hn : c.toNat = n at hpos hv
  unfold encodeChar at hb
  simp only [hn] at hb
  split at hb
  case isTrue h =>
    obtain rfl := List.mem_singleton.1 hb
    exact ofNat_byte_ne_zero hpos (by omega)
  split at hb
  case isTrue h =>
    simp only [List.mem_cons, List.not_mem_nil, or_false] at hb
    rcases hb with rfl | rfl <;> exact ofNat_byte_ne_zero (by omega) (by omega)
  split at hb
  case isTrue h =>
    simp only [List.mem_cons, List.not_mem_nil, or_false] at hb
    rcases hb with rfl | rfl | rfl <;> exact ofNat_byte_ne_zero (by omega) (by omega)
  case isFalse h =>
    simp only [List.mem_cons, List.not_mem_nil, or_false] at hb
    rcases hb with rfl | rfl | rfl | rfl <;> exact ofNat_byte_ne_zero (by omega) (by omega)

/-- Up to the first zero byte stands what comes before the first NUL. -/
theorem takeWhile_encode (text : String) (rest : List UInt8) :
    (encode text ++ 0 :: rest).takeWhile (· != 0) = encode (beforeNul text) := by
  rw [encode, encode, beforeNul, String.toList_ofList]
  induction text.toList with
  | nil => rfl
  | cons c cs ih =>
    by_cases hc : c = '\x00'
    · subst hc
      rfl
    · have hall : ∀ b ∈ encodeChar c, (b != 0) = true := by
        intro b hb
        simpa using ne_zero_of_mem_encodeChar hc hb
      rw [List.flatMap_cons, List.append_assoc, List.takeWhile_append_of_pos hall, ih,
        List.takeWhile_cons_of_pos (by simpa using hc), List.flatMap_cons]

end Utf8

/-! ## What the statements lay out -/

namespace Assembly

variable {scope : Scope} {p : Placed} {e : Emitted}

/-- A text is laid out with a zero byte behind it. -/
theorem bytes_texts {t : String} {rest : List Argument}
    (hbody : p.statement.body = .directive .texts (.text t :: rest))
    (h : emit scope p = .ok e) : ∃ more, e.bytes = Utf8.encode t ++ 0 :: more := by
  simp only [emit, hbody] at h
  obtain ⟨-, -, h⟩ := exists_ok_of_bind h
  obtain ⟨pieces, hpieces, h⟩ := exists_ok_of_bind h
  cases h
  rw [List.mapM_cons] at hpieces
  obtain ⟨piece, hpiece, hpieces⟩ := exists_ok_of_bind hpieces
  obtain ⟨others, -, hpieces⟩ := exists_ok_of_bind hpieces
  cases hpiece
  cases hpieces
  exact ⟨others.flatten, by simp⟩

/-- A label is laid out as its place, in as many bytes as an address into the page takes. -/
theorem bytes_addresses {name : String} {rest : List Argument}
    (hbody : p.statement.body = .directive .addresses (.label name :: rest))
    (h : emit scope p = .ok e) {symbol : Symbol}
    (hlookup : scope.symbols.lookup name = some symbol) :
    symbol.offset ≤ (scope.widths.of p.page).maxValue ∧
      ∃ more, e.bytes =
        LittleEndian.encode (scope.widths.of p.page).bytes symbol.offset ++ more := by
  simp only [emit, hbody] at h
  obtain ⟨-, -, h⟩ := exists_ok_of_bind h
  obtain ⟨bytes, hbytes, h⟩ := exists_ok_of_bind h
  cases h
  obtain ⟨pieces, hpieces, hbytes⟩ := exists_ok_of_bind hbytes
  cases hbytes
  rw [List.mapM_cons] at hpieces
  obtain ⟨piece, hpiece, hpieces⟩ := exists_ok_of_bind hpieces
  obtain ⟨others, -, hpieces⟩ := exists_ok_of_bind hpieces
  cases hpieces
  obtain ⟨n, hvalue, hle, rfl⟩ := encode_cases hpiece
  simp only [Scope.value, Scope.offset, hlookup] at hvalue
  cases hvalue
  exact ⟨hle, others.flatten, rfl⟩

namespace FirstPass

variable {source : String} {m : Module}

/-- The bytes of a statement stand in its page from its place on. -/
theorem exists_emitted_at (f : FirstPass source) (hm : assemble source = .ok m) {p : Placed}
    (hp : p ∈ f.layout.placed) :
    ∃ e post, emit f.scope p = .ok e ∧ (m.contents p.page).drop p.offset = e.bytes ++ post := by
  obtain ⟨a, b, hsplit⟩ := List.append_of_mem (List.mem_reverse.2 hp)
  obtain ⟨hitems, hoffset⟩ := placed_split hsplit
  obtain ⟨e, pre, post, hemit, hcontents, hpre⟩ := f.contents_append hm hitems
  rw [← hoffset] at hemit hpre
  refine ⟨e, post, hemit, ?_⟩
  rw [hcontents, ← hpre, List.append_assoc, List.drop_left]

end FirstPass

end Assembly

/-! ## Instructions that push -/

namespace ValueStack

/-- Bytes do not fit where there are more of them than room. -/
theorem capacity_lt_iff (s : ValueStack) (n : Nat) :
    s.capacity < s.bytes.length + n ↔ s.room < n := by
  rw [length_bytes, capacity]
  omega

end ValueStack

namespace Processor

/-- The processor runs and has come to an instruction with an opcode and a number as operand. -/
structure Faces (m : Module) (q : Processor) (d : Decoded) (opcode : Opcode) (n : Nat) : Prop where
  running : q.state = .running
  pc_eq : m.code.programCounter q.pc.value = .ok q.pc
  decode_eq : m.decode q.pc = .ok d
  opcode_eq : d.instruction.opcode = opcode
  operand_eq : LittleEndian.decode d.instruction.operand = n

/-- The next step pushes bytes and goes on behind the instruction, or it leaves the stack as it is
and fails because the stack overflows. -/
def Pushes (m : Module) (q : Processor) (d : Decoded) (bytes : List UInt8)
    (overflows : ValueStack → Prop) : Prop :=
  ∀ s, (¬ overflows s → ∃ t, step m (q, s) = .ok none (q.retire d.instruction d.next, t) ∧
      t.bytes = s.bytes ++ bytes ∧ t.capacity = s.capacity) ∧
    (overflows s → ∃ cause,
      step m (q, s) = .error (.overflow cause) (q.fault (.overflow cause), s))

namespace Faces

variable {m : Module} {q : Processor} {d : Decoded} {opcode : Opcode} {n : Nat}

theorem sound (h : Faces m q d opcode n) : d.Sound m :=
  Module.sound_of_decode (CodePage.holds_of_programCounter h.pc_eq).1 h.decode_eq

theorem pushes (h : Faces m q d opcode n) {bytes : List UInt8} {overflows : ValueStack → Prop}
    (hdone : ∀ s : ValueStack, ¬ overflows s →
      Flat.perform (.of m) s.capacity d.instruction d.next.value s.bytes =
        .done .running none d.next.value (s.bytes ++ bytes))
    (hfull : ∀ s : ValueStack, overflows s →
      Flat.perform (.of m) s.capacity d.instruction d.next.value s.bytes =
        .failed .overflow s.bytes) :
    q.Pushes m d bytes overflows := by
  intro s
  constructor
  · intro hs
    obtain ⟨a, t, hstep, ha, hvalue, -, hbytes, hcapacity⟩ :=
      step_of_perform h.running h.decode_eq h.sound (hdone s hs)
    obtain rfl : a = d.next := ha.eq_of_value h.sound.next_holds hvalue
    exact ⟨t, hstep, hbytes, hcapacity⟩
  · intro hs
    obtain ⟨e, t, hstep, he, hbytes, hcapacity⟩ :=
      step_of_perform_failed h.running h.decode_eq h.sound (hfull s hs)
    obtain rfl : t = s := ValueStack.eq_of_bytes_eq hbytes hcapacity
    cases e with
    | overflow cause => exact ⟨cause, hstep⟩
    | _ => cases he

/-- An instruction that pushes a byte of the data fails only where the stack is full. -/
theorem pushes_byte (h : Faces m q d opcode n) {position : Nat} {b : UInt8}
    (hb : m.data.contents[position]? = some b)
    (hperform : ∀ s : ValueStack,
      Flat.perform (.of m) s.capacity d.instruction d.next.value s.bytes =
        Flat.pushFrom m.data.contents s.capacity d.next.value position s.bytes) :
    q.Pushes m d [b] fun s => s.room = 0 := by
  apply h.pushes
  · intro s hs
    have hroom := mt (s.capacity_lt_iff 1).1 (by omega)
    rw [hperform, Flat.pushFrom, hb]
    simp only [Flat.pushEach, if_pos (show s.bytes.length < s.capacity by omega)]
  · intro s hs
    have hroom := (s.capacity_lt_iff 1).2 (by omega)
    rw [hperform, Flat.pushFrom, hb]
    simp only [Flat.pushEach, if_neg (show ¬ s.bytes.length < s.capacity by omega)]

theorem pushes_direct (h : Faces m q d .pushDirect n) {b : UInt8}
    (hb : m.data.contents[n]? = some b) : q.Pushes m d [b] fun s => s.room = 0 := by
  apply h.pushes_byte hb
  intro s
  simp only [Flat.perform, h.opcode_eq, h.operand_eq, Flat.Image.of]

theorem pushes_indirect (h : Faces m q d .pushIndirect n) {target : Nat} {more : List UInt8}
    (hdata : m.data.contents.drop n = LittleEndian.encode m.data.width.bytes target ++ more)
    (hle : target ≤ m.data.width.maxValue) {b : UInt8}
    (hb : m.data.contents[target]? = some b) : q.Pushes m d [b] fun s => s.room = 0 := by
  apply h.pushes_byte hb
  intro s
  have hwidth : m.widths.data = m.data.width := rfl
  have hlength := congrArg List.length hdata
  rw [List.length_drop, List.length_append, LittleEndian.length_encode] at hlength
  have hpos : 0 < m.data.width.bytes := by cases m.data.width <;> decide
  have htake : LittleEndian.decode ((m.data.contents.drop n).take m.data.width.bytes) = target := by
    rw [hdata, List.take_left' (LittleEndian.length_encode _ _),
      LittleEndian.decode_encode _ _ ((Width.lt_iff_le_maxValue _ _).2 hle)]
  simp only [Flat.perform, h.opcode_eq, h.operand_eq, Flat.Image.of, hwidth]
  rw [if_pos (by omega), htake]

theorem pushes_text (h : Faces m q d .pushString n) {t : String} {more : List UInt8}
    (hdata : m.data.contents.drop n = Utf8.encode t ++ 0 :: more) :
    q.Pushes m d (ValueStack.frame (Utf8.beforeNul t)) fun s =>
      255 < (Utf8.encode (Utf8.beforeNul t)).length ∨
        s.room < (Utf8.encode (Utf8.beforeNul t)).length + 1 := by
  have hmem : 0 ∈ m.data.contents.drop n := by
    rw [hdata]
    simp
  have htext : (m.data.contents.drop n).takeWhile (· != 0) = Utf8.encode (Utf8.beforeNul t) := by
    rw [hdata, Utf8.takeWhile_encode]
  apply h.pushes
  · intro s hs
    rw [← s.capacity_lt_iff] at hs
    simp only [Flat.perform, h.opcode_eq, h.operand_eq, Flat.Image.of]
    rw [Flat.pushFrame_of_text hmem htext, if_neg hs]
  · intro s hs
    rw [← s.capacity_lt_iff] at hs
    simp only [Flat.perform, h.opcode_eq, h.operand_eq, Flat.Image.of]
    rw [Flat.pushFrame_of_text hmem htext, if_pos hs]

end Faces

end Processor

/-! ## Labels of the data -/

namespace Assembly.FirstPass

variable {source : String} {m : Module}

/-- A processor that comes to an instruction of the code whose argument is a label faces that
instruction with the place of the label. -/
theorem exists_faces (f : FirstPass source) (hm : assemble source = .ok m) {i : Placed}
    (hi : i ∈ f.layout.placed) (hpage : i.page = .code) {opcode : Opcode} {name : String}
    (hbody : i.statement.body = .instruction opcode [.label name]) {symbol : Symbol}
    (hlookup : f.layout.symbols.lookup name = some symbol) {q : Processor}
    (hrun : q.state = .running) (hpc : m.code.programCounter i.offset = .ok q.pc) :
    ∃ d, q.Faces m d opcode symbol.offset := by
  obtain ⟨pc, d, operand, hpc', hd, -, hoperand, hinstruction, -⟩ :=
    f.exists_decoded hm hi hpage hbody
  obtain rfl : q.pc = pc := by
    rw [hpc] at hpc'
    exact Except.ok.inj hpc'
  refine ⟨d, hrun, ?_, hd, ?_, ?_⟩
  · rw [(CodePage.holds_of_programCounter hpc).2]
    exact hpc
  · rw [hinstruction]
  · rw [hinstruction]
    exact decode_operand_label hoperand hlookup

/-- What is laid out where a label points in the data is what instructions with that label read,
whatever the widths of the two pages. Of a text they push the part before its first NUL as a frame, of the
address of a label they push the byte at that label, and of any statement they push its first byte.
They fail only where the stack overflows, a frame also where the text is too long for one. -/
theorem data_directives_read (f : FirstPass source) (hm : assemble source = .ok m) {name : String}
    {symbol : Symbol} (hlookup : f.layout.symbols.lookup name = some symbol) {p : Placed}
    (hp : p ∈ f.layout.placed) (hpage : p.page = .data) (hoffset : p.offset = symbol.offset) :
    (∀ i ∈ f.layout.placed, i.page = .code → ∀ opcode,
      i.statement.body = .instruction opcode [.label name] →
      ∀ q : Processor, q.state = .running → m.code.programCounter i.offset = .ok q.pc →
        ∃ d, q.Faces m d opcode symbol.offset) ∧
    (∀ t rest, p.statement.body = .directive .texts (.text t :: rest) →
      ∀ (q : Processor) (d : Decoded), q.Faces m d .pushString symbol.offset →
        q.Pushes m d
          (Utf8.encode (Utf8.beforeNul t) ++
            [UInt8.ofNat (Utf8.encode (Utf8.beforeNul t)).length])
          fun s => 255 < (Utf8.encode (Utf8.beforeNul t)).length ∨
            s.room < (Utf8.encode (Utf8.beforeNul t)).length + 1) ∧
    (∀ x rest target, p.statement.body = .directive .addresses (.label x :: rest) →
      f.layout.symbols.lookup x = some target → target.offset < m.data.length →
      ∃ b, m.data.contents[target.offset]? = some b ∧
        ∀ (q : Processor) (d : Decoded), q.Faces m d .pushIndirect symbol.offset →
          q.Pushes m d [b] fun s => s.room = 0) ∧
    ∃ e, emit f.scope p = .ok e ∧ ∀ b rest, e.bytes = b :: rest →
      ∀ (q : Processor) (d : Decoded), q.Faces m d .pushDirect symbol.offset →
        q.Pushes m d [b] fun s => s.room = 0 := by
  obtain ⟨e, post, hemit, hdata⟩ := f.exists_emitted_at hm hp
  obtain ⟨-, -, hwidths, -⟩ := f.exists_emitted hm
  rw [hpage, hoffset] at hdata
  refine ⟨?_, ?_, ?_, e, hemit, ?_⟩
  · intro i hi hcode opcode hbody q hrun hpc
    exact f.exists_faces hm hi hcode hbody hlookup hrun hpc
  · intro t rest hbody q d hq
    obtain ⟨more, hbytes⟩ := bytes_texts hbody hemit
    rw [hbytes, List.append_assoc] at hdata
    exact hq.pushes_text hdata
  · intro x rest target hbody hx hlt
    obtain ⟨hle, more, hbytes⟩ := bytes_addresses hbody hemit hx
    have hwidth : f.scope.widths.of p.page = m.data.width := by
      rw [hpage, show f.scope.widths = m.widths from hwidths.symm]
      rfl
    rw [hwidth] at hle hbytes
    rw [hbytes, List.append_assoc] at hdata
    rw [← m.data.length_contents] at hlt
    refine ⟨_, List.getElem?_eq_getElem hlt, ?_⟩
    intro q d hq
    exact hq.pushes_indirect hdata hle (List.getElem?_eq_getElem hlt)
  · intro b rest hbytes q d hq
    apply hq.pushes_direct
    have hhead := congrArg List.head? hdata
    rw [hbytes, List.head?_drop] at hhead
    exact hhead

def almanac : String :=
  ".data\n.property address_width 2\nmsg: .string \"hi\\0there\"\nat: .addr msg\n.code\n" ++
    "pushs.d msg\npush.i at"

def almanacStatements : List Statement :=
  [⟨1, none, [], .directive .data []⟩,
   ⟨2, none, [], .property .page "address_width" (.number 2)⟩,
   ⟨3, some "msg", [], .directive .texts [.text "hi\x00there"]⟩,
   ⟨4, some "at", [], .directive .addresses [.label "msg"]⟩,
   ⟨5, none, [], .directive .code []⟩,
   ⟨6, none, [], .instruction .pushString [.label "msg"]⟩,
   ⟨7, none, [], .instruction .pushIndirect [.label "at"]⟩]

set_option maxRecDepth 4000 in
def almanacPass : FirstPass almanac where
  statements := almanacStatements
  widths := ⟨.one, .two⟩
  layout :=
    { codeSize := 6
      dataSize := 11
      symbols := [("at", ⟨.data, 9, 4⟩), ("msg", ⟨.data, 0, 3⟩)]
      placed := (placements ⟨.one, .two⟩ (sections almanacStatements)).reverse }
  parse_eq := rfl
  width_eq := by intro page; cases page <;> rfl
  layOut_eq := rfl

def almanacModule : Module :=
  { properties := []
    exports := []
    code := ⟨[], #[0x43, 0x00, 0x00, 0x42, 0x09, 0x00], .one, Table.width_nil, by decide⟩
    data := ⟨[⟨"address_width", "2"⟩],
      #[0x68, 0x69, 0x00, 0x74, 0x68, 0x65, 0x72, 0x65, 0x00, 0x00, 0x00], .two,
      Table.width_two, by decide⟩ }

theorem assemble_almanac : assemble almanac = .ok almanacModule := by
  rw [almanacPass.assemble_eq]
  rfl

/-- The text is pushed up to its NUL, and the address leads to its first byte. -/
theorem data_directives_read_almanac :
    (∃ (q : Processor) (d : Decoded), almanacModule.code.programCounter 0 = .ok q.pc ∧
      q.Faces almanacModule d .pushString 0 ∧ ∀ s : ValueStack, 3 ≤ s.room →
        ∃ t, Processor.step almanacModule (q, s) =
            .ok none (q.retire d.instruction d.next, t) ∧
          t.bytes = s.bytes ++ [0x68, 0x69, 0x02] ∧ t.capacity = s.capacity) ∧
    ∃ (q : Processor) (d : Decoded), almanacModule.code.programCounter 3 = .ok q.pc ∧
      q.Faces almanacModule d .pushIndirect 9 ∧
      q.Pushes almanacModule d [0x68] fun s => s.room = 0 := by
  have hmsg : almanacPass.layout.symbols.lookup "msg" = some ⟨.data, 0, 3⟩ := rfl
  have hat : almanacPass.layout.symbols.lookup "at" = some ⟨.data, 9, 4⟩ := rfl
  constructor
  · obtain ⟨hfaces, htext, -, -⟩ := almanacPass.data_directives_read assemble_almanac hmsg
      (p := ⟨.data, 0, almanacStatements[2]⟩) (by decide) rfl rfl
    obtain ⟨d, hd⟩ := hfaces ⟨.code, 0, almanacStatements[5]⟩ (by decide) rfl .pushString rfl
      ⟨⟨0, .one, 7, by decide, by decide⟩, .running, 0, none⟩ rfl rfl
    refine ⟨_, d, rfl, hd, fun s hs => (htext "hi\x00there" [] rfl _ d hd s).1 ?_⟩
    have hlength : (Utf8.encode (Utf8.beforeNul "hi\x00there")).length = 2 := rfl
    rw [hlength]
    omega
  · obtain ⟨hfaces, -, haddress, -⟩ := almanacPass.data_directives_read assemble_almanac hat
      (p := ⟨.data, 9, almanacStatements[3]⟩) (by decide) rfl rfl
    obtain ⟨d, hd⟩ := hfaces ⟨.code, 3, almanacStatements[6]⟩ (by decide) rfl .pushIndirect rfl
      ⟨⟨3, .one, 7, by decide, by decide⟩, .running, 0, none⟩ rfl rfl
    obtain ⟨b, hb, hpushes⟩ := haddress "msg" [] ⟨.data, 0, 3⟩ rfl hmsg (by decide)
    obtain rfl : b = 0x68 := by
      cases hb
      rfl
    exact ⟨_, d, rfl, hd, hpushes _ d hd⟩

end Assembly.FirstPass

end ByteMachine
