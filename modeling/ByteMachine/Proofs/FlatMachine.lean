import ByteMachine.Machine.Processor
import ByteMachine.Proofs.Utf8

/-!
The machine in terms of bytes alone. `Flat.step` reads the bytes of the two pages, its program
counter is a number and its value stack a list. What it fetches is what a module decodes.
-/
namespace ByteMachine

def Utf8.IsText (bytes : List UInt8) : Prop := ∃ text, Utf8.encode text = bytes

instance (bytes : List UInt8) : Decidable (Utf8.IsText bytes) :=
  match h : Utf8.decode bytes with
  | .ok text => .isTrue ⟨text, (Utf8.decode_eq_ok_iff.1 h).symm⟩
  | .error _ => .isFalse fun ⟨text, ht⟩ => by
    rw [← ht, Utf8.decode_encode] at h
    cases h

namespace Flat

inductive Failure where
  | address
  | invalidOpcode (byte : UInt8) (position : Nat)
  | underflow
  | overflow
  | notText
  deriving DecidableEq, Repr

def Failure.ofError : Error → Option Failure
  | .address _ => some address
  | .invalidOpcode byte position => some (invalidOpcode byte position)
  | .underflow _ _ => some underflow
  | .overflow _ => some overflow
  | .notText _ => some notText
  | _ => none

structure Image where
  code : List UInt8
  data : List UInt8
  widths : Widths
  deriving DecidableEq, Repr

def Image.of (m : Module) : Image :=
  ⟨m.code.contents, m.data.contents, m.widths⟩

/-- What an instruction does; the stack is given bottom first. -/
inductive Effect where
  | failed (failure : Failure) (stack : List UInt8)
  | done (state : RunState) (call : Option Syscall) (pc : Nat) (stack : List UInt8)
  deriving DecidableEq, Repr

/-- The first position from `pc` on whose byte is no prefix. -/
def opcodePosition (code : List UInt8) (pc : Nat) : Nat :=
  pc + (code.drop pc).findIdx fun b => !(0xE0 ≤ b && b ≤ 0xEF)

/-- The instruction at `pc`, and where the next one begins. -/
def fetch (image : Image) (pc : Nat) : Except Failure (Instruction × Nat) :=
  let q := opcodePosition image.code pc
  match image.code[q]? with
  | none => .error .address
  | some byte =>
    match Opcode.ofCode? byte with
    | none => .error (.invalidOpcode byte q)
    | some opcode =>
      let size := opcode.operand.size image.widths
      if q + 1 + size ≤ image.code.length then
        .ok (⟨(image.code.drop pc).take (q - pc), opcode, (image.code.drop (q + 1)).take size⟩,
          q + 1 + size)
      else .error .address

def pushEach (capacity next : Nat) : List UInt8 → List UInt8 → Effect
  | [], stack => .done .running none next stack
  | b :: rest, stack =>
    if stack.length < capacity then pushEach capacity next rest (stack ++ [b])
    else .failed .overflow stack

def pushFrom (data : List UInt8) (capacity next position : Nat) (stack : List UInt8) : Effect :=
  match data[position]? with
  | some b => pushEach capacity next [b] stack
  | none => .failed .address stack

/-- Pushes the bytes before the next zero byte, and then their number. -/
def pushFrame (data : List UInt8) (capacity next position : Nat) (stack : List UInt8) : Effect :=
  let bytes := (data.drop position).takeWhile (· != 0)
  if 0 ∉ data.drop position then .failed .address stack
  else if ¬ Utf8.IsText bytes then .failed .notText stack
  else if 255 < bytes.length ∨ capacity < stack.length + (bytes.length + 1) then
    .failed .overflow stack
  else .done .running none next (stack ++ (bytes ++ [UInt8.ofNat bytes.length]))

/-- Performs an instruction that is followed by the one at `next`. -/
def perform (image : Image) (capacity : Nat) (i : Instruction) (next : Nat) (stack : List UInt8) :
    Effect :=
  let a := LittleEndian.decode i.operand
  match i.opcode with
  | .exit => .done .halted (some .halt) next stack
  | .outByte => .done .running (some .out) next stack
  | .kernelCall => .done .running (some .kernelCall) next stack
  | .jump =>
    if a < image.code.length then .done .running none a stack else .failed .address stack
  | .pushByte | .pushWord => pushEach capacity next i.operand stack
  | .pushDirect => pushFrom image.data capacity next a stack
  | .pushIndirect =>
    let width := image.widths.data.bytes
    if a + width ≤ image.data.length then
      let b := LittleEndian.decode ((image.data.drop a).take width)
      pushFrom image.data capacity next b stack
    else .failed .address stack
  | .pushString => pushFrame image.data capacity next a stack
  | .popByte =>
    if stack.isEmpty then .failed .underflow stack else .done .running none next stack.dropLast

def step (image : Image) (capacity pc : Nat) (stack : List UInt8) : Effect :=
  match fetch image pc with
  | .error failure => .failed failure stack
  | .ok (i, next) => perform image capacity i next stack

end Flat

/-! ## Reading the pages -/

namespace Address

theorem make_of_lt {value maximum : Nat} {width : Width} (hw : value ≤ width.maxValue)
    (hm : value < maximum) : make value width maximum = .ok ⟨value, width, maximum, hm, hw⟩ := by
  rw [make, dif_pos hw, dif_pos hm]

theorem make_of_le {value maximum : Nat} {width : Width} (h : maximum ≤ value) :
    ∃ cause, make value width maximum = .error (.address cause) := by
  unfold make
  split
  · rw [dif_neg (by omega)]
    exact ⟨_, rfl⟩
  · exact ⟨_, rfl⟩

end Address

namespace Page

variable {s : Section} (p : Page s)

theorem length_le : p.length ≤ p.width.maxValue := p.size_le

variable {p} in
theorem byte_of_some {index : Nat} {b : UInt8} (h : p.contents[index]? = some b) :
    p.byte index = .ok b := by
  rw [contents, Array.getElem?_toList] at h
  rw [byte, h]

variable {p} in
theorem byte_of_none {index : Nat} (h : p.contents[index]? = none) :
    p.byte index = .error (.address (.byteOutside index p.length)) := by
  rw [contents, Array.getElem?_toList] at h
  rw [byte, h]

theorem slice_of_le {start count : Nat} (h : start + count ≤ p.length) :
    p.slice start count = .ok ((p.contents.drop start).take count) := by
  simp only [slice, checkRange, if_pos h, Bytes.range_eq]
  rfl

theorem slice_of_lt {start count : Nat} (h : p.length < start + count) :
    p.slice start count = .error (.address (.bytesOutside count start p.length)) := by
  simp only [slice, checkRange, if_neg (Nat.not_le.2 h)]
  rfl

theorem length_take_drop {start count : Nat} (h : start + count ≤ p.length) :
    ((p.contents.drop start).take count).length = count := by
  rw [List.length_take, List.length_drop, p.length_contents]
  omega

/-- An address that stands in a page is the number in its bytes, if these are there and the number
is small enough. -/
theorem addressAt_of_lt {start maximum : Nat} {width : Width} (h : start + width.bytes ≤ p.length)
    (hm : LittleEndian.decode ((p.contents.drop start).take width.bytes) < maximum) :
    ∃ a, p.addressAt start width maximum = .ok a ∧ a.width = width ∧ a.maximum = maximum ∧
      a.value = LittleEndian.decode ((p.contents.drop start).take width.bytes) := by
  have hl := p.length_take_drop h
  have hv := LittleEndian.decode_lt ((p.contents.drop start).take width.bytes)
  rw [hl, width.lt_iff_le_maxValue] at hv
  refine ⟨⟨_, width, maximum, hm, hv⟩, ?_, rfl, rfl, rfl⟩
  rw [addressAt, p.slice_of_le h]
  simp only [bind, Except.bind, Address.ofBytes, Width.decode, hl, ↓reduceIte]
  exact Address.make_of_lt hv hm

theorem addressAt_of_le {start maximum : Nat} {width : Width}
    (h : start + width.bytes ≤ p.length →
      maximum ≤ LittleEndian.decode ((p.contents.drop start).take width.bytes)) :
    ∃ cause, p.addressAt start width maximum = .error (.address cause) := by
  by_cases hs : start + width.bytes ≤ p.length
  · have hl := p.length_take_drop hs
    rw [addressAt, p.slice_of_le hs]
    simp only [bind, Except.bind, Address.ofBytes, Width.decode, hl, ↓reduceIte]
    exact Address.make_of_le (h hs)
  · rw [addressAt, p.slice_of_lt (by omega)]
    exact ⟨_, rfl⟩

end Page

/-! ## Decoding -/

namespace Flat

theorem fetch_cases {image : Image} {pc : Nat} {i : Instruction} {next : Nat}
    (h : fetch image pc = .ok (i, next)) :
    ∃ byte, image.code[opcodePosition image.code pc]? = some byte ∧
      Opcode.ofCode? byte = some i.opcode ∧
      opcodePosition image.code pc + 1 + i.opcode.operand.size image.widths = next ∧
      next ≤ image.code.length ∧
      i.prefixes = (image.code.drop pc).take (opcodePosition image.code pc - pc) ∧
      i.operand = (image.code.drop (opcodePosition image.code pc + 1)).take
        (i.opcode.operand.size image.widths) := by
  unfold fetch at h
  cases hb : image.code[opcodePosition image.code pc]? with
  | none => simp [hb] at h
  | some byte =>
    cases hop : Opcode.ofCode? byte with
    | none => simp [hb, hop] at h
    | some opcode =>
      simp only [hb, hop] at h
      by_cases hfit : opcodePosition image.code pc + 1 + opcode.operand.size image.widths ≤
          image.code.length
      · rw [if_pos hfit] at h
        cases h
        exact ⟨byte, rfl, hop, rfl, hfit, rfl, rfl⟩
      · rw [if_neg hfit] at h
        cases h

theorem fetch_error_cases {image : Image} {pc : Nat} {failure : Failure}
    (h : fetch image pc = .error failure) :
    (image.code[opcodePosition image.code pc]? = none ∧ failure = .address) ∨
      ∃ byte, image.code[opcodePosition image.code pc]? = some byte ∧
        ((Opcode.ofCode? byte = none ∧
            failure = .invalidOpcode byte (opcodePosition image.code pc)) ∨
          ∃ opcode, Opcode.ofCode? byte = some opcode ∧ failure = .address ∧
            image.code.length <
              opcodePosition image.code pc + 1 + opcode.operand.size image.widths) := by
  unfold fetch at h
  cases hb : image.code[opcodePosition image.code pc]? with
  | none =>
    simp only [hb] at h
    cases h
    exact .inl ⟨rfl, rfl⟩
  | some byte =>
    refine .inr ⟨byte, rfl, ?_⟩
    cases hop : Opcode.ofCode? byte with
    | none =>
      simp only [hb, hop] at h
      cases h
      exact .inl ⟨rfl, rfl⟩
    | some opcode =>
      simp only [hb, hop] at h
      by_cases hfit : opcodePosition image.code pc + 1 + opcode.operand.size image.widths ≤
          image.code.length
      · rw [if_pos hfit] at h
        cases h
      · rw [if_neg hfit] at h
        cases h
        exact .inr ⟨opcode, rfl, rfl, Nat.not_le.1 hfit⟩

theorem length_takeWhile_prefixes (code : List UInt8) (pc : Nat) :
    pc + ((code.drop pc).takeWhile isConditional).length = opcodePosition code pc := by
  rw [opcodePosition, List.takeWhile_eq_take_findIdx_not, List.length_take_of_le]
  · rfl
  · exact List.findIdx_le_length

theorem takeWhile_prefixes (code : List UInt8) (pc : Nat) :
    (code.drop pc).takeWhile isConditional =
      (code.drop pc).take (opcodePosition code pc - pc) := by
  rw [opcodePosition, Nat.add_sub_cancel_left, List.takeWhile_eq_take_findIdx_not]
  rfl

/-- Where an instruction stands in the code, that instruction is fetched. -/
theorem fetch_of_append {image : Image} {pre post : List UInt8} {i : Instruction}
    (hcode : image.code = pre ++ i.encode ++ post)
    (hprefixes : ∀ b ∈ i.prefixes, isConditional b = true)
    (hoperand : i.operand.length = i.opcode.operand.size image.widths) :
    fetch image pre.length = .ok (i, pre.length + i.encode.length) := by
  obtain ⟨prefixes, opcode, operand⟩ := i
  simp only [Instruction.encode] at hcode hprefixes hoperand ⊢
  have hdrop : image.code.drop pre.length = prefixes ++ opcode.code :: (operand ++ post) := by
    simp [hcode]
  have hrun : (image.code.drop pre.length).takeWhile isConditional = prefixes := by
    rw [hdrop, List.takeWhile_append_of_pos hprefixes, List.takeWhile_cons_of_neg]
    · simp
    · simp [isConditional_code]
  have hq : opcodePosition image.code pre.length = pre.length + prefixes.length := by
    rw [← length_takeWhile_prefixes, hrun]
  have hbyte : image.code[pre.length + prefixes.length]? = some opcode.code := by
    rw [← List.getElem?_drop, hdrop]
    simp
  have htake : (image.code.drop pre.length).take prefixes.length = prefixes := by
    rw [hdrop]
    simp
  have hrest : (image.code.drop (pre.length + prefixes.length + 1)).take operand.length =
      operand := by
    rw [Nat.add_assoc, ← List.drop_drop, hdrop]
    simp
  have hlength : pre.length + prefixes.length + 1 + operand.length ≤ image.code.length := by
    simp only [hcode, List.length_append, List.length_cons]
    omega
  simp only [fetch, hq, hbyte, Opcode.ofCode?_code, ← hoperand, if_pos hlength, hrest,
    Nat.add_sub_cancel_left, htake]
  simp only [List.length_append, List.length_cons]
  congr 2
  omega

theorem fetch_of_le {image : Image} {pc : Nat} (h : image.code.length ≤ pc) :
    fetch image pc = .error .address := by
  have hq : image.code[opcodePosition image.code pc]? = none := by
    rw [List.getElem?_eq_none]
    exact Nat.le_trans h (Nat.le_add_right _ _)
  simp only [fetch, hq]

theorem lt_of_fetch {image : Image} {pc next : Nat} {i : Instruction}
    (h : fetch image pc = .ok (i, next)) : pc < image.code.length := by
  obtain ⟨byte, -, -, hnext, hle, -⟩ := fetch_cases h
  have hpc : pc ≤ opcodePosition image.code pc := Nat.le_add_right _ _
  omega

end Flat

/-- The address is one that the program counter can take. -/
def CodePage.Holds (c : CodePage) (pc : Address) : Prop :=
  pc.width = c.width ∧ pc.maximum = c.length + 1

theorem CodePage.holds_of_programCounter {c : CodePage} {value : Nat} {pc : Address}
    (h : c.programCounter value = .ok pc) : c.Holds pc ∧ pc.value = value := by
  unfold programCounter Address.make at h
  split at h
  · split at h
    · cases h
      exact ⟨⟨rfl, rfl⟩, rfl⟩
    · cases h
  · cases h

theorem CodePage.Holds.value_le {c : CodePage} {pc : Address} (hpc : c.Holds pc) :
    pc.value ≤ c.length := by
  have hlt := pc.value_lt
  rw [hpc.2] at hlt
  exact Nat.le_of_lt_succ hlt

theorem CodePage.Holds.programCounter_eq {c : CodePage} {pc : Address} (hpc : c.Holds pc) :
    c.programCounter pc.value = .ok pc := by
  obtain ⟨value, width, maximum, hm, hw⟩ := pc
  obtain ⟨rfl, rfl⟩ := hpc
  exact Address.make_of_lt hw hm

theorem CodePage.Holds.eq_of_value {c : CodePage} {a b : Address} (ha : c.Holds a)
    (hb : c.Holds b) (h : a.value = b.value) : a = b := by
  have hsame := ha.programCounter_eq
  rw [h, hb.programCounter_eq] at hsame
  exact (Except.ok.inj hsame).symm

theorem CodePage.Holds.make {c : CodePage} {pc : Address} (hpc : c.Holds pc) {value : Nat}
    (h : value ≤ c.length) :
    ∃ a, Address.make value pc.width pc.maximum = .ok a ∧ c.Holds a ∧ a.value = value := by
  have hw : value ≤ pc.width.maxValue := hpc.1 ▸ Nat.le_trans h c.length_le
  have hm : value < pc.maximum := by rw [hpc.2]; omega
  exact ⟨_, Address.make_of_lt hw hm, hpc, rfl⟩

theorem CodePage.Holds.increment {c : CodePage} {pc : Address} (hpc : c.Holds pc) {n : Nat}
    (h : pc.value + n ≤ c.length) :
    ∃ a, pc.increment n = .ok a ∧ c.Holds a ∧ a.value = pc.value + n := by
  have hw : c.width.maxValue < Numeral.wordLimit := by cases c.width <;> decide
  have hl := c.length_le
  rw [Address.increment, if_pos (by omega)]
  exact hpc.make h

theorem CodePage.Holds.increment_of_lt {c : CodePage} {pc : Address} (hpc : c.Holds pc) {n : Nat}
    (h : c.length < pc.value + n) : ∃ cause, pc.increment n = .error (.address cause) := by
  unfold Address.increment
  split
  · exact Address.make_of_le (by rw [hpc.2]; omega)
  · exact ⟨_, rfl⟩

theorem CodePage.conditionals_eq (c : CodePage) (pc : Address) :
    c.conditionals pc = (do
      let _ ← c.byte (Flat.opcodePosition c.contents pc.value)
      return ((c.contents.drop pc.value).take
          (Flat.opcodePosition c.contents pc.value - pc.value),
        ← Address.make (Flat.opcodePosition c.contents pc.value) pc.width pc.maximum)) := by
  have hrun : c.memory.run isConditional pc.value =
      (c.contents.drop pc.value).takeWhile isConditional := Bytes.run_eq _ _ _
  simp only [conditionals, hrun, Flat.length_takeWhile_prefixes]
  rw [Flat.takeWhile_prefixes]

/-- A decoded instruction lies in the code, and its operand is what stands behind its opcode. -/
structure Decoded.Sound (m : Module) (d : Decoded) : Prop where
  next_holds : m.code.Holds d.next
  next_eq : d.position.value + 1 + d.instruction.opcode.operand.size m.widths = d.next.value
  next_le : d.next.value ≤ m.code.length
  operand_eq : d.instruction.operand =
    (m.code.contents.drop (d.position.value + 1)).take (d.instruction.opcode.operand.size m.widths)

namespace Module

open Flat

/-- Decoding finds the instruction that stands in the bytes. -/
theorem decode_of_fetch {m : Module} {pc : Address} (hpc : m.code.Holds pc) {i : Instruction}
    {next : Nat} (h : fetch (.of m) pc.value = .ok (i, next)) :
    ∃ d, m.decode pc = .ok d ∧ d.Sound m ∧ d.instruction = i ∧ d.next.value = next := by
  obtain ⟨byte, hb, hop, hnext, hfit, hprefixes, hoperand⟩ := fetch_cases h
  simp only [Image.of] at hb hnext hfit hprefixes hoperand
  rw [m.code.length_contents] at hfit
  obtain ⟨position, hmake, hholds, hvalue⟩ := hpc.make
    (show opcodePosition m.code.contents pc.value ≤ m.code.length by omega)
  obtain ⟨a, hincr, ha, hav⟩ := hholds.increment
    (show position.value + i.opcode.size m.widths ≤ m.code.length by
      rw [hvalue, Opcode.size]; omega)
  have hrange : m.code.memory.range (opcodePosition m.code.contents pc.value + 1)
      (i.opcode.operand.size m.widths) = i.operand := by
    rw [hoperand, Bytes.range_eq]
    rfl
  have hsize : position.value + 1 + i.opcode.operand.size m.widths = a.value := by
    rw [hav, Opcode.size, Nat.add_assoc]
  refine ⟨⟨i, position, a⟩, ?_, ⟨ha, hsize, ?_, ?_⟩, rfl, ?_⟩
  · simp only [decode, m.code.conditionals_eq, Page.byte_of_some hb, hmake, bind, Except.bind,
      pure, Except.pure, Page.byteAt, hvalue, hop, hincr, hrange, ← hprefixes]
  · rw [← hsize, hvalue, hnext]
    exact hfit
  · rw [hvalue]
    exact hoperand
  · rw [← hsize, hvalue, hnext]

theorem decode_of_fetch_error {m : Module} {pc : Address} (hpc : m.code.Holds pc)
    {failure : Failure} (h : fetch (.of m) pc.value = .error failure) :
    ∃ e, m.decode pc = .error e ∧ Failure.ofError e = some failure := by
  rcases fetch_error_cases h with ⟨hb, rfl⟩ | ⟨byte, hb, hcases⟩
  · simp only [Image.of] at hb
    have hbyte := Page.byte_of_none hb
    refine ⟨.address (.byteOutside (opcodePosition m.code.contents pc.value) m.code.length), ?_, rfl⟩
    simp only [decode, m.code.conditionals_eq, hbyte, bind, Except.bind]
  · simp only [Image.of] at hb hcases
    have hlt : opcodePosition m.code.contents pc.value < m.code.length := by
      have h := (List.getElem?_eq_some_iff.1 hb).1
      rwa [m.code.length_contents] at h
    obtain ⟨position, hmake, hholds, hvalue⟩ := hpc.make (Nat.le_of_lt hlt)
    rcases hcases with ⟨hop, rfl⟩ | ⟨opcode, hop, rfl, hfit⟩
    · refine ⟨.invalidOpcode byte position.value, ?_, by simp [Failure.ofError, hvalue]⟩
      simp only [decode, m.code.conditionals_eq, Page.byte_of_some hb, hmake, bind, Except.bind,
        pure, Except.pure, Page.byteAt, hvalue, hop]
    · rw [m.code.length_contents] at hfit
      obtain ⟨cause, hincr⟩ := hholds.increment_of_lt
        (show m.code.length < position.value + opcode.size m.widths by
          rw [hvalue, Opcode.size]; omega)
      refine ⟨.address cause, ?_, rfl⟩
      simp only [decode, m.code.conditionals_eq, Page.byte_of_some hb, hmake, bind, Except.bind,
        pure, Except.pure, Page.byteAt, hvalue, hop, hincr]

end Module

end ByteMachine
