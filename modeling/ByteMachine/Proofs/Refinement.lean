import ByteMachine.Proofs.FlatMachine
import ByteMachine.Proofs.Streams

/-!
A processor's step does what the flat machine says: performing an instruction, opcode by opcode,
and then a whole step.
-/
namespace ByteMachine

/-! ## Performing -/

namespace ValueStack

variable {s : ValueStack}

theorem length_bytes (s : ValueStack) : s.bytes.length = s.length := by
  simp [bytes, length]

theorem eq_of_bytes_eq {t : ValueStack} (hbytes : t.bytes = s.bytes)
    (hcapacity : t.capacity = s.capacity) : t = s := by
  obtain ⟨items, room⟩ := s
  obtain ⟨items', room'⟩ := t
  obtain rfl : items' = items := List.reverse_inj.1 hbytes
  obtain rfl : room' = room := Nat.add_left_cancel hcapacity
  rfl

theorem pushBytes_of_fits {bytes : List UInt8} (h : s.bytes.length + bytes.length ≤ s.capacity) :
    ∃ t, pushBytes bytes s = .ok () t ∧ t.bytes = s.bytes ++ bytes ∧ t.capacity = s.capacity := by
  rw [length_bytes, capacity] at h
  exact pushBytes_of_le (by omega)

theorem pushBytes_of_lt {bytes : List UInt8} (h : s.capacity < s.bytes.length + bytes.length) :
    ∃ cause, pushBytes bytes s = .error (.overflow cause) s := by
  rw [length_bytes, capacity] at h
  exact ⟨_, by rw [pushBytes, if_neg (by omega)]⟩

theorem length_frame (text : String) : (frame text).length = (Utf8.encode text).length + 1 := by
  rw [frame, List.length_append, List.length_singleton]

theorem pushText_of_le {text : String} (h : (Utf8.encode text).length ≤ 255) (s : ValueStack) :
    pushText text s = pushBytes (frame text) s :=
  if_pos h

theorem pushText_of_lt {text : String} (h : 255 < (Utf8.encode text).length) (s : ValueStack) :
    pushText text s = .error (.overflow (.longText (Utf8.encode text).length)) s :=
  if_neg (Nat.not_le.2 h)

theorem popByte_of_ne_nil (h : s.bytes ≠ []) :
    ∃ b t, popByte s = .ok b t ∧ t.bytes = s.bytes.dropLast ∧ t.capacity = s.capacity := by
  obtain ⟨items, room⟩ := s
  cases items with
  | nil => exact absurd rfl h
  | cons b rest =>
    refine ⟨b, ⟨rest, room + 1⟩, rfl, ?_, ?_⟩
    · simp [bytes]
    · simp only [capacity, length, List.length_cons]
      omega

theorem popByte_of_eq_nil (h : s.bytes = []) : popByte s = .error (.underflow 1 0) s := by
  obtain ⟨items, room⟩ := s
  obtain rfl : items = [] := by simpa [bytes] using h
  rfl

end ValueStack

namespace Flat

/-- What an instruction did is what an effect says. -/
def Effect.Describes (m : Module) (capacity : Nat) (opcode : Opcode) :
    Effect → EStateM.Result Error ValueStack Address → Prop
  | .failed failure stack, r => ∃ e t, r = .error e t ∧ Failure.ofError e = some failure ∧
      t.bytes = stack ∧ t.capacity = capacity
  | .done state call pc stack, r => ∃ a t, r = .ok a t ∧ m.code.Holds a ∧ a.value = pc ∧
      t.bytes = stack ∧ t.capacity = capacity ∧ opcode.after = state ∧ opcode.syscall = call

variable {m : Module} {s : ValueStack} {opcode : Opcode} {next : Address}

theorem describes_error {e : Error} {failure : Failure} (h : Failure.ofError e = some failure) :
    (Effect.failed failure s.bytes).Describes m s.capacity opcode (.error e s) :=
  ⟨e, s, rfl, h, rfl, rfl⟩

theorem describes_ok {a : Address} (ha : m.code.Holds a) :
    (Effect.done opcode.after opcode.syscall a.value s.bytes).Describes m s.capacity opcode
      (.ok a s) :=
  ⟨a, s, rfl, ha, rfl, rfl, rfl, rfl, rfl⟩

theorem pushEach_describes (hstate : opcode.after = .running) (hcall : opcode.syscall = none)
    (hnext : m.code.Holds next) (bytes : List UInt8) (s : ValueStack) :
    (pushEach s.capacity next.value bytes s.bytes).Describes m s.capacity opcode
      ((bytes.forM ValueStack.pushByte >>= fun _ => pure next) s) := by
  induction bytes generalizing s with
  | nil => exact ⟨next, s, rfl, hnext, rfl, rfl, rfl, hstate, hcall⟩
  | cons b bytes ih =>
    rw [List.forM, bind_assoc, pushEach]
    by_cases h : s.bytes.length < s.capacity
    · obtain ⟨t, ht, hbytes, hcapacity⟩ := ValueStack.pushBytes_of_fits
        (show s.bytes.length + [b].length ≤ s.capacity from h)
      have hpush : ValueStack.pushByte b s = .ok () t := ht
      rw [if_pos h, Action.bind_of_ok hpush, ← hbytes, ← hcapacity]
      exact ih t
    · obtain ⟨cause, ht⟩ := ValueStack.pushBytes_of_lt
        (show s.capacity < s.bytes.length + [b].length from Nat.lt_succ_of_le (Nat.not_lt.1 h))
      have hpush : ValueStack.pushByte b s = .error (.overflow cause) s := ht
      rw [if_neg h, Action.bind_of_error hpush]
      exact describes_error rfl

theorem pushByte_describes (hstate : opcode.after = .running) (hcall : opcode.syscall = none)
    (hnext : m.code.Holds next) (b : UInt8) :
    (pushEach s.capacity next.value [b] s.bytes).Describes m s.capacity opcode
      ((ValueStack.pushByte b >>= fun _ => pure next) s) := by
  have h := pushEach_describes hstate hcall hnext [b] s
  rwa [List.forM, bind_assoc] at h

end Flat

/-! ## The addressing modes -/

/-- Bytes that pass a test do not reach the end where there is one that does not. -/
theorem length_takeWhile_lt_iff (test : UInt8 → Bool) (bytes : List UInt8) :
    (bytes.takeWhile test).length < bytes.length ↔ ∃ b ∈ bytes, test b = false := by
  induction bytes with
  | nil => simp
  | cons b bytes ih => cases hb : test b <;> simp [hb, ih]

namespace DataPage

variable {d : DataPage} {a : Address}

theorem textAt_eq (ha : a.value < d.length) :
    d.textAt a =
      if 0 ∈ d.contents.drop a.value then
        match Utf8.decode ((d.contents.drop a.value).takeWhile (· != 0)) with
        | .ok text => .ok text
        | .error defect => .error (.notText defect)
      else .error (.address (.unterminated a.value a.width)) := by
  have hrun : d.memory.run (· != 0) a.value = (d.contents.drop a.value).takeWhile (· != 0) :=
    Bytes.run_eq _ _ _
  have hcheck : d.checkRange a.value (d.length - a.value) = .ok () := by
    rw [Page.checkRange, if_pos (by omega)]
  have hlt : a.value + ((d.contents.drop a.value).takeWhile (· != 0)).length < d.length ↔
      0 ∈ d.contents.drop a.value := by
    have hzero := length_takeWhile_lt_iff (· != 0) (d.contents.drop a.value)
    simp only [bne_eq_false_iff_eq, exists_eq_right, List.length_drop, d.length_contents] at hzero
    rw [← hzero]
    omega
  simp only [textAt, hcheck, hrun, bind, Except.bind]
  by_cases hzero : 0 ∈ d.contents.drop a.value
  · exact (if_pos (hlt.2 hzero)).trans (if_pos hzero).symm
  · exact (if_neg (mt hlt.1 hzero)).trans (if_neg hzero).symm

end DataPage

namespace Decoded.Sound

variable {m : Module} {d : Decoded}

theorem size_le (h : d.Sound m) :
    d.position.value + 1 + d.instruction.opcode.operand.size m.widths ≤ m.code.length :=
  h.next_eq ▸ h.next_le

/-- An operand that is an address is the number in its bytes. -/
theorem addressAt_of_lt (h : d.Sound m) {width : Width} {maximum : Nat}
    (hw : d.instruction.opcode.operand.size m.widths = width.bytes)
    (hm : LittleEndian.decode d.instruction.operand < maximum) :
    ∃ a, m.code.addressAt (d.position.value + 1) width maximum = .ok a ∧ a.width = width ∧
      a.value = LittleEndian.decode d.instruction.operand := by
  have hfit := h.size_le
  rw [h.operand_eq, hw] at hm ⊢
  rw [hw] at hfit
  obtain ⟨a, ha, hwidth, -, hvalue⟩ := m.code.addressAt_of_lt hfit hm
  exact ⟨a, ha, hwidth, hvalue⟩

theorem addressAt_of_le (h : d.Sound m) {width : Width} {maximum : Nat}
    (hw : d.instruction.opcode.operand.size m.widths = width.bytes)
    (hm : maximum ≤ LittleEndian.decode d.instruction.operand) :
    ∃ cause, m.code.addressAt (d.position.value + 1) width maximum = .error (.address cause) := by
  rw [h.operand_eq, hw] at hm
  exact m.code.addressAt_of_le fun _ => hm

theorem immediateWord_eq (h : d.Sound m) (hop : d.instruction.opcode = .pushWord) :
    m.code.immediateWord d.position = .ok d.instruction.operand := by
  have hfit := h.size_le
  have hoperand := h.operand_eq
  rw [hop] at hfit hoperand
  rw [hoperand]
  exact m.code.slice_of_le hfit

end Decoded.Sound

namespace Flat

variable {m : Module} {s : ValueStack} {d : Decoded}

theorem jump_describes (h : d.Sound m) (hop : d.instruction.opcode = .jump) :
    (perform (.of m) s.capacity d.instruction d.next.value s.bytes).Describes m s.capacity .jump
      (m.perform d s) := by
  simp only [perform, hop, Module.perform, CodePage.jumpAddress, Image.of, m.code.length_contents]
  have hw : d.instruction.opcode.operand.size m.widths = m.code.width.bytes := by
    rw [hop]
    rfl
  by_cases ha : LittleEndian.decode d.instruction.operand < m.code.length
  · obtain ⟨a, hat, hwidth, hvalue⟩ := h.addressAt_of_lt hw ha
    have hrebound : a.rebound (m.code.length + 1) =
        .ok ⟨a.value, a.width, m.code.length + 1, by omega, a.value_le⟩ :=
      Address.make_of_lt a.value_le (by omega)
    rw [if_pos ha, hat, ← hvalue]
    simp only [bind, EStateM.bind, Action.ofExcept_ok, hrebound]
    exact describes_ok ⟨hwidth, rfl⟩
  · obtain ⟨cause, hat⟩ := h.addressAt_of_le hw (Nat.not_lt.1 ha)
    rw [if_neg ha, hat]
    exact describes_error rfl

theorem pushByte_operand_describes (h : d.Sound m) (hop : d.instruction.opcode = .pushByte) :
    (perform (.of m) s.capacity d.instruction d.next.value s.bytes).Describes m s.capacity
      .pushByte (m.perform d s) := by
  have hfit := h.size_le
  have hoperand := h.operand_eq
  rw [hop] at hfit hoperand
  simp only [Opcode.operand, Operand.size] at hfit hoperand
  have hlt : d.position.value + 1 < m.code.contents.length := by
    rw [m.code.length_contents]
    omega
  rw [List.drop_eq_getElem_cons hlt] at hoperand
  have hbyte : m.code.immediateByte d.position = .ok m.code.contents[d.position.value + 1] :=
    Page.byte_of_some (List.getElem?_eq_getElem hlt)
  simp only [perform, hop, Module.perform, hoperand, hbyte, List.take_succ_cons, List.take_zero]
  exact pushByte_describes rfl rfl h.next_holds _

theorem pushWord_describes (h : d.Sound m) (hop : d.instruction.opcode = .pushWord) :
    (perform (.of m) s.capacity d.instruction d.next.value s.bytes).Describes m s.capacity
      .pushWord (m.perform d s) := by
  simp only [perform, hop, Module.perform, h.immediateWord_eq hop]
  exact pushEach_describes rfl rfl h.next_holds _ _

/-- Pushing the byte of the data page at an address. -/
theorem pushFrom_describes {opcode : Opcode} (hstate : opcode.after = .running)
    (hcall : opcode.syscall = none) {next : Address} (hnext : m.code.Holds next) {a : Address}
    (ha : a.value < m.data.length) :
    (pushFrom m.data.contents s.capacity next.value a.value s.bytes).Describes m s.capacity opcode
      ((Action.ofExcept (m.data.byteAt a) >>= fun b =>
        ValueStack.pushByte b >>= fun _ => pure next) s) := by
  have hlt : a.value < m.data.contents.length := by
    rwa [m.data.length_contents]
  have hbyte : m.data.byteAt a = .ok m.data.contents[a.value] :=
    Page.byte_of_some (List.getElem?_eq_getElem hlt)
  rw [pushFrom, List.getElem?_eq_getElem hlt, hbyte]
  exact pushByte_describes hstate hcall hnext _

theorem pushFrom_of_le {data : List UInt8} {capacity next position : Nat} {stack : List UInt8}
    (h : data.length ≤ position) :
    pushFrom data capacity next position stack = .failed .address stack := by
  rw [pushFrom, List.getElem?_eq_none h]

theorem pushDirect_describes (h : d.Sound m) (hop : d.instruction.opcode = .pushDirect) :
    (perform (.of m) s.capacity d.instruction d.next.value s.bytes).Describes m s.capacity
      .pushDirect (m.perform d s) := by
  have hw : d.instruction.opcode.operand.size m.widths = m.data.width.bytes := by
    rw [hop]
    rfl
  simp only [perform, hop, Module.perform, CodePage.directByte, CodePage.directAddress, Image.of]
  by_cases ha : LittleEndian.decode d.instruction.operand < m.data.length
  · obtain ⟨a, hat, -, hvalue⟩ := h.addressAt_of_lt hw ha
    rw [hat, ← hvalue]
    exact pushFrom_describes rfl rfl h.next_holds (hvalue ▸ ha)
  · obtain ⟨cause, hat⟩ := h.addressAt_of_le hw (Nat.not_lt.1 ha)
    rw [hat, pushFrom_of_le (by rw [m.data.length_contents]; omega)]
    exact describes_error rfl

theorem pushIndirect_describes (h : d.Sound m) (hop : d.instruction.opcode = .pushIndirect) :
    (perform (.of m) s.capacity d.instruction d.next.value s.bytes).Describes m s.capacity
      .pushIndirect (m.perform d s) := by
  have hw : d.instruction.opcode.operand.size m.widths = m.data.width.bytes := by
    rw [hop]
    rfl
  have hwidth : m.widths.data = m.data.width := rfl
  simp only [perform, hop, Module.perform, CodePage.indirectByte, CodePage.indirectAddress,
    CodePage.directAddress, Image.of, hwidth, m.data.length_contents]
  by_cases ha : LittleEndian.decode d.instruction.operand < m.data.length
  · obtain ⟨a, hat, -, hvalue⟩ := h.addressAt_of_lt hw ha
    rw [hat, ← hvalue]
    by_cases hfit : a.value + m.data.width.bytes ≤ m.data.length
    · rw [if_pos hfit]
      by_cases hb : LittleEndian.decode ((m.data.contents.drop a.value).take m.data.width.bytes) <
          m.data.length
      · obtain ⟨b, hbt, -, -, hbv⟩ := m.data.addressAt_of_lt hfit hb
        simp only [bind, Except.bind, hbt, ← hbv]
        exact pushFrom_describes rfl rfl h.next_holds (hbv ▸ hb)
      · obtain ⟨cause, hbt⟩ := m.data.addressAt_of_le fun _ => Nat.not_lt.1 hb
        simp only [bind, Except.bind, hbt]
        rw [pushFrom_of_le (by rw [m.data.length_contents]; omega)]
        exact describes_error rfl
    · obtain ⟨cause, hbt⟩ :
          ∃ cause, m.data.addressAt a.value m.data.width m.data.length = .error (.address cause) :=
        m.data.addressAt_of_le fun hle => absurd hle hfit
      simp only [bind, Except.bind, hbt]
      rw [if_neg hfit]
      exact describes_error rfl
  · obtain ⟨cause, hat⟩ := h.addressAt_of_le hw (Nat.not_lt.1 ha)
    have hpos : 0 < m.data.width.bytes := by cases m.data.width <;> decide
    rw [hat, if_neg (by omega)]
    exact describes_error rfl

/-- Pushing a text: its bytes and their number, if all of them fit. -/
theorem pushText_describes {opcode : Opcode} (hstate : opcode.after = .running)
    (hcall : opcode.syscall = none) {next : Address} (hnext : m.code.Holds next) (text : String) :
    (if 255 < (Utf8.encode text).length ∨
        s.capacity < s.bytes.length + ((Utf8.encode text).length + 1) then
      Effect.failed .overflow s.bytes
    else .done .running none next.value (s.bytes ++ ValueStack.frame text)).Describes m s.capacity
      opcode ((ValueStack.pushText text >>= fun _ => pure next) s) := by
  rw [← ValueStack.length_frame]
  by_cases hlong : 255 < (Utf8.encode text).length
  · rw [if_pos (.inl hlong), Action.bind_of_error (ValueStack.pushText_of_lt hlong s)]
    exact describes_error rfl
  · have hpush := ValueStack.pushText_of_le (Nat.not_lt.1 hlong) s
    by_cases hfull : s.capacity < s.bytes.length + (ValueStack.frame text).length
    · obtain ⟨cause, ht⟩ := ValueStack.pushBytes_of_lt hfull
      rw [if_pos (.inr hfull), Action.bind_of_error (hpush.trans ht)]
      exact describes_error rfl
    · obtain ⟨t, ht, hbytes, hcapacity⟩ := ValueStack.pushBytes_of_fits (Nat.not_lt.1 hfull)
      rw [if_neg (by simp [hlong, hfull]), Action.bind_of_ok (hpush.trans ht)]
      exact ⟨next, t, rfl, hnext, rfl, hbytes, hcapacity, hstate, hcall⟩

section

variable {data : List UInt8} {capacity next position : Nat} {stack : List UInt8}

theorem pushFrame_of_not_mem (h : 0 ∉ data.drop position) :
    pushFrame data capacity next position stack = .failed .address stack := by
  rw [pushFrame, if_pos h]

theorem pushFrame_of_not_text (h : 0 ∈ data.drop position)
    (ht : ¬ Utf8.IsText ((data.drop position).takeWhile (· != 0))) :
    pushFrame data capacity next position stack = .failed .notText stack := by
  rw [pushFrame, if_neg (not_not_intro h), if_pos ht]

theorem pushFrame_of_text {text : String} (h : 0 ∈ data.drop position)
    (ht : (data.drop position).takeWhile (· != 0) = Utf8.encode text) :
    pushFrame data capacity next position stack =
      if 255 < (Utf8.encode text).length ∨
          capacity < stack.length + ((Utf8.encode text).length + 1) then
        .failed .overflow stack
      else .done .running none next (stack ++ ValueStack.frame text) := by
  simp only [pushFrame, ht]
  rw [if_neg (not_not_intro h), if_neg (not_not_intro ⟨text, rfl⟩)]
  rfl

end

theorem pushString_describes (h : d.Sound m) (hop : d.instruction.opcode = .pushString) :
    (perform (.of m) s.capacity d.instruction d.next.value s.bytes).Describes m s.capacity
      .pushString (m.perform d s) := by
  have hw : d.instruction.opcode.operand.size m.widths = m.data.width.bytes := by
    rw [hop]
    rfl
  simp only [perform, hop, Module.perform, CodePage.directAddress, Image.of]
  by_cases ha : LittleEndian.decode d.instruction.operand < m.data.length
  · obtain ⟨a, hat, -, hvalue⟩ := h.addressAt_of_lt hw ha
    have htext := DataPage.textAt_eq (show a.value < m.data.length from hvalue ▸ ha)
    rw [hat, ← hvalue]
    simp only [bind, EStateM.bind, Action.ofExcept_ok]
    by_cases hzero : 0 ∈ m.data.contents.drop a.value
    · rw [if_pos hzero] at htext
      cases hdecode : Utf8.decode ((m.data.contents.drop a.value).takeWhile (· != 0)) with
      | ok text =>
        rw [hdecode] at htext
        rw [htext, pushFrame_of_text hzero (Utf8.decode_eq_ok_iff.1 hdecode)]
        exact pushText_describes rfl rfl h.next_holds text
      | error defect =>
        have hnot : ¬ Utf8.IsText ((m.data.contents.drop a.value).takeWhile (· != 0)) := by
          rintro ⟨text, ht⟩
          rw [← ht, Utf8.decode_encode] at hdecode
          cases hdecode
        rw [hdecode] at htext
        rw [htext, pushFrame_of_not_text hzero hnot]
        exact describes_error rfl
    · rw [if_neg hzero] at htext
      rw [htext, pushFrame_of_not_mem hzero]
      exact describes_error rfl
  · obtain ⟨cause, hat⟩ := h.addressAt_of_le hw (Nat.not_lt.1 ha)
    have hnil : m.data.contents.drop (LittleEndian.decode d.instruction.operand) = [] :=
      List.drop_eq_nil_of_le (by rw [m.data.length_contents]; omega)
    rw [hat, pushFrame_of_not_mem (hnil ▸ List.not_mem_nil)]
    exact describes_error rfl

theorem popByte_describes (hnext : m.code.Holds d.next) (hop : d.instruction.opcode = .popByte) :
    (perform (.of m) s.capacity d.instruction d.next.value s.bytes).Describes m s.capacity
      .popByte (m.perform d s) := by
  simp only [perform, hop, Module.perform, List.isEmpty_iff]
  by_cases hs : s.bytes = []
  · rw [if_pos hs, Action.bind_of_error (ValueStack.popByte_of_eq_nil hs)]
    exact describes_error rfl
  · obtain ⟨b, t, hpop, hbytes, hcapacity⟩ := ValueStack.popByte_of_ne_nil hs
    rw [if_neg hs, Action.bind_of_ok hpop]
    exact ⟨d.next, t, rfl, hnext, rfl, hbytes, hcapacity, rfl, rfl⟩

/-- Performing an instruction does what is said of its bytes. -/
theorem perform_describes (h : d.Sound m) :
    (perform (.of m) s.capacity d.instruction d.next.value s.bytes).Describes m s.capacity
      d.instruction.opcode (m.perform d s) := by
  cases hop : d.instruction.opcode with
  | exit | outByte | kernelCall =>
    simp only [perform, hop, Module.perform]
    exact describes_ok h.next_holds
  | jump => exact jump_describes h hop
  | pushByte => exact pushByte_operand_describes h hop
  | pushDirect => exact pushDirect_describes h hop
  | pushIndirect => exact pushIndirect_describes h hop
  | pushString => exact pushString_describes h hop
  | pushWord => exact pushWord_describes h hop
  | popByte => exact popByte_describes h.next_holds hop

end Flat

/-! ## Steps -/

namespace Processor

open Flat

variable {m : Module} {p : Processor} {s : ValueStack}

/-- Where the flat machine fails with the decoded instruction, so does a step. -/
theorem step_of_perform_failed (hrun : p.state = .running) {d : Decoded}
    (hd : m.decode p.pc = .ok d) (hsound : d.Sound m) {failure : Failure} {stack : List UInt8}
    (h : perform (.of m) s.capacity d.instruction d.next.value s.bytes = .failed failure stack) :
    ∃ e t, step m (p, s) = .error e (p.fault e, t) ∧ Failure.ofError e = some failure ∧
      t.bytes = stack ∧ t.capacity = s.capacity := by
  have hperform := perform_describes (s := s) hsound
  rw [h] at hperform
  obtain ⟨e, t, ht, he, hbytes, hcapacity⟩ := hperform
  refine ⟨e, t, ?_, he, hbytes, hcapacity⟩
  simp only [step, if_neg (not_not_intro hrun), execute, hd, bind, EStateM.bind,
    Action.ofExcept_ok, ht]

/-- What the flat machine does with the decoded instruction, a step does and counts. -/
theorem step_of_perform (hrun : p.state = .running) {d : Decoded} (hd : m.decode p.pc = .ok d)
    (hsound : d.Sound m) {state : RunState} {call : Option Syscall} {pc : Nat}
    {stack : List UInt8}
    (h : perform (.of m) s.capacity d.instruction d.next.value s.bytes =
      .done state call pc stack) :
    ∃ a t, step m (p, s) = .ok call (p.retire d.instruction a, t) ∧ m.code.Holds a ∧
      a.value = pc ∧ d.instruction.opcode.after = state ∧ t.bytes = stack ∧
      t.capacity = s.capacity := by
  have hperform := perform_describes (s := s) hsound
  rw [h] at hperform
  obtain ⟨a, t, ht, ha, hvalue, hbytes, hcapacity, hafter, rfl⟩ := hperform
  refine ⟨a, t, ?_, ha, hvalue, hafter, hbytes, hcapacity⟩
  simp only [step, if_neg (not_not_intro hrun), execute, hd, bind, EStateM.bind,
    Action.ofExcept_ok, ht]
  rfl

/-- A step that fails leaves all of the processor but its state, and what it had pushed. -/
theorem step_of_failed (hrun : p.state = .running) (hpc : m.code.Holds p.pc) {failure : Failure}
    {stack : List UInt8}
    (h : Flat.step (.of m) s.capacity p.pc.value s.bytes = .failed failure stack) :
    ∃ e t, step m (p, s) = .error e (p.fault e, t) ∧ Failure.ofError e = some failure ∧
      t.bytes = stack ∧ t.capacity = s.capacity := by
  unfold Flat.step at h
  cases hfetch : fetch (.of m) p.pc.value with
  | error cause =>
    rw [hfetch] at h
    cases h
    obtain ⟨e, hd, he⟩ := m.decode_of_fetch_error hpc hfetch
    refine ⟨e, s, ?_, he, rfl, rfl⟩
    simp only [step, if_neg (not_not_intro hrun), execute, hd, bind, EStateM.bind,
      Action.ofExcept_error]
  | ok found =>
    obtain ⟨i, next⟩ := found
    obtain ⟨d, hd, hsound, rfl, rfl⟩ := Module.decode_of_fetch hpc hfetch
    rw [hfetch] at h
    exact step_of_perform_failed hrun hd hsound h

/-- A step that is done has executed the instruction at the program counter. -/
theorem step_of_done (hrun : p.state = .running) (hpc : m.code.Holds p.pc) {state : RunState}
    {call : Option Syscall} {pc : Nat} {stack : List UInt8}
    (h : Flat.step (.of m) s.capacity p.pc.value s.bytes = .done state call pc stack) :
    ∃ i next a t, fetch (.of m) p.pc.value = .ok (i, next) ∧
      step m (p, s) = .ok call (⟨a, state, p.steps + 1, some (p.pc, i)⟩, t) ∧
      m.code.Holds a ∧ a.value = pc ∧ t.bytes = stack ∧ t.capacity = s.capacity := by
  unfold Flat.step at h
  cases hfetch : fetch (.of m) p.pc.value with
  | error cause =>
    rw [hfetch] at h
    cases h
  | ok found =>
    obtain ⟨i, next⟩ := found
    obtain ⟨d, hd, hsound, rfl, rfl⟩ := Module.decode_of_fetch hpc hfetch
    rw [hfetch] at h
    obtain ⟨a, t, hstep, ha, hvalue, rfl, hbytes, hcapacity⟩ := step_of_perform hrun hd hsound h
    exact ⟨d.instruction, d.next.value, a, t, rfl, hstep, ha, hvalue, hbytes, hcapacity⟩

/-- A running processor does what the flat machine says of the bytes of its module. -/
theorem step_refines_flat (hrun : p.state = .running)
    (hpc : m.code.programCounter p.pc.value = .ok p.pc) :
    match Flat.step (.of m) s.capacity p.pc.value s.bytes with
    | .failed failure stack =>
      ∃ e t, step m (p, s) = .error e (p.fault e, t) ∧ Failure.ofError e = some failure ∧
        t.bytes = stack ∧ t.capacity = s.capacity
    | .done state call pc stack =>
      ∃ i next a t, fetch (.of m) p.pc.value = .ok (i, next) ∧
        step m (p, s) = .ok call (⟨a, state, p.steps + 1, some (p.pc, i)⟩, t) ∧
        m.code.programCounter pc = .ok a ∧ t.bytes = stack ∧ t.capacity = s.capacity := by
  have hholds := (CodePage.holds_of_programCounter hpc).1
  cases h : Flat.step (.of m) s.capacity p.pc.value s.bytes with
  | failed failure stack => exact step_of_failed hrun hholds h
  | done state call pc stack =>
    obtain ⟨i, next, a, t, hfetch, hstep, ha, hvalue, hbytes, hcapacity⟩ :=
      step_of_done hrun hholds h
    exact ⟨i, next, a, t, hfetch, hstep, hvalue ▸ ha.programCounter_eq, hbytes, hcapacity⟩

/-- A program that pushes, behind a prefix, the byte that the data points at. -/
def indirection : Module :=
  { properties := []
    exports := []
    code := ⟨[⟨"address_width", "2"⟩], #[0xE1, 0x42, 0x01], .two, rfl, by decide⟩
    data := ⟨[], #[0x00, 0x02, 0x2A], .one, Table.width_nil, by decide⟩ }

theorem step_refines_flat_indirection :
    ∃ pc, indirection.code.programCounter 0 = .ok pc ∧
      ∃ a t, step indirection (⟨pc, .running, 0, none⟩, ⟨[0x07], 1⟩) =
          .ok none (⟨a, .running, 1, some (pc, ⟨[0xE1], .pushIndirect, [0x01]⟩)⟩, t) ∧
        indirection.code.programCounter 3 = .ok a ∧ t.bytes = [0x07, 0x2A] ∧ t.capacity = 2 := by
  refine ⟨⟨0, .two, 4, by decide, by decide⟩, rfl, ?_⟩
  obtain ⟨i, next, a, t, hfetch, hstep, ha, hbytes, hcapacity⟩ :=
    step_refines_flat (m := indirection)
      (p := ⟨⟨0, .two, 4, by decide, by decide⟩, .running, 0, none⟩) (s := ⟨[0x07], 1⟩) rfl rfl
  obtain rfl : ⟨[0xE1], .pushIndirect, [0x01]⟩ = i := by cases hfetch; rfl
  exact ⟨a, t, hstep, ha, hbytes, hcapacity⟩

end Processor

end ByteMachine
