import ByteMachine.Proofs.Addresses
import ByteMachine.Proofs.HostSteps

/-!
Calls of the host by name. The name lies on top of the value stack as a frame, and below it lies
what the service prints: a byte, or a text as a frame of its own. A call is served exactly if the
contents have this form. Otherwise nothing is printed, and of the contents the name is gone if
there was one.
-/
namespace ByteMachine

/-- The next instruction begins behind the opcode and its operand. -/
theorem Module.value_next {m : Module} {pc : Address} {d : Decoded} (h : m.decode pc = .ok d) :
    d.next.value = d.position.value + d.instruction.opcode.size m.widths := by
  obtain ⟨⟨prefixes, position⟩, -, h⟩ := exists_ok_of_bind h
  obtain ⟨byte, -, h⟩ := exists_ok_of_bind h
  split at h
  · cases h
  · obtain ⟨next, hnext, h⟩ := exists_ok_of_bind h
    cases h
    exact Address.value_of_increment hnext

/-- An instruction that calls the host changes nothing on the value stack. -/
theorem Processor.step_of_kernelCall {m : Module} {p : Processor} {d : Decoded}
    (hrun : p.state = .running) (hd : m.decode p.pc = .ok d)
    (hop : d.instruction.opcode = .kernelCall) (s : ValueStack) :
    step m (p, s) = .ok (some .kernelCall) (p.retire d.instruction d.next, s) := by
  have hexec : p.execute m s = .ok (d.instruction, d.next) s := by
    rw [execute, hd, Action.bind_of_ok (Action.ofExcept_ok _ _)]
    simp only [Module.perform, hop]
    rfl
  simp only [step, if_neg (not_not_intro hrun), hexec, hop]
  rfl

namespace Host

open ValueStack (frame NoText)

variable {m : Module} {p : Processor} {h : Host} {t : ValueStack} {below printed : List UInt8}
  {e : Error}

/-- The contents of a value stack, bottom first, ask for bytes to be printed, and leave those
below. -/
inductive Asks : List UInt8 → List UInt8 → List UInt8 → Prop where
  | byte (below : List UInt8) (b : UInt8) : Asks (below ++ [b] ++ frame "out_b") below [b]
  | text (below : List UInt8) {text : String} (hlength : (Utf8.encode text).length ≤ 255) :
      Asks (below ++ frame text ++ frame "out_s") below (Utf8.encode text)

/-- The contents of a value stack make a call fail, and those below are left. -/
inductive Fails : List UInt8 → List UInt8 → Error → Prop where
  | nameless {contents : List UInt8} {e : Error} (hname : NoText contents e) :
      Fails contents contents e
  | unknown (below : List UInt8) {name : String} (hlength : (Utf8.encode name).length ≤ 255)
      (hbyte : name ≠ "out_b") (htext : name ≠ "out_s") :
      Fails (below ++ frame name) below (.unknownCall name)
  | noByte : Fails (frame "out_b") [] (.underflow 1 0)
  | noText {below : List UInt8} {e : Error} (htext : NoText below e) :
      Fails (below ++ frame "out_s") below e

/-- From one host to the other bytes have been printed, and these contents are left. -/
structure Leaves (h g : Host) (contents printed : List UInt8) : Prop where
  bytes_eq : g.stack.bytes = contents
  capacity_eq : g.stack.capacity = h.stack.capacity
  written_eq : g.output.written = h.output.written ++ printed
  room_eq : g.output.room = h.output.room
  stepLimit_eq : g.stepLimit = h.stepLimit

/-! ## Serving a call -/

section

variable {α : Type} {action : Action ValueStack α}

theorem onStack_of_ok {a : α} (haction : action h.stack = .ok a t) :
    onStack action h = .ok a { h with stack := t } := by
  simp only [onStack, haction]

theorem onStack_of_error (haction : action h.stack = .error e t) :
    onStack action h = .error e { h with stack := t } := by
  simp only [onStack, haction]

end

theorem leaves_stack (hcapacity : t.capacity = h.stack.capacity) :
    Leaves h { h with stack := t } t.bytes [] :=
  ⟨rfl, hcapacity, (List.append_nil _).symm, rfl, rfl⟩

theorem exists_leaves_print (hroom : h.output.room = none)
    (hcapacity : t.capacity = h.stack.capacity) (bytes : List UInt8) :
    ∃ g, print bytes { h with stack := t } = .ok () g ∧ Leaves h g t.bytes bytes := by
  have hprint := print_unlimited (h := { h with stack := t }) hroom bytes
  refine ⟨_, hprint, rfl, hcapacity, ?_, hroom.symm, rfl⟩
  simp only [Sink.written, List.reverse_append, List.reverse_reverse]

theorem serve_of_popText {name : String} (hname : h.stack.popText = .ok name t) :
    serve .kernelCall h = service name { h with stack := t } :=
  Action.bind_of_ok (onStack_of_ok hname)

/-- The names of the services are short enough for frames. -/
theorem length_service_le {name : String} (h : name = "out_b" ∨ name = "out_s") :
    (Utf8.encode name).length ≤ 255 := by
  rcases h with rfl | rfl <;> decide

/-- What is asked for is printed. -/
theorem serve_of_asks (hroom : h.output.room = none) (hasks : Asks h.stack.bytes below printed) :
    ∃ g, serve .kernelCall h = .ok () g ∧ Leaves h g below printed := by
  generalize hs : h.stack.bytes = contents at hasks
  cases hasks with
  | byte _ b =>
    obtain ⟨t, hname, ht, hcapacity⟩ := ValueStack.popText_of_frame (length_service_le (.inl rfl)) hs
    obtain ⟨u, hbyte, rfl, hcapacity'⟩ := ValueStack.popByte_of_append ht
    obtain ⟨g, hprint, hleaves⟩ := exists_leaves_print hroom (hcapacity'.trans hcapacity) [b]
    refine ⟨g, ?_, hleaves⟩
    rw [serve_of_popText hname, service, if_pos rfl]
    exact (Action.bind_of_ok (onStack_of_ok hbyte)).trans hprint
  | @text _ text hlength =>
    obtain ⟨t, hname, ht, hcapacity⟩ := ValueStack.popText_of_frame (length_service_le (.inr rfl)) hs
    obtain ⟨u, htext, rfl, hcapacity'⟩ := ValueStack.popText_of_frame hlength ht
    obtain ⟨g, hprint, hleaves⟩ :=
      exists_leaves_print hroom (hcapacity'.trans hcapacity) (Utf8.encode text)
    refine ⟨g, ?_, hleaves⟩
    rw [serve_of_popText hname, service, if_neg (by decide), if_pos rfl]
    exact (Action.bind_of_ok (onStack_of_ok htext)).trans hprint

theorem serve_of_fails (hfails : Fails h.stack.bytes below e) :
    ∃ g, serve .kernelCall h = .error e g ∧ Leaves h g below [] := by
  generalize hs : h.stack.bytes = contents at hfails
  cases hfails with
  | nameless hname =>
    have hpop := ValueStack.popText_eq_error_iff.2 ⟨hs ▸ hname, rfl⟩
    exact ⟨h, Action.bind_of_error (onStack_of_error hpop), hs ▸ leaves_stack rfl⟩
  | @unknown _ name hlength hbyte htext =>
    obtain ⟨t, hname, rfl, hcapacity⟩ := ValueStack.popText_of_frame hlength hs
    refine ⟨_, ?_, leaves_stack hcapacity⟩
    rw [serve_of_popText hname, service, if_neg hbyte, if_neg htext]
    rfl
  | noByte =>
    obtain ⟨t, hname, ht, hcapacity⟩ := ValueStack.popText_of_frame
      (length_service_le (.inl rfl)) (show h.stack.bytes = [] ++ frame "out_b" from hs)
    have hbyte := ValueStack.popByte_of_eq_nil ht
    refine ⟨_, ?_, ht ▸ leaves_stack hcapacity⟩
    rw [serve_of_popText hname, service, if_pos rfl]
    exact Action.bind_of_error (onStack_of_error hbyte)
  | noText htext =>
    obtain ⟨t, hname, rfl, hcapacity⟩ :=
      ValueStack.popText_of_frame (length_service_le (.inr rfl)) hs
    have hpop := ValueStack.popText_eq_error_iff.2 ⟨htext, rfl⟩
    refine ⟨_, ?_, leaves_stack hcapacity⟩
    rw [serve_of_popText hname, service, if_neg (by decide), if_pos rfl]
    exact Action.bind_of_error (onStack_of_error hpop)

/-- Whatever lies on the stack, a call either finds what it asks for or fails. -/
theorem asks_or_fails (s : ValueStack) :
    (∃ below printed, Asks s.bytes below printed) ∨ ∃ below e, Fails s.bytes below e := by
  cases hname : s.popText with
  | error e t => exact .inr ⟨_, e, .nameless (ValueStack.popText_eq_error_iff.1 hname).1⟩
  | ok name t =>
    obtain ⟨hlength, hs, -⟩ := ValueStack.popText_eq_ok_iff.1 hname
    rw [hs]
    by_cases hbyte : name = "out_b"
    · subst hbyte
      rcases List.eq_nil_or_concat t.bytes with hnil | ⟨below, b, hb⟩
      · rw [hnil]
        exact .inr ⟨_, _, .noByte⟩
      · rw [hb, List.concat_eq_append]
        exact .inl ⟨below, _, .byte below b⟩
    by_cases htext : name = "out_s"
    · subst htext
      cases hpop : t.popText with
      | error e u => exact .inr ⟨_, e, .noText (ValueStack.popText_eq_error_iff.1 hpop).1⟩
      | ok text u =>
        obtain ⟨hlength', ht, -⟩ := ValueStack.popText_eq_ok_iff.1 hpop
        rw [ht]
        exact .inl ⟨_, _, .text _ hlength'⟩
    · exact .inr ⟨_, _, .unknown _ hlength hbyte htext⟩

/-! ## Steps that call -/

theorem step_of_serve {d : Decoded} (hfree : h.limitReached p = none) (hrun : p.state = .running)
    (hd : m.decode p.pc = .ok d) (hop : d.instruction.opcode = .kernelCall) :
    step m (p, h) =
      match serve .kernelCall h with
      | .ok () g => .ok none (p.retire d.instruction d.next, g)
      | .error e g => .error e ((p.retire d.instruction d.next).fault e, g) := by
  have hstack := Processor.step_of_kernelCall hrun hd hop h.stack
  cases hserve : serve .kernelCall h <;> simp only [step, hfree, hstack, hserve]

theorem step_of_asks {d : Decoded} (hfree : h.limitReached p = none)
    (hroom : h.output.room = none) (hrun : p.state = .running) (hd : m.decode p.pc = .ok d)
    (hop : d.instruction.opcode = .kernelCall) (hasks : Asks h.stack.bytes below printed) :
    ∃ g, step m (p, h) = .ok none (p.retire d.instruction d.next, g) ∧
      Leaves h g below printed := by
  obtain ⟨g, hserve, hleaves⟩ := serve_of_asks hroom hasks
  have hstep := step_of_serve hfree hrun hd hop
  rw [hserve] at hstep
  exact ⟨g, hstep, hleaves⟩

theorem step_of_fails {d : Decoded} (hfree : h.limitReached p = none)
    (hrun : p.state = .running) (hd : m.decode p.pc = .ok d)
    (hop : d.instruction.opcode = .kernelCall) (hfails : Fails h.stack.bytes below e) :
    ∃ g, step m (p, h) = .error e ((p.retire d.instruction d.next).fault e, g) ∧
      Leaves h g below [] := by
  obtain ⟨g, hserve, hleaves⟩ := serve_of_fails hfails
  have hstep := step_of_serve hfree hrun hd hop
  rw [hserve] at hstep
  exact ⟨g, hstep, hleaves⟩

/-- A step that calls the host succeeds exactly if the contents of the value stack ask for
something, which is then printed. Otherwise nothing is printed, and the error, for which the
processor stops, and what is left of the contents say how far the call came. Either way the
processor has completed the instruction. -/
theorem kernelCall_protocol {d : Decoded} (hfree : h.limitReached p = none)
    (hroom : h.output.room = none) (hrun : p.state = .running) (hd : m.decode p.pc = .ok d)
    (hop : d.instruction.opcode = .kernelCall) :
    let q := p.retire d.instruction d.next
    (q.pc.value = d.position.value + 1 ∧ q.steps = p.steps + 1) ∧
    ((∃ outcome after, step m (p, h) = .ok outcome after) ↔
      ∃ below printed, Asks h.stack.bytes below printed) ∧
    (∀ below printed, Asks h.stack.bytes below printed →
      ∃ g, step m (p, h) = .ok none (q, g) ∧ Leaves h g below printed) ∧
    ((∃ e after, step m (p, h) = .error e after) ↔
      ∃ below e, Fails h.stack.bytes below e) ∧
    ∀ below e, Fails h.stack.bytes below e →
      ∃ g, step m (p, h) = .error e (q.fault e, g) ∧ Leaves h g below [] := by
  intro q
  have hnext := Module.value_next hd
  rw [hop] at hnext
  have hserved {below printed} (hasks : Asks h.stack.bytes below printed) :=
    step_of_asks hfree hroom hrun hd hop hasks
  have hfailed {below e} (hfails : Fails h.stack.bytes below e) :=
    step_of_fails hfree hrun hd hop hfails
  refine ⟨⟨hnext, rfl⟩, ⟨?_, ?_⟩, fun _ _ => hserved, ⟨?_, ?_⟩, fun _ _ => hfailed⟩
  · rintro ⟨outcome, after, hok⟩
    rcases asks_or_fails h.stack with hasks | ⟨below, e, hfails⟩
    · exact hasks
    · obtain ⟨g, herror, -⟩ := hfailed hfails
      cases hok.symm.trans herror
  · rintro ⟨below, printed, hasks⟩
    obtain ⟨g, hok, -⟩ := hserved hasks
    exact ⟨none, (q, g), hok⟩
  · rintro ⟨e, after, herror⟩
    rcases asks_or_fails h.stack with ⟨below, printed, hasks⟩ | hfails
    · obtain ⟨g, hok, -⟩ := hserved hasks
      cases hok.symm.trans herror
    · exact hfails
  · rintro ⟨below, e, hfails⟩
    obtain ⟨g, herror, -⟩ := hfailed hfails
    exact ⟨e, (q.fault e, g), herror⟩

def caller : Module :=
  { properties := []
    exports := []
    code := ⟨[], #[0xE1, 0x14], .one, Table.width_nil, by decide⟩
    data := ⟨[], #[], .one, Table.width_nil, Page.size_empty_le .one⟩ }

/-- A host whose value stack is full of these contents. -/
def stocked (contents : List UInt8) : Host :=
  { stepLimit := some 1, stack := ⟨contents.reverse, 0⟩, output := {} }

/-- Called with a letter the host prints it; called with a byte that is no text it fails and has
popped the name. -/
theorem kernelCall_protocol_letter :
    ∃ p d, Processor.start caller 0 = .ok p ∧ caller.decode p.pc = .ok d ∧
      (∃ q g, step caller (p, stocked ([0x03] ++ frame "k" ++ frame "out_s")) = .ok none (q, g) ∧
        q.pc.value = 2 ∧ q.steps = 1 ∧ g.stack.bytes = [0x03] ∧ g.output.written = [0x6B]) ∧
      ∃ e q g, step caller (p, stocked ([0xFF, 0x01] ++ frame "out_s")) = .error e (q, g) ∧
        q.state = .faulted .other ∧ q.pc.value = 2 ∧ g.stack.bytes = [0xFF, 0x01] ∧
        g.output.written = [] := by
  obtain ⟨p, hp, d, hd, hposition, hop, hrun, hsteps⟩ : ∃ p, Processor.start caller 0 = .ok p ∧
      ∃ d, caller.decode p.pc = .ok d ∧ d.position.value = 1 ∧
        d.instruction.opcode = .kernelCall ∧ p.state = .running ∧ p.steps = 0 :=
    ⟨_, rfl, _, rfl, rfl, rfl, rfl, rfl⟩
  have hfree (contents : List UInt8) : (stocked contents).limitReached p = none := by
    simp only [limitReached, stocked, hsteps]
    rfl
  have hbytes (contents : List UInt8) : (stocked contents).stack.bytes = contents :=
    List.reverse_reverse _
  have hletter : Asks (stocked ([0x03] ++ frame "k" ++ frame "out_s")).stack.bytes [0x03]
      (Utf8.encode "k") := by
    rw [hbytes]
    exact .text [0x03] (by decide)
  have hgarbled : Fails (stocked ([0xFF, 0x01] ++ frame "out_s")).stack.bytes [0xFF, 0x01]
      (.notText ⟨0, some 1⟩) := by
    rw [hbytes]
    have hnone : NoText ([] ++ [0xFF] ++ [0x01]) (.notText ⟨0, some 1⟩) := .garbled rfl rfl
    exact .noText hnone
  obtain ⟨⟨hpc, hcount⟩, -, hserved, -⟩ := kernelCall_protocol (hfree _) rfl hrun hd hop
  obtain ⟨-, -, -, -, hfailed⟩ := kernelCall_protocol (hfree _) rfl hrun hd hop
  obtain ⟨g, hstep, hleaves⟩ := hserved _ _ hletter
  obtain ⟨g', hstep', hleaves'⟩ := hfailed _ _ hgarbled
  rw [hposition] at hpc
  rw [hsteps] at hcount
  refine ⟨p, d, hp, hd, ⟨_, g, hstep, hpc, hcount, hleaves.bytes_eq, ?_⟩,
    ⟨_, _, g', hstep', rfl, hpc, hleaves'.bytes_eq, hleaves'.written_eq⟩⟩
  rw [hleaves.written_eq]
  rfl

end Host

end ByteMachine
