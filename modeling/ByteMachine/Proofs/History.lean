import ByteMachine.Proofs.ControlFlow

/-!
What a host finds in a processor, whatever it has done with it since it was started: steps with any
value stack, and faults of its own in between. The program counter stays in the code or right
behind it, and the record of the last instruction agrees with the code and with the place where
the program goes on.
-/
namespace ByteMachine

theorem Opcode.code_of_ofCode? {b : UInt8} {op : Opcode} (h : ofCode? b = some op) :
    op.code = b := by
  simpa using List.find?_some h

/-- What is decoded where the program counter can be lies inside the code. -/
theorem Module.sound_of_decode {m : Module} {pc : Address} (hpc : m.code.Holds pc) {d : Decoded}
    (h : m.decode pc = .ok d) : d.Sound m := by
  cases hfetch : Flat.fetch (.of m) pc.value with
  | error failure =>
    obtain ⟨e, he, -⟩ := decode_of_fetch_error hpc hfetch
    rw [he] at h
    cases h
  | ok found =>
    obtain ⟨d', hd, hsound, -⟩ := decode_of_fetch hpc hfetch
    rw [hd] at h
    cases h
    exact hsound

namespace Flat

/-- A fetched instruction stands in the code, and the next one begins behind it. -/
theorem fetch_stands {image : Image} {pc next : Nat} {i : Instruction}
    (h : fetch image pc = .ok (i, next)) :
    i.encode <+: image.code.drop pc ∧
      i.operand.length = i.opcode.operand.size image.widths ∧ next = pc + i.encode.length := by
  obtain ⟨byte, hbyte, hop, hnext, hle, hprefixes, hoperand⟩ := fetch_cases h
  have hpc : pc ≤ opcodePosition image.code pc := Nat.le_add_right _ _
  generalize opcodePosition image.code pc = q at *
  obtain ⟨hq, rfl⟩ := List.getElem?_eq_some_iff.1 hbyte
  have hoperands : image.code.drop (q + 1) = i.operand ++ image.code.drop next := by
    have h := List.take_append_drop (i.opcode.operand.size image.widths) (image.code.drop (q + 1))
    rw [List.drop_drop, hnext, ← hoperand] at h
    exact h.symm
  have hdrop : image.code.drop pc =
      i.prefixes ++ i.opcode.code :: (i.operand ++ image.code.drop next) := by
    rw [← hoperands, Opcode.code_of_ofCode? hop, ← List.drop_eq_getElem_cons hq, hprefixes,
      ← Nat.add_sub_cancel' hpc, ← List.drop_drop, Nat.add_sub_cancel_left, List.take_append_drop]
  have hlength : i.operand.length = i.opcode.operand.size image.widths := by
    rw [hoperand, List.length_take, List.length_drop]
    omega
  refine ⟨⟨image.code.drop next, by simp [hdrop, Instruction.encode]⟩, hlength, ?_⟩
  have hprefix : i.prefixes.length = q - pc := by
    rw [hprefixes, List.length_take, List.length_drop]
    omega
  simp only [Instruction.encode, List.length_append, List.length_cons, hlength, hprefix]
  omega

end Flat

namespace Processor

variable {m : Module}

/-- The instruction stands in the code at `origin`, and `pc` is where it leads. -/
structure Executed (m : Module) (origin : Address) (i : Instruction) (pc : Address) : Prop where
  holds : m.code.Holds origin
  stands : i.encode <+: m.code.contents.drop origin.value
  length_operand : i.operand.length = i.opcode.operand.size m.widths
  pc_eq : pc.value =
    if i.opcode = .jump then LittleEndian.decode i.operand else origin.value + i.encode.length

/-- The program counter is one that the code allows, and the last instruction led there. -/
structure Consistent (m : Module) (q : Processor) : Prop where
  holds : m.code.Holds q.pc
  executed : ∀ origin i, q.last = some (origin, i) → Executed m origin i q.pc

theorem start_cases {entry : Nat} {p : Processor} (h : start m entry = .ok p) :
    ∃ pc, m.code.programCounter entry = .ok pc ∧ p = ⟨pc, .running, 0, none⟩ := by
  unfold start at h
  cases hpc : m.code.programCounter entry with
  | error e =>
    rw [hpc] at h
    cases h
  | ok pc =>
    rw [hpc] at h
    cases h
    exact ⟨pc, rfl, rfl⟩

theorem consistent_start {entry : Nat} {p : Processor} (h : start m entry = .ok p) :
    Consistent m p ∧ p.steps = 0 := by
  obtain ⟨pc, hpc, rfl⟩ := start_cases h
  exact ⟨⟨(CodePage.holds_of_programCounter hpc).1, by simp⟩, rfl⟩

section

variable {q r : Processor} {s t : ValueStack}

theorem Consistent.step_ok (hq : Consistent m q) {call : Option Syscall}
    (h : step m (q, s) = .ok call (r, t)) : Consistent m r ∧ r.steps = q.steps + 1 := by
  have hrun : q.state = .running := running_of_step_ok h
  cases hflat : Flat.step (.of m) s.capacity q.pc.value s.bytes with
  | failed failure stack =>
    obtain ⟨e, t', hstep, -⟩ := step_of_failed hrun hq.holds hflat
    rw [hstep] at h
    cases h
  | done state call' pc stack =>
    obtain ⟨i, next, a, t', hfetch, hstep, ha, hvalue, -⟩ := step_of_done hrun hq.holds hflat
    rw [hstep] at h
    cases h
    obtain ⟨hstands, hlength, hnext⟩ := Flat.fetch_stands hfetch
    have hlead := Flat.perform_leadsTo (.of m) s.capacity i next s.bytes
    simp only [Flat.step, hfetch] at hflat
    rw [hflat] at hlead
    refine ⟨⟨ha, ?_⟩, rfl⟩
    rintro origin i' ⟨⟩
    exact ⟨hq.holds, hstands, hlength, hvalue.trans (hnext ▸ hlead)⟩

/-- A step that fails changes nothing but the state. -/
theorem step_error_eq {e : Error} (h : step m (q, s) = .error e (r, t)) :
    r.pc = q.pc ∧ r.last = q.last ∧ r.steps = q.steps := by
  by_cases hrun : q.state = .running
  · simp only [step, hrun, ne_eq, not_true_eq_false, ↓reduceIte] at h
    split at h
    · cases h
    · cases h
      exact ⟨rfl, rfl, rfl⟩
  · rw [step_of_stopped hrun] at h
    cases h
    exact ⟨rfl, rfl, rfl⟩

theorem Consistent.congr (hq : Consistent m q) (hpc : r.pc = q.pc) (hlast : r.last = q.last) :
    Consistent m r := by
  refine ⟨hpc ▸ hq.holds, fun origin i h => ?_⟩
  rw [hpc]
  exact hq.executed origin i (hlast ▸ h)

end

/-- What can become of a processor: its host steps it with any value stack and faults it whenever
it likes. The number counts the steps that succeeded. -/
inductive History (m : Module) (p : Processor) : Nat → Processor → Prop where
  | start : History m p 0 p
  | completed {n : Nat} {q r : Processor} {s t : ValueStack} {call : Option Syscall} :
      History m p n q → step m (q, s) = .ok call (r, t) → History m p (n + 1) r
  | failed {n : Nat} {q r : Processor} {s t : ValueStack} {e : Error} :
      History m p n q → step m (q, s) = .error e (r, t) → History m p n r
  | faulted {n : Nat} {q : Processor} (e : Error) : History m p n q → History m p n (q.fault e)

theorem History.consistent {p q : Processor} {n : Nat} (hp : Consistent m p) (hsteps : p.steps = 0)
    (h : History m p n q) : Consistent m q ∧ q.steps = n := by
  induction h with
  | start => exact ⟨hp, hsteps⟩
  | completed _ hstep ih =>
    obtain ⟨hr, hcount⟩ := ih.1.step_ok hstep
    exact ⟨hr, by rw [hcount, ih.2]⟩
  | failed _ hstep ih =>
    obtain ⟨hpc, hlast, hcount⟩ := step_error_eq hstep
    exact ⟨ih.1.congr hpc hlast, hcount.trans ih.2⟩
  | faulted e _ ih => exact ⟨ih.1.congr rfl rfl, ih.2⟩

/-- However a processor came about, its program counter is at most the length of the code, the
operand of the instruction there lies inside the code, its counter is the number of steps that
succeeded, and the instruction it recorded stands in the code where it says and led to where the
program goes on. -/
theorem history_consistent {entry n : Nat} {p q : Processor} (hstart : start m entry = .ok p)
    (h : History m p n q) :
    (q.pc.width = m.code.width ∧ q.pc.maximum = m.code.length + 1 ∧
      q.pc.value ≤ m.code.length) ∧
    (∀ d, m.decode q.pc = .ok d →
      d.position.value + d.instruction.opcode.size m.widths ≤ m.code.length ∧
      m.code.slice (d.position.value + 1) (d.instruction.opcode.operand.size m.widths) =
        .ok d.instruction.operand) ∧
    q.steps = n ∧
    ∀ origin i, q.last = some (origin, i) →
      origin.value < m.code.length ∧
      i.prefixes ++ [i.opcode.code] ++ i.operand <+: m.code.contents.drop origin.value ∧
      i.operand.length = i.opcode.operand.size m.widths ∧
      q.pc.value = if i.opcode = .jump then LittleEndian.decode i.operand
        else origin.value + (i.prefixes ++ [i.opcode.code] ++ i.operand).length := by
  obtain ⟨hp, hsteps⟩ := consistent_start hstart
  obtain ⟨hq, hcount⟩ := h.consistent hp hsteps
  refine ⟨⟨hq.holds.1, hq.holds.2, ?_⟩, ?_, hcount, ?_⟩
  · have hlt := q.pc.value_lt
    rw [hq.holds.2] at hlt
    omega
  · intro d hd
    have hsound := Module.sound_of_decode hq.holds hd
    have hfit := hsound.size_le
    refine ⟨by rw [Opcode.size]; omega, ?_⟩
    rw [hsound.operand_eq]
    exact m.code.slice_of_le hfit
  · intro origin i hlast
    obtain ⟨-, hstands, hlength, hpc⟩ := hq.executed origin i hlast
    have hencode : i.prefixes ++ [i.opcode.code] ++ i.operand = i.encode := by
      simp [Instruction.encode]
    rw [hencode]
    refine ⟨?_, hstands, hlength, hpc⟩
    have hle := hstands.length_le
    rw [List.length_drop, m.code.length_contents, Instruction.encode, List.length_append,
      List.length_cons] at hle
    omega

def hop : Module :=
  { properties := []
    exports := []
    code := ⟨[], #[0xE7, 0x20, 0x03, 0x51], .one, Table.width_nil, by decide⟩
    data := ⟨[], #[], .one, Table.width_nil, Page.size_empty_le .one⟩ }

def hopped : Processor :=
  { pc := ⟨3, .one, 5, by decide, by decide⟩
    state := .running
    steps := 1
    last := some (⟨0, .one, 5, by decide, by decide⟩, ⟨[0xE7], .jump, [0x03]⟩) }

/-- The jump is completed, the pop fails, and then the host blames a call of its own. -/
theorem history_consistent_hop :
    ∃ p q, start hop 0 = .ok p ∧ History hop p 1 q ∧ q.state = .faulted .kernelCall ∧
      q.pc.value ≤ hop.code.length ∧ q.steps = 1 ∧
      ∀ origin i, q.last = some (origin, i) →
        i.prefixes ++ [i.opcode.code] ++ i.operand <+: hop.code.contents.drop origin.value ∧
        q.pc.value = if i.opcode = .jump then LittleEndian.decode i.operand
          else origin.value + (i.prefixes ++ [i.opcode.code] ++ i.operand).length := by
  obtain ⟨p, hp, hjump⟩ : ∃ p, start hop 0 = .ok p ∧
      step hop (p, .empty 0) = .ok none (hopped, .empty 0) := ⟨_, rfl, rfl⟩
  have hpop : step hop (hopped, .empty 0) =
      .error (.underflow 1 0) (hopped.fault (.underflow 1 0), .empty 0) := rfl
  have hhistory := ((History.start.completed hjump).failed hpop).faulted (.unknownCall "beep")
  obtain ⟨⟨-, -, hle⟩, -, hsteps, hlast⟩ := history_consistent hp hhistory
  refine ⟨p, _, hp, hhistory, rfl, hle, hsteps, fun origin i h => ?_⟩
  obtain ⟨-, hstands, -, hnext⟩ := hlast origin i h
  exact ⟨hstands, hnext⟩

end Processor

end ByteMachine
