import ByteMachine.Proofs.AddressingModes
import ByteMachine.Proofs.History

/-!
Conditional prefixes. Decoding passes over all the prefixes that stand before an opcode, however
many there are, and nothing that an instruction does depends on them. So a step that begins behind
some of the prefixes differs from one that begins before them in what it records of the instruction,
and in nothing else.
-/
namespace ByteMachine

/-! ## Runs of prefixes -/

/-- The prefixes that bytes begin with, all of them. -/
structure PrefixRun (bytes run : List UInt8) : Prop where
  begins : run <+: bytes
  inRange : ∀ b ∈ run, 0xE0 ≤ b ∧ b ≤ 0xEF
  longest : ∀ other, other <+: bytes → (∀ b ∈ other, 0xE0 ≤ b ∧ b ≤ 0xEF) →
    other.length ≤ run.length

theorem prefixRun_takeWhile (bytes : List UInt8) :
    PrefixRun bytes (bytes.takeWhile isConditional) := by
  refine ⟨List.takeWhile_prefix _, fun b hb => ?_, ?_⟩
  · exact isConditional_iff.1 (List.all_eq_true.1 List.all_takeWhile b hb)
  · rintro other ⟨rest, rfl⟩ hother
    rw [List.takeWhile_append_of_pos fun b hb => isConditional_iff.2 (hother b hb),
      List.length_append]
    exact Nat.le_add_right _ _

theorem PrefixRun.eq_takeWhile {bytes run : List UInt8} (h : PrefixRun bytes run) :
    run = bytes.takeWhile isConditional := by
  have htake := prefixRun_takeWhile bytes
  have hlength : run.length = (bytes.takeWhile isConditional).length :=
    Nat.le_antisymm (htake.longest run h.begins h.inRange)
      (h.longest _ htake.begins htake.inRange)
  exact (List.prefix_of_prefix_length_le h.begins htake.begins (Nat.le_of_eq hlength)).eq_of_length
    hlength

/-- Behind some of its prefixes a run goes on with the others. -/
theorem PrefixRun.drop {bytes run : List UInt8} (h : PrefixRun bytes run) {k : Nat}
    (hk : k ≤ run.length) : PrefixRun (bytes.drop k) (run.drop k) := by
  obtain ⟨rest, rfl⟩ := h.begins
  rw [List.drop_append_of_le_length hk]
  refine ⟨List.prefix_append _ _, fun b hb => h.inRange b (List.mem_of_mem_drop hb), ?_⟩
  intro other hother hrange
  have hlonger := h.longest (run.take k ++ other) ?_ ?_
  · rw [List.length_append, List.length_take_of_le hk] at hlonger
    rw [List.length_drop]
    omega
  · obtain ⟨tail, htail⟩ := hother
    exact ⟨tail, by rw [List.append_assoc, htail, ← List.append_assoc, List.take_append_drop]⟩
  · intro b hb
    rcases List.mem_append.1 hb with hb | hb
    · exact h.inRange b (List.mem_of_mem_take hb)
    · exact hrange b hb

/-! ## Finding the opcode -/

namespace CodePage

variable {c : CodePage} {pc : Address} {run : List UInt8}

theorem run_eq (hrun : PrefixRun (c.contents.drop pc.value) run) :
    c.memory.run isConditional pc.value = run := by
  rw [Bytes.run_eq, hrun.eq_takeWhile]
  rfl

/-- The opcode behind the prefixes is found where it stands. -/
theorem conditionals_of_lt (hpc : c.Holds pc) (hrun : PrefixRun (c.contents.drop pc.value) run)
    (h : pc.value + run.length < c.length) : ∃ position, c.conditionals pc = .ok (run, position) ∧
      c.programCounter (pc.value + run.length) = .ok position := by
  obtain ⟨position, hposition, hholds, hvalue⟩ := hpc.make (Nat.le_of_lt h)
  obtain ⟨b, hb⟩ : ∃ b, c.contents[pc.value + run.length]? = some b :=
    ⟨_, List.getElem?_eq_getElem (by rwa [c.length_contents])⟩
  have hbyte := Page.byte_of_some hb
  refine ⟨position, ?_, hvalue ▸ hholds.programCounter_eq⟩
  simp only [conditionals, run_eq hrun, hbyte, hposition, bind, Except.bind, pure, Except.pure]

/-- There is no opcode behind prefixes that reach the end of the code. -/
theorem conditionals_of_le (hrun : PrefixRun (c.contents.drop pc.value) run)
    (h : c.length ≤ pc.value + run.length) :
    c.conditionals pc = .error (.address (.byteOutside (pc.value + run.length) c.length)) := by
  have hbyte : c.byte (pc.value + run.length) =
      .error (.address (.byteOutside (pc.value + run.length) c.length)) :=
    Page.byte_of_none (List.getElem?_eq_none (by rwa [c.length_contents]))
  simp only [conditionals, run_eq hrun, hbyte, bind, Except.bind]

theorem conditionals_eq_ok_iff (hpc : c.Holds pc)
    (hrun : PrefixRun (c.contents.drop pc.value) run) {prefixes : List UInt8} {position : Address} :
    c.conditionals pc = .ok (prefixes, position) ↔ pc.value + run.length < c.length ∧
      prefixes = run ∧ c.programCounter (pc.value + run.length) = .ok position := by
  rcases Nat.lt_or_ge (pc.value + run.length) c.length with hlt | hge
  · obtain ⟨found, hfound, hcounter⟩ := conditionals_of_lt hpc hrun hlt
    rw [hfound, hcounter]
    constructor
    · intro h
      cases h
      exact ⟨hlt, rfl, rfl⟩
    · rintro ⟨-, rfl, h⟩
      cases h
      rfl
  · rw [conditionals_of_le hrun hge]
    constructor
    · nofun
    · rintro ⟨hlt, -⟩
      omega

/-- From behind some of the prefixes the same opcode is found, behind the other prefixes. -/
theorem conditionals_behind (hrun : PrefixRun (c.contents.drop pc.value) run) {k : Nat}
    (hk : k ≤ run.length) {next : Address} (hvalue : next.value = pc.value + k)
    (hwidth : next.width = pc.width) (hmaximum : next.maximum = pc.maximum) :
    c.conditionals next =
      (c.conditionals pc).map fun found => (found.1.drop k, found.2) := by
  have hrest : PrefixRun (c.contents.drop next.value) (run.drop k) := by
    rw [hvalue, ← List.drop_drop]
    exact hrun.drop hk
  have hposition : next.value + (run.drop k).length = pc.value + run.length := by
    rw [hvalue, List.length_drop]
    omega
  simp only [conditionals, run_eq hrun, run_eq hrest, hposition, hwidth, hmaximum]
  cases c.byte (pc.value + run.length) with
  | error e => rfl
  | ok b => cases Address.make (pc.value + run.length) pc.width pc.maximum <;> rfl

end CodePage

/-! ## Executing from behind prefixes -/

def Instruction.behind (k : Nat) (i : Instruction) : Instruction :=
  { i with prefixes := i.prefixes.drop k }

def Decoded.behind (k : Nat) (d : Decoded) : Decoded :=
  { d with instruction := d.instruction.behind k }

namespace Module

variable {m : Module} {pc next : Address} {run : List UInt8} {k : Nat}

theorem decode_behind (hrun : PrefixRun (m.code.contents.drop pc.value) run) (hk : k ≤ run.length)
    (hvalue : next.value = pc.value + k) (hwidth : next.width = pc.width)
    (hmaximum : next.maximum = pc.maximum) :
    m.decode next = (m.decode pc).map (Decoded.behind k) := by
  simp only [decode, CodePage.conditionals_behind hrun hk hvalue hwidth hmaximum]
  cases m.code.conditionals pc with
  | error e => rfl
  | ok found =>
    obtain ⟨prefixes, position⟩ := found
    simp only [Except.map, bind, Except.bind]
    cases m.code.byteAt position with
    | error e => rfl
    | ok byte =>
      dsimp only
      cases Opcode.ofCode? byte with
      | none => rfl
      | some opcode =>
        dsimp only
        cases position.increment (opcode.size m.widths) <;> rfl

/-- What an instruction does is the same without some of its prefixes. -/
theorem perform_behind (m : Module) (d : Decoded) (k : Nat) :
    m.perform (d.behind k) = m.perform d :=
  rfl

end Module

namespace Processor

variable {m : Module} {pc next : Address} {run : List UInt8} {k : Nat}

/-- The ends of two steps that begin before and behind `k` prefixes. They differ in what is recorded
of the instruction if it is completed, and else in the program counter, which stays where it was. -/
inductive SameStep (k : Nat) (p q : Processor) :
    EStateM.Result Error (Processor × ValueStack) (Option Syscall) →
    EStateM.Result Error (Processor × ValueStack) (Option Syscall) → Prop where
  | completed {call : Option Syscall} {t : ValueStack} {p' q' : Processor} {i : Instruction}
      (hpc : q'.pc = p'.pc) (hstate : q'.state = p'.state) (hsteps : q'.steps = p'.steps)
      (hp : p'.last = some (p.pc, i)) (hq : q'.last = some (q.pc, i.behind k)) :
      SameStep k p q (.ok call (p', t)) (.ok call (q', t))
  | failed {e : Error} {t : ValueStack} {p' q' : Processor} (hp : p'.pc = p.pc) (hq : q'.pc = q.pc)
      (hstate : q'.state = p'.state) (hsteps : q'.steps = p'.steps) (hlast : q'.last = p'.last) :
      SameStep k p q (.error e (p', t)) (.error e (q', t))

theorem step_behind {p : Processor} (hrun : PrefixRun (m.code.contents.drop p.pc.value) run)
    (hk : k ≤ run.length) (hvalue : next.value = p.pc.value + k) (hwidth : next.width = p.pc.width)
    (hmaximum : next.maximum = p.pc.maximum) (s : ValueStack) :
    SameStep k p { p with pc := next } (step m (p, s)) (step m ({ p with pc := next }, s)) := by
  have hdecode := Module.decode_behind hrun hk hvalue hwidth hmaximum
  by_cases hstate : p.state = .running
  · simp only [step, execute, hstate, hdecode]
    cases m.decode p.pc with
    | error e => exact .failed rfl rfl rfl rfl rfl
    | ok d =>
      simp only [Except.map, bind, EStateM.bind, Action.ofExcept_ok, Module.perform_behind]
      cases m.perform d s with
      | ok a t => exact .completed rfl rfl rfl rfl rfl
      | error e t => exact .failed rfl rfl rfl rfl rfl
  · have hstopped : ({ p with pc := next } : Processor).state ≠ .running := hstate
    rw [step_of_stopped hstate, step_of_stopped hstopped]
    exact .failed rfl rfl rfl rfl rfl

/-- From a position of the code, the prefixes that stand there are found, all of them, and behind
them the opcode, if there is a byte that is no prefix; if they reach the end of the code, that is an
address error. Whichever position between the first prefix and the opcode a processor is at, its
step has the same result, leaves the same value stack and leads to the same place, and the processor
is the same afterwards but for the record of the instruction, or after a failure for its program
counter, which has not moved. -/
theorem prefixes_are_passed {start : Nat} (hpc : m.code.programCounter start = .ok pc) :
    ∃ run, PrefixRun (m.code.contents.drop start) run ∧
      ((∃ found, m.code.conditionals pc = .ok found) ↔
        ∃ b ∈ m.code.contents.drop start, ¬ (0xE0 ≤ b ∧ b ≤ 0xEF)) ∧
      (∀ prefixes position, m.code.conditionals pc = .ok (prefixes, position) →
        prefixes = run ∧ m.code.programCounter (start + run.length) = .ok position) ∧
      (start + run.length = m.code.length →
        m.code.conditionals pc =
          .error (.address (.byteOutside m.code.length m.code.length))) ∧
      ∀ k ≤ run.length, ∃ next, m.code.programCounter (start + k) = .ok next ∧
        ∀ (p : Processor) (s : ValueStack), p.pc = pc →
          SameStep k p { p with pc := next } (step m (p, s))
            (step m ({ p with pc := next }, s)) := by
  obtain ⟨hholds, rfl⟩ := CodePage.holds_of_programCounter hpc
  have hrun := prefixRun_takeWhile (m.code.contents.drop pc.value)
  have hlonger := length_takeWhile_lt_iff isConditional (m.code.contents.drop pc.value)
  generalize (m.code.contents.drop pc.value).takeWhile isConditional = run at hrun hlonger
  have hle : pc.value + run.length ≤ m.code.length := by
    have hstart := CodePage.Holds.value_le hholds
    have hlength := hrun.begins.length_le
    rw [List.length_drop, m.code.length_contents] at hlength
    omega
  have hother : (∃ b ∈ m.code.contents.drop pc.value, ¬ (0xE0 ≤ b ∧ b ≤ 0xEF)) ↔
      pc.value + run.length < m.code.length := by
    simp only [← isConditional_iff, Bool.not_eq_true, ← hlonger, List.length_drop,
      m.code.length_contents]
    omega
  refine ⟨run, hrun, ?_, fun prefixes position hfound => ?_, ?_, fun k hk => ?_⟩
  · rw [hother]
    constructor
    · rintro ⟨⟨prefixes, position⟩, hfound⟩
      exact ((CodePage.conditionals_eq_ok_iff hholds hrun).1 hfound).1
    · intro hlt
      obtain ⟨position, hposition, -⟩ := CodePage.conditionals_of_lt hholds hrun hlt
      exact ⟨_, hposition⟩
  · exact ((CodePage.conditionals_eq_ok_iff hholds hrun).1 hfound).2
  · intro heq
    rw [CodePage.conditionals_of_le hrun (Nat.le_of_eq heq.symm), heq]
  · obtain ⟨next, -, hnext, hvalue⟩ := hholds.make
      (show pc.value + k ≤ m.code.length by omega)
    refine ⟨next, hvalue ▸ hnext.programCounter_eq, fun p s hp => ?_⟩
    subst hp
    exact step_behind hrun hk hvalue (hnext.1.trans hholds.1.symm) (hnext.2.trans hholds.2.symm) s

def guarded : Module :=
  { properties := []
    exports := []
    code := ⟨[], #[0xE0, 0xE5, 0xEF, 0x40, 0x07], .one, Table.width_nil, by decide⟩
    data := ⟨[], #[], .one, Table.width_nil, Page.size_empty_le .one⟩ }

/-- Behind two of the prefixes, the byte is pushed where there is room, and where there is none the
step fails in the same way. -/
theorem prefixes_are_passed_guarded :
    ∃ pc next, guarded.code.programCounter 0 = .ok pc ∧ guarded.code.programCounter 2 = .ok next ∧
      ∀ s, SameStep 2 ⟨pc, .running, 0, none⟩ ⟨next, .running, 0, none⟩
        (step guarded (⟨pc, .running, 0, none⟩, s))
        (step guarded (⟨next, .running, 0, none⟩, s)) := by
  obtain ⟨pc, hpc, hfound⟩ : ∃ pc, guarded.code.programCounter 0 = .ok pc ∧
      ∃ position, guarded.code.conditionals pc = .ok ([0xE0, 0xE5, 0xEF], position) :=
    ⟨_, rfl, _, rfl⟩
  obtain ⟨position, hfound⟩ := hfound
  obtain ⟨run, -, -, hrun, -, hbehind⟩ := prefixes_are_passed hpc
  obtain ⟨rfl, -⟩ := hrun _ _ hfound
  obtain ⟨next, hnext, hsame⟩ := hbehind 2 (by decide)
  exact ⟨pc, next, hpc, hnext, fun s => hsame ⟨pc, .running, 0, none⟩ s rfl⟩

end Processor

end ByteMachine
