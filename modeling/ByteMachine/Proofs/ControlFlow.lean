import ByteMachine.Proofs.Program
import ByteMachine.Proofs.Refinement

/-!
The control flow of assembled programs. A program is followed instruction by instruction, each
jump to the first instruction at or after its label, and a processor that runs the bytes stays in
step with it for as long as it runs.
-/
namespace ByteMachine

/-! ## What the flat machine does at an instruction -/

namespace Flat

/-- The effect goes on at `pc`, or it is a failure that blames no opcode, and blames an address
only if that was to be expected. -/
def Effect.LeadsTo (pc : Nat) (misses : Prop) : Effect → Prop
  | .failed failure _ => (∀ byte position, failure ≠ .invalidOpcode byte position) ∧
      (failure = .address → misses)
  | .done _ _ next _ => next = pc

theorem pushEach_leadsTo (capacity next : Nat) (misses : Prop) (bytes : List UInt8) :
    ∀ stack, (pushEach capacity next bytes stack).LeadsTo next misses := by
  induction bytes with
  | nil =>
    intro stack
    rfl
  | cons b bytes ih =>
    intro stack
    unfold pushEach
    split
    · exact ih _
    · exact ⟨by simp, by simp⟩

theorem pushFrom_leadsTo (data : List UInt8) (capacity next position : Nat) (stack : List UInt8) :
    (pushFrom data capacity next position stack).LeadsTo next (data.length ≤ position) := by
  unfold pushFrom
  split
  · exact pushEach_leadsTo _ _ _ _ _
  · next h => exact ⟨by simp, fun _ => List.getElem?_eq_none_iff.1 h⟩

theorem pushFrame_leadsTo (data : List UInt8) (capacity next position : Nat)
    (stack : List UInt8) :
    (pushFrame data capacity next position stack).LeadsTo next (0 ∉ data.drop position) := by
  simp only [pushFrame]
  split
  · next h => exact ⟨by simp, fun _ => h⟩
  · split
    · exact ⟨by simp, by simp⟩
    · split
      · exact ⟨by simp, by simp⟩
      · rfl

theorem Effect.LeadsTo.imp {e : Effect} {pc : Nat} {p q : Prop} (h : e.LeadsTo pc p)
    (hpq : p → q) : e.LeadsTo pc q := by
  cases e with
  | failed failure stack => exact ⟨h.1, fun ha => hpq (h.2 ha)⟩
  | done state call next stack => exact h

/-- The operand of an instruction that reads the data does not lead to what it is to read: a byte,
a pointer and the byte there, or a text with its end. -/
def MissesData (image : Image) (i : Instruction) : Prop :=
  let a := LittleEndian.decode i.operand
  let width := image.widths.data.bytes
  match i.opcode with
  | .pushDirect => image.data.length ≤ a
  | .pushIndirect => image.data.length < a + width ∨
      image.data.length ≤ LittleEndian.decode ((image.data.drop a).take width)
  | .pushString => 0 ∉ image.data.drop a
  | _ => False

/-- A jump goes to its operand, which has to be inside the code; all other instructions go on to
the next one, and only those that read the data can blame an address. -/
theorem perform_leadsTo (image : Image) (capacity : Nat) (i : Instruction) (next : Nat)
    (stack : List UInt8) :
    (perform image capacity i next stack).LeadsTo
      (if i.opcode = .jump then LittleEndian.decode i.operand else next)
      ((i.opcode = .jump ∧ image.code.length ≤ LittleEndian.decode i.operand) ∨
        MissesData image i) := by
  unfold perform MissesData
  cases i.opcode with
  | exit | outByte | kernelCall => rfl
  | jump =>
    by_cases h : LittleEndian.decode i.operand < image.code.length
    · simp only [if_pos h]
      rfl
    · simp only [if_neg h]
      exact ⟨by simp, fun _ => .inl ⟨trivial, Nat.not_lt.1 h⟩⟩
  | pushByte | pushWord => exact pushEach_leadsTo _ _ _ _ _
  | pushDirect => exact (pushFrom_leadsTo _ _ _ _ _).imp .inr
  | pushIndirect =>
    by_cases h : LittleEndian.decode i.operand + image.widths.data.bytes ≤ image.data.length
    · simp only [if_pos h]
      exact (pushFrom_leadsTo _ _ _ _ _).imp fun hle => .inr (.inr hle)
    · simp only [if_neg h]
      exact ⟨by simp, fun _ => .inr (.inl (Nat.not_le.1 h))⟩
  | pushString => exact (pushFrame_leadsTo _ _ _ _ _).imp .inr
  | popByte =>
    by_cases h : stack.isEmpty = true
    · simp only [if_pos h]
      exact ⟨by simp, by simp⟩
    · simp only [if_neg h]
      rfl

end Flat

/-! ## Steps and runs -/

namespace Processor

variable {m : Module} {p : Processor} {s : ValueStack}

theorem step_of_stopped (h : p.state ≠ .running) :
    step m (p, s) = .error (.notRunning p.state.text) (p, s) := by
  rw [step, if_pos h]

theorem running_of_step_ok {call : Option Syscall} {r : Processor × ValueStack}
    (h : step m (p, s) = .ok call r) : p.state = .running := by
  by_cases hrun : p.state = .running
  · exact hrun
  · rw [step_of_stopped hrun] at h
    cases h

/-- The processors that come from one by steps, between which the value stack may be changed in
any way. -/
inductive Reaches (m : Module) (p : Processor) : Processor → Prop where
  | start : Reaches m p p
  | ok {q r : Processor} {s t : ValueStack} {call : Option Syscall} :
      Reaches m p q → step m (q, s) = .ok call (r, t) → Reaches m p r
  | error {q r : Processor} {s t : ValueStack} {e : Error} :
      Reaches m p q → step m (q, s) = .error e (r, t) → Reaches m p r

end Processor

/-- A position up to the end of the code is one that the program counter can take. -/
theorem CodePage.exists_programCounter (c : CodePage) {value : Nat} (h : value ≤ c.length) :
    ∃ pc, c.programCounter value = .ok pc ∧ c.Holds pc ∧ pc.value = value :=
  ⟨_, Address.make_of_lt (Nat.le_trans h c.length_le) (by omega), ⟨rfl, rfl⟩, rfl⟩

namespace Assembly.FirstPass

variable {source : String} (f : FirstPass source)

/-- Whether the instruction of an index can blame an address: there is none, it is a jump to the
end of the code, or it reads data that are not there. -/
def MayMiss (m : Module) (index : Nat) : Prop :=
  match f.program[index]? with
  | none => True
  | some p =>
    (∃ name, p.statement.body = .instruction .jump [.label name] ∧
      f.program[f.target name]? = none) ∨
    ∃ opcode arguments operand, p.statement.body = .instruction opcode arguments ∧
      f.scope.operand opcode arguments = .ok operand ∧
      Flat.MissesData (.of m) ⟨p.statement.prefixes, opcode, operand⟩

/-- The offsets where a program can be entered, with the index of the instruction there. -/
inductive Entry : Nat → Nat → Prop where
  | first : Entry 0 0
  | label {name : String} {symbol : Symbol} (h : f.layout.symbols.lookup name = some symbol)
      (hpage : symbol.page = .code) : Entry symbol.offset (f.target name)

/-- A processor that runs is at the instruction of an index. -/
structure At (m : Module) (index : Nat) (q : Processor) : Prop where
  holds : m.code.Holds q.pc
  pc_eq : q.state = .running → q.pc.value = f.position index

variable {f} {m : Module}

theorem position_of_none (hm : assemble source = .ok m) {index : Nat}
    (h : f.program[index]? = none) : f.position index = m.code.length := by
  have hlength := f.length_contents hm .code
  simp only [position, h, ← hlength]
  exact m.code.length_contents

theorem fetch_of_none (hm : assemble source = .ok m) {index : Nat}
    (h : f.program[index]? = none) :
    Flat.fetch (.of m) (f.position index) = .error .address := by
  apply Flat.fetch_of_le
  rw [position_of_none hm h]
  exact Nat.le_of_eq m.code.length_contents

/-- The next instruction is where a jump points, and behind an instruction that is no jump. -/
theorem Structured.position_next (hs : f.Structured) {index : Nat} {p : Placed}
    (hp : f.program[index]? = some p) {opcode : Opcode} {arguments : List Argument}
    {operand : List UInt8} (hbody : p.statement.body = .instruction opcode arguments)
    (hoperand : f.scope.operand opcode arguments = .ok operand) :
    f.position (f.next index) =
      if opcode = .jump then LittleEndian.decode operand else f.position (index + 1) := by
  by_cases hjump : opcode = .jump
  · subst hjump
    obtain ⟨hmem, hin⟩ := mem_placed_of_program hp
    obtain ⟨name, rfl, hvalue⟩ := hs.jump_operand hmem (exists_instruction hin).1 hbody hoperand
    have hnext : f.next index = f.target name := by simp [next, hp, hbody]
    rw [if_pos rfl, hnext, hvalue]
  · have hnext : f.next index = index + 1 := by
      simp only [next, hp, hbody]
      split
      · next h =>
        cases h
        exact absurd rfl hjump
      · rfl
    rw [if_neg hjump, hnext]

/-- A jump that does not point into the code is one to a label with no instruction behind it. -/
theorem Structured.target_of_le (hs : f.Structured) (hm : assemble source = .ok m) {index : Nat}
    {p : Placed} (hp : f.program[index]? = some p) {arguments : List Argument}
    {operand : List UInt8} (hbody : p.statement.body = .instruction .jump arguments)
    (hoperand : f.scope.operand .jump arguments = .ok operand)
    (hle : m.code.contents.length ≤ LittleEndian.decode operand) :
    ∃ name, arguments = [.label name] ∧ f.program[f.target name]? = none := by
  obtain ⟨hmem, hin⟩ := mem_placed_of_program hp
  obtain ⟨name, rfl, hvalue⟩ := hs.jump_operand hmem (exists_instruction hin).1 hbody hoperand
  refine ⟨name, rfl, ?_⟩
  cases htarget : f.program[f.target name]? with
  | none => rfl
  | some r =>
    obtain ⟨_, _, _, -, -, hfetch⟩ := hs.fetch_program hm htarget
    have hlt : f.position (f.target name) < m.code.contents.length := Flat.lt_of_fetch hfetch
    omega

/-- The flat machine goes from instruction to instruction as the statements say. -/
theorem Structured.step_leadsTo (hs : f.Structured) (hm : assemble source = .ok m) (index : Nat)
    (capacity : Nat) (stack : List UInt8) :
    (Flat.step (.of m) capacity (f.position index) stack).LeadsTo (f.position (f.next index))
      (f.MayMiss m index) := by
  cases hp : f.program[index]? with
  | none =>
    simp only [Flat.step, fetch_of_none hm hp]
    exact ⟨by simp, fun _ => by simp [MayMiss, hp]⟩
  | some p =>
    obtain ⟨opcode, arguments, operand, hbody, hoperand, hfetch⟩ := hs.fetch_program hm hp
    have hperform := Flat.perform_leadsTo (.of m) capacity
      ⟨p.statement.prefixes, opcode, operand⟩ (f.position (index + 1)) stack
    simp only [Flat.step, hfetch, hs.position_next hp hbody hoperand, MayMiss, hp]
    apply hperform.imp
    rintro (⟨rfl, hle⟩ | hdata)
    · obtain ⟨name, rfl, htarget⟩ := hs.target_of_le hm hp hbody hoperand hle
      exact .inl ⟨name, hbody, htarget⟩
    · exact .inr ⟨opcode, arguments, operand, hbody, hoperand, hdata⟩

section

variable {index : Nat} {q r : Processor} {s t : ValueStack}

/-- A step that succeeds has executed the statement at hand and goes on at the next one. -/
theorem Structured.step_ok (hs : f.Structured) (hm : assemble source = .ok m)
    (hq : f.At m index q) {call : Option Syscall}
    (h : Processor.step m (q, s) = .ok call (r, t)) :
    (∃ p opcode arguments operand, f.program[index]? = some p ∧
      p.statement.body = .instruction opcode arguments ∧
      f.scope.operand opcode arguments = .ok operand ∧
      r.last = some (q.pc, ⟨p.statement.prefixes, opcode, operand⟩)) ∧
    r.steps = q.steps + 1 ∧ r.pc.value = f.position (f.next index) ∧ m.code.Holds r.pc := by
  have hrun : q.state = .running := Processor.running_of_step_ok h
  have hlead := hs.step_leadsTo hm index s.capacity s.bytes
  rw [← hq.pc_eq hrun] at hlead
  cases hflat : Flat.step (.of m) s.capacity q.pc.value s.bytes with
  | failed failure stack =>
    obtain ⟨e, t', hstep, -⟩ := Processor.step_of_failed hrun hq.holds hflat
    rw [hstep] at h
    cases h
  | done state call' pc stack =>
    obtain ⟨i, next, a, t', hfetch, hstep, ha, hvalue, -⟩ :=
      Processor.step_of_done hrun hq.holds hflat
    rw [hstep] at h
    cases h
    rw [hflat] at hlead
    refine ⟨?_, rfl, hvalue.trans hlead, ha⟩
    rw [hq.pc_eq hrun] at hfetch
    cases hp : f.program[index]? with
    | none =>
      rw [fetch_of_none hm hp] at hfetch
      cases hfetch
    | some p =>
      obtain ⟨opcode, arguments, operand, hbody, hoperand, hf⟩ := hs.fetch_program hm hp
      rw [hf] at hfetch
      cases hfetch
      exact ⟨p, opcode, arguments, operand, rfl, hbody, hoperand, rfl⟩

/-- A step that fails blames no opcode, and an address only where that is to be expected; it stops
the processor where it is. -/
theorem Structured.step_error (hs : f.Structured) (hm : assemble source = .ok m)
    (hq : f.At m index q) {e : Error} (h : Processor.step m (q, s) = .error e (r, t)) :
    ((∀ byte position, e ≠ .invalidOpcode byte position) ∧
      ∀ cause, e = .address cause → f.MayMiss m index) ∧
    r.steps = q.steps ∧ r.pc = q.pc ∧ r.state ≠ .running := by
  by_cases hrun : q.state = .running
  · have hlead := hs.step_leadsTo hm index s.capacity s.bytes
    rw [← hq.pc_eq hrun] at hlead
    cases hflat : Flat.step (.of m) s.capacity q.pc.value s.bytes with
    | failed failure stack =>
      obtain ⟨e', t', hstep, he, -⟩ := Processor.step_of_failed hrun hq.holds hflat
      rw [hstep] at h
      cases h
      rw [hflat] at hlead
      refine ⟨⟨?_, ?_⟩, rfl, rfl, by simp [Processor.fault]⟩
      · rintro byte position rfl
        cases he
        exact hlead.1 byte position rfl
      · rintro cause rfl
        cases he
        exact hlead.2 rfl
    | done state call' pc stack =>
      obtain ⟨i, next, a, t', -, hstep, -⟩ := Processor.step_of_done hrun hq.holds hflat
      rw [hstep] at h
      cases h
  · rw [Processor.step_of_stopped hrun] at h
    cases h
    exact ⟨⟨by simp, by simp⟩, rfl, rfl, hrun⟩

theorem Entry.position_eq (hs : f.Structured) {offset : Nat} (h : f.Entry offset index) :
    f.position index = offset := by
  cases h with
  | first => exact hs.position_of_append (a := []) rfl
  | label h hpage => exact hs.position_target h hpage

theorem position_le (hm : assemble source = .ok m) (hs : f.Structured) :
    f.position index ≤ m.code.length := by
  cases hp : f.program[index]? with
  | none => exact Nat.le_of_eq (position_of_none hm hp)
  | some p =>
    obtain ⟨_, _, _, -, -, hfetch⟩ := hs.fetch_program hm hp
    have hlt := Flat.lt_of_fetch hfetch
    rw [← m.code.length_contents]
    exact Nat.le_of_lt hlt

/-- However far a run has come, the processor is where the statements lead. -/
theorem Structured.at_of_reaches (hs : f.Structured) (hm : assemble source = .ok m)
    {p : Processor} (hp : f.At m index p) (hsteps : p.steps = 0)
    (h : Processor.Reaches m p q) : f.At m (f.indexAfter q.steps index) q := by
  induction h with
  | start =>
    rw [hsteps]
    exact hp
  | ok _ hstep ih =>
    obtain ⟨-, hcount, hpc, hholds⟩ := hs.step_ok hm ih hstep
    rw [hcount]
    exact ⟨hholds, fun _ => hpc⟩
  | error _ hstep ih =>
    obtain ⟨-, hcount, hpc, hstopped⟩ := hs.step_error hm ih hstep
    rw [hcount]
    exact ⟨hpc ▸ ih.holds, fun hrun => absurd hrun hstopped⟩

end

/-- A processor that runs an assembled program follows its statements, whatever becomes of the
value stack between steps: it is at the place of the statement to be executed, each step that
succeeds has executed that statement, and none fails because of an opcode. -/
theorem runs_follow_statements (hs : f.Structured) (hm : assemble source = .ok m)
    {offset index : Nat} (hentry : f.Entry offset index) :
    (∀ i, f.program.length ≤ i → f.position i = m.code.length) ∧
    ∃ p, Processor.start m offset = .ok p ∧
      ∀ q, Processor.Reaches m p q →
        (q.state = .running → q.pc.value = f.position (f.indexAfter q.steps index)) ∧
        (∀ s call r t, Processor.step m (q, s) = .ok call (r, t) →
          (∃ p opcode arguments operand,
            f.program[f.indexAfter q.steps index]? = some p ∧
            p.statement.body = .instruction opcode arguments ∧
            f.scope.operand opcode arguments = .ok operand ∧
            r.last = some (q.pc, ⟨p.statement.prefixes, opcode, operand⟩)) ∧
          r.pc.value = f.position (f.next (f.indexAfter q.steps index))) ∧
        ∀ s e r t, Processor.step m (q, s) = .error e (r, t) →
          (∀ byte position, e ≠ .invalidOpcode byte position) ∧
          ∀ cause, e = .address cause → f.MayMiss m (f.indexAfter q.steps index) := by
  refine ⟨fun i hi => position_of_none hm (List.getElem?_eq_none hi), ?_⟩
  have hposition := hentry.position_eq hs
  have hle : offset ≤ m.code.length := hposition ▸ position_le hm hs
  obtain ⟨pc, hpc, hholds, hvalue⟩ := m.code.exists_programCounter hle
  refine ⟨⟨pc, .running, 0, none⟩, by simp only [Processor.start, hpc]; rfl, ?_⟩
  intro q hreach
  have hat := hs.at_of_reaches hm ⟨hholds, fun _ => hvalue.trans hposition.symm⟩ rfl hreach
  refine ⟨hat.pc_eq, ?_, ?_⟩
  · intro s call r t hstep
    obtain ⟨hexec, -, hnext, -⟩ := hs.step_ok hm hat hstep
    exact ⟨hexec, hnext⟩
  · intro s e r t hstep
    exact (hs.step_error hm hat hstep).1

/-- A program that jumps over an instruction to a jump to its end. -/
def detour : String :=
  "go: ?E0 push.b 1\njmp on\ndead: push.d 0\non: jmp end\nend:"

def detourStatements : List Statement :=
  [⟨1, some "go", [0xE0], .instruction .pushByte [.number 1]⟩,
   ⟨2, none, [], .instruction .jump [.label "on"]⟩,
   ⟨3, some "dead", [], .instruction .pushDirect [.number 0]⟩,
   ⟨4, some "on", [], .instruction .jump [.label "end"]⟩,
   ⟨5, some "end", [], .blank⟩]

set_option maxRecDepth 4000 in
def detourPass : FirstPass detour where
  statements := detourStatements
  widths := ⟨.one, .one⟩
  layout :=
    { codeSize := 9
      symbols := [("end", ⟨.code, 9, 5⟩), ("on", ⟨.code, 7, 4⟩), ("dead", ⟨.code, 5, 3⟩),
        ("go", ⟨.code, 0, 1⟩)]
      placed := (placements ⟨.one, .one⟩ (sections detourStatements)).reverse }
  parse_eq := rfl
  width_eq := by intro page; cases page <;> rfl
  layOut_eq := rfl

theorem detourPass_structured : detourPass.Structured where
  isInstruction := by
    intro p hp _ hsize
    have hbody : ∀ p ∈ detourPass.layout.placed,
        p.statement.body = .blank ∨ p.statement.body.isInstruction = true := by decide
    rcases hbody p hp with hblank | hi
    · exact absurd (by simp [Statement.size, hblank]) hsize
    · exact hi
  jumpsToLabel := by decide

def detourModule : Module :=
  { properties := []
    exports := []
    code := ⟨[], #[0xE0, 0x40, 0x01, 0x20, 0x07, 0x41, 0x00, 0x20, 0x09], .one, Table.width_nil,
      by decide⟩
    data := ⟨[], #[], .one, Table.width_nil, Page.size_empty_le .one⟩ }

theorem assemble_detour : assemble detour = .ok detourModule := by
  rw [detourPass.assemble_eq]
  rfl

/-- A jump to the end of the code and an instruction that reads data that are not there blame an
address before the end of the code is reached. -/
theorem address_blamed_before_end :
    detourPass.Structured ∧ assemble detour = .ok detourModule ∧
      ∀ offset ∈ [5, 7], (∃ index, detourPass.Entry offset index) ∧
        ∃ p cause r, Processor.start detourModule offset = .ok p ∧
          p.pc.value < detourModule.code.length ∧
          Processor.step detourModule (p, .empty 256) = .error (.address cause) r := by
  have hdead : detourPass.layout.symbols.lookup "dead" = some ⟨.code, 5, 3⟩ := rfl
  have hon : detourPass.layout.symbols.lookup "on" = some ⟨.code, 7, 4⟩ := rfl
  refine ⟨detourPass_structured, assemble_detour, ?_⟩
  intro offset hoffset
  simp only [List.mem_cons, List.not_mem_nil, or_false] at hoffset
  rcases hoffset with rfl | rfl
  · exact ⟨⟨_, .label hdead rfl⟩, _, _, _, rfl, by decide, rfl⟩
  · exact ⟨⟨_, .label hon rfl⟩, _, _, _, rfl, by decide, rfl⟩

theorem runs_follow_statements_detour :
    detourPass.Structured ∧ assemble detour = .ok detourModule ∧ detourPass.Entry 0 0 ∧
      ∃ p, Processor.start detourModule 0 = .ok p ∧
        ∀ q, Processor.Reaches detourModule p q → q.state = .running →
          q.pc.value = detourPass.position (detourPass.indexAfter q.steps 0) := by
  obtain ⟨-, p, hstart, h⟩ := runs_follow_statements detourPass_structured assemble_detour .first
  exact ⟨detourPass_structured, assemble_detour, .first, p, hstart, fun q hq => (h q hq).1⟩

end Assembly.FirstPass

end ByteMachine
