import ByteMachine.Proofs.ControlFlow
import ByteMachine.Proofs.StepLimits

/-!
Two programs in lockstep. Their processors may be at different places of different code; as long as
they complete the same instructions, no host can tell one from the other by what they do.
-/
namespace ByteMachine

/-! ## Results that are alike -/

/-- Errors of one kind may differ in what they quote. -/
def Error.SameKind (e e' : Error) : Prop :=
  e.ctorIdx = e'.ctorIdx

instance (e e' : Error) : Decidable (e.SameKind e') :=
  inferInstanceAs (Decidable (e.ctorIdx = e'.ctorIdx))

/-- Two computations ended in the same way: both gave a result, or both failed with an error of the
same kind. -/
inductive Action.Alike {σ τ α β : Type} (results : α → β → Prop) (states : σ → τ → Prop) :
    EStateM.Result Error σ α → EStateM.Result Error τ β → Prop where
  | ok {a : α} {b : β} {s : σ} {t : τ} (hresult : results a b) (hstate : states s t) :
      Alike results states (.ok a s) (.ok b t)
  | error {e e' : Error} {s : σ} {t : τ} (hkind : e.SameKind e') (hstate : states s t) :
      Alike results states (.error e s) (.error e' t)

namespace Action.Alike

variable {σ τ α β : Type} {results : α → β → Prop} {states : σ → τ → Prop}
  {x : Action σ α} {y : Action τ β} {s : σ} {t : τ}

theorem left (h : Alike results states (x s) (y t)) : states (x.left s) (y.left t) := by
  unfold Action.left
  generalize x s = r, y t = r' at h
  cases h with
  | ok _ hstate => exact hstate
  | error _ hstate => exact hstate

theorem mono {states' : σ → τ → Prop} (hstates : ∀ s t, states s t → states' s t)
    {r : EStateM.Result Error σ α} {r' : EStateM.Result Error τ β}
    (h : Alike results states r r') : Alike results states' r r' := by
  cases h with
  | ok hresult hstate => exact .ok hresult (hstates _ _ hstate)
  | error hkind hstate => exact .error hkind (hstates _ _ hstate)

end Action.Alike

/-! ## Processors in lockstep -/

/-- The processors are related, and the value stacks or hosts are the same. -/
def Beside {σ : Type} (twins : Processor → Processor → Prop) (s t : Processor × σ) : Prop :=
  twins s.1 t.1 ∧ t.2 = s.2

/-- A relation between processors of two modules that their steps preserve. Related processors
look the same from the outside and do the same to the value stack. -/
structure Lockstep (m m' : Module) (twins : Processor → Processor → Prop) : Prop where
  steps_eq : ∀ {p p' : Processor}, twins p p' → p'.steps = p.steps
  state_eq : ∀ {p p' : Processor}, twins p p' → p'.state = p.state
  fault : ∀ {p p' : Processor} (e : Error), twins p p' → twins (p.fault e) (p'.fault e)
  step : ∀ {p p' : Processor} (s : ValueStack), twins p p' → p.state = .running →
    Action.Alike Eq (Beside twins) (Processor.step m (p, s)) (Processor.step m' (p', s))

namespace Lockstep

variable {m m' : Module} {twins : Processor → Processor → Prop} {p p' : Processor}

/-- What a host learns of a processor that halted, apart from its place. -/
def SameOutcome (outcome outcome' : Option Outcome) : Prop :=
  outcome'.map Outcome.steps = outcome.map Outcome.steps

theorem step_of_running (hlock : Lockstep m m' twins) (hp : twins p p')
    (hrun : p.state = .running) {h : Host} (hfree : h.limitReached p = none)
    (hfree' : h.limitReached p' = none) :
    Action.Alike SameOutcome (Beside twins) (Host.step m (p, h)) (Host.step m' (p', h)) := by
  have hstep := hlock.step h.stack hp hrun
  simp only [Host.step, hfree, hfree']
  generalize Processor.step m (p, h.stack) = r, Processor.step m' (p', h.stack) = r' at hstep
  cases hstep with
  | @error e e' after after' hkind hafter =>
    obtain ⟨q, t⟩ := after
    obtain ⟨q', t'⟩ := after'
    obtain ⟨htwins, rfl⟩ := hafter
    exact .error hkind ⟨htwins, rfl⟩
  | @ok call call' after after' hcall hafter =>
    obtain ⟨q, t⟩ := after
    obtain ⟨q', t'⟩ := after'
    obtain ⟨htwins, rfl⟩ := hafter
    subst hcall
    cases call with
    | none => exact .ok rfl ⟨htwins, rfl⟩
    | some call =>
      cases call with
      | halt => exact .ok (congrArg some (hlock.steps_eq htwins)) ⟨htwins, rfl⟩
      | out | kernelCall =>
        dsimp only
        cases Host.serve _ { h with stack := t' } with
        | ok u g => exact .ok rfl ⟨htwins, rfl⟩
        | error e g => exact .error rfl ⟨hlock.fault e htwins, rfl⟩

/-- Steps of a host with related processors are alike, and the processors stay related. -/
theorem host_step (hlock : Lockstep m m' twins) {s s' : Processor × Host} (hs : Beside twins s s') :
    Action.Alike SameOutcome (Beside twins) (Host.step m s) (Host.step m' s') := by
  obtain ⟨p, h⟩ := s
  obtain ⟨p', h'⟩ := s'
  obtain ⟨hp, rfl⟩ : twins p p' ∧ h' = h := hs
  have hstate := hlock.state_eq hp
  have hlimit : h'.limitReached p' = h'.limitReached p := by
    rw [Host.limitReached, Host.limitReached, hlock.steps_eq hp]
  cases hfree : h'.limitReached p with
  | some limit =>
    rw [Host.step_of_limitReached (s := (p, h')) hfree,
      Host.step_of_limitReached (s := (p', h')) (hlimit.trans hfree)]
    exact .error rfl ⟨hp, rfl⟩
  | none =>
    by_cases hrun : p.state = .running
    · exact hlock.step_of_running hp hrun hfree (hlimit.trans hfree)
    · have hstep := Processor.step_of_stopped (m := m) (s := h'.stack) hrun
      have hstep' := Processor.step_of_stopped (m := m') (s := h'.stack) (hstate ▸ hrun)
      simp only [Host.step, hlimit, hfree, hstep, hstep']
      exact .error rfl ⟨hp, rfl⟩

/-- However many steps a host has made, the processors are related and the hosts the same. -/
theorem beside_after (hlock : Lockstep m m' twins) {s s' : Processor × Host}
    (hs : Beside twins s s') (n : Nat) :
    Beside twins ((Host.step m).after s n) ((Host.step m').after s' n) := by
  induction n with
  | zero => exact hs
  | succ n ih => exact (hlock.host_step ih).left

/-- Processors that have completed as many instructions and are in the same state, with hosts that
have the same value stack and output. -/
structure Indistinct (s s' : Processor × Host) : Prop where
  steps_eq : s'.1.steps = s.1.steps
  state_eq : s'.1.state = s.1.state
  host_eq : s'.2 = s.2

/-- Two runs in lockstep are alike step by step. -/
theorem alike_after (hlock : Lockstep m m' twins) {s s' : Processor × Host}
    (hs : Beside twins s s') (n : Nat) :
    Action.Alike SameOutcome Indistinct (Host.step m ((Host.step m).after s n))
      (Host.step m' ((Host.step m').after s' n)) := by
  refine (hlock.host_step (hlock.beside_after hs n)).mono fun t t' ht => ?_
  exact ⟨hlock.steps_eq ht.1, hlock.state_eq ht.1, ht.2⟩

end Lockstep

/-! ## The same instruction elsewhere -/

namespace Flat

def Effect.movedTo (pc : Nat) : Effect → Effect
  | .failed failure stack => .failed failure stack
  | .done state call _ stack => .done state call pc stack

theorem pushEach_movedTo (capacity next next' : Nat) (bytes stack : List UInt8) :
    (pushEach capacity next bytes stack).movedTo next' = pushEach capacity next' bytes stack := by
  induction bytes generalizing stack with
  | nil => rfl
  | cons b bytes ih =>
    unfold pushEach
    split
    · exact ih _
    · rfl

theorem pushFrom_movedTo (data : List UInt8) (capacity next next' position : Nat)
    (stack : List UInt8) :
    (pushFrom data capacity next position stack).movedTo next' =
      pushFrom data capacity next' position stack := by
  unfold pushFrom
  split
  · exact pushEach_movedTo _ _ _ _ _
  · rfl

theorem pushFrame_movedTo (data : List UInt8) (capacity next next' position : Nat)
    (stack : List UInt8) :
    (pushFrame data capacity next position stack).movedTo next' =
      pushFrame data capacity next' position stack := by
  simp only [pushFrame]
  split
  · rfl
  · split
    · rfl
    · split <;> rfl

/-- An instruction that is no jump does the same wherever it stands, if the data are the same. -/
theorem perform_movedTo {image image' : Image} (hdata : image'.data = image.data)
    (hwidth : image'.widths.data = image.widths.data) {i : Instruction}
    (hjump : i.opcode ≠ .jump) (capacity next next' : Nat) (stack : List UInt8) :
    perform image' capacity i next' stack =
      (perform image capacity i next stack).movedTo next' := by
  unfold perform
  rw [hdata, hwidth]
  cases hop : i.opcode with
  | exit | outByte | kernelCall => rfl
  | jump => exact absurd hop hjump
  | pushByte | pushWord => exact (pushEach_movedTo _ _ _ _ _).symm
  | pushDirect => exact (pushFrom_movedTo _ _ _ _ _ _).symm
  | pushIndirect =>
    dsimp only
    split
    · exact (pushFrom_movedTo _ _ _ _ _ _).symm
    · rfl
  | pushString => exact (pushFrame_movedTo _ _ _ _ _ _).symm
  | popByte =>
    dsimp only
    split <;> rfl

theorem perform_jump (image : Image) (capacity : Nat) (prefixes operand : List UInt8) (next : Nat)
    (stack : List UInt8) :
    perform image capacity ⟨prefixes, .jump, operand⟩ next stack =
      if LittleEndian.decode operand < image.code.length then
        .done .running none (LittleEndian.decode operand) stack
      else .failed .address stack :=
  rfl

/-- The kind of an error and the state that it leaves a processor in follow from why an instruction
failed. -/
theorem sameKind_of_failure {e e' : Error} {failure : Failure}
    (h : Failure.ofError e = some failure) (h' : Failure.ofError e' = some failure) :
    e.SameKind e' ∧ Fault.ofError e' = Fault.ofError e := by
  cases e <;> cases h <;> cases e' <;> cases h' <;> exact ⟨rfl, rfl⟩

end Flat

/-! ## The same program elsewhere -/

namespace Assembly.FirstPass

variable {a b : String} {f : FirstPass a} {f' : FirstPass b} {m m' : Module}

/-- Two programs of the same instructions, with the same operands but for those of jumps, which go
to the same instructions. -/
structure Parallel (f : FirstPass a) (f' : FirstPass b) : Prop where
  statement_eq : ∀ index : Nat,
    f'.program[index]?.map Placed.statement = f.program[index]?.map Placed.statement
  target_eq : ∀ name, f'.target name = f.target name
  operand_eq : ∀ p ∈ f.program, ∀ opcode arguments operand,
    p.statement.body = .instruction opcode arguments → opcode ≠ .jump →
    f.scope.operand opcode arguments = .ok operand →
    f'.scope.operand opcode arguments = .ok operand

/-- A jump points into the code exactly if there is an instruction behind its label. -/
theorem Structured.jump_lt_iff (hs : f.Structured) (hm : assemble a = .ok m) (name : String) :
    f.position (f.target name) < (Flat.Image.of m).code.length ↔
      (f.program[f.target name]?).isSome = true := by
  cases htarget : f.program[f.target name]? with
  | none =>
    have hend : (Flat.Image.of m).code.length = m.code.length := m.code.length_contents
    simp [position_of_none hm htarget, hend]
  | some p =>
    obtain ⟨_, _, _, -, -, hfetch⟩ := hs.fetch_program hm htarget
    simp [Flat.lt_of_fetch hfetch]

namespace Parallel

theorem isSome_program (h : Parallel f f') (index : Nat) :
    (f'.program[index]?).isSome = (f.program[index]?).isSome := by
  have heq := congrArg Option.isSome (h.statement_eq index)
  rwa [Option.isSome_map, Option.isSome_map] at heq

theorem next_eq (h : Parallel f f') (index : Nat) : f'.next index = f.next index := by
  have hsame := h.statement_eq index
  unfold next
  cases hp : f.program[index]? with
  | none =>
    rw [hp, Option.map_none, Option.map_eq_none_iff] at hsame
    rw [hsame]
  | some p =>
    rw [hp, Option.map_some, Option.map_eq_some_iff] at hsame
    obtain ⟨p', hp', hstatement⟩ := hsame
    simp only [hp', hstatement, h.target_eq]

/-- A jump of one program is one of the other, and both miss the code or neither. -/
theorem perform_jump (h : Parallel f f') (hs : f.Structured) (hs' : f'.Structured)
    (hm : assemble a = .ok m) (hm' : assemble b = .ok m') {p p' : Placed}
    (hp : p ∈ f.layout.placed ∧ p.inProgram = true)
    (hp' : p' ∈ f'.layout.placed ∧ p'.inProgram = true) {arguments : List Argument}
    {operand operand' : List UInt8} (hbody : p.statement.body = .instruction .jump arguments)
    (hbody' : p'.statement.body = .instruction .jump arguments)
    (hoperand : f.scope.operand .jump arguments = .ok operand)
    (hoperand' : f'.scope.operand .jump arguments = .ok operand') (prefixes : List UInt8)
    (capacity next next' : Nat) (stack : List UInt8) :
    Flat.perform (.of m') capacity ⟨prefixes, .jump, operand'⟩ next' stack =
      (Flat.perform (.of m) capacity ⟨prefixes, .jump, operand⟩ next stack).movedTo
        (LittleEndian.decode operand') := by
  obtain ⟨name, rfl, hvalue⟩ :=
    hs.jump_operand hp.1 (exists_instruction hp.2).1 hbody hoperand
  obtain ⟨name', heq, hvalue'⟩ :=
    hs'.jump_operand hp'.1 (exists_instruction hp'.2).1 hbody' hoperand'
  cases heq
  have hlt : LittleEndian.decode operand' < (Flat.Image.of m').code.length ↔
      LittleEndian.decode operand < (Flat.Image.of m).code.length := by
    rw [hvalue, hvalue', hs.jump_lt_iff hm, hs'.jump_lt_iff hm', h.target_eq, h.isSome_program]
  rw [Flat.perform_jump, Flat.perform_jump]
  by_cases hin : LittleEndian.decode operand < (Flat.Image.of m).code.length
  · rw [if_pos hin, if_pos (hlt.2 hin)]
    rfl
  · rw [if_neg hin, if_neg (mt hlt.1 hin)]
    rfl

/-- At the instruction of an index both programs do the same and go on to the same instruction. -/
theorem flat_step (h : Parallel f f') (hs : f.Structured) (hs' : f'.Structured)
    (hm : assemble a = .ok m) (hm' : assemble b = .ok m')
    (hdata : m'.data.contents = m.data.contents) (hwidth : m'.widths.data = m.widths.data)
    (index capacity : Nat) (stack : List UInt8) :
    Flat.step (.of m') capacity (f'.position index) stack =
      (Flat.step (.of m) capacity (f.position index) stack).movedTo
        (f'.position (f'.next index)) := by
  have hsame := h.statement_eq index
  cases hp : f.program[index]? with
  | none =>
    rw [hp, Option.map_none, Option.map_eq_none_iff] at hsame
    simp only [Flat.step, fetch_of_none hm hp, fetch_of_none hm' hsame]
    rfl
  | some p =>
    rw [hp, Option.map_some, Option.map_eq_some_iff] at hsame
    obtain ⟨p', hp', hstatement⟩ := hsame
    obtain ⟨opcode, arguments, operand, hbody, hoperand, hfetch⟩ := hs.fetch_program hm hp
    obtain ⟨opcode', arguments', operand', hbody', hoperand', hfetch'⟩ :=
      hs'.fetch_program hm' hp'
    obtain ⟨rfl, rfl⟩ : opcode = opcode' ∧ arguments = arguments' := by
      rw [hstatement, hbody] at hbody'
      cases hbody'
      exact ⟨rfl, rfl⟩
    rw [hs'.position_next hp' hbody' hoperand']
    simp only [Flat.step, hfetch, hfetch', hstatement]
    by_cases hjump : opcode = .jump
    · subst hjump
      rw [if_pos rfl]
      exact h.perform_jump hs hs' hm hm' (mem_placed_of_program hp) (mem_placed_of_program hp')
        hbody hbody' hoperand hoperand' _ _ _ _ _
    · obtain rfl : operand' = operand := by
        have heq := h.operand_eq p (List.mem_of_getElem? hp) _ _ _ hbody hjump hoperand
        rw [hoperand'] at heq
        exact Except.ok.inj heq
      rw [if_neg hjump]
      exact Flat.perform_movedTo hdata hwidth hjump _ _ _ _

end Parallel

/-- Two processors at the instruction of one index. -/
structure Twins (f : FirstPass a) (f' : FirstPass b) (m m' : Module) (p p' : Processor) :
    Prop where
  steps_eq : p'.steps = p.steps
  state_eq : p'.state = p.state
  at_same : ∃ index, f.At m index p ∧ f'.At m' index p'

theorem At.fault {index : Nat} {p : Processor} (h : f.At m index p) (e : Error) :
    f.At m index (p.fault e) :=
  ⟨h.holds, nofun⟩

theorem Twins.fault {p p' : Processor} (h : Twins f f' m m' p p') {e e' : Error}
    (hfault : Fault.ofError e' = Fault.ofError e) : Twins f f' m m' (p.fault e) (p'.fault e') := by
  obtain ⟨index, hat, hat'⟩ := h.at_same
  exact ⟨h.steps_eq, congrArg RunState.faulted hfault, index, hat.fault e, hat'.fault e'⟩

/-- Programs of the same instructions on the same data run in lockstep. -/
theorem Parallel.lockstep (h : Parallel f f') (hs : f.Structured) (hs' : f'.Structured)
    (hm : assemble a = .ok m) (hm' : assemble b = .ok m')
    (hdata : m'.data.contents = m.data.contents) (hwidth : m'.widths.data = m.widths.data) :
    Lockstep m m' (Twins f f' m m') where
  steps_eq := Twins.steps_eq
  state_eq := Twins.state_eq
  fault e htwins := htwins.fault rfl
  step {p p'} s htwins hrun := by
    obtain ⟨index, hat, hat'⟩ := htwins.at_same
    have hrun' : p'.state = .running := htwins.state_eq.trans hrun
    have hlead := hs.step_leadsTo hm index s.capacity s.bytes
    have hflat' := h.flat_step hs hs' hm hm' hdata hwidth index s.capacity s.bytes
    rw [← hat.pc_eq hrun] at hlead hflat'
    rw [← hat'.pc_eq hrun'] at hflat'
    cases hflat : Flat.step (.of m) s.capacity p.pc.value s.bytes with
    | failed failure stack =>
      rw [hflat] at hflat'
      obtain ⟨e, t, hstep, he, hbytes, hcapacity⟩ := Processor.step_of_failed hrun hat.holds hflat
      obtain ⟨e', t', hstep', he', hbytes', hcapacity'⟩ :=
        Processor.step_of_failed hrun' hat'.holds hflat'
      obtain rfl : t' = t := ValueStack.eq_of_bytes_eq (hbytes'.trans hbytes.symm)
        (hcapacity'.trans hcapacity.symm)
      obtain ⟨hkind, hfault⟩ := Flat.sameKind_of_failure he he'
      rw [hstep, hstep']
      exact .error hkind ⟨htwins.fault hfault, rfl⟩
    | done state call pc stack =>
      rw [hflat] at hflat' hlead
      obtain ⟨i, next, pc₁, t, -, hstep, hpc, hvalue, hbytes, hcapacity⟩ :=
        Processor.step_of_done hrun hat.holds hflat
      obtain ⟨i', next', pc₂, t', -, hstep', hpc', hvalue', hbytes', hcapacity'⟩ :=
        Processor.step_of_done hrun' hat'.holds hflat'
      obtain rfl : t' = t := ValueStack.eq_of_bytes_eq (hbytes'.trans hbytes.symm)
        (hcapacity'.trans hcapacity.symm)
      rw [hstep, hstep', htwins.steps_eq]
      have hat : f.At m (f.next index) ⟨pc₁, state, p.steps + 1, some (p.pc, i)⟩ :=
        ⟨hpc, fun _ => hvalue.trans hlead⟩
      have hat' : f'.At m' (f'.next index) ⟨pc₂, state, p.steps + 1, some (p'.pc, i')⟩ :=
        ⟨hpc', fun _ => hvalue'⟩
      rw [h.next_eq index] at hat'
      exact .ok rfl ⟨⟨rfl, rfl, _, hat, hat'⟩, rfl⟩

end Assembly.FirstPass

end ByteMachine
