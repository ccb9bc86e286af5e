import ByteMachine.Machine.Host
import ByteMachine.Proofs.History
import ByteMachine.Proofs.StackOperations

/-!
A processor in the hands of a host. A step of the host completes an instruction and serves the call
that it raises, or it says why not; the processor halts at most once, and once it has stopped no
step changes anything.
-/
namespace ByteMachine

namespace Opcode

variable {opcode : Opcode}

theorem eq_exit_of_halt (h : opcode.syscall = some .halt) : opcode = exit := by
  cases opcode <;> first | rfl | cases h

/-- An instruction that does not halt the processor leaves it running. -/
theorem after_eq_running (h : opcode.syscall ≠ some .halt) : opcode.after = .running := by
  cases opcode <;> first | rfl | exact absurd rfl h

end Opcode

namespace Processor

variable {m : Module} {p q : Processor} {s : ValueStack}

/-- The processor has completed the instruction at its program counter, which has this opcode. -/
def Completes (m : Module) (opcode : Opcode) (p q : Processor) : Prop :=
  ∃ d next, m.decode p.pc = .ok d ∧ d.instruction.opcode = opcode ∧ q = p.retire d.instruction next

theorem Completes.state_eq {opcode : Opcode} (h : Completes m opcode p q) :
    q.state = opcode.after := by
  obtain ⟨d, next, -, rfl, rfl⟩ := h
  rfl

theorem Completes.steps_eq {opcode : Opcode} (h : Completes m opcode p q) :
    q.steps = p.steps + 1 := by
  obtain ⟨d, next, -, -, rfl⟩ := h
  rfl

/-- There is one instruction at the program counter. -/
theorem Completes.opcode_eq {r : Processor} {opcode opcode' : Opcode} (h : Completes m opcode p q)
    (h' : Completes m opcode' p r) : opcode = opcode' := by
  obtain ⟨d, -, hd, rfl, -⟩ := h
  obtain ⟨d', -, hd', rfl, -⟩ := h'
  rw [hd] at hd'
  cases hd'
  rfl

/-- A processor that runs completes an instruction or is stopped by an error. -/
theorem step_of_running (hrun : p.state = .running) :
    (∃ opcode q t, Completes m opcode p q ∧ step m (p, s) = .ok opcode.syscall (q, t)) ∨
      ∃ e t, step m (p, s) = .error e (p.fault e, t) := by
  have hstate : ¬ p.state ≠ .running := not_not_intro hrun
  simp only [step, if_neg hstate]
  cases hexec : p.execute m s with
  | error e t => exact .inr ⟨e, t, rfl⟩
  | ok found t =>
    obtain ⟨d, u, hd, hperform⟩ := Action.bind_eq_ok_iff.1 hexec
    obtain ⟨next, u', -, hpure⟩ := Action.bind_eq_ok_iff.1 hperform
    cases hpure
    cases hdecode : m.decode p.pc with
    | error e =>
      rw [hdecode] at hd
      cases hd
    | ok d' =>
      rw [hdecode] at hd
      cases hd
      exact .inl ⟨_, _, t, ⟨d, next, hdecode, rfl, rfl⟩, rfl⟩

/-- An error of an instruction is one of a few kinds. -/
theorem failure_of_step_error (hpc : m.code.Holds p.pc) (hrun : p.state = .running) {e : Error}
    {r : Processor × ValueStack} (h : step m (p, s) = .error e r) :
    ∃ failure, Flat.Failure.ofError e = some failure := by
  cases hflat : Flat.step (.of m) s.capacity p.pc.value s.bytes with
  | failed failure stack =>
    obtain ⟨e', t, hstep, he, -⟩ := step_of_failed hrun hpc hflat
    rw [hstep] at h
    cases h
    exact ⟨failure, he⟩
  | done state call pc stack =>
    obtain ⟨i, next, a, t, -, hstep, -⟩ := step_of_done hrun hpc hflat
    rw [hstep] at h
    cases h

end Processor

namespace Host

variable {m : Module} {p q : Processor} {h g : Host}

/-! ## Services -/

/-- What holds of popping a byte or a text, of printing and of refusing, and of one computation
after another, holds of serving a call. -/
theorem serve_induction {P : (α : Type) → Action Host α → Prop}
    (popByte : P UInt8 (onStack ValueStack.popByte))
    (popText : P String (onStack ValueStack.popText))
    (print : ∀ bytes, P Unit (print bytes)) (nothing : P Unit (Action.ofExcept (.ok ())))
    (unknown : ∀ name, P Unit (Action.ofExcept (.error (.unknownCall name))))
    (bind : ∀ {α : Type} {x : Action Host α} {f : α → Action Host Unit},
      P α x → (∀ a, P Unit (f a)) → P Unit (x >>= f))
    (call : Syscall) : P Unit (serve call) := by
  have hbyte : P Unit printByte := bind popByte fun _ => print _
  have htext : P Unit printText := bind popText fun _ => print _
  have hservice (name : String) : P Unit (service name) := by
    unfold service
    split
    · exact hbyte
    · split
      · exact htext
      · exact unknown name
  cases call with
  | halt => exact nothing
  | out => exact hbyte
  | kernelCall => exact bind popText hservice

/-- A call fails for what is on the stack, for want of a service, or for the output. -/
def IsServiceError : Error → Prop
  | .underflow _ _ | .notText _ | .unknownCall _ | .io _ => True
  | _ => False

theorem isServiceError_of_popByte {e : Error} {s t : ValueStack}
    (h : ValueStack.popByte s = .error e t) : IsServiceError e := by
  obtain ⟨-, rfl, -⟩ := ValueStack.popByte_eq_error_iff.1 h
  trivial

theorem isServiceError_of_popText {e : Error} {s t : ValueStack}
    (h : ValueStack.popText s = .error e t) : IsServiceError e := by
  obtain ⟨hnone, -⟩ := ValueStack.popText_eq_error_iff.1 h
  generalize s.bytes = contents at hnone
  cases hnone <;> trivial

theorem isServiceError_of_onStack {α : Type} {action : Action ValueStack α} {e : Error}
    (haction : ∀ s t, action s = .error e t → IsServiceError e)
    (hstack : onStack action h = .error e g) : IsServiceError e := by
  unfold onStack at hstack
  split at hstack
  · cases hstack
  · next ht =>
    cases hstack
    exact haction _ _ ht

theorem print_unlimited (hroom : h.output.room = none) (bytes : List UInt8) :
    print bytes h = .ok () { h with output := ⟨bytes.reverse ++ h.output.recent, none⟩ } := by
  obtain ⟨limit, stack, recent, room⟩ := h
  obtain rfl : room = none := hroom
  simp only [print, Sink.write_unlimited]

theorem isServiceError_of_print {bytes : List UInt8} {e : Error}
    (hprint : print bytes h = .error e g) : IsServiceError e := by
  unfold print at hprint
  split at hprint
  · cases hprint
  · next hwrite =>
    cases hprint
    unfold Sink.write at hwrite
    split at hwrite
    · cases hwrite
    · dsimp only at hwrite
      split at hwrite
      · cases hwrite
      · cases hwrite
        trivial

theorem isServiceError_of_serve {call : Syscall} {e : Error}
    (hserve : serve call h = .error e g) : IsServiceError e := by
  refine serve_induction (P := fun _ x => ∀ {h g e}, x h = .error e g → IsServiceError e)
    ?_ ?_ ?_ ?_ ?_ ?_ call hserve
  · exact isServiceError_of_onStack fun _ _ => isServiceError_of_popByte
  · exact isServiceError_of_onStack fun _ _ => isServiceError_of_popText
  · intro bytes h g e
    exact isServiceError_of_print
  · nofun
  · rintro name h g e ⟨⟩
    trivial
  · intro α x f hx hf h g e hbind
    rcases Action.bind_eq_error_iff.1 hbind with hfirst | ⟨a, t, -, hrest⟩
    · exact hx hfirst
    · exact hf a hrest

/-! ## What a step can do -/

/-- The ends that a step of the host can have. -/
inductive StepsTo (m : Module) (p : Processor) (h : Host) :
    EStateM.Result Error (Processor × Host) (Option Outcome) → Prop where
  | limited {limit : Nat} (hlimit : h.limitReached p = some limit) :
      StepsTo m p h (.error (.stepLimit limit) (p, h))
  | stopped (hfree : h.limitReached p = none) (hstop : p.state ≠ .running) :
      StepsTo m p h (.error (.notRunning p.state.text) (p, h))
  | failed {e : Error} {t : ValueStack} (hfree : h.limitReached p = none)
      (hrun : p.state = .running)
      (hstep : Processor.step m (p, h.stack) = .error e (p.fault e, t)) :
      StepsTo m p h (.error e (p.fault e, { h with stack := t }))
  | quiet {opcode : Opcode} {q : Processor} {t : ValueStack} (hfree : h.limitReached p = none)
      (hrun : p.state = .running) (hdone : Processor.Completes m opcode p q)
      (hcall : opcode.syscall = none) (hstep : Processor.step m (p, h.stack) = .ok none (q, t)) :
      StepsTo m p h (.ok none (q, { h with stack := t }))
  | halted {q : Processor} {t : ValueStack} (hfree : h.limitReached p = none)
      (hrun : p.state = .running) (hdone : Processor.Completes m .exit p q)
      (hstep : Processor.step m (p, h.stack) = .ok (some .halt) (q, t)) :
      StepsTo m p h (.ok (some ⟨q.pc, q.steps⟩) (q, { h with stack := t }))
  | served {opcode : Opcode} {call : Syscall} {q : Processor} {t : ValueStack} {g : Host}
      (hfree : h.limitReached p = none) (hrun : p.state = .running)
      (hdone : Processor.Completes m opcode p q) (hopcode : opcode.syscall = some call)
      (hcall : call ≠ .halt) (hstep : Processor.step m (p, h.stack) = .ok (some call) (q, t))
      (hserve : serve call { h with stack := t } = .ok () g) :
      StepsTo m p h (.ok none (q, g))
  | refused {opcode : Opcode} {call : Syscall} {e : Error} {q : Processor} {t : ValueStack}
      {g : Host} (hfree : h.limitReached p = none) (hrun : p.state = .running)
      (hdone : Processor.Completes m opcode p q) (hopcode : opcode.syscall = some call)
      (hcall : call ≠ .halt) (hstep : Processor.step m (p, h.stack) = .ok (some call) (q, t))
      (hserve : serve call { h with stack := t } = .error e g) :
      StepsTo m p h (.error e (q.fault e, g))

theorem stepsTo (m : Module) (p : Processor) (h : Host) : StepsTo m p h (step m (p, h)) := by
  cases hlimit : h.limitReached p with
  | some limit => simpa only [step, hlimit] using .limited hlimit
  | none =>
    by_cases hrun : p.state = .running
    · rcases Processor.step_of_running (m := m) (s := h.stack) hrun with
        ⟨opcode, q, t, hdone, hstep⟩ | ⟨e, t, hstep⟩
      · cases hcall : opcode.syscall with
        | none =>
          rw [hcall] at hstep
          simpa only [step, hlimit, hstep] using .quiet hlimit hrun hdone hcall hstep
        | some call =>
          rw [hcall] at hstep
          by_cases hhalt : call = .halt
          · subst hhalt
            have hexit := Opcode.eq_exit_of_halt hcall ▸ hdone
            simpa only [step, hlimit, hstep] using .halted hlimit hrun hexit hstep
          · cases hserve : serve call { h with stack := t } with
            | ok u g =>
              have hend := StepsTo.served hlimit hrun hdone hcall hhalt hstep hserve
              cases call with
              | halt => exact absurd rfl hhalt
              | out | kernelCall => simpa only [step, hlimit, hstep, hserve] using hend
            | error e g =>
              have hend := StepsTo.refused hlimit hrun hdone hcall hhalt hstep hserve
              cases call with
              | halt => exact absurd rfl hhalt
              | out | kernelCall => simpa only [step, hlimit, hstep, hserve] using hend
      · simpa only [step, hlimit, hstep] using .failed hlimit hrun hstep
    · simpa only [step, hlimit, Processor.step_of_stopped hrun] using .stopped hlimit hrun

theorem stepsTo_of_eq {r : EStateM.Result Error (Processor × Host) (Option Outcome)}
    (h' : step m (p, h) = r) : StepsTo m p h r :=
  h' ▸ stepsTo m p h

/-- A step moves the processor to one that agrees with the code again. -/
theorem consistent_left (hp : p.Consistent m) (h : Host) :
    ((step m).left (p, h)).1.Consistent m := by
  cases hr : step m (p, h) with
  | ok outcome after =>
    rw [Action.left_of_ok hr]
    cases stepsTo_of_eq hr with
    | quiet _ _ _ _ hstep => exact (hp.step_ok hstep).1
    | halted _ _ _ hstep => exact (hp.step_ok hstep).1
    | served _ _ _ _ _ hstep _ => exact (hp.step_ok hstep).1
  | error e after =>
    rw [Action.left_of_error hr]
    cases stepsTo_of_eq hr with
    | limited => exact hp
    | stopped => exact hp
    | failed => exact hp.congr rfl rfl
    | refused _ _ _ _ _ hstep _ => exact (hp.step_ok hstep).1.congr rfl rfl

/-- A step says where the processor halted exactly when it completed an instruction to exit. -/
theorem result_eq_outcome_iff {outcome : Outcome} :
    (step m).result (p, h) = .ok (some outcome) ↔
      Processor.Completes m .exit p ((step m).left (p, h)).1 ∧
        outcome = ⟨((step m).left (p, h)).1.pc, ((step m).left (p, h)).1.steps⟩ := by
  cases hr : step m (p, h) with
  | ok found after =>
    rw [Action.result_of_ok hr, Action.left_of_ok hr]
    cases stepsTo_of_eq hr with
    | quiet _ _ hdone hcall =>
      refine iff_of_false (by simp) fun ⟨hexit, _⟩ => ?_
      rw [hdone.opcode_eq hexit] at hcall
      cases hcall
    | halted _ _ hdone =>
      constructor
      · rintro ⟨⟩
        exact ⟨hdone, rfl⟩
      · rintro ⟨-, rfl⟩
        rfl
    | served _ _ hdone hopcode hcall =>
      refine iff_of_false (by simp) fun ⟨hexit, _⟩ => ?_
      rw [hdone.opcode_eq hexit] at hopcode
      cases hopcode
      exact hcall rfl
  | error e after =>
    rw [Action.result_of_error hr, Action.left_of_error hr]
    refine iff_of_false (by simp) fun ⟨hexit, _⟩ => ?_
    cases stepsTo_of_eq hr with
    | limited => exact absurd hexit.steps_eq (Nat.succ_ne_self p.steps).symm
    | stopped => exact absurd hexit.steps_eq (Nat.succ_ne_self p.steps).symm
    | failed => cases hexit.state_eq
    | refused => cases hexit.state_eq

/-- A step for which the limit has been reached changes nothing. -/
theorem left_of_stepLimit (hp : p.Consistent m) {limit : Nat}
    (hr : (step m).result (p, h) = .error (.stepLimit limit)) :
    (step m).left (p, h) = (p, h) ∧ h.limitReached p = some limit := by
  obtain ⟨after, hr⟩ := Action.exists_of_result_error hr
  rw [Action.left_of_error hr]
  cases stepsTo_of_eq hr with
  | limited hlimit => exact ⟨rfl, hlimit⟩
  | failed _ hrun hstep =>
    obtain ⟨failure, hfailure⟩ := Processor.failure_of_step_error hp.holds hrun hstep
    cases hfailure
  | refused _ _ _ _ _ _ hserve => exact (isServiceError_of_serve hserve).elim

/-- A step that fails for another reason finds the processor stopped or stops it. -/
theorem left_of_failure {e : Error} (hr : (step m).result (p, h) = .error e)
    (he : ∀ limit, e ≠ .stepLimit limit) :
    (p.state = .running ∧ ((step m).left (p, h)).1.state = .faulted (.ofError e)) ∨
      (e = .notRunning p.state.text ∧ p.state ≠ .running ∧ (step m).left (p, h) = (p, h)) := by
  obtain ⟨after, hr⟩ := Action.exists_of_result_error hr
  rw [Action.left_of_error hr]
  cases stepsTo_of_eq hr with
  | limited => exact absurd rfl (he _)
  | stopped _ hstop => exact .inr ⟨rfl, hstop, rfl⟩
  | failed _ hrun => exact .inl ⟨hrun, rfl⟩
  | refused _ hrun => exact .inl ⟨hrun, rfl⟩

/-- A step of a processor that has stopped changes nothing and says so. -/
theorem step_of_stopped (hstop : p.state ≠ .running) (h : Host) :
    (step m).left (p, h) = (p, h) ∧
      ((∃ limit, (step m).result (p, h) = .error (.stepLimit limit)) ∨
        (step m).result (p, h) = .error (.notRunning p.state.text)) := by
  cases hr : step m (p, h) with
  | ok outcome after =>
    cases stepsTo_of_eq hr with
    | quiet _ hrun => exact absurd hrun hstop
    | halted _ hrun => exact absurd hrun hstop
    | served _ hrun => exact absurd hrun hstop
  | error e after =>
    rw [Action.left_of_error hr, Action.result_of_error hr]
    cases stepsTo_of_eq hr with
    | limited => exact ⟨rfl, .inl ⟨_, rfl⟩⟩
    | stopped => exact ⟨rfl, .inr rfl⟩
    | failed _ hrun => exact absurd hrun hstop
    | refused _ hrun => exact absurd hrun hstop

/-! ## Any number of steps -/

/-- A host starts a processor with an empty value stack. -/
theorem running_of_start {symbol : Option String} (hstart : start m symbol h = .ok p g) :
    p.Consistent m ∧ p.steps = 0 ∧ p.state = .running ∧
      g = { h with stack := h.stack.clear } := by
  obtain ⟨position, u, hentry, hrest⟩ := Action.bind_eq_ok_iff.1 hstart
  obtain ⟨⟨⟩, v, hclear, hprocessor⟩ := Action.bind_eq_ok_iff.1 hrest
  obtain ⟨-, rfl⟩ := Action.ofExcept_eq_ok_iff.1 hentry
  obtain ⟨hp, rfl⟩ := Action.ofExcept_eq_ok_iff.1 hprocessor
  cases hclear
  obtain ⟨hconsistent, hsteps⟩ := Processor.consistent_start hp
  obtain ⟨pc, -, rfl⟩ := Processor.start_cases hp
  exact ⟨hconsistent, hsteps, rfl, rfl⟩

/-- The calls of `step` on a processor since it was `p`, with the processor and the host that each
of them found, and the processor that they leave. The host may have changed in between, for other
processors can be stepped on it. -/
inductive Calls (m : Module) (p : Processor) : List (Processor × Host) → Processor → Prop where
  | start : Calls m p [] p
  | call {calls : List (Processor × Host)} {q : Processor} (h : Host) :
      Calls m p calls q → Calls m p (calls ++ [(q, h)]) ((step m).left (q, h)).1

def reportsHalt (m : Module) (call : Processor × Host) : Bool :=
  match (step m).result call with
  | .ok (some _) => true
  | _ => false

namespace Calls

variable {calls : List (Processor × Host)}

theorem consistent (hp : p.Consistent m) (hcalls : Calls m p calls q) :
    q.Consistent m ∧ ∀ call ∈ calls, call.1.Consistent m := by
  induction hcalls with
  | start => exact ⟨hp, by simp⟩
  | call h _ ih =>
    refine ⟨consistent_left ih.1 h, fun call hcall => ?_⟩
    rcases List.mem_append.1 hcall with hcall | hcall
    · exact ih.2 call hcall
    · rw [List.mem_singleton.1 hcall]
      exact ih.1

/-- A processor has halted if a call said so, and no two calls do. -/
theorem countP_reportsHalt (hp : p.state = .running) (hcalls : Calls m p calls q) :
    calls.countP (reportsHalt m) = if q.state = .halted then 1 else 0 := by
  induction hcalls with
  | start => simp [hp]
  | @call calls q h _ ih =>
    rw [List.countP_append, ih, List.countP_singleton, reportsHalt]
    cases hr : step m (q, h) with
    | ok outcome after =>
      rw [Action.result_of_ok hr, Action.left_of_ok hr]
      cases stepsTo_of_eq hr with
      | quiet _ hrun hdone hcall =>
        have hafter := Opcode.after_eq_running (hcall ▸ Option.some_ne_none _).symm
        simp [hrun, hdone.state_eq, hafter]
      | halted _ hrun hdone => simp [hrun, hdone.state_eq, Opcode.after]
      | served _ hrun hdone hopcode hcall =>
        have hafter := Opcode.after_eq_running (hopcode ▸ mt Option.some.inj hcall)
        simp [hrun, hdone.state_eq, hafter]
    | error e after =>
      rw [Action.result_of_error hr, Action.left_of_error hr]
      cases stepsTo_of_eq hr with
      | limited => simp
      | stopped => simp
      | failed _ hrun => simp [hrun, Processor.fault]
      | refused _ hrun => simp [hrun, Processor.fault]

/-- The calls after one of them are calls on the processor that it left. -/
theorem drop_call {before after : List (Processor × Host)} {c : Processor × Host}
    (hcalls : Calls m p (before ++ c :: after) q) : Calls m ((step m).left c).1 after q := by
  generalize hall : before ++ c :: after = all at hcalls
  induction hcalls generalizing after with
  | start => simp at hall
  | @call calls q h hcalls ih =>
    rcases List.eq_nil_or_concat after with rfl | ⟨after, last, rfl⟩
    · obtain ⟨-, hlast⟩ := List.append_inj' hall rfl
      cases hlast
      exact .start
    · rw [List.concat_eq_append, ← List.cons_append, ← List.append_assoc] at hall
      obtain ⟨hbefore, hlast⟩ := List.append_inj' hall rfl
      cases hlast
      rw [List.concat_eq_append]
      exact (ih hbefore).call h

/-- Calls on a processor that has stopped all find it as it was. -/
theorem eq_of_stopped (hstop : p.state ≠ .running) (hcalls : Calls m p calls q) :
    q = p ∧ ∀ c ∈ calls, c.1 = p := by
  induction hcalls with
  | start => simp
  | @call calls q h _ ih =>
    obtain ⟨rfl, hcalls⟩ := ih
    refine ⟨congrArg Prod.fst (step_of_stopped hstop h).1, fun c hc => ?_⟩
    rcases List.mem_append.1 hc with hc | hc
    · exact hcalls c hc
    · rw [List.mem_singleton.1 hc]

end Calls

/-- However often a host steps a processor that it started, and whatever it does in between, at
most one call says where the processor halted: the call that completed an instruction to exit, and
it gives the program counter and the number of steps. A call that fails stops the processor for the
kind of its error, unless it had stopped before or has made all its steps, and from then on no call
changes the processor, the value stack or the output. -/
theorem calls_stop_once {symbol : Option String} {h₀ h₁ : Host} {calls : List (Processor × Host)}
    (hstart : start m symbol h₀ = .ok p h₁) (hcalls : Calls m p calls q) :
    calls.countP (reportsHalt m) ≤ 1 ∧
    (∀ c ∈ calls,
      (∀ outcome, (step m).result c = .ok (some outcome) ↔
        Processor.Completes m .exit c.1 ((step m).left c).1 ∧
          outcome = ⟨((step m).left c).1.pc, ((step m).left c).1.steps⟩) ∧
      (∀ limit, (step m).result c = .error (.stepLimit limit) → (step m).left c = c) ∧
      ∀ e, (step m).result c = .error e → (∀ limit, e ≠ .stepLimit limit) →
        (c.1.state = .running ∧ ((step m).left c).1.state = .faulted (.ofError e)) ∨
          (e = .notRunning c.1.state.text ∧ c.1.state ≠ .running ∧ (step m).left c = c)) ∧
    ∀ before c after, calls = before ++ c :: after → ((step m).left c).1.state ≠ .running →
      ∀ c' ∈ after, c'.1 = ((step m).left c).1 ∧ (step m).left c' = c' ∧
        ((∃ limit, (step m).result c' = .error (.stepLimit limit)) ∨
          (step m).result c' = .error (.notRunning c'.1.state.text)) := by
  obtain ⟨hp, -, hrun, -⟩ := running_of_start hstart
  refine ⟨?_, fun c hc => ⟨fun outcome => result_eq_outcome_iff, ?_, ?_⟩, ?_⟩
  · rw [hcalls.countP_reportsHalt hrun]
    split <;> omega
  · intro limit hr
    exact (left_of_stepLimit ((hcalls.consistent hp).2 c hc) hr).1
  · intro e hr he
    exact left_of_failure hr he
  · rintro before c after rfl hstop c' hc'
    have hsame : c'.1 = ((step m).left c).1 := (hcalls.drop_call.eq_of_stopped hstop).2 c' hc'
    have hstep := step_of_stopped (m := m) (hsame ▸ hstop : c'.1.state ≠ .running) c'.2
    exact ⟨hsame, hstep⟩

/-- A program that prints a letter, with an exit in front of its beginning. -/
def letter : Module :=
  { properties := []
    exports := [⟨"main", "1"⟩]
    code := ⟨[], #[0x00, 0x40, 0x41, 0x13, 0x00], .one, Table.width_nil, by decide⟩
    data := ⟨[], #[], .one, Table.width_nil, Page.size_empty_le .one⟩ }

def ready : Processor :=
  { pc := ⟨1, .one, 6, by decide, by decide⟩, state := .running, steps := 0, last := none }

def desk : Host :=
  create 16 none {}

/-- The first step of one processor, and then that of another on the same host. -/
def firstSteps : (Processor × Host) × (Processor × Host) :=
  let mine := (step letter).left (ready, desk)
  (mine, (step letter).left (ready, mine.2))

/-- The calls on the first processor, all but one after the step of the second. -/
def sharedCalls : List (Processor × Host) :=
  let print := (firstSteps.1.1, firstSteps.2.2)
  let exit := (step letter).left print
  [(ready, desk), print, exit, (step letter).left exit]

/-- Of two processors on one host the first prints a letter, halts and is stepped once more. -/
theorem calls_stop_once_letter :
    start letter (some "main") desk = .ok ready desk ∧
      (∃ q, Calls letter ready sharedCalls q) ∧
      sharedCalls.map (reportsHalt letter) = [false, false, true, false] ∧
      sharedCalls.countP (reportsHalt letter) ≤ 1 ∧
      ∃ c ∈ sharedCalls, c.1.state = .halted ∧ c.2.output.written = [0x41] ∧
        (step letter).left c = c := by
  have hstart : start letter (some "main") desk = .ok ready desk := rfl
  have hcalls : Calls letter ready sharedCalls _ :=
    (((Calls.start.call desk).call firstSteps.2.2).call _).call _
  obtain ⟨hcount, -, hstop⟩ := calls_stop_once hstart hcalls
  have hlast := hstop (sharedCalls.take 2) _ _ rfl (by decide) _ (.head _)
  exact ⟨hstart, ⟨_, hcalls⟩, by decide, hcount, _, .tail _ (.tail _ (.tail _ (.head _))),
    by decide, by decide, hlast.2.1⟩

end Host

end ByteMachine
