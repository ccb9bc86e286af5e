import ByteMachine.Proofs.StepLimits

/-!
Programs without jumps. An instruction that is completed moves the program counter on, through its
prefixes, its opcode and its operand, so no more instructions are completed than the code has bytes.
Behind the last byte there is nothing to execute, and so every run comes to an end.
-/
namespace ByteMachine

variable {m : Module}

theorem Instruction.code_mem_encode (i : Instruction) : i.opcode.code ∈ i.encode := by
  simp [encode]

namespace Processor

variable {p q r : Processor} {s t : ValueStack}

/-! ## A step -/

/-- An instruction that was executed is not a jump if no byte of the code is. -/
theorem Executed.opcode_ne_jump {origin pc : Address} {i : Instruction}
    (hfree : Opcode.jump.code ∉ m.code.contents) (h : Executed m origin i pc) :
    i.opcode ≠ .jump := by
  intro hjump
  have hcode := i.code_mem_encode
  rw [hjump] at hcode
  exact hfree (List.mem_of_mem_drop (h.stands.subset hcode))

/-- Anything but a jump leads on. -/
theorem Executed.value_lt {origin pc : Address} {i : Instruction} (h : Executed m origin i pc)
    (hjump : i.opcode ≠ .jump) : origin.value < pc.value := by
  have hlength : 0 < i.encode.length := List.length_pos_of_mem i.code_mem_encode
  rw [h.pc_eq, if_neg hjump]
  exact Nat.lt_add_of_pos_right hlength

theorem completes_of_step_ok {call : Option Syscall} (h : step m (p, s) = .ok call (q, t)) :
    ∃ opcode, Completes m opcode p q := by
  rcases step_of_running (m := m) (s := s) (running_of_step_ok h) with
    ⟨opcode, q', t', hdone, hstep⟩ | ⟨e, t', hstep⟩
  · rw [hstep] at h
    cases h
    exact ⟨opcode, hdone⟩
  · rw [hstep] at h
    cases h

/-- A step that succeeds moves the program counter on. -/
theorem Consistent.value_lt_of_step (hfree : Opcode.jump.code ∉ m.code.contents)
    (hp : p.Consistent m) {call : Option Syscall} (h : step m (p, s) = .ok call (q, t)) :
    p.pc.value < q.pc.value := by
  have hq := (hp.step_ok h).1
  obtain ⟨opcode, d, next, -, -, rfl⟩ := completes_of_step_ok h
  have hexecuted := hq.executed p.pc d.instruction rfl
  exact hexecuted.value_lt (hexecuted.opcode_ne_jump hfree)

/-! ## Any number of steps -/

/-- The program counter has passed at least one byte for each step that succeeded, whatever else
was done with the processor. -/
theorem History.value_le (hfree : Opcode.jump.code ∉ m.code.contents) (hp : p.Consistent m)
    (hsteps : p.steps = 0) {n : Nat} (h : History m p n q) : p.pc.value + n ≤ q.pc.value := by
  induction h with
  | start => exact Nat.le_refl _
  | completed hhistory hstep ih =>
    have hlt := (hhistory.consistent hp hsteps).1.value_lt_of_step hfree hstep
    omega
  | failed _ hstep ih => rwa [(step_error_eq hstep).1]
  | faulted e _ ih => exact ih

/-- So many steps succeed one after the other, and then the processor has halted or the next step
faults it. -/
inductive Stops {β α : Type} (step : Action (Processor × β) α) : Nat → Processor × β → Prop where
  | halted {x : Processor × β} (hstate : x.1.state = .halted) : Stops step 0 x
  | faulted {x y : Processor × β} {e : Error} (hstep : step x = .error e y)
      (hstate : y.1.state = .faulted (.ofError e)) : Stops step 0 x
  | next {n : Nat} {x y : Processor × β} {a : α} (hstep : step x = .ok a y)
      (hstops : Stops step n y) : Stops step (n + 1) x

/-- The ends of a step that moves a processor on in the code or faults it. What comes with the
processor keeps some property. -/
inductive Advances {β α : Type} (m : Module) (Good : β → Prop) (x : Processor × β) :
    EStateM.Result Error (Processor × β) α → Prop where
  | on {y : Processor × β} {a : α} (hy : y.1.Consistent m) (hgood : Good y.2)
      (hlt : x.1.pc.value < y.1.pc.value)
      (hstate : y.1.state = .running ∨ y.1.state = .halted) : Advances m Good x (.ok a y)
  | faulted {y : Processor × β} {e : Error} (hstate : y.1.state = .faulted (.ofError e)) :
      Advances m Good x (.error e y)

/-- A processor that runs comes to a stop before it has left the code. The induction is on the
number of bytes that are still before it. -/
theorem exists_stops {β α : Type} {step : Action (Processor × β) α} {Good : β → Prop}
    (hadvances : ∀ x : Processor × β, x.1.Consistent m → Good x.2 → x.1.state = .running →
      Advances m Good x (step x))
    {x : Processor × β} (hx : x.1.Consistent m) (hgood : Good x.2) (hrun : x.1.state = .running) :
    ∃ n, x.1.pc.value + n ≤ m.code.length ∧ Stops step n x := by
  induction hleft : m.code.length - x.1.pc.value using Nat.strongRecOn generalizing x with
  | ind left ih =>
    have hend := hadvances x hx hgood hrun
    generalize hstep : step x = r at hend
    cases hend with
    | faulted hstate => exact ⟨0, hx.holds.value_le, .faulted hstep hstate⟩
    | on hy hgood hlt hstate =>
      have hle := hy.holds.value_le
      rcases hstate with hrun | hhalted
      · obtain ⟨n, hn, hstops⟩ := ih _ (by omega) hy hgood hrun rfl
        exact ⟨n + 1, by omega, .next hstep hstops⟩
      · exact ⟨1, by omega, .next hstep (.halted hhalted)⟩

theorem Completes.state_cases {opcode : Opcode} (h : Completes m opcode p q) :
    q.state = .running ∨ q.state = .halted := by
  rw [h.state_eq]
  by_cases hhalt : opcode.syscall = some .halt
  · rw [Opcode.eq_exit_of_halt hhalt]
    exact .inr rfl
  · exact .inl (Opcode.after_eq_running hhalt)

theorem Consistent.advances (hfree : Opcode.jump.code ∉ m.code.contents) (hp : p.Consistent m)
    (hrun : p.state = .running) (s : ValueStack) :
    Advances m (fun _ => True) (p, s) (step m (p, s)) := by
  rcases step_of_running (m := m) (s := s) hrun with ⟨opcode, q, t, hdone, hstep⟩ | ⟨e, t, hstep⟩
  · rw [hstep]
    exact .on (hp.step_ok hstep).1 trivial (hp.value_lt_of_step hfree hstep) hdone.state_cases
  · rw [hstep]
    exact .faulted rfl

end Processor

/-! ## Runs -/

namespace Host

section

variable {s t : Processor × Host} {n : Nat}

/-- A step of a host that succeeds is one of the processor. -/
theorem exists_step_of_ok {outcome : Option Outcome} (h : step m s = .ok outcome t) :
    ∃ call stack, Processor.step m (s.1, s.2.stack) = .ok call (t.1, stack) := by
  cases stepsTo_of_eq h with
  | quiet _ _ _ _ hstep => exact ⟨_, _, hstep⟩
  | halted _ _ _ hstep => exact ⟨_, _, hstep⟩
  | served _ _ _ _ _ hstep => exact ⟨_, _, hstep⟩

theorem value_lt_of_ok (hfree : Opcode.jump.code ∉ m.code.contents) (hs : s.1.Consistent m)
    {outcome : Option Outcome} (h : step m s = .ok outcome t) :
    s.1.pc.value < t.1.pc.value ∧ t.1.pc.value ≤ m.code.length := by
  obtain ⟨call, stack, hstep⟩ := exists_step_of_ok h
  exact ⟨hs.value_lt_of_step hfree hstep, (hs.step_ok hstep).1.holds.value_le⟩

/-- Without a limit only a fault keeps a step from succeeding. -/
theorem advances (hfree : Opcode.jump.code ∉ m.code.contents) (hs : s.1.Consistent m)
    (hlimit : s.2.stepLimit = none) (hrun : s.1.state = .running) :
    Processor.Advances m (fun h => h.stepLimit = none) s (step m s) := by
  cases hstep : step m s with
  | ok outcome t =>
    obtain ⟨call, stack, hok⟩ := exists_step_of_ok hstep
    have hlimit' : t.2.stepLimit = none := by
      rw [← Action.left_of_ok hstep, (extends_step m s).stepLimit_eq, hlimit]
    refine .on (hs.step_ok hok).1 hlimit' (hs.value_lt_of_step hfree hok) ?_
    cases stepsTo_of_eq hstep with
    | quiet _ _ hdone => exact hdone.state_cases
    | halted _ _ hdone => exact hdone.state_cases
    | served _ _ hdone => exact hdone.state_cases
  | error e t =>
    cases stepsTo_of_eq hstep with
    | limited hreached =>
      rw [(limitReached_eq_some hreached).1] at hlimit
      cases hlimit
    | stopped _ hstop => exact absurd hrun hstop
    | failed => exact .faulted rfl
    | refused => exact .faulted rfl

theorem value_le_of_repeats (hfree : Opcode.jump.code ∉ m.code.contents) (hs : s.1.Consistent m)
    (h : Action.Repeats (step m) s n t) : s.1.pc.value + n ≤ t.1.pc.value := by
  induction h with
  | start => exact Nat.le_refl _
  | next hprev hstep ih =>
    have hlt := (value_lt_of_ok hfree ((of_repeats hprev).2.2 hs) hstep).1
    omega

/-- The steps of a host come to an end before the program has left the code. -/
theorem exists_ends_of_free (hfree : Opcode.jump.code ∉ m.code.contents)
    (hs : s.1.Consistent m) :
    ∃ n r, s.1.pc.value + n ≤ m.code.length ∧ Action.Ends (step m) s n r := by
  have hstart := hs.holds.value_le
  rcases Action.repeats_or_ends (step m) s (m.code.length - s.1.pc.value + 1) with
    ⟨t, hrepeats⟩ | ⟨n, r, hn, hends⟩
  · have hle := value_le_of_repeats hfree hs hrepeats
    have hlast := ((of_repeats hrepeats).2.2 hs).holds.value_le
    omega
  · exact ⟨n, r, by omega, hends⟩

/-- A processor that halts has completed one more instruction than before its last step. -/
theorem steps_of_ends {outcome : Outcome} (hsteps : s.1.steps = 0)
    (h : Action.Ends (step m) s n (.ok (some outcome) t)) : outcome.steps = n + 1 := by
  obtain ⟨-, u, hrepeats, hstep⟩ := h
  cases stepsTo_of_eq hstep with
  | halted _ _ hdone =>
    rw [hdone.steps_eq, (of_repeats hrepeats).1, hsteps, Nat.zero_add]

/-- The last step has moved the program counter on, too. -/
theorem steps_le_of_ends (hfree : Opcode.jump.code ∉ m.code.contents) (hs : s.1.Consistent m)
    (hsteps : s.1.steps = 0) {outcome : Outcome}
    (h : Action.Ends (step m) s n (.ok (some outcome) t)) : outcome.steps ≤ m.code.length := by
  rw [steps_of_ends hsteps h]
  obtain ⟨-, u, hrepeats, hstep⟩ := h
  have hle := value_le_of_repeats hfree hs hrepeats
  have hlast := value_lt_of_ok hfree ((of_repeats hrepeats).2.2 hs) hstep
  omega

end

/-- No run that ends within the code is given up. -/
theorem lt_patience {p : Processor} {g : Host} {n : Nat}
    {r : EStateM.Result Error (Processor × Host) (Option Outcome)} (hsteps : p.steps = 0)
    (h : Action.Ends (step m) (p, g) n r) (hn : n ≤ m.code.length) : n < g.patience := by
  obtain ⟨-, t, hrepeats, -⟩ := h
  unfold patience
  cases hlimit : g.stepLimit with
  | none =>
    have hlength := m.code.length_le
    have hword : m.code.width.maxValue < Numeral.wordLimit := by
      cases m.code.width <;> decide
    rw [Option.getD_none]
    omega
  | some limit =>
    rw [Option.getD_some]
    exact Nat.lt_succ_of_le (le_of_repeats hsteps hlimit hrepeats)

/-- If no byte of the code is that of a jump, each step that succeeds moves the program counter on,
whatever the host does in between, and from its entry on a processor succeeds with no more steps
than there are bytes before it has halted or is faulted, by itself or on a host without a limit. A
run of such a program always comes to an end, and if it halts, it has completed no more
instructions than the code has bytes. -/
theorem jump_free_runs_end (hfree : 0x20 ∉ m.code.contents) :
    (∀ entry p, Processor.start m entry = .ok p →
      (∀ n q, Processor.History m p n q →
        entry + n ≤ q.pc.value ∧ q.pc.value ≤ m.code.length ∧
        ∀ s call r t, Processor.step m (q, s) = .ok call (r, t) → q.pc.value < r.pc.value) ∧
      (∀ s, ∃ n, entry + n ≤ m.code.length ∧ Processor.Stops (Processor.step m) n (p, s)) ∧
      ∀ h : Host, h.stepLimit = none →
        ∃ n, entry + n ≤ m.code.length ∧ Processor.Stops (step m) n (p, h)) ∧
    ∀ (symbol : Option String) (h : Host),
      (∀ p g, start m symbol h = .ok p g →
        ∃ n r, p.pc.value + n ≤ m.code.length ∧ Action.Ends (step m) (p, g) n r ∧
          run m symbol h = Action.seen Prod.snd r) ∧
      (run m symbol).result h ≠ .ok none ∧
      ∀ outcome, (run m symbol).result h = .ok (some outcome) →
        outcome.steps ≤ m.code.length := by
  replace hfree : Opcode.jump.code ∉ m.code.contents := hfree
  constructor
  · intro entry p hstart
    obtain ⟨hp, hsteps⟩ := Processor.consistent_start hstart
    obtain ⟨pc, hpc, rfl⟩ := Processor.start_cases hstart
    obtain ⟨-, rfl⟩ := CodePage.holds_of_programCounter hpc
    refine ⟨fun n q hhistory => ?_, fun s => ?_, fun h hlimit => ?_⟩
    · have hq := (hhistory.consistent hp hsteps).1
      exact ⟨hhistory.value_le hfree hp hsteps, hq.holds.value_le,
        fun s call r t => hq.value_lt_of_step hfree⟩
    · exact Processor.exists_stops (fun x hx _ hrun => hx.advances hfree hrun x.2)
        (x := (_, s)) hp trivial rfl
    · exact Processor.exists_stops (fun x hx hlimit hrun => advances hfree hx hlimit hrun)
        (x := (_, h)) hp hlimit rfl
  · intro symbol h
    cases hstart : start m symbol h with
    | error e g =>
      rw [Action.result_of_error (run_of_start_error hstart)]
      exact ⟨fun _ _ hok => (nomatch hok), nofun, nofun⟩
    | ok p g =>
      obtain ⟨hp, hsteps, -⟩ := running_of_start hstart
      obtain ⟨n, r, hn, hends⟩ := exists_ends_of_free (s := (p, g)) hfree hp
      have hrun := run_of_ends hstart hends (lt_patience hsteps hends (by omega))
      refine ⟨?_, ?_, ?_⟩
      · rintro p' g' ⟨⟩
        exact ⟨n, r, hn, hends, hrun⟩
      · intro hnone
        obtain ⟨k, hk⟩ := Action.exists_of_result_ok hnone
        rw [hrun] at hk
        cases r with
        | ok outcome t =>
          cases hk
          exact hends.1 t rfl
        | error e t => cases hk
      · intro outcome hok
        obtain ⟨k, hk⟩ := Action.exists_of_result_ok hok
        rw [hrun] at hk
        cases r with
        | ok found t =>
          cases hk
          exact steps_le_of_ends hfree hp hsteps hends
        | error e t => cases hk

/-- The program that prints a letter halts within its five bytes. -/
theorem jump_free_runs_end_letter :
    0x20 ∉ letter.code.contents ∧ Processor.start letter 1 = .ok ready ∧
      desk.stepLimit = none ∧
      (∃ n, 1 + n ≤ 5 ∧ Processor.Stops (step letter) n (ready, desk)) ∧
      ∃ outcome, (run letter (some "main")).result desk = .ok (some outcome) ∧
        outcome.steps ≤ 5 := by
  have hfree : 0x20 ∉ letter.code.contents := by decide
  have hstart : Processor.start letter 1 = .ok ready := rfl
  obtain ⟨hsteps, hruns⟩ := jump_free_runs_end hfree
  obtain ⟨-, -, hstops⟩ := hsteps 1 ready hstart
  obtain ⟨-, -, hcount⟩ := hruns (some "main") desk
  refine ⟨hfree, hstart, rfl, hstops desk rfl, ?_⟩
  have hrun : (run letter (some "main")).result desk =
      .ok (some ⟨⟨5, .one, 6, by decide, by decide⟩, 3⟩) := by decide +kernel
  exact ⟨_, hrun, hcount _ hrun⟩

end Host

end ByteMachine
