import ByteMachine.Proofs.History
import ByteMachine.Proofs.StackOperations

/-!
What an instruction that fails leaves of the value stack. Each operation of the stack is done in
full or not at all, so an instruction that uses one of them changes nothing where it fails. Only a
word is pushed by two operations, and where there is room for one byte of it that byte stays.
-/
namespace ByteMachine

/-! ## All or nothing -/

namespace Action

variable {σ α β : Type}

/-- Where the action fails, it leaves the state as it was. -/
def AllOrNothing (x : Action σ α) : Prop :=
  ∀ s e t, x s = .error e t → t = s

theorem allOrNothing_pure (a : α) : AllOrNothing (pure a : Action σ α) := by
  intro s e t h
  cases h

theorem allOrNothing_ofExcept (r : Except Error α) : AllOrNothing (ofExcept r : Action σ α) := by
  intro s e t h
  exact (ofExcept_eq_error_iff.1 h).2

theorem AllOrNothing.ofExcept_bind {r : Except Error α} {f : α → Action σ β}
    (hf : ∀ a, AllOrNothing (f a)) : AllOrNothing (ofExcept r >>= f) := by
  intro s e t h
  rcases bind_eq_error_iff.1 h with hr | ⟨a, u, hr, ha⟩
  · exact allOrNothing_ofExcept r s e t hr
  · obtain ⟨-, rfl⟩ := ofExcept_eq_ok_iff.1 hr
    exact hf a _ e t ha

/-- What comes after the last change cannot fail any more. -/
theorem AllOrNothing.bind_pure {x : Action σ α} (hx : AllOrNothing x) (g : α → β) :
    AllOrNothing (x >>= fun a => pure (g a)) := by
  intro s e t h
  rcases bind_eq_error_iff.1 h with hfailed | ⟨a, u, -, ha⟩
  · exact hx s e t hfailed
  · cases ha

end Action

open ByteMachine.Action

namespace ValueStack

theorem allOrNothing_pushBytes (bytes : List UInt8) : AllOrNothing (pushBytes bytes) :=
  fun _ _ _ h => (pushBytes_eq_error_iff.1 h).2.2

theorem allOrNothing_pushText (text : String) : AllOrNothing (pushText text) :=
  fun _ _ _ h => (pushText_eq_error h).2.2

theorem allOrNothing_popByte : AllOrNothing popByte :=
  fun _ _ _ h => (popByte_eq_error_iff.1 h).2.2

/-! ## Words -/

/-- The second byte of a word does not fit behind the first one. -/
theorem pushWord_of_room {s : ValueStack} (h : s.room = 1) (low high : UInt8) :
    ∃ cause, [low, high].forM pushByte s = .error (.overflow cause) ⟨low :: s.items, 0⟩ := by
  obtain ⟨items, room⟩ := s
  subst h
  exact ⟨_, rfl⟩

/-- With any other room a word is pushed in full or not at all. -/
theorem eq_of_pushWord_error {s t : ValueStack} (h : s.room ≠ 1) {low high : UInt8} {e : Error}
    (hpush : [low, high].forM pushByte s = .error e t) : t = s := by
  obtain ⟨items, room⟩ := s
  match room, h with
  | 0, _ =>
    cases hpush
    rfl
  | room + 2, _ => cases hpush

end ValueStack

/-! ## Instructions -/

namespace Module

variable {m : Module} {d : Decoded}

/-- Whatever does not push a word is done in full or not at all. -/
theorem allOrNothing_perform (h : d.instruction.opcode ≠ .pushWord) :
    AllOrNothing (m.perform d) := by
  unfold perform
  cases hop : d.instruction.opcode with
  | exit | outByte | kernelCall => exact allOrNothing_pure d.next
  | jump => exact .ofExcept_bind fun target => allOrNothing_ofExcept _
  | pushByte | pushDirect | pushIndirect =>
    exact .ofExcept_bind fun b => (ValueStack.allOrNothing_pushBytes [b]).bind_pure _
  | pushString =>
    apply AllOrNothing.ofExcept_bind
    intro address
    exact .ofExcept_bind fun text => (ValueStack.allOrNothing_pushText text).bind_pure _
  | pushWord => exact absurd hop h
  | popByte => exact ValueStack.allOrNothing_popByte.bind_pure _

/-- A word consists of the two bytes of the operand. -/
theorem perform_pushWord (hsound : d.Sound m) (hop : d.instruction.opcode = .pushWord) :
    ∃ low high, d.instruction.operand = [low, high] ∧
      m.perform d = ([low, high].forM ValueStack.pushByte >>= fun _ => pure d.next) := by
  have hlength : d.instruction.operand.length = 2 := by
    have hfit := hsound.size_le
    rw [hop] at hfit
    rw [hsound.operand_eq, hop]
    exact m.code.length_take_drop hfit
  obtain ⟨low, high, hbytes⟩ : ∃ low high, d.instruction.operand = [low, high] := by
    match d.instruction.operand, hlength with
    | [low, high], _ => exact ⟨low, high, rfl⟩
  refine ⟨low, high, hbytes, ?_⟩
  simp only [perform, hop, hsound.immediateWord_eq hop, hbytes]
  rfl

end Module

/-! ## Steps -/

namespace Processor

variable {m : Module} {p q r : Processor} {s t : ValueStack} {e : Error} {n entry : Nat}

/-- A step that fails does so before it touches the stack, or in performing an instruction. -/
theorem step_error_cases (h : step m (q, s) = .error e (r, t)) :
    t = s ∨ q.state = .running ∧ ∃ d, m.decode q.pc = .ok d ∧ m.perform d s = .error e t := by
  by_cases hrun : q.state = .running
  · simp only [step, hrun, ne_eq, not_true_eq_false, ↓reduceIte] at h
    split at h
    · cases h
    · next hexec =>
      cases h
      rcases bind_eq_error_iff.1 hexec with hdecode | ⟨d, u, hdecode, hrest⟩
      · exact .inl (allOrNothing_ofExcept _ _ _ _ hdecode)
      · obtain ⟨hd, rfl⟩ := ofExcept_eq_ok_iff.1 hdecode
        rcases bind_eq_error_iff.1 hrest with hperform | ⟨next, v, -, hdone⟩
        · exact .inr ⟨hrun, d, hd, hperform⟩
        · cases hdone
  · rw [step_of_stopped hrun] at h
    cases h
    exact .inl rfl

/-- The instruction at hand pushes a word, and there is room for one byte of it. -/
def HalfFits (m : Module) (q : Processor) (s : ValueStack) : Prop :=
  q.state = .running ∧ s.room = 1 ∧ ∃ d, m.decode q.pc = .ok d ∧ d.instruction.opcode = .pushWord

/-- However a processor came about, a step that fails leaves the value stack as it was unless the
instruction pushes a word and there is room for one byte of it. In that case the step does fail,
and the low byte of the word is left on the stack. -/
theorem failed_step_stack (hstart : start m entry = .ok p) (h : History m p n q)
    (s : ValueStack) :
    (¬ HalfFits m q s → ∀ e r t, step m (q, s) = .error e (r, t) → t = s) ∧
    (HalfFits m q s → ∃ d low high cause, m.decode q.pc = .ok d ∧
      d.instruction.operand = [low, high] ∧
      step m (q, s) = .error (.overflow cause) (q.fault (.overflow cause), ⟨low :: s.items, 0⟩)) := by
  obtain ⟨hp, hsteps⟩ := consistent_start hstart
  have hholds := (h.consistent hp hsteps).1.holds
  constructor
  · intro hfits e r t hstep
    rcases step_error_cases hstep with hsame | ⟨hrun, d, hd, hperform⟩
    · exact hsame
    · by_cases hop : d.instruction.opcode = .pushWord
      · obtain ⟨low, high, -, hword⟩ := Module.perform_pushWord (Module.sound_of_decode hholds hd) hop
        have hroom : s.room ≠ 1 := fun hroom => hfits ⟨hrun, hroom, d, hd, hop⟩
        rw [hword] at hperform
        rcases bind_eq_error_iff.1 hperform with hpush | ⟨_, _, -, hdone⟩
        · exact ValueStack.eq_of_pushWord_error hroom hpush
        · cases hdone
      · exact Module.allOrNothing_perform hop s e t hperform
  · rintro ⟨hrun, hroom, d, hd, hop⟩
    obtain ⟨low, high, hbytes, hword⟩ :=
      Module.perform_pushWord (Module.sound_of_decode hholds hd) hop
    obtain ⟨cause, hpush⟩ := ValueStack.pushWord_of_room hroom low high
    refine ⟨d, low, high, cause, hd, hbytes, ?_⟩
    have hexec : q.execute m s = .error (.overflow cause) ⟨low :: s.items, 0⟩ := by
      rw [execute, hd, bind_of_ok (ofExcept_ok _ _)]
      refine bind_of_error ?_
      rw [hword, bind_of_error hpush]
    simp only [step, hrun, ne_eq, not_true_eq_false, ↓reduceIte, hexec]

def wordModule : Module :=
  { properties := []
    exports := []
    code := ⟨[], #[0x44, 0x01, 0x02], .one, Table.width_nil, by decide⟩
    data := ⟨[], #[], .one, Table.width_nil, Page.size_empty_le .one⟩ }

theorem failed_step_stack_word :
    ∃ p, start wordModule 0 = .ok p ∧ History wordModule p 0 p ∧ HalfFits wordModule p (.empty 1) ∧
      ∃ e r, step wordModule (p, .empty 1) = .error e (r, ⟨[0x01], 0⟩) := by
  obtain ⟨p, hp, d, hd, hinstruction⟩ : ∃ p, start wordModule 0 = .ok p ∧
      ∃ d, wordModule.decode p.pc = .ok d ∧ d.instruction = ⟨[], .pushWord, [0x01, 0x02]⟩ ∧
        p.state = .running := ⟨_, rfl, _, rfl, rfl, rfl⟩
  have hfits : HalfFits wordModule p (.empty 1) :=
    ⟨hinstruction.2, rfl, d, hd, by rw [hinstruction.1]⟩
  obtain ⟨d', low, high, cause, hd', hbytes, hstep⟩ :=
    (failed_step_stack hp .start (.empty 1)).2 hfits
  rw [hd] at hd'
  cases hd'
  rw [hinstruction.1] at hbytes
  cases hbytes
  exact ⟨p, hp, .start, hfits, _, _, hstep⟩

/-- Not every step that fails leaves the value stack as it was. -/
theorem failed_step_changes_stack :
    ¬ ∀ (m : Module) (entry : Nat) (p : Processor), start m entry = .ok p →
      ∀ (n : Nat) (q : Processor), History m p n q →
        ∀ (s : ValueStack) (e : Error) (r : Processor) (t : ValueStack),
          step m (q, s) = .error e (r, t) → t = s := by
  intro h
  have hsame := h wordModule 0 _ rfl 0 _ .start (.empty 1) _ _ _ rfl
  cases hsame

end Processor

end ByteMachine
