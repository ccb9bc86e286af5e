import ByteMachine.Proofs.Exports
import ByteMachine.Proofs.StepLimits

/-!
Runs on one host. Whatever has run there before, a run clears the value stack before it executes
anything and adds to the output without looking at it. So it ends as on a new host that is set up in
the same way.
-/
namespace ByteMachine

/-! ## What a computation keeps -/

namespace Action

variable {σ τ α β : Type} {look : σ → τ}

/-- A computation keeps what this shows of the state, whether it fails or not. -/
def Keeps (look : σ → τ) (x : Action σ α) : Prop :=
  ∀ s, look (x.left s) = look s

namespace Keeps

theorem ofExcept (look : σ → τ) (r : Except Error α) : Keeps look (Action.ofExcept r) := by
  intro s
  cases r <;> rfl

theorem pure (look : σ → τ) (a : α) : Keeps look (pure a : Action σ α) :=
  .ofExcept look (.ok a)

theorem bind {x : Action σ α} {f : α → Action σ β} (hx : Keeps look x)
    (hf : ∀ a, Keeps look (f a)) : Keeps look (x >>= f) := by
  intro s
  have hfirst := hx s
  cases hr : x s with
  | ok a t =>
    rw [left_of_ok hr] at hfirst
    rw [left_bind_of_ok hr, hf a t, hfirst]
  | error e t =>
    rw [left_of_error hr] at hfirst
    rw [left_bind_of_error hr, hfirst]

theorem forM {f : β → Action σ PUnit} (hf : ∀ b, Keeps look (f b)) (items : List β) :
    Keeps look (items.forM f) := by
  induction items with
  | nil => exact .pure look _
  | cons b rest ih => exact (hf b).bind fun _ => ih

theorem untilSome {step : Action σ (Option α)} (hstep : Keeps look step) (n : Nat) :
    Keeps look (step.untilSome n) := by
  induction n with
  | zero => exact .pure look none
  | succ n ih =>
    refine hstep.bind fun found => ?_
    cases found with
    | none => exact ih
    | some a => exact .pure look (some a)

end Keeps

/-- Steps that mirror each other can be repeated. -/
theorem Mirrors.untilSome {view : σ → τ} {x : Action σ (Option α)} {y : Action τ (Option α)}
    (h : Mirrors view x y) (n : Nat) : Mirrors view (x.untilSome n) (y.untilSome n) := by
  induction n with
  | zero => exact .ofExcept view (.ok none)
  | succ n ih =>
    refine h.bind fun found => ?_
    cases found with
    | none => exact ih
    | some a => exact .ofExcept view (.ok (some a))

end Action

/-! ## The capacity of the value stack -/

namespace ValueStack

theorem capacity_empty (capacity : Nat) : (empty capacity).capacity = capacity := by
  simp [ValueStack.capacity, length, empty]

theorem keeps_capacity {α : Type} {x : Action ValueStack α}
    (hok : ∀ {s a t}, x s = .ok a t → t.capacity = s.capacity)
    (herror : ∀ {s e t}, x s = .error e t → t = s) : Action.Keeps capacity x := by
  intro s
  cases hr : x s with
  | ok a t => rw [Action.left_of_ok hr, hok hr]
  | error e t => rw [Action.left_of_error hr, herror hr]

theorem keeps_pushBytes (bytes : List UInt8) : Action.Keeps capacity (pushBytes bytes) :=
  keeps_capacity (fun h => (pushBytes_eq_ok_iff.1 h).2) fun h => (pushBytes_eq_error_iff.1 h).2.2

theorem keeps_pushText (text : String) : Action.Keeps capacity (pushText text) :=
  keeps_capacity (fun h => (pushText_eq_ok_iff.1 h).2.2) fun h => (pushText_eq_error h).2.2

theorem keeps_popByte : Action.Keeps capacity popByte :=
  keeps_capacity (fun h => (popByte_eq_ok_iff.1 h).2) fun h => (popByte_eq_error_iff.1 h).2.2

theorem keeps_popText : Action.Keeps capacity popText :=
  keeps_capacity (fun h => (popText_eq_ok_iff.1 h).2.2) fun h => (popText_eq_error_iff.1 h).2

end ValueStack

section

variable (m : Module)

/-- No instruction changes how much fits on the stack, whether it fails or not. -/
theorem Module.keeps_perform (d : Decoded) : Action.Keeps ValueStack.capacity (m.perform d) := by
  unfold Module.perform
  cases d.instruction.opcode with
  | exit | outByte | kernelCall => exact .pure _ _
  | jump => exact (Action.Keeps.ofExcept _ _).bind fun _ => .ofExcept _ _
  | pushByte | pushDirect | pushIndirect =>
    exact (Action.Keeps.ofExcept _ _).bind fun b =>
      (ValueStack.keeps_pushBytes [b]).bind fun _ => .pure _ _
  | pushWord =>
    exact (Action.Keeps.ofExcept _ _).bind fun bytes =>
      (Action.Keeps.forM (fun b => ValueStack.keeps_pushBytes [b]) bytes).bind fun _ => .pure _ _
  | pushString =>
    exact (Action.Keeps.ofExcept _ _).bind fun _ => (Action.Keeps.ofExcept _ _).bind fun text =>
      (ValueStack.keeps_pushText text).bind fun _ => .pure _ _
  | popByte => exact ValueStack.keeps_popByte.bind fun _ => .pure _ _

theorem Processor.keeps_execute (p : Processor) :
    Action.Keeps ValueStack.capacity (p.execute m) :=
  (Action.Keeps.ofExcept _ _).bind fun d => (m.keeps_perform d).bind fun _ => .pure _ _

theorem Processor.keeps_step :
    Action.Keeps (fun s : Processor × ValueStack => s.2.capacity) (Processor.step m) := by
  rintro ⟨p, s⟩
  by_cases hrun : p.state = .running
  · have hexecute := p.keeps_execute m s
    simp only [Action.left, Processor.step, hrun, ne_eq, not_true_eq_false, ↓reduceIte]
      at hexecute ⊢
    cases hr : p.execute m s <;> simpa only [hr] using hexecute
  · rw [Action.left_of_error (Processor.step_of_stopped hrun)]

end

namespace Host

variable {m : Module} {symbol : Option String} {h : Host}

/-! ## What a host is set up with -/

/-- What a host is set up with, and whether its output is unlimited. -/
structure Setup where
  capacity : Nat
  stepLimit : Option Nat
  unlimited : Bool
  deriving DecidableEq

def setup (h : Host) : Setup :=
  ⟨h.stack.capacity, h.stepLimit, h.output.room.isNone⟩

theorem setup_withStack {stack : ValueStack} (hcapacity : stack.capacity = h.stack.capacity) :
    setup { h with stack } = setup h := by
  simp only [setup, hcapacity]

theorem keeps_onStack {α : Type} {action : Action ValueStack α}
    (haction : Action.Keeps ValueStack.capacity action) : Action.Keeps setup (onStack action) := by
  intro h
  have hcapacity := haction h.stack
  unfold Action.left at hcapacity ⊢
  unfold onStack
  cases hr : action h.stack <;> exact setup_withStack (by simpa only [hr] using hcapacity)

theorem keeps_print (bytes : List UInt8) : Action.Keeps setup (print bytes) := by
  rintro ⟨limit, stack, recent, room⟩
  cases room with
  | none => rfl
  | some room =>
    simp only [Action.left, print, Sink.write]
    by_cases hfit : bytes.length ≤ room
    · simp only [if_pos hfit, setup, Option.isNone_some]
    · simp only [if_neg hfit, setup, Option.isNone_some]

theorem keeps_serve (call : Syscall) : Action.Keeps setup (serve call) :=
  serve_induction (P := fun _ x => Action.Keeps setup x) (keeps_onStack ValueStack.keeps_popByte)
    (keeps_onStack ValueStack.keeps_popText) keeps_print (.ofExcept _ _) (fun _ => .ofExcept _ _)
    Action.Keeps.bind call

theorem keeps_clear :
    Action.Keeps ValueStack.capacity (modify ValueStack.clear : Action ValueStack PUnit) :=
  fun s => ValueStack.capacity_empty s.capacity

theorem keeps_start (m : Module) (symbol : Option String) :
    Action.Keeps setup (start m symbol) :=
  (Action.Keeps.ofExcept _ _).bind fun _ =>
    (keeps_onStack keeps_clear).bind fun _ => .ofExcept _ _

theorem keeps_step (m : Module) :
    Action.Keeps (fun s : Processor × Host => s.2.setup) (step m) := by
  rintro ⟨p, h⟩
  have hstack := Processor.keeps_step m (p, h.stack)
  have hserve (call : Syscall) (t : ValueStack) := keeps_serve call { h with stack := t }
  cases hr : step m (p, h) with
  | ok outcome after =>
    rw [Action.left_of_ok hr]
    cases stepsTo_of_eq hr with
    | quiet _ _ _ _ hstep | halted _ _ _ hstep =>
      rw [Action.left_of_ok hstep] at hstack
      exact setup_withStack hstack
    | served _ _ _ _ _ hstep hserved =>
      rw [Action.left_of_ok hstep] at hstack
      exact (Action.left_of_ok hserved ▸ hserve _ _).trans (setup_withStack hstack)
  | error e after =>
    rw [Action.left_of_error hr]
    cases stepsTo_of_eq hr with
    | limited => rfl
    | stopped => rfl
    | failed _ _ hstep =>
      rw [Action.left_of_error hstep] at hstack
      exact setup_withStack hstack
    | refused _ _ _ _ _ hstep hserved =>
      rw [Action.left_of_ok hstep] at hstack
      exact (Action.left_of_error hserved ▸ hserve _ _).trans (setup_withStack hstack)

theorem keeps_run (m : Module) (symbol : Option String) : Action.Keeps setup (run m symbol) := by
  intro h
  have hfirst := keeps_start m symbol h
  cases hstart : start m symbol h with
  | error e g =>
    rw [Action.left_of_error hstart] at hfirst
    rw [Action.left_of_error (run_of_start_error hstart), hfirst]
  | ok p g =>
    rw [Action.left_of_ok hstart] at hfirst
    rw [left_run hstart, ← hfirst]
    exact (keeps_step m).untilSome g.patience (p, g)

/-- A host that was set up with a capacity and a limit and without a limit on its output, and on
which modules have been run, started and stepped, with any processor. -/
inductive Used (capacity : Nat) (stepLimit : Option Nat) : Host → Prop where
  | fresh (recent : List UInt8) : Used capacity stepLimit (create capacity stepLimit { recent })
  | ran {h : Host} (m : Module) (symbol : Option String) :
      Used capacity stepLimit h → Used capacity stepLimit ((run m symbol).left h)
  | started {h : Host} (m : Module) (symbol : Option String) :
      Used capacity stepLimit h → Used capacity stepLimit ((start m symbol).left h)
  | stepped {h : Host} (m : Module) (p : Processor) :
      Used capacity stepLimit h → Used capacity stepLimit ((step m).left (p, h)).2

theorem Used.setup_eq {capacity : Nat} {stepLimit : Option Nat}
    (hused : Used capacity stepLimit h) : h.setup = ⟨capacity, stepLimit, true⟩ := by
  induction hused with
  | fresh recent => simp only [create, setup, ValueStack.capacity_empty, Option.isNone_none]
  | ran m symbol _ ih => rw [keeps_run m symbol, ih]
  | started m symbol _ ih => rw [keeps_start m symbol, ih]
  | stepped m p _ ih => exact (keeps_step m (p, _)).trans ih

/-! ## More output -/

def behind (before : List UInt8) (h : Host) : Host :=
  { h with output := { h.output with recent := h.output.recent ++ before.reverse } }

/-- What a host does for a program does not depend on what it has printed. -/
theorem unnoticed_behind (before : List UInt8) : Unnoticed (behind before) where
  stack_eq _ := rfl
  withStack_eq _ _ := rfl
  mirrors_print bytes := by
    rintro ⟨limit, stack, recent, room⟩
    cases room with
    | none => simp [print, behind, Sink.write, List.reverseAux_eq, Action.seen]
    | some room =>
      by_cases hfit : bytes.length ≤ room <;>
        simp [print, behind, Sink.write, List.reverseAux_eq, Action.seen, hfit]

theorem mirrors_step_behind (before : List UInt8) (m : Module) :
    Action.Mirrors (Prod.map id (behind before)) (step m) (step m) :=
  fun _ => (unnoticed_behind before).step_eq rfl

theorem mirrors_run_behind (before : List UInt8) (m : Module) (symbol : Option String) :
    Action.Mirrors (behind before) (run m symbol) (run m symbol) := by
  intro h
  unfold run
  rw [(unnoticed_behind before).mirrors_start m symbol h]
  cases start m symbol h with
  | error e g => rfl
  | ok p g =>
    have hsteps := (mirrors_step_behind before m).untilSome g.patience (p, g)
    have hpatience : (behind before g).patience = g.patience := rfl
    simp only [Action.seen, hpatience]
    rw [Prod.map, id] at hsteps
    rw [hsteps]
    cases (step m).untilSome g.patience (p, g) <;> rfl

/-! ## Runs -/

theorem start_of_entry_ok {position : Nat} (hentry : entry m symbol = .ok position) (h : Host) :
    start m symbol h =
      Action.ofExcept (Processor.start m position) { h with stack := h.stack.clear } := by
  simp only [start, hentry]
  rfl

/-- It makes no difference to a run if the value stack is cleared before. -/
theorem run_of_entry_ok {position : Nat} (hentry : entry m symbol = .ok position) (h : Host) :
    run m symbol { h with stack := .empty h.stack.capacity } = run m symbol h := by
  unfold run
  rw [start_of_entry_ok hentry, start_of_entry_ok hentry h]
  simp only [ValueStack.clear, ValueStack.capacity_empty]

theorem eq_behind_of_setup {capacity : Nat} {stepLimit : Option Nat}
    (hsetup : h.setup = ⟨capacity, stepLimit, true⟩) :
    { h with stack := .empty h.stack.capacity } =
      behind h.output.written (create capacity stepLimit {}) := by
  obtain ⟨limit, stack, recent, room⟩ := h
  simp only [setup, Setup.mk.injEq, Option.isNone_iff_eq_none] at hsetup
  obtain ⟨rfl, rfl, rfl⟩ := hsetup
  simp [behind, create, Sink.written]

section

variable {capacity : Nat} {stepLimit : Option Nat}

/-- A run on a used host is one on a new host with the output so far before its own. -/
theorem Used.finish_eq (hused : Used capacity stepLimit h) {position : Nat}
    (hentry : entry m symbol = .ok position) :
    let fresh := finish m symbol (create capacity stepLimit {})
    finish m symbol h =
      { fresh with output :=
          { fresh.output with recent := fresh.output.recent ++ h.output.written.reverse } } := by
  have hrun := (run_of_entry_ok hentry h).symm
  rw [eq_behind_of_setup hused.setup_eq, mirrors_run_behind] at hrun
  cases hr : run m symbol (create capacity stepLimit {}) with
  | ok outcome g =>
    rw [hr] at hrun
    rw [finish_of_ok hrun, finish_of_ok hr, behind]
  | error e g =>
    rw [hr] at hrun
    rw [finish_of_error hrun, finish_of_error hr, behind]

theorem finish_of_entry_error {e : Error} (hentry : entry m symbol = .error e) (h : Host) :
    finish m symbol h = ⟨.error e, h.stack, h.output⟩ :=
  finish_of_error (run_of_start_error (start_of_entry_error h hentry))

theorem Used.written_finish (hused : Used capacity stepLimit h) (m : Module)
    (symbol : Option String) :
    (finish m symbol h).output.written =
      h.output.written ++ (finish m symbol (create capacity stepLimit {})).output.written := by
  cases hentry : entry m symbol with
  | error e =>
    rw [finish_of_entry_error hentry, finish_of_entry_error hentry]
    exact (List.append_nil _).symm
  | ok position =>
    rw [hused.finish_eq hentry]
    simp [Sink.written]

def afterRuns (runs : List (Module × Option String)) (h : Host) : Host :=
  runs.foldl (fun h r => (run r.1 r.2).left h) h

theorem Used.written_afterRuns (hused : Used capacity stepLimit h)
    (runs : List (Module × Option String)) :
    (afterRuns runs h).output.written = h.output.written ++
      runs.flatMap fun r => (finish r.1 r.2 (create capacity stepLimit {})).output.written := by
  induction runs generalizing h with
  | nil => exact (List.append_nil _).symm
  | cons r rest ih =>
    rw [List.flatMap_cons, ← List.append_assoc, ← hused.written_finish]
    exact ih (hused.ran r.1 r.2)

/-- Whatever a host was used for, a run on it ends as on a new host that is set up in the same way,
adds the same bytes to the output, and leaves the same value stack, or the one it found if its
symbol cannot be resolved; and if one of the two does not end, neither does the other. So the output
of any runs is that of each of them on a new host, one after the other. -/
theorem runs_independent (hused : Used capacity stepLimit h) :
    (∀ m symbol,
      let fresh := finish m symbol (create capacity stepLimit {})
      (finish m symbol h).result = fresh.result ∧
        (finish m symbol h).output.written = h.output.written ++ fresh.output.written ∧
        (finish m symbol h).stack =
          match entry m symbol with
          | .ok _ => fresh.stack
          | .error _ => h.stack) ∧
    ∀ runs, (afterRuns runs h).output.written = h.output.written ++
      runs.flatMap fun r => (finish r.1 r.2 (create capacity stepLimit {})).output.written := by
  refine ⟨fun m symbol => ?_, hused.written_afterRuns⟩
  have hwritten := hused.written_finish m symbol
  cases hentry : entry m symbol with
  | error e => refine ⟨?_, hwritten, ?_⟩ <;> simp only [finish_of_entry_error hentry]
  | ok position => refine ⟨?_, hwritten, ?_⟩ <;> rw [hused.finish_eq hentry]

end

/-- A host on which a letter was printed and then pushed, but not popped. -/
def leftDesk : Host :=
  let printed := (run letter (some "main")).left desk
  ((step letter).left (ready, (start letter (some "main")).left printed)).2

/-- What was left there is not printed by the next run. A symbol that does not exist leaves it. -/
theorem runs_independent_letter :
    Used 16 none leftDesk ∧ leftDesk.stack.bytes = [0x41] ∧ leftDesk.output.written = [0x41] ∧
      (finish letter (some "main") leftDesk).result = (finish letter (some "main") desk).result ∧
      (finish letter (some "main") leftDesk).output.written = [0x41, 0x41] ∧
      (finish letter (some "main") leftDesk).stack.bytes = [] ∧
      (finish letter (some "end") leftDesk).stack.bytes = [0x41] ∧
      (afterRuns [(letter, some "main"), (letter, none), (letter, some "main")] leftDesk
        ).output.written = [0x41, 0x41, 0x41] := by
  have hdesk : Used 16 none desk := .fresh []
  have hused : Used 16 none leftDesk :=
    ((hdesk.ran letter (some "main")).started letter (some "main")).stepped letter ready
  have hstack : leftDesk.stack.bytes = [0x41] := by decide +kernel
  have hwritten : leftDesk.output.written = [0x41] := by decide +kernel
  have hmain : entry letter (some "main") = .ok 1 := rfl
  have hend : entry letter (some "end") = .error (.missingStart "end") := rfl
  obtain ⟨hruns, hall⟩ := runs_independent hused
  obtain ⟨hresult, houtput, hleft⟩ := hruns letter (some "main")
  obtain ⟨-, -, hkept⟩ := hruns letter (some "end")
  rw [hmain] at hleft
  rw [hend] at hkept
  refine ⟨hused, hstack, hwritten, hresult, ?_, ?_, ?_, ?_⟩
  · rw [houtput, hwritten]
    decide +kernel
  · rw [hleft]
    decide +kernel
  · rw [hkept, hstack]
  · rw [hall, hwritten]
    decide +kernel

end Host

end ByteMachine
