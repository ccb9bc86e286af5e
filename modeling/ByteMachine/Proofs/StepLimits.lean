import ByteMachine.Proofs.HostSteps

/-!
Runs with a limit on the number of steps. A limit cuts a run short and does nothing else: a run that
ends before its limit ends in the same way under any higher limit and under none, and one that is
cut off has made as many steps as the limit says, each of them a step of every longer run.
-/
namespace ByteMachine

/-! ## Repeating a step -/

namespace Action

variable {σ α : Type} {step : Action σ (Option α)} {s t : σ} {n : Nat}
  {r : EStateM.Result Error σ (Option α)}

/-- So many steps lead from one state to another, and none of them fails or yields a result. -/
inductive Repeats (step : Action σ (Option α)) (s : σ) : Nat → σ → Prop where
  | start : Repeats step s 0 s
  | next {n : Nat} {t u : σ} :
      Repeats step s n t → step t = .ok none u → Repeats step s (n + 1) u

/-- The state after so many runs of a computation, whether they fail or not. -/
def after {β : Type} (x : Action σ β) (s : σ) : Nat → σ
  | 0 => s
  | n + 1 => x.left (x.after s n)

theorem after_add {β : Type} (x : Action σ β) (s : σ) (i n : Nat) :
    x.after s (i + n) = x.after (x.after s i) n := by
  induction n with
  | zero => rfl
  | succ n ih => rw [Nat.add_succ, after, ih, after]

/-- The step after so many others is the first that fails or yields a result, and this is how it
ends. -/
def Ends (step : Action σ (Option α)) (s : σ) (n : Nat) (r : EStateM.Result Error σ (Option α)) :
    Prop :=
  (∀ t, r ≠ .ok none t) ∧ ∃ t, Repeats step s n t ∧ step t = r

theorem untilSome_of_repeats (h : Repeats step s n t) (fuel : Nat) :
    untilSome step (n + fuel) s = untilSome step fuel t := by
  induction h generalizing fuel with
  | start => rw [Nat.zero_add]
  | @next n t u _ hstep ih =>
    rw [Nat.add_right_comm, Nat.add_assoc, ih, untilSome, bind_of_ok hstep]

theorem left_untilSome_of_repeats (h : Repeats step s n t) (fuel : Nat) :
    (untilSome step (n + fuel)).left s = (untilSome step fuel).left t := by
  rw [left, left, untilSome_of_repeats h]

theorem untilSome_of_done (hr : ∀ t, r ≠ .ok none t) (hstep : step s = r) (fuel : Nat) :
    untilSome step (fuel + 1) s = r := by
  cases r with
  | ok found t =>
    rw [untilSome, bind_of_ok hstep]
    cases found with
    | none => exact absurd rfl (hr t)
    | some a => rfl
  | error e t => rw [untilSome, bind_of_error hstep]

theorem untilSome_of_ends (h : Ends step s n r) {fuel : Nat} (hfuel : n < fuel) :
    untilSome step fuel s = r := by
  obtain ⟨hr, t, hrepeats, hstep⟩ := h
  obtain ⟨k, rfl⟩ := Nat.exists_eq_add_of_lt hfuel
  rw [Nat.add_assoc, untilSome_of_repeats hrepeats, untilSome_of_done hr hstep]

/-- Either all steps are made, or the repetition ends with one of them. -/
theorem repeats_or_ends (step : Action σ (Option α)) (s : σ) (fuel : Nat) :
    (∃ t, Repeats step s fuel t) ∨ ∃ n r, n < fuel ∧ Ends step s n r := by
  induction fuel with
  | zero => exact .inl ⟨s, .start⟩
  | succ fuel ih =>
    rcases ih with ⟨t, hrepeats⟩ | ⟨n, r, hn, hends⟩
    · by_cases hquiet : ∃ u, step t = .ok none u
      · obtain ⟨u, hu⟩ := hquiet
        exact .inl ⟨u, hrepeats.next hu⟩
      · have hdone : ∀ u, step t ≠ .ok none u := fun u hu => hquiet ⟨u, hu⟩
        exact .inr ⟨fuel, step t, Nat.lt_succ_self fuel, hdone, t, hrepeats, rfl⟩
    · exact .inr ⟨n, r, Nat.lt_succ_of_lt hn, hends⟩

end Action

namespace Sink

/-- Writing adds to what was written. -/
theorem written_prefix_left (bytes : List UInt8) (s : Sink) :
    s.written <+: ((write bytes).left s).written := by
  have hadd (added : List UInt8) : s.written <+: (added.reverseAux s.recent).reverse := by
    rw [List.reverseAux_eq, List.reverse_append, List.reverse_reverse]
    exact List.prefix_append _ _
  unfold Action.left write
  cases s.room with
  | none => exact hadd bytes
  | some room =>
    by_cases hfit : bytes.length ≤ room
    · simp only [if_pos hfit]
      exact hadd _
    · simp only [if_neg hfit]
      exact hadd _

end Sink

namespace Host

variable {m : Module} {p q : Processor} {h g : Host} {limit : Option Nat}

/-! ## Other views of a host -/

/-- A view of a host that leaves its value stack alone. -/
structure OffStack (view : Host → Host) : Prop where
  stack_eq : ∀ h, (view h).stack = h.stack
  withStack_eq : ∀ h stack, { view h with stack } = view { h with stack }

namespace OffStack

variable {view : Host → Host}

theorem mirrors_onStack (hview : OffStack view) {α : Type} (action : Action ValueStack α) :
    Action.Mirrors view (onStack action) (onStack action) := by
  intro h
  unfold onStack
  rw [hview.stack_eq]
  cases action h.stack <;> simp only [Action.seen, hview.withStack_eq]

/-- A start only clears the value stack. -/
theorem mirrors_start (hview : OffStack view) (m : Module) (symbol : Option String) :
    Action.Mirrors view (start m symbol) (start m symbol) :=
  (Action.Mirrors.ofExcept _ _).bind fun _ =>
    .bind (hview.mirrors_onStack (modify ValueStack.clear)) fun _ => .ofExcept _ _

end OffStack

/-- A view of a host that makes no difference to what is printed, either. -/
structure Unnoticed (view : Host → Host) : Prop extends OffStack view where
  mirrors_print : ∀ bytes, Action.Mirrors view (print bytes) (print bytes)

namespace Unnoticed

variable {view : Host → Host}

theorem mirrors_serve (hview : Unnoticed view) (call : Syscall) :
    Action.Mirrors view (serve call) (serve call) :=
  serve_induction (P := fun _ x => Action.Mirrors view x x) (hview.mirrors_onStack _)
    (hview.mirrors_onStack _) hview.mirrors_print (.ofExcept _ _) (fun _ => .ofExcept _ _)
    Action.Mirrors.bind call

/-- If the limit allows a step or not in both views, the step is the same. -/
theorem step_eq (hview : Unnoticed view) (hlimit : (view h).limitReached p = h.limitReached p) :
    step m (p, view h) = Action.seen (Prod.map id view) (step m (p, h)) := by
  simp only [step, hlimit, hview.stack_eq, hview.withStack_eq]
  cases h.limitReached p with
  | some limit => rfl
  | none =>
    cases Processor.step m (p, h.stack) with
    | error e after => rfl
    | ok call after =>
      cases call with
      | none => rfl
      | some call =>
        have hserve (call : Syscall) := hview.mirrors_serve call { h with stack := after.2 }
        cases call with
        | halt => rfl
        | out | kernelCall =>
          simp only [hserve]
          cases serve _ { h with stack := after.2 } <;> rfl

end Unnoticed

/-! ## Other limits -/

def withLimit (limit : Option Nat) (h : Host) : Host :=
  { h with stepLimit := limit }

/-- What a host does for a program does not depend on its limit. -/
theorem unnoticed_withLimit (limit : Option Nat) : Unnoticed (withLimit limit) where
  stack_eq _ := rfl
  withStack_eq _ _ := rfl
  mirrors_print bytes h := by
    unfold print
    rw [withLimit]
    cases Sink.write bytes h.output <;> rfl

/-- A limit that is at least as high as another, or none. -/
def Loosens (limit' limit : Option Nat) : Prop :=
  ∀ high, limit' = some high → ∃ low, limit = some low ∧ low ≤ high

theorem loosens_some {low high : Nat} (h : low ≤ high) : Loosens (some high) (some low) := by
  rintro high' ⟨⟩
  exact ⟨low, rfl, h⟩

theorem loosens_none (limit : Option Nat) : Loosens none limit :=
  nofun

theorem limitReached_eq_none_iff :
    h.limitReached p = none ↔ ∀ limit, h.stepLimit = some limit → p.steps < limit := by
  simp [limitReached, Option.filter_eq_none_iff]

theorem limitReached_eq_some {limit : Nat} (hlimit : h.limitReached p = some limit) :
    h.stepLimit = some limit ∧ limit ≤ p.steps := by
  simpa [limitReached, Option.filter_eq_some_iff] using hlimit

/-- A step that the limit allows is the same under a higher limit. -/
theorem step_withLimit (hloose : Loosens limit h.stepLimit) (hfree : h.limitReached p = none) :
    step m (p, withLimit limit h) =
      Action.seen (Prod.map id (withLimit limit)) (step m (p, h)) := by
  have hfree' : (withLimit limit h).limitReached p = none := by
    rw [limitReached_eq_none_iff] at hfree ⊢
    intro high hhigh
    obtain ⟨low, hlow, hle⟩ := hloose high hhigh
    exact Nat.lt_of_lt_of_le (hfree low hlow) hle
  exact (unnoticed_withLimit limit).step_eq (hfree'.trans hfree.symm)

/-! ## What a step leaves of the host -/

/-- The limit is the same, and there may be more output. -/
structure Extends (h g : Host) : Prop where
  stepLimit_eq : g.stepLimit = h.stepLimit
  written_isPrefix : h.output.written <+: g.output.written

namespace Extends

theorem refl (h : Host) : Extends h h :=
  ⟨rfl, List.prefix_rfl⟩

theorem trans {k : Host} (hg : Extends h g) (hk : Extends g k) : Extends h k :=
  ⟨hk.stepLimit_eq.trans hg.stepLimit_eq, hg.written_isPrefix.trans hk.written_isPrefix⟩

theorem bind {α β : Type} {x : Action Host α} {f : α → Action Host β}
    (hx : ∀ h, Extends h (x.left h)) (hf : ∀ a h, Extends h ((f a).left h)) (h : Host) :
    Extends h (Action.left (x >>= f) h) := by
  have hfirst := hx h
  cases hr : x h with
  | ok a g =>
    rw [Action.left_of_ok hr] at hfirst
    rw [Action.left_bind_of_ok hr]
    exact hfirst.trans (hf a g)
  | error e g =>
    rw [Action.left_of_error hr] at hfirst
    rw [Action.left_bind_of_error hr]
    exact hfirst

end Extends

theorem extends_onStack {α : Type} (action : Action ValueStack α) (h : Host) :
    Extends h ((onStack action).left h) := by
  unfold Action.left onStack
  cases action h.stack <;> exact ⟨rfl, List.prefix_rfl⟩

theorem extends_print (bytes : List UInt8) (h : Host) : Extends h ((print bytes).left h) := by
  have hwritten := Sink.written_prefix_left bytes h.output
  unfold Action.left at hwritten ⊢
  unfold print
  cases hwrite : Sink.write bytes h.output <;>
    exact ⟨rfl, by simpa only [hwrite] using hwritten⟩

theorem extends_serve (call : Syscall) (h : Host) : Extends h ((serve call).left h) :=
  serve_induction (P := fun _ x => ∀ h, Extends h (x.left h)) (extends_onStack _)
    (extends_onStack _) extends_print Extends.refl (fun _ => Extends.refl) Extends.bind call h

theorem extends_step (m : Module) (s : Processor × Host) : Extends s.2 ((step m).left s).2 := by
  obtain ⟨p, h⟩ := s
  have hstack (t : ValueStack) : Extends h { h with stack := t } := ⟨rfl, List.prefix_rfl⟩
  have hserve {call : Syscall} {t : ValueStack} := extends_serve call { h with stack := t }
  cases hr : step m (p, h) with
  | ok outcome after =>
    rw [Action.left_of_ok hr]
    cases stepsTo_of_eq hr with
    | quiet => exact hstack _
    | halted => exact hstack _
    | served _ _ _ _ _ _ hserved => exact (hstack _).trans (Action.left_of_ok hserved ▸ hserve)
  | error e after =>
    rw [Action.left_of_error hr]
    cases stepsTo_of_eq hr with
    | limited => exact .refl h
    | stopped => exact .refl h
    | failed => exact hstack _
    | refused _ _ _ _ _ _ hserved => exact (hstack _).trans (Action.left_of_error hserved ▸ hserve)

theorem extends_untilSome (m : Module) (fuel : Nat) (s : Processor × Host) :
    Extends s.2 (((step m).untilSome fuel).left s).2 := by
  induction fuel generalizing s with
  | zero => exact .refl s.2
  | succ fuel ih =>
    have hfirst := extends_step m s
    cases hr : step m s with
    | ok outcome t =>
      rw [Action.left_of_ok hr] at hfirst
      rw [Action.untilSome, Action.left_bind_of_ok hr]
      cases outcome with
      | none => exact hfirst.trans (ih t)
      | some outcome => exact hfirst
    | error e t =>
      rw [Action.left_of_error hr] at hfirst
      rw [Action.untilSome, Action.left_bind_of_error hr]
      exact hfirst

/-! ## Runs -/

section

variable {s t : Processor × Host} {n : Nat}
  {r : EStateM.Result Error (Processor × Host) (Option Outcome)}

/-- A step after which the program goes on is one that the limit allows, and it is counted. -/
theorem steps_of_quiet (hstep : step m s = .ok none t) :
    s.2.limitReached s.1 = none ∧ t.1.steps = s.1.steps + 1 := by
  cases stepsTo_of_eq hstep with
  | quiet hfree _ hdone => exact ⟨hfree, hdone.steps_eq⟩
  | served hfree _ hdone => exact ⟨hfree, hdone.steps_eq⟩

theorem step_of_limitReached {limit : Nat} (hlimit : s.2.limitReached s.1 = some limit) :
    step m s = .error (.stepLimit limit) s := by
  simp only [step, hlimit]

/-- The steps of a run are counted, and they keep the limit and the output so far. -/
theorem of_repeats (h : Action.Repeats (step m) s n t) :
    t.1.steps = s.1.steps + n ∧ Extends s.2 t.2 ∧ (s.1.Consistent m → t.1.Consistent m) := by
  induction h with
  | start => exact ⟨rfl, .refl s.2, id⟩
  | @next n t u _ hstep ih =>
    obtain ⟨hsteps, hextends, hconsistent⟩ := ih
    have hleft := Action.left_of_ok hstep
    refine ⟨?_, hextends.trans (hleft ▸ extends_step m t), fun hs => ?_⟩
    · rw [(steps_of_quiet hstep).2, hsteps, Nat.add_assoc]
    · exact hleft ▸ consistent_left (hconsistent hs) t.2

theorem repeats_withLimit (hloose : Loosens limit s.2.stepLimit)
    (h : Action.Repeats (step m) s n t) :
    Action.Repeats (step m) (Prod.map id (withLimit limit) s) n
      (Prod.map id (withLimit limit) t) := by
  induction h with
  | start => exact .start
  | @next n t u hprev hstep ih =>
    refine ih.next ?_
    rw [← (of_repeats hprev).2.1.stepLimit_eq] at hloose
    have hsame := step_withLimit (m := m) hloose (steps_of_quiet hstep).1
    rw [hstep] at hsame
    exact hsame

theorem ends_withLimit (hloose : Loosens limit s.2.stepLimit) (h : Action.Ends (step m) s n r)
    (hfree : ∀ limit t, r ≠ .error (.stepLimit limit) t) :
    Action.Ends (step m) (Prod.map id (withLimit limit) s) n
      (Action.seen (Prod.map id (withLimit limit)) r) := by
  obtain ⟨hr, t, hrepeats, rfl⟩ := h
  have hallowed : t.2.limitReached t.1 = none := by
    cases hlimit : t.2.limitReached t.1 with
    | none => rfl
    | some limit => exact absurd (step_of_limitReached hlimit) (hfree limit t)
  refine ⟨fun u hu => ?_, _, repeats_withLimit hloose hrepeats, ?_⟩
  · cases hstep : step m t with
    | ok outcome after =>
      rw [hstep] at hu
      cases hu
      exact hr after hstep
    | error e after =>
      rw [hstep] at hu
      cases hu
  · rw [← (of_repeats hrepeats).2.1.stepLimit_eq] at hloose
    exact step_withLimit hloose hallowed

/-- A limit allows no more steps than it says. -/
theorem le_of_repeats {limit : Nat} (hsteps : s.1.steps = 0) (hlimit : s.2.stepLimit = some limit)
    (h : Action.Repeats (step m) s n t) : n ≤ limit := by
  cases h with
  | start => exact Nat.zero_le limit
  | next hprev hstep =>
    obtain ⟨hcount, hextends, -⟩ := of_repeats hprev
    have hlt := limitReached_eq_none_iff.1 (steps_of_quiet hstep).1 limit
      (hextends.stepLimit_eq.trans hlimit)
    omega

/-- A run with a limit comes to an end. -/
theorem exists_ends {limit : Nat} (hsteps : s.1.steps = 0) (hlimit : s.2.stepLimit = some limit) :
    ∃ n r, n ≤ limit ∧ Action.Ends (step m) s n r := by
  rcases Action.repeats_or_ends (step m) s (limit + 1) with ⟨t, h⟩ | ⟨n, r, hn, hends⟩
  · exact absurd (le_of_repeats hsteps hlimit h) (Nat.not_succ_le_self limit)
  · exact ⟨n, r, Nat.le_of_lt_succ hn, hends⟩

/-- A run that its limit cuts off has made as many steps as it allows. -/
theorem repeats_of_cut {limit limit' : Nat} (hp : s.1.Consistent m) (hsteps : s.1.steps = 0)
    (hlimit : s.2.stepLimit = some limit) (hn : n ≤ limit)
    (h : Action.Ends (step m) s n (.error (.stepLimit limit') t)) :
    limit' = limit ∧ Action.Repeats (step m) s limit t := by
  obtain ⟨-, u, hrepeats, hstep⟩ := h
  obtain ⟨hcount, hextends, hconsistent⟩ := of_repeats hrepeats
  obtain ⟨hleft, hreached⟩ := left_of_stepLimit (hconsistent hp) (Action.result_of_error hstep)
  rw [Action.left_of_error hstep] at hleft
  subst hleft
  obtain ⟨hlimit', hle⟩ := limitReached_eq_some hreached
  rw [hextends.stepLimit_eq, hlimit] at hlimit'
  cases hlimit'
  obtain rfl : n = limit := by omega
  exact ⟨rfl, hrepeats⟩

end

theorem stepLimit_ne_of_resolve {symbol : String} {e : Error} {limit : Nat}
    (h : m.resolve symbol = .error e) : e ≠ .stepLimit limit := by
  unfold Module.resolve at h
  split at h
  · cases h
  · split at h <;> cases h
    simp

theorem stepLimit_ne_of_entry {symbol : Option String} {e : Error} {limit : Nat}
    (hentry : entry m symbol = .error e) : e ≠ .stepLimit limit := by
  cases symbol with
  | none => cases hentry
  | some symbol =>
    cases hresolve : m.resolve symbol with
    | error e' =>
      simp only [entry, hresolve] at hentry
      cases hentry
      exact stepLimit_ne_of_resolve hresolve
    | ok found =>
      simp only [entry, hresolve] at hentry
      cases found <;> cases hentry
      simp

theorem stepLimit_ne_of_processor {position : Nat} {e : Error} {limit : Nat}
    (hp : Processor.start m position = .error e) : e ≠ .stepLimit limit := by
  unfold Processor.start at hp
  cases hpc : m.code.programCounter position with
  | ok pc =>
    rw [hpc] at hp
    cases hp
  | error e' =>
    rw [hpc] at hp
    cases hp
    unfold CodePage.programCounter Address.make at hpc
    split at hpc
    · split at hpc <;> cases hpc
      simp
    · cases hpc
      simp

/-- A processor is started whatever the limit. -/
theorem stepLimit_ne_of_start {symbol : Option String} {e : Error} {limit : Nat}
    (hstart : start m symbol h = .error e g) : e ≠ .stepLimit limit := by
  rcases Action.bind_eq_error_iff.1 hstart with hentry | ⟨position, u, -, hrest⟩
  · exact stepLimit_ne_of_entry (Action.ofExcept_eq_error_iff.1 hentry).1
  · rcases Action.bind_eq_error_iff.1 hrest with hclear | ⟨⟨⟩, v, -, hprocessor⟩
    · cases hclear
    · exact stepLimit_ne_of_processor (Action.ofExcept_eq_error_iff.1 hprocessor).1

/-- How a run ends, and what it leaves. -/
structure Finish where
  result : Except Error (Option Outcome)
  stack : ValueStack
  output : Sink
  deriving DecidableEq

def finish (m : Module) (symbol : Option String) (h : Host) : Finish :=
  let after := (run m symbol).left h
  ⟨(run m symbol).result h, after.stack, after.output⟩

theorem finish_of_ok {symbol : Option String} {outcome : Option Outcome}
    (hrun : run m symbol h = .ok outcome g) :
    finish m symbol h = ⟨.ok outcome, g.stack, g.output⟩ := by
  simp only [finish, Action.result_of_ok hrun, Action.left_of_ok hrun]

theorem finish_of_error {symbol : Option String} {e : Error}
    (hrun : run m symbol h = .error e g) : finish m symbol h = ⟨.error e, g.stack, g.output⟩ := by
  simp only [finish, Action.result_of_error hrun, Action.left_of_error hrun]

section

variable {symbol : Option String}

theorem stepLimit_of_start (hstart : start m symbol h = .ok p g) :
    g.stepLimit = h.stepLimit := by
  obtain ⟨-, -, -, rfl⟩ := running_of_start hstart
  rfl

theorem run_of_start_error {e : Error} (hstart : start m symbol h = .error e g) :
    run m symbol h = .error e g := by
  simp only [run, hstart]

theorem run_of_ends {n : Nat} {r : EStateM.Result Error (Processor × Host) (Option Outcome)}
    (hstart : start m symbol h = .ok p g) (hends : Action.Ends (step m) (p, g) n r)
    (hn : n < g.patience) : run m symbol h = Action.seen Prod.snd r := by
  unfold run
  rw [hstart]
  dsimp only
  rw [Action.untilSome_of_ends hends hn]
  cases r <;> rfl

/-- A run with a limit comes to an end, and not for want of patience. -/
theorem exists_run_eq {low : Nat} (hlow : h.stepLimit = some low)
    (hstart : start m symbol h = .ok p g) :
    ∃ n r, n ≤ low ∧ Action.Ends (step m) (p, g) n r ∧ run m symbol h = Action.seen Prod.snd r := by
  have hlow' : g.stepLimit = some low := (stepLimit_of_start hstart).trans hlow
  obtain ⟨-, hsteps, -⟩ := running_of_start hstart
  obtain ⟨n, r, hn, hends⟩ := exists_ends (m := m) (s := (p, g)) hsteps hlow'
  refine ⟨n, r, hn, hends, run_of_ends hstart hends ?_⟩
  rw [patience, hlow']
  exact Nat.lt_succ_of_le hn

theorem result_ne_none {low : Nat} (hlow : h.stepLimit = some low) :
    (finish m symbol h).result ≠ .ok none := by
  intro hnone
  obtain ⟨g, hrun⟩ := Action.exists_of_result_ok hnone
  cases hstart : start m symbol h with
  | error e k =>
    rw [run_of_start_error hstart] at hrun
    cases hrun
  | ok p k =>
    obtain ⟨n, r, -, hends, hrun'⟩ := exists_run_eq hlow hstart
    rw [hrun'] at hrun
    cases r with
    | ok outcome t =>
      cases hrun
      exact hends.1 t rfl
    | error e t => cases hrun

theorem start_withLimit (limit : Option Nat) (hstart : start m symbol h = .ok p g) :
    start m symbol (withLimit limit h) = .ok p (withLimit limit g) := by
  rw [(unnoticed_withLimit limit).mirrors_start m symbol h, hstart, Action.seen]

theorem finish_of_seen (limit : Option Nat) {r : EStateM.Result Error Host (Option Outcome)}
    (hrun : run m symbol h = r) (hrun' : run m symbol g = Action.seen (withLimit limit) r) :
    finish m symbol g = finish m symbol h := by
  cases r with
  | ok outcome k => rw [finish_of_ok hrun, finish_of_ok hrun', withLimit]
  | error e k => rw [finish_of_error hrun, finish_of_error hrun', withLimit]

/-- A run that its limit does not cut off is the same under a higher limit. -/
theorem finish_withLimit {low : Nat} (hlow : h.stepLimit = some low)
    (hloose : Loosens limit h.stepLimit) (hpatience : low < (withLimit limit h).patience)
    (hcut : (finish m symbol h).result ≠ .error (.stepLimit low)) :
    finish m symbol (withLimit limit h) = finish m symbol h := by
  cases hstart : start m symbol h with
  | error e g =>
    have hstart' : start m symbol (withLimit limit h) = .error e (withLimit limit g) := by
      rw [(unnoticed_withLimit limit).mirrors_start m symbol h, hstart, Action.seen]
    exact finish_of_seen limit (run_of_start_error hstart) (run_of_start_error hstart')
  | ok p g =>
    obtain ⟨n, r, hn, hends, hrun⟩ := exists_run_eq hlow hstart
    obtain ⟨hp, hsteps, -, rfl⟩ := running_of_start hstart
    have hfree : ∀ limit t, r ≠ .error (.stepLimit limit) t := by
      rintro limit' t rfl
      obtain ⟨rfl, -⟩ := repeats_of_cut hp hsteps hlow hn hends
      exact hcut (by rw [finish_of_error hrun])
    have hends' := ends_withLimit hloose hends hfree
    have hstart' := start_withLimit limit hstart
    have hrun' := run_of_ends hstart' hends' (Nat.lt_of_le_of_lt hn hpatience)
    refine finish_of_seen limit hrun (hrun'.trans ?_)
    cases r <;> rfl

/-- A run that its limit cuts off has made as many steps as it allows, and a run under a higher
limit goes on from there. -/
theorem exists_of_cut {low : Nat} (hlow : h.stepLimit = some low)
    (hcut : (finish m symbol h).result = .error (.stepLimit low)) :
    ∃ p k q g, start m symbol h = .ok p k ∧ Action.Repeats (step m) (p, k) low (q, g) ∧
      q.steps = low ∧ run m symbol h = .error (.stepLimit low) g := by
  obtain ⟨g, hrun⟩ := Action.exists_of_result_error hcut
  cases hstart : start m symbol h with
  | error e k =>
    rw [run_of_start_error hstart] at hrun
    cases hrun
    exact absurd rfl (stepLimit_ne_of_start hstart)
  | ok p k =>
    obtain ⟨n, r, hn, hends, hrun'⟩ := exists_run_eq hlow hstart
    obtain ⟨hp, hsteps, -, rfl⟩ := running_of_start hstart
    rw [hrun'] at hrun
    cases r with
    | ok outcome t => cases hrun
    | error e t =>
      cases hrun
      obtain ⟨-, hrepeats⟩ := repeats_of_cut hp hsteps hlow hn hends
      have hcount := (of_repeats hrepeats).1
      rw [hsteps, Nat.zero_add] at hcount
      exact ⟨p, _, t.1, t.2, rfl, hrepeats, hcount, hrun'⟩

theorem left_run (hstart : start m symbol h = .ok p g) :
    (run m symbol).left h = (((step m).untilSome g.patience).left (p, g)).2 := by
  unfold Action.left run
  rw [hstart]
  dsimp only
  cases (step m).untilSome g.patience (p, g) <;> rfl

/-- A run under a higher limit goes on from where the lower limit cut it off. -/
theorem written_prefix_of_repeats {k : Host} {low high : Nat} (hlow : h.stepLimit = some low)
    (hle : low ≤ high) (hstart : start m symbol h = .ok p k)
    (hrepeats : Action.Repeats (step m) (p, k) low (q, g)) :
    g.output.written <+: ((run m symbol).left (withLimit (some high) h)).output.written := by
  have hfuel : (withLimit (some high) k).patience = low + (high - low + 1) := by
    rw [patience, withLimit, Option.getD_some]
    omega
  have hloose : Loosens (some high) k.stepLimit := by
    rw [stepLimit_of_start hstart, hlow]
    exact loosens_some hle
  have hmore := repeats_withLimit hloose hrepeats
  have hleft := Action.left_untilSome_of_repeats hmore (high - low + 1)
  rw [left_run (start_withLimit (some high) hstart), hfuel]
  exact hleft ▸ (extends_untilSome m _ (q, withLimit (some high) g)).written_isPrefix

end

/-- A run with a limit on its steps comes to an end. If the limit did not cut it off, it ends in
the same way, with the same value stack and output, under a higher limit and under none. If it did,
the processor has completed as many instructions as the limit says, no step failed or halted it,
and its output is where the output of a run under a higher limit begins. -/
theorem limit_cuts_short (m : Module) (symbol : Option String) (capacity : Nat) (sink : Sink)
    {limit limit' : Nat} (hword : limit < Numeral.wordLimit) (hle : limit ≤ limit') :
    (finish m symbol (create capacity (some limit) sink)).result ≠ .ok none ∧
    ((finish m symbol (create capacity (some limit) sink)).result ≠ .error (.stepLimit limit) →
      finish m symbol (create capacity (some limit') sink) =
          finish m symbol (create capacity (some limit) sink) ∧
        finish m symbol (create capacity none sink) =
          finish m symbol (create capacity (some limit) sink)) ∧
    ((finish m symbol (create capacity (some limit) sink)).result = .error (.stepLimit limit) →
      (∃ p h q g, start m symbol (create capacity (some limit) sink) = .ok p h ∧
        Action.Repeats (step m) (p, h) limit (q, g) ∧ q.steps = limit ∧
        (run m symbol).left (create capacity (some limit) sink) = g) ∧
      (finish m symbol (create capacity (some limit) sink)).output.written <+:
        (finish m symbol (create capacity (some limit') sink)).output.written) := by
  refine ⟨result_ne_none rfl, fun hcut => ⟨?_, ?_⟩, fun hcut => ?_⟩
  · exact finish_withLimit rfl (loosens_some hle) (Nat.lt_succ_of_le hle) hcut
  · exact finish_withLimit rfl (loosens_none _) (Nat.lt_succ_of_lt hword) hcut
  · obtain ⟨p, k, q, g, hstart, hrepeats, hsteps, hrun⟩ := exists_of_cut rfl hcut
    refine ⟨⟨p, k, q, g, hstart, hrepeats, hsteps, Action.left_of_error hrun⟩, ?_⟩
    have hmore := written_prefix_of_repeats rfl hle hstart hrepeats
    rwa [finish_of_error hrun]

/-- Two steps print the letter and are cut off; three steps are enough. -/
theorem limit_cuts_short_letter :
    2 < Numeral.wordLimit ∧ 3 < Numeral.wordLimit ∧ 2 ≤ 5 ∧ 3 ≤ 5 ∧
    (finish letter (some "main") (create 16 (some 2) {})).result = .error (.stepLimit 2) ∧
    (finish letter (some "main") (create 16 (some 2) {})).output.written <+:
      (finish letter (some "main") (create 16 (some 5) {})).output.written ∧
    (finish letter (some "main") (create 16 (some 3) {})).result ≠ .error (.stepLimit 3) ∧
    (finish letter (some "main") (create 16 (some 3) {})).result ≠ .ok none ∧
    finish letter (some "main") (create 16 (some 5) {}) =
      finish letter (some "main") (create 16 (some 3) {}) ∧
    finish letter (some "main") (create 16 none {}) =
      finish letter (some "main") (create 16 (some 3) {}) := by
  have hcut : (finish letter (some "main") (create 16 (some 2) {})).result =
      .error (.stepLimit 2) := by decide +kernel
  have hfree : (finish letter (some "main") (create 16 (some 3) {})).result ≠
      .error (.stepLimit 3) := by decide +kernel
  have hword : 3 < Numeral.wordLimit := by decide
  have hword' : 2 < Numeral.wordLimit := Nat.lt_of_succ_lt hword
  obtain ⟨-, -, hshort⟩ :=
    limit_cuts_short letter (some "main") 16 {} hword' (by decide : 2 ≤ 5)
  obtain ⟨hends, hlong, -⟩ :=
    limit_cuts_short letter (some "main") 16 {} hword (by decide : 3 ≤ 5)
  exact ⟨hword', hword, by decide, by decide, hcut, (hshort hcut).2, hfree, hends, hlong hfree⟩

end Host

end ByteMachine
