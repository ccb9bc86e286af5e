import ByteMachine.Proofs.StepLimits

/-!
Output that there is no room for. A limit on the output cuts it off and does nothing else: as long
as what a program writes fits, each step is the same as without a limit, and the first step whose
output does not fit fails, stops the processor and leaves exactly the bytes that fit.
-/
namespace ByteMachine

namespace Host

variable {m : Module} {p : Processor} {h g : Host} {k : Nat}

/-! ## Computations of a host -/

def withRoom (k : Nat) (h : Host) : Host :=
  { h with output := { h.output with room := some (k - h.output.written.length) } }

/-- There is no limit on the output, and what was written would fit into `k` bytes. -/
structure Within (k : Nat) (h : Host) : Prop where
  room_eq : h.output.room = none
  length_le : h.output.written.length ≤ k

/-- Room for `k` bytes makes no difference to a computation whose output fits. One whose output
does not fit fails, and the output is cut off after `k` bytes. -/
def Cuts {α : Type} (k : Nat) (x : Action Host α) : Prop :=
  ∀ h, Within k h →
    (Within k (x.left h) ∧ x (withRoom k h) = Action.seen (withRoom k) (x h)) ∨
    (k < (x.left h).output.written.length ∧
      ∃ g, x (withRoom k h) = .error (.io .writeFailed) g ∧
        g.output.written = (x.left h).output.written.take k)

/-- The part of a text that lies before its end is the same in every longer text. -/
theorem take_eq_of_isPrefix {a b : List UInt8} (h : a <+: b) (hk : k < a.length) :
    b.take k = a.take k := by
  obtain ⟨rest, rfl⟩ := h
  exact List.take_append_of_le_length (Nat.le_of_lt hk)

theorem Cuts.bind {α β : Type} {x : Action Host α} {f : α → Action Host β} (hx : Cuts k x)
    (hf : ∀ a, Cuts k (f a)) (hextends : ∀ a h, Extends h ((f a).left h)) :
    Cuts k (x >>= f) := by
  intro h hh
  cases hr : x h with
  | ok a t =>
    have hleft := Action.left_of_ok hr
    rw [Action.left_bind_of_ok hr, Action.bind_of_ok hr]
    rcases hx h hh with ⟨hwithin, hsame⟩ | ⟨hover, u, hu, hwritten⟩
    · rw [hleft] at hwithin
      rw [hr] at hsame
      rw [Action.bind_of_ok hsame]
      exact hf a t hwithin
    · rw [hleft] at hover hwritten
      have hmore := (hextends a t).written_isPrefix
      refine .inr ⟨Nat.lt_of_lt_of_le hover hmore.length_le, u, Action.bind_of_error hu, ?_⟩
      rw [take_eq_of_isPrefix hmore hover, hwritten]
  | error e t =>
    have hleft := Action.left_of_error hr
    rw [Action.left_bind_of_error hr, Action.bind_of_error hr]
    rcases hx h hh with ⟨hwithin, hsame⟩ | ⟨hover, u, hu, hwritten⟩
    · rw [hleft] at hwithin
      rw [hr] at hsame
      exact .inl ⟨hwithin, Action.bind_of_error hsame⟩
    · rw [hleft] at hover hwritten
      exact .inr ⟨hover, u, Action.bind_of_error hu, hwritten⟩

theorem cuts_ofExcept {α : Type} (r : Except Error α) : Cuts k (Action.ofExcept r) := by
  intro h hh
  cases r <;> exact .inl ⟨hh, rfl⟩

theorem Within.withStack (hh : Within k h) (stack : ValueStack) :
    Within k { h with stack } :=
  ⟨hh.room_eq, hh.length_le⟩

theorem cuts_onStack {α : Type} (action : Action ValueStack α) : Cuts k (onStack action) := by
  intro h hh
  unfold Action.left onStack
  rw [withRoom]
  cases action h.stack <;> exact .inl ⟨hh.withStack _, rfl⟩

theorem cuts_print (bytes : List UInt8) : Cuts k (print bytes) := by
  intro h hh
  have hprint := print_unlimited hh.room_eq bytes
  rw [Action.left_of_ok hprint, hprint]
  obtain ⟨limit, stack, recent, room⟩ := h
  have hle : recent.length ≤ k := by simpa [Sink.written] using hh.length_le
  have hwritten : (bytes.reverse ++ recent).length = recent.length + bytes.length := by
    simp [Nat.add_comm]
  by_cases hfit : recent.length + bytes.length ≤ k
  · refine .inl ⟨⟨rfl, by simpa [Sink.written] using hfit⟩, ?_⟩
    have hroom : bytes.length ≤ k - recent.length := by omega
    have hleft : k - recent.length - bytes.length = k - (recent.length + bytes.length) := by omega
    simp only [print, withRoom, Sink.written, List.length_reverse, Sink.write_of_le hroom, hleft,
      Action.seen, hwritten]
  · have hroom : k - recent.length < bytes.length := by omega
    refine .inr ⟨by simpa [Sink.written] using Nat.lt_of_not_le hfit, ?_⟩
    simp only [print, withRoom, Sink.written, List.length_reverse, Sink.write_of_lt hroom]
    refine ⟨_, rfl, ?_⟩
    have hold : recent.reverse.take k = recent.reverse :=
      List.take_of_length_le (by simpa using hle)
    simp [List.take_append, hold]

theorem cuts_serve (call : Syscall) : Cuts k (serve call) :=
  (serve_induction (P := fun _ x => Cuts k x ∧ ∀ h, Extends h (x.left h))
    ⟨cuts_onStack _, extends_onStack _⟩ ⟨cuts_onStack _, extends_onStack _⟩
    (fun bytes => ⟨cuts_print bytes, extends_print bytes⟩) ⟨cuts_ofExcept _, Extends.refl⟩
    (fun _ => ⟨cuts_ofExcept _, Extends.refl⟩)
    (fun hx hf => ⟨hx.1.bind (fun a => (hf a).1) fun a => (hf a).2, .bind hx.2 fun a => (hf a).2⟩)
    call).1

theorem offStack_withRoom (k : Nat) : OffStack (withRoom k) :=
  ⟨fun _ => rfl, fun _ _ => rfl⟩

/-! ## Steps -/

/-- A step is the same with room for `k` bytes if its output fits. If it does not, the step fails
and stops the processor. -/
theorem step_withRoom (m : Module) (p : Processor) (hh : Within k h) :
    (Within k ((step m).left (p, h)).2 ∧
      step m (p, withRoom k h) = Action.seen (Prod.map id (withRoom k)) (step m (p, h))) ∨
    (k < ((step m).left (p, h)).2.output.written.length ∧
      ∃ q g, step m (p, withRoom k h) = .error (.io .writeFailed) (q, g) ∧
        q.state = .faulted .other ∧
        g.output.written = ((step m).left (p, h)).2.output.written.take k) := by
  have hlimit : (withRoom k h).limitReached p = h.limitReached p := rfl
  have hstack : (withRoom k h).stack = h.stack := rfl
  cases hreached : h.limitReached p with
  | some limit =>
    simp only [Action.left, step, hlimit, hreached]
    exact .inl ⟨hh, rfl⟩
  | none =>
    simp only [Action.left, step, hlimit, hreached, hstack]
    cases Processor.step m (p, h.stack) with
    | error e after => exact .inl ⟨hh.withStack _, rfl⟩
    | ok call after =>
      obtain ⟨q, stack⟩ := after
      cases call with
      | none => exact .inl ⟨hh.withStack _, rfl⟩
      | some call =>
        have hserve := cuts_serve (k := k) call { h with stack } (hh.withStack stack)
        rw [withRoom] at hserve
        cases call with
        | halt => exact .inl ⟨hh.withStack _, rfl⟩
        | out | kernelCall =>
          simp only [withRoom]
          rcases hserve with ⟨hwithin, hsame⟩ | ⟨hover, g, hg, hwritten⟩
          · refine .inl ?_
            simp only [hsame]
            unfold Action.left at hwithin
            cases hr : serve _ { h with stack } <;>
              exact ⟨by simpa only [hr] using hwithin, rfl⟩
          · refine .inr ?_
            unfold Action.left at hover hwritten
            simp only [hg]
            cases hr : serve _ { h with stack } <;>
              exact ⟨by simpa only [hr] using hover, _, _, rfl, rfl,
                by simpa only [hr] using hwritten⟩

/-! ## Any number of steps -/

section

variable {s : Processor × Host} {n : Nat}

theorem extends_after (m : Module) (s : Processor × Host) {i n : Nat} (h : i ≤ n) :
    Extends ((step m).after s i).2 ((step m).after s n).2 := by
  induction h with
  | refl => exact .refl _
  | step _ ih => exact ih.trans (extends_step m _)

/-- As long as the output fits, the steps lead to the same states. -/
theorem after_withRoom (hs : Within k s.2)
    (hfit : ((step m).after s n).2.output.written.length ≤ k) :
    Within k ((step m).after s n).2 ∧
      (step m).after (Prod.map id (withRoom k) s) n =
        Prod.map id (withRoom k) ((step m).after s n) := by
  induction n with
  | zero => exact ⟨hs, rfl⟩
  | succ n ih =>
    have hmore := (extends_after m s (Nat.le_succ n)).written_isPrefix
    obtain ⟨hwithin, hsame⟩ := ih (Nat.le_trans hmore.length_le hfit)
    rcases step_withRoom m ((step m).after s n).1 hwithin with ⟨hwithin', hstep⟩ | ⟨hover, -⟩
    · refine ⟨hwithin', ?_⟩
      rw [Action.after, hsame, Action.left, Prod.map, id, hstep, Action.after, Action.left]
      cases step m ((step m).after s n) <;> rfl
    · exact absurd hfit (Nat.not_le_of_lt hover)

/-- A step whose output fits gives the same result. -/
theorem result_withRoom (hs : Within k s.2)
    (hfit : ((step m).after s (n + 1)).2.output.written.length ≤ k) :
    (step m).result ((step m).after (Prod.map id (withRoom k) s) n) =
      (step m).result ((step m).after s n) := by
  have hmore := (extends_after m s (Nat.le_succ n)).written_isPrefix
  obtain ⟨hwithin, hsame⟩ := after_withRoom hs (Nat.le_trans hmore.length_le hfit)
  rcases step_withRoom m ((step m).after s n).1 hwithin with ⟨-, hstep⟩ | ⟨hover, -⟩
  · rw [hsame, Action.result, Prod.map, id, hstep, Action.result]
    cases step m ((step m).after s n) <;> rfl
  · exact absurd hfit (Nat.not_le_of_lt hover)

/-- A processor that has stopped is found in the same state after any number of steps. -/
theorem after_of_stopped (hstop : s.1.state ≠ .running) (n : Nat) : (step m).after s n = s := by
  induction n with
  | zero => rfl
  | succ n ih => rw [Action.after, ih, (step_of_stopped hstop s.2).1]

/-- The first step whose output does not fit fails and stops the processor, and nothing is written
from then on. -/
theorem after_of_overfull (hs : Within k s.2)
    (hfit : ((step m).after s n).2.output.written.length ≤ k)
    (hover : k < ((step m).after s (n + 1)).2.output.written.length) :
    (step m).result ((step m).after (Prod.map id (withRoom k) s) n) =
        .error (.io .writeFailed) ∧
      ((step m).after (Prod.map id (withRoom k) s) (n + 1)).1.state = .faulted .other ∧
      ∀ i, n < i → ((step m).after (Prod.map id (withRoom k) s) i).2.output.written =
        ((step m).after s i).2.output.written.take k := by
  obtain ⟨hwithin, hsame⟩ := after_withRoom hs hfit
  rcases step_withRoom m ((step m).after s n).1 hwithin with
    ⟨hwithin', -⟩ | ⟨-, q, g, hstep, hstate, hwritten⟩
  · exact absurd hwithin'.length_le (Nat.not_le_of_lt hover)
  · have hlast : (step m).after (Prod.map id (withRoom k) s) (n + 1) = (q, g) := by
      rw [Action.after, hsame]
      exact Action.left_of_error hstep
    refine ⟨?_, by rw [hlast, hstate], ?_⟩
    · rw [hsame]
      exact Action.result_of_error hstep
    · intro i hi
      obtain ⟨j, rfl⟩ := Nat.exists_eq_add_of_le hi
      have hstop : q.state ≠ .running := by simp [hstate]
      have hmore := (extends_after m s hi).written_isPrefix
      rw [Action.after_add, hlast, after_of_stopped (s := (q, g)) hstop,
        take_eq_of_isPrefix hmore hover]
      exact hwritten

/-- What grows beyond a bound does so in some step. -/
theorem exists_crossing (f : Nat → Nat) (hfirst : f 0 ≤ k) (hlast : k < f n) :
    ∃ j < n, f j ≤ k ∧ k < f (j + 1) := by
  induction n with
  | zero => exact absurd hfirst (Nat.not_le_of_lt hlast)
  | succ n ih =>
    by_cases hn : k < f n
    · obtain ⟨j, hj, hcross⟩ := ih hn
      exact ⟨j, Nat.lt_succ_of_lt hj, hcross⟩
    · exact ⟨n, Nat.lt_succ_self n, Nat.le_of_not_lt hn, hlast⟩

end

/-- Nobody who looks at the processor, the value stack and the output can tell the states apart. -/
structure Alike (s t : Processor × Host) : Prop where
  processor_eq : t.1 = s.1
  stack_eq : t.2.stack = s.2.stack
  written_eq : t.2.output.written = s.2.output.written

/-- Steps whose output fits cannot be told apart from those without a limit. -/
theorem alike_of_fits {s : Processor × Host} {n : Nat} (hs : Within k s.2)
    (hfit : ((step m).after s n).2.output.written.length ≤ k) :
    (∀ i ≤ n, Alike ((step m).after s i) ((step m).after (Prod.map id (withRoom k) s) i)) ∧
      ∀ i < n, (step m).result ((step m).after (Prod.map id (withRoom k) s) i) =
        (step m).result ((step m).after s i) := by
  have hfits {i : Nat} (hi : i ≤ n) : ((step m).after s i).2.output.written.length ≤ k :=
    Nat.le_trans (extends_after m s hi).written_isPrefix.length_le hfit
  refine ⟨fun i hi => ?_, fun i hi => result_withRoom hs (hfits hi)⟩
  rw [(after_withRoom hs (hfits hi)).2]
  exact ⟨rfl, rfl, rfl⟩

/-- A limit on the output only cuts it off. Steps whose output fits give the same results and
states as without a limit; otherwise the first step whose output goes beyond the limit fails and
stops the processor, the steps before it are the same, and the output is what fits of the output
without a limit. -/
theorem room_cuts_output (m : Module) (symbol : Option String) (capacity : Nat)
    (stepLimit : Option Nat) (k n : Nat) :
    match start m symbol (create capacity stepLimit {}) with
    | .error e h =>
      ∃ g, start m symbol (create capacity stepLimit { room := some k }) = .error e g ∧
        g.stack = h.stack ∧ g.output.written = h.output.written
    | .ok p h =>
      ∃ g, start m symbol (create capacity stepLimit { room := some k }) = .ok p g ∧
        (((step m).after (p, h) n).2.output.written.length ≤ k →
          (∀ i ≤ n, Alike ((step m).after (p, h) i) ((step m).after (p, g) i)) ∧
          ∀ i < n, (step m).result ((step m).after (p, g) i) =
            (step m).result ((step m).after (p, h) i)) ∧
        (k < ((step m).after (p, h) n).2.output.written.length →
          ∃ j < n, ((step m).after (p, h) j).2.output.written.length ≤ k ∧
            k < ((step m).after (p, h) (j + 1)).2.output.written.length ∧
            (∀ i ≤ j, Alike ((step m).after (p, h) i) ((step m).after (p, g) i)) ∧
            (∀ i < j, (step m).result ((step m).after (p, g) i) =
              (step m).result ((step m).after (p, h) i)) ∧
            (step m).result ((step m).after (p, g) j) = .error (.io .writeFailed) ∧
            ((step m).after (p, g) (j + 1)).1.state = .faulted .other ∧
            ∀ i, j < i → i ≤ n → ((step m).after (p, g) i).2.output.written =
              ((step m).after (p, h) i).2.output.written.take k) := by
  have hmirrors := (offStack_withRoom k).mirrors_start m symbol (create capacity stepLimit {})
  have htight : create capacity stepLimit { room := some k } =
      withRoom k (create capacity stepLimit {}) := rfl
  rw [htight, hmirrors]
  cases hstart : start m symbol (create capacity stepLimit {}) with
  | error e h => exact ⟨withRoom k h, rfl, rfl, rfl⟩
  | ok p h =>
    have hwithin : Within k (p, h).2 := by
      obtain ⟨-, -, -, rfl⟩ := running_of_start hstart
      exact ⟨rfl, Nat.zero_le k⟩
    refine ⟨_, rfl, fun hfit => alike_of_fits hwithin hfit, fun hover => ?_⟩
    obtain ⟨j, hj, hfit, hnext⟩ := exists_crossing
      (fun i => ((step m).after (p, h) i).2.output.written.length) hwithin.length_le hover
    obtain ⟨hsame, hresults⟩ := alike_of_fits hwithin hfit
    obtain ⟨hfails, hstate, hwritten⟩ := after_of_overfull hwithin hfit hnext
    exact ⟨j, hj, hfit, hnext, hsame, hresults, hfails, hstate, fun i hi _ => hwritten i hi⟩

/-- With room for no byte, the step that prints the letter fails. -/
theorem room_cuts_output_letter :
    ∃ g, start letter (some "main") (create 16 none { room := some 0 }) = .ok ready g ∧
      0 < ((step letter).after (ready, desk) 3).2.output.written.length ∧
      ∃ j < 3, (step letter).result ((step letter).after (ready, g) j) =
          .error (.io .writeFailed) ∧
        ((step letter).after (ready, g) (j + 1)).1.state = .faulted .other ∧
        ((step letter).after (ready, g) 3).2.output.written = [] := by
  have hstart : start letter (some "main") (create 16 none {}) = .ok ready desk := rfl
  have hcut := room_cuts_output letter (some "main") 16 none 0 3
  rw [hstart] at hcut
  have hover : 0 < ((step letter).after (ready, desk) 3).2.output.written.length := by decide
  obtain ⟨g, hg, -, hfull⟩ := hcut
  obtain ⟨j, hj, -, -, -, -, hfails, hstate, hwritten⟩ := hfull hover
  exact ⟨g, hg, hover, j, hj, hfails, hstate, (hwritten 3 hj (Nat.le_refl 3)).trans List.take_zero⟩

end Host

end ByteMachine
