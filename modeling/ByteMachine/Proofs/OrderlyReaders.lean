import ByteMachine.Proofs.Readers

/-!
Sources that end too soon, fail, or interrupt. A reader that takes one byte after the other either
comes to an end with the bytes at hand, and then it does not matter what stands behind them, or it
runs out of them. Such readers can be put one after the other.
-/
namespace ByteMachine

/-- What is reported where the data would have ended too soon if the source fails there instead:
the failure, unless it is itself a report of their end and stands inside a block. -/
def FormatError.onFailure : FormatError → IoError → Error
  | .endInside block, .unexpectedEnd _ => .format (.endInside block)
  | _, cause => .io cause

namespace Source

variable {α β : Type}

/-- How a reader ends on a source, and how many bytes it has consumed. -/
def consume (x : Action Source α) (s : Source) : Except Error α × Nat :=
  (x.result s, remaining s - remaining (x.left s))

def steady (s : Source) : Source :=
  s.filter (· ≠ .interrupted)

/-- Reading the bytes attempts to read behind them: an interruption that stands there is met. -/
def ReachesEnd (x : Action Source α) (bytes : List UInt8) : Prop :=
  x.left (ofBytes bytes ++ [.interrupted]) = []

/-! ## Looking for bytes -/

/-- What a look at the bytes finds: something among them, or nothing before they end. A failure
that stands where they end is reported in its own way. -/
inductive Look (x : Action Source (Option α)) (report : IoError → Error) (bytes : List UInt8) :
    Prop where
  | found (a : α) (rest : List UInt8)
      (h : ∀ tail, x (ofBytes bytes ++ tail) = .ok (some a) (ofBytes rest ++ tail))
  | missed (hend : x (ofBytes bytes) = .ok none [])
      (hmark : x (ofBytes bytes ++ [.interrupted]) = .ok none [])
      (hfail : ∀ cause tail,
        x (ofBytes bytes ++ .failure cause :: tail) = .error (report cause) (.failure cause :: tail))

namespace Look

variable {x y : Action Source (Option α)} {report : IoError → Error} {bytes : List UInt8}

/-- Behind one more byte a look finds what it would find without it. -/
theorem cons {b : UInt8} (hxy : ∀ s, x (.byte b :: s) = y s) (h : Look y report bytes) :
    Look x report (b :: bytes) := by
  cases h with
  | found a rest h => exact .found a rest fun tail => (hxy _).trans (h tail)
  | missed hend hmark hfail =>
    exact .missed ((hxy _).trans hend) ((hxy _).trans hmark)
      fun cause tail => (hxy _).trans (hfail cause tail)

theorem adaptExcept (h : Look x report bytes) (f : Error → Error) :
    Look (x.adaptExcept f) (fun cause => f (report cause)) bytes := by
  cases h with
  | found a rest h => exact .found a rest fun tail => Action.adaptExcept_of_ok (h tail) f
  | missed hend hmark hfail =>
    exact .missed (Action.adaptExcept_of_ok hend f) (Action.adaptExcept_of_ok hmark f)
      fun cause tail => Action.adaptExcept_of_error (hfail cause tail) f

end Look

theorem look_readByte (bytes : List UInt8) : Look readByte .io bytes := by
  cases bytes with
  | nil => exact .missed rfl rfl fun _ _ => rfl
  | cons b bytes => exact .found b bytes fun _ => rfl

theorem look_readUntilOnto (stop : UInt8) (bytes : List UInt8) :
    ∀ seen, Look (readUntilOnto stop seen) .io bytes := by
  induction bytes with
  | nil =>
    intro seen
    exact .missed rfl rfl fun _ _ => rfl
  | cons b bytes ih =>
    intro seen
    by_cases hb : b = stop
    · exact .found seen.reverse bytes fun tail => if_pos hb
    · exact (ih (b :: seen)).cons fun s => if_neg hb

theorem look_readUntil (stop : UInt8) (bytes : List UInt8) :
    Look (readUntil stop) .io bytes :=
  look_readUntilOnto stop bytes []

theorem look_readBytesOnto (bytes : List UInt8) :
    ∀ seen count, Look (readBytesOnto seen count) .io bytes := by
  induction bytes with
  | nil =>
    intro seen count
    cases count with
    | zero => exact .found seen.reverse [] fun tail => by cases tail <;> rfl
    | succ count => exact .missed rfl rfl fun _ _ => rfl
  | cons b bytes ih =>
    intro seen count
    cases count with
    | zero => exact .found seen.reverse (b :: bytes) fun _ => rfl
    | succ count => exact (ih (b :: seen) count).cons fun _ => rfl

theorem look_readBytes (count : Nat) (bytes : List UInt8) :
    Look (readBytes count) .io bytes :=
  look_readBytesOnto bytes [] count

/-! ## Interruptions -/

@[simp] theorem steady_byte (b : UInt8) (s : Source) :
    steady (.byte b :: s) = .byte b :: steady s := rfl

@[simp] theorem steady_interrupted (s : Source) : steady (.interrupted :: s) = steady s := rfl

@[simp] theorem steady_failure (cause : IoError) (s : Source) :
    steady (.failure cause :: s) = .failure cause :: steady s := rfl

theorem remaining_failure (s : Source) (cause : IoError) :
    remaining (s ++ [.failure cause]) = remaining s := by
  simp [remaining, List.countP_append]

theorem remaining_steady (s : Source) : remaining (steady s) = remaining s := by
  simp only [remaining, steady, List.countP_filter]
  apply List.countP_congr
  intro e _
  cases e <;> simp

theorem steady_readByte : Action.Mirrors steady readByte readByte := by
  intro s
  induction s with
  | nil => rfl
  | cons e s ih =>
    cases e with
    | byte b => rfl
    | interrupted => exact ih
    | failure cause => rfl

theorem steady_readUntilOnto (stop : UInt8) (s : Source) :
    ∀ seen, readUntilOnto stop seen (steady s) =
      Action.seen steady (readUntilOnto stop seen s) := by
  induction s with
  | nil =>
    intro seen
    rfl
  | cons e s ih =>
    intro seen
    cases e with
    | byte b =>
      by_cases hb : b = stop
      · simp [readUntilOnto, hb, Action.seen]
      · simp [readUntilOnto, hb, ih]
    | interrupted => exact ih seen
    | failure cause => rfl

theorem steady_readUntil (stop : UInt8) :
    Action.Mirrors steady (readUntil stop) (readUntil stop) :=
  fun s => steady_readUntilOnto stop s []

theorem steady_readBytesOnto (s : Source) :
    ∀ seen count,
      readBytesOnto seen count (steady s) = Action.seen steady (readBytesOnto seen count s) := by
  induction s with
  | nil =>
    intro seen count
    cases count <;> rfl
  | cons e s ih =>
    intro seen count
    cases count with
    | zero =>
      rw [readBytesOnto, readBytesOnto]
      rfl
    | succ count =>
      cases e with
      | byte b => exact ih (b :: seen) count
      | interrupted =>
        rw [steady_interrupted, readBytesOnto]
        exact ih seen (count + 1)
      | failure cause => rfl

theorem steady_readBytes (count : Nat) :
    Action.Mirrors steady (readBytes count) (readBytes count) :=
  fun s => steady_readBytesOnto s [] count

/-! ## Orderly readers -/

/-- How reading the bytes goes: it succeeds or is refused with the bytes at hand, or it runs out of
them, and then it is what stands behind them that ends it. -/
inductive Course (x : Action Source α) (allowed : Error → Prop) (bytes : List UInt8) : Prop where
  | done (a : α) (rest : List UInt8)
      (h : ∀ tail, x (ofBytes bytes ++ tail) = .ok a (ofBytes rest ++ tail))
  | refused (e : Error) (rest : List UInt8) (he : allowed e)
      (h : ∀ tail, x (ofBytes bytes ++ tail) = .error e (ofBytes rest ++ tail))
  | ranOut (format : FormatError) (hend : x (ofBytes bytes) = .error (.format format) [])
      (hmark : x (ofBytes bytes ++ [.interrupted]) = .error (.format format) [])
      (hfail : ∀ cause tail, x (ofBytes bytes ++ .failure cause :: tail) =
        .error (format.onFailure cause) (.failure cause :: tail))

/-- A reader that becomes another on part of the bytes goes as that one does. -/
theorem Course.after {x y : Action Source α} {allowed : Error → Prop} {bytes rest : List UInt8}
    (h : Course y allowed rest)
    (hxy : ∀ tail, x (ofBytes bytes ++ tail) = y (ofBytes rest ++ tail)) :
    Course x allowed bytes := by
  cases h with
  | done a rest' hr => exact .done a rest' fun tail => (hxy tail).trans (hr tail)
  | refused e rest' he hr => exact .refused e rest' he fun tail => (hxy tail).trans (hr tail)
  | ranOut format hend hmark hfail =>
    have hnil := hxy []
    rw [List.append_nil, List.append_nil] at hnil
    exact .ranOut format (hnil.trans hend) ((hxy _).trans hmark)
      fun cause tail => (hxy _).trans (hfail cause tail)

/-- A reader of bytes that refuses them for allowed reasons only and passes over interruptions. -/
structure Orderly (x : Action Source α) (allowed : Error → Prop) : Prop where
  course : ∀ bytes, Course x allowed bytes
  steady : Action.Mirrors steady x x

namespace Orderly

variable {allowed : Error → Prop} {x : Action Source α} {f : α → Action Source β}

theorem ofExcept {r : Except Error α} (h : ∀ e, r = .error e → allowed e) :
    Orderly (Action.ofExcept r) allowed where
  course := by
    intro bytes
    cases r with
    | ok a => exact .done a bytes fun _ => rfl
    | error e => exact .refused e bytes (h e rfl) fun _ => rfl
  steady := .ofExcept _ _

theorem pure (a : α) : Orderly (Pure.pure a : Action Source α) allowed :=
  ofExcept (r := .ok a) nofun

theorem throw {e : Error} (he : allowed e) :
    Orderly (MonadExcept.throw e : Action Source α) allowed :=
  ofExcept (r := .error e) fun _ h => by cases h; exact he

theorem mono {allowed' : Error → Prop} (hx : Orderly x allowed)
    (h : ∀ e, allowed e → allowed' e) : Orderly x allowed' where
  course := by
    intro bytes
    cases hx.course bytes with
    | done a rest hr => exact .done a rest hr
    | refused e rest he hr => exact .refused e rest (h e he) hr
    | ranOut format hend hmark hfail => exact .ranOut format hend hmark hfail
  steady := hx.steady

theorem bind (hx : Orderly x allowed) (hf : ∀ a, Orderly (f a) allowed) :
    Orderly (x >>= f) allowed where
  course := by
    intro bytes
    cases hx.course bytes with
    | done a rest hr => exact ((hf a).course rest).after fun tail => Action.bind_of_ok (hr tail)
    | refused e rest he hr => exact .refused e rest he fun tail => Action.bind_of_error (hr tail)
    | ranOut format hend hmark hfail =>
      exact .ranOut format (Action.bind_of_error hend) (Action.bind_of_error hmark)
        fun cause tail => Action.bind_of_error (hfail cause tail)
  steady := hx.steady.bind fun a => (hf a).steady

/-- A look that must find something, and then more. -/
theorem ofLook {look : Action Source (Option α)} {report : IoError → Error}
    {f : Option α → Action Source β} {format : FormatError}
    (hlook : ∀ bytes, Look look report bytes)
    (hreport : ∀ cause, report cause = format.onFailure cause)
    (hsteady : Action.Mirrors Source.steady look look)
    (hnone : f none = MonadExcept.throw (.format format))
    (hsome : ∀ a, Orderly (f (some a)) allowed) : Orderly (look >>= f) allowed where
  course := by
    intro bytes
    cases hlook bytes with
    | found a rest hr =>
      exact ((hsome a).course rest).after fun tail => Action.bind_of_ok (hr tail)
    | missed hend hmark hfail =>
      refine .ranOut format ?_ ?_ fun cause tail => ?_
      · rw [Action.bind_of_ok hend, hnone]
        rfl
      · rw [Action.bind_of_ok hmark, hnone]
        rfl
      · rw [Action.bind_of_error (hfail cause tail), hreport]
  steady := by
    refine hsteady.bind fun a => ?_
    cases a with
    | none =>
      rw [hnone]
      exact .ofExcept Source.steady (.error (.format format))
    | some a => exact (hsome a).steady

/-! ## What is consumed -/

theorem allowed_of_error (hx : Orderly x allowed) (hformat : ∀ cause, allowed (.format cause))
    {bytes : List UInt8} {e : Error} {s : Source} (h : x (ofBytes bytes) = .error e s) :
    allowed e := by
  cases hx.course bytes with
  | done a rest hr =>
    have hok := hr []
    rw [List.append_nil, h] at hok
    cases hok
  | refused e' rest he hr =>
    have herror := hr []
    rw [List.append_nil, h] at herror
    cases herror
    exact he
  | ranOut format hend _ _ =>
    rw [h] at hend
    cases hend
    exact hformat format

/-- Interruptions change neither the end of a reader nor what it consumes. -/
theorem consume_steady (hx : Orderly x allowed) (s : Source) :
    consume x (Source.steady s) = consume x s := by
  rw [consume, consume, hx.steady.result_eq, hx.steady.left_eq, remaining_steady, remaining_steady]

/-- Behind bytes that a reader does not run out of, a failure does nothing; it ends a reader that
does, which would else have found the format wrong. -/
theorem consume_failure (hx : Orderly x allowed) (bytes : List UInt8) (cause : IoError) :
    (¬ ReachesEnd x bytes →
      consume x (ofBytes bytes ++ [.failure cause]) = consume x (ofBytes bytes)) ∧
    (ReachesEnd x bytes → ∃ format,
      consume x (ofBytes bytes) = (.error (.format format), bytes.length) ∧
      consume x (ofBytes bytes ++ [.failure cause]) =
        (.error (format.onFailure cause), bytes.length)) := by
  have hmark : ∀ rest : List UInt8, ofBytes rest ++ [.interrupted] ≠ [] := by simp
  cases hx.course bytes with
  | done a rest hr =>
    have hend := hr []
    rw [List.append_nil, List.append_nil] at hend
    refine ⟨fun _ => ?_, fun h => ?_⟩
    · simp only [consume, Action.result_of_ok (hr _), Action.left_of_ok (hr _),
        Action.result_of_ok hend, Action.left_of_ok hend, remaining_failure]
    · rw [ReachesEnd, Action.left_of_ok (hr _)] at h
      exact absurd h (hmark rest)
  | refused e rest he hr =>
    have hend := hr []
    rw [List.append_nil, List.append_nil] at hend
    refine ⟨fun _ => ?_, fun h => ?_⟩
    · simp only [consume, Action.result_of_error (hr _), Action.left_of_error (hr _),
        Action.result_of_error hend, Action.left_of_error hend, remaining_failure]
    · rw [ReachesEnd, Action.left_of_error (hr _)] at h
      exact absurd h (hmark rest)
  | ranOut format hend hmark hfail =>
    refine ⟨fun h => absurd (Action.left_of_error hmark) h, fun _ => ⟨format, ?_, ?_⟩⟩
    · rw [consume, Action.result_of_error hend, Action.left_of_error hend, remaining_ofBytes]
      rfl
    · rw [consume, Action.result_of_error (hfail _ _), Action.left_of_error (hfail _ _),
        remaining_failure, remaining_ofBytes]
      rfl

end Orderly

end Source

end ByteMachine
