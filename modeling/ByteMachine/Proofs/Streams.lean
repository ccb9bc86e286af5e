import ByteMachine.Stream.Sink
import ByteMachine.Stream.Source

/-!
Streams. Writing two pieces is the same as writing them joined, with or without a limit, so a
writer is one write that is followed by success or by a refusal. Reading plain bytes takes off
their front what it returns.
-/
namespace ByteMachine

namespace Action

variable {σ α β : Type}

theorem bind_of_ok {x : Action σ α} {f : α → Action σ β} {s t : σ} {a : α}
    (h : x s = .ok a t) : (x >>= f) s = f a t := by
  simp only [bind, EStateM.bind, h]

theorem bind_of_error {x : Action σ α} {f : α → Action σ β} {s t : σ} {e : Error}
    (h : x s = .error e t) : (x >>= f) s = .error e t := by
  simp only [bind, EStateM.bind, h]

theorem adaptExcept_of_ok {x : Action σ α} {s t : σ} {a : α} (h : x s = .ok a t)
    (f : Error → Error) : x.adaptExcept f s = .ok a t := by
  rw [EStateM.adaptExcept, h]

theorem adaptExcept_of_error {x : Action σ α} {s t : σ} {e : Error} (h : x s = .error e t)
    (f : Error → Error) : x.adaptExcept f s = .error (f e) t := by
  rw [EStateM.adaptExcept, h]

@[simp] theorem ofExcept_ok (a : α) (s : σ) : Action.ofExcept (.ok a) s = .ok a s := rfl

@[simp] theorem ofExcept_error (e : Error) (s : σ) :
    (Action.ofExcept (.error e) : Action σ α) s = .error e s := rfl

theorem ofExcept_eq_ok_iff {r : Except Error α} {a : α} {s t : σ} :
    Action.ofExcept r s = .ok a t ↔ r = .ok a ∧ t = s := by
  cases r with
  | ok b => simp [eq_comm]
  | error e => simp

theorem ofExcept_eq_error_iff {r : Except Error α} {e : Error} {s t : σ} :
    Action.ofExcept r s = .error e t ↔ r = .error e ∧ t = s := by
  cases r with
  | ok b => simp
  | error e' => simp [eq_comm]

def result (x : Action σ α) (s : σ) : Except Error α :=
  match x s with
  | .ok a _ => .ok a
  | .error e _ => .error e

/-- The state that a computation leaves, whether it fails or not. -/
def left (x : Action σ α) (s : σ) : σ :=
  match x s with
  | .ok _ t => t
  | .error _ t => t

section

variable {x : Action σ α} {s t : σ} {a : α} {e : Error}

theorem result_of_ok (h : x s = .ok a t) : x.result s = .ok a := by
  rw [result, h]

theorem result_of_error (h : x s = .error e t) : x.result s = .error e := by
  rw [result, h]

theorem exists_of_result_ok (h : x.result s = .ok a) : ∃ t, x s = .ok a t := by
  unfold result at h
  split at h
  · next t ht =>
    cases h
    exact ⟨t, ht⟩
  · cases h

theorem exists_of_result_error (h : x.result s = .error e) : ∃ t, x s = .error e t := by
  unfold result at h
  split at h
  · cases h
  · next t ht =>
    cases h
    exact ⟨t, ht⟩

theorem left_of_ok (h : x s = .ok a t) : x.left s = t := by
  rw [left, h]

theorem left_of_error (h : x s = .error e t) : x.left s = t := by
  rw [left, h]

theorem left_bind_of_ok {f : α → Action σ β} (h : x s = .ok a t) :
    Action.left (x >>= f) s = Action.left (f a) t := by
  rw [left, bind_of_ok h, left]

theorem left_bind_of_error {f : α → Action σ β} (h : x s = .error e t) :
    Action.left (x >>= f) s = t := by
  rw [left, bind_of_error h]

end

variable {τ : Type}

/-- An end of a computation with its state seen in another way. -/
def seen (view : σ → τ) : EStateM.Result Error σ α → EStateM.Result Error τ α
  | .ok a s => .ok a (view s)
  | .error e s => .error e (view s)

/-- Two computations that do the same if the states of one are seen as states of the other. -/
def Mirrors (view : σ → τ) (x : Action σ α) (y : Action τ α) : Prop :=
  ∀ s, y (view s) = seen view (x s)

namespace Mirrors

variable {view : σ → τ} {x : Action σ α} {y : Action τ α}

theorem bind {f : α → Action σ β} {g : α → Action τ β} (hx : Mirrors view x y)
    (hf : ∀ a, Mirrors view (f a) (g a)) : Mirrors view (x >>= f) (y >>= g) := by
  intro s
  have hs := hx s
  cases h : x s with
  | ok a t =>
    rw [h] at hs
    rw [bind_of_ok h, bind_of_ok hs, hf a t]
  | error e t =>
    rw [h] at hs
    rw [bind_of_error h, bind_of_error hs]
    rfl

theorem adaptExcept (hx : Mirrors view x y) (f : Error → Error) :
    Mirrors view (x.adaptExcept f) (y.adaptExcept f) := by
  intro s
  have hs := hx s
  cases h : x s with
  | ok a t =>
    rw [h] at hs
    rw [adaptExcept_of_ok h, adaptExcept_of_ok hs]
    rfl
  | error e t =>
    rw [h] at hs
    rw [adaptExcept_of_error h, adaptExcept_of_error hs]
    rfl

theorem ofExcept (view : σ → τ) (r : Except Error α) :
    Mirrors view (Action.ofExcept r) (Action.ofExcept r) := by
  intro s
  cases r <;> rfl

theorem result_eq (h : Mirrors view x y) (s : σ) : y.result (view s) = x.result s := by
  unfold result
  rw [h s]
  cases x s <;> rfl

theorem left_eq (h : Mirrors view x y) (s : σ) : y.left (view s) = view (x.left s) := by
  unfold left
  rw [h s]
  cases x s <;> rfl

end Mirrors

end Action

/-! ## Writing -/

namespace Sink

theorem write_unlimited (bytes recent : List UInt8) :
    write bytes ⟨recent, none⟩ = .ok () ⟨bytes.reverse ++ recent, none⟩ := by
  simp [write]

theorem write_of_le {bytes recent : List UInt8} {room : Nat} (h : bytes.length ≤ room) :
    write bytes ⟨recent, some room⟩ =
      .ok () ⟨bytes.reverse ++ recent, some (room - bytes.length)⟩ := by
  simp [write, h, List.take_of_length_le h]

theorem write_of_lt {bytes recent : List UInt8} {room : Nat} (h : room < bytes.length) :
    write bytes ⟨recent, some room⟩ =
      .error (.io .writeFailed) ⟨(bytes.take room).reverse ++ recent, some 0⟩ := by
  simp only [write, List.reverseAux_eq]
  rw [if_neg (by omega), Nat.sub_eq_zero_of_le (by omega)]

theorem write_append (a b : List UInt8) :
    (do write a; write b : Action Sink Unit) = write (a ++ b) := by
  funext ⟨recent, room⟩
  cases room with
  | none =>
    rw [Action.bind_of_ok (write_unlimited a recent), write_unlimited, write_unlimited]
    simp
  | some room =>
    by_cases ha : a.length ≤ room
    · rw [Action.bind_of_ok (write_of_le ha)]
      by_cases hb : b.length ≤ room - a.length
      · rw [write_of_le hb, write_of_le (by simp; omega)]
        simp [Nat.sub_sub]
      · rw [write_of_lt (by omega), write_of_lt (by simp; omega), List.take_append,
          List.take_of_length_le ha]
        simp
    · rw [Action.bind_of_error (write_of_lt (by omega)), write_of_lt (by simp; omega),
        List.take_append_of_le_length (by omega)]

end Sink

/-- What a writer sends to its sink, and how it ends if the sink takes all of it. -/
structure Output where
  bytes : List UInt8
  result : Except Error Unit

namespace Output

def send (o : Output) : Action Sink Unit := do
  Sink.write o.bytes
  Action.ofExcept o.result

def of (bytes : List UInt8) : Output := ⟨bytes, .ok ()⟩

def check (result : Except Error Unit) : Output := ⟨[], result⟩

/-- The output of one writer and, unless it refuses, of another after it. -/
def andThen (o p : Output) : Output :=
  match o.result with
  | .ok () => ⟨o.bytes ++ p.bytes, p.result⟩
  | .error e => ⟨o.bytes, .error e⟩

theorem send_of (bytes : List UInt8) : (of bytes).send = Sink.write bytes := by
  funext s
  simp only [send, of]
  cases h : Sink.write bytes s with
  | ok u s => rw [Action.bind_of_ok h, Action.ofExcept_ok]
  | error e s => rw [Action.bind_of_error h]

theorem send_check (result : Except Error Unit) : (check result).send = Action.ofExcept result := by
  funext ⟨recent, room⟩
  have h : Sink.write [] ⟨recent, room⟩ = .ok () ⟨recent, room⟩ := by
    cases room <;> simp [Sink.write]
  exact Action.bind_of_ok h

theorem send_andThen (o p : Output) : (o.andThen p).send = (do o.send; p.send) := by
  obtain ⟨bytes, result⟩ := o
  cases result with
  | ok u =>
    have h : send ⟨bytes, .ok u⟩ = Sink.write bytes := send_of bytes
    simp only [andThen, h]
    simp only [send, ← Sink.write_append, bind_assoc]
  | error e =>
    funext s
    simp only [andThen, send, bind_assoc]
    rfl

theorem of_andThen_of (a b : List UInt8) : (of a).andThen (of b) = of (a ++ b) := rfl

def Refuses (o : Output) : Prop := ∃ cause, o.result = .error (.format cause)

theorem Refuses.andThen {o : Output} (h : o.Refuses) (p : Output) : (o.andThen p).Refuses := by
  obtain ⟨cause, h⟩ := h
  exact ⟨cause, by simp only [Output.andThen, h]⟩

theorem Refuses.after {p : Output} (h : p.Refuses) (bytes : List UInt8) :
    ((of bytes).andThen p).Refuses :=
  h

end Output

/-! ## Reading -/

namespace Source

theorem ofBytes_cons (b : UInt8) (bytes : List UInt8) :
    ofBytes (b :: bytes) = .byte b :: ofBytes bytes :=
  rfl

theorem readByte_ofBytes (b : UInt8) (rest : List UInt8) :
    readByte (ofBytes (b :: rest)) = .ok (some b) (ofBytes rest) :=
  rfl

theorem readUntilOnto_ofBytes {stop : UInt8} (rest : List UInt8) :
    ∀ (bytes seen : List UInt8), stop ∉ bytes →
      readUntilOnto stop seen (ofBytes (bytes ++ stop :: rest)) =
        .ok (some (seen.reverse ++ bytes)) (ofBytes rest) := by
  intro bytes
  induction bytes with
  | nil =>
    intro seen _
    simp [ofBytes_cons, readUntilOnto]
  | cons b bytes ih =>
    intro seen h
    rw [List.mem_cons, not_or] at h
    simp only [List.cons_append, ofBytes_cons, readUntilOnto, if_neg (Ne.symm h.1)]
    simp [ih (b :: seen) h.2]

theorem readUntil_ofBytes {stop : UInt8} {bytes : List UInt8} (h : stop ∉ bytes)
    (rest : List UInt8) :
    readUntil stop (ofBytes (bytes ++ stop :: rest)) = .ok (some bytes) (ofBytes rest) :=
  readUntilOnto_ofBytes rest bytes [] h

theorem readBytesOnto_ofBytes (rest : List UInt8) :
    ∀ bytes seen : List UInt8,
      readBytesOnto seen bytes.length (ofBytes (bytes ++ rest)) =
        .ok (some (seen.reverse ++ bytes)) (ofBytes rest) := by
  intro bytes
  induction bytes with
  | nil =>
    intro seen
    simp [readBytesOnto]
  | cons b bytes ih =>
    intro seen
    simp only [List.length_cons, List.cons_append, ofBytes_cons, readBytesOnto, ih (b :: seen)]
    simp

theorem readBytes_ofBytes (bytes rest : List UInt8) :
    readBytes bytes.length (ofBytes (bytes ++ rest)) = .ok (some bytes) (ofBytes rest) :=
  readBytesOnto_ofBytes rest bytes []

end Source

end ByteMachine
