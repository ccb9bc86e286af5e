import ByteMachine.Proofs.Streams

/-!
Readers and the words they read. A reader recognises words if it succeeds exactly on the streams
that begin with one, takes that word off their front, and rejects a stream that ends inside a word.
This is kept by reading one thing after another.
-/
namespace ByteMachine

theorem Action.bind_eq_ok_iff {σ α β : Type} {x : Action σ α} {f : α → Action σ β} {s t : σ}
    {b : β} : (x >>= f) s = .ok b t ↔ ∃ a u, x s = .ok a u ∧ f a u = .ok b t := by
  constructor
  · intro h
    cases hx : x s with
    | ok a u =>
      rw [bind_of_ok hx] at h
      exact ⟨a, u, rfl, h⟩
    | error e u =>
      rw [bind_of_error hx] at h
      cases h
  · rintro ⟨a, u, hx, hf⟩
    rw [bind_of_ok hx, hf]

theorem Action.bind_eq_error_iff {σ α β : Type} {x : Action σ α} {f : α → Action σ β} {s t : σ}
    {e : Error} : (x >>= f) s = .error e t ↔
      x s = .error e t ∨ ∃ a u, x s = .ok a u ∧ f a u = .error e t := by
  constructor
  · intro h
    cases hx : x s with
    | ok a u =>
      rw [bind_of_ok hx] at h
      exact .inr ⟨a, u, rfl, h⟩
    | error e' u =>
      rw [bind_of_error hx] at h
      cases h
      exact .inl rfl
  · rintro (hx | ⟨a, u, hx, hf⟩)
    · exact bind_of_error hx
    · rw [bind_of_ok hx, hf]

namespace Source

variable {α β : Type}

theorem ofBytes_inj {a b : List UInt8} : ofBytes a = ofBytes b ↔ a = b :=
  List.map_inj_right fun _ _ h => by cases h; rfl

theorem remaining_ofBytes (bytes : List UInt8) : remaining (ofBytes bytes) = bytes.length := by
  induction bytes with
  | nil => rfl
  | cons b bytes ih =>
    rw [remaining] at ih
    rw [remaining, ofBytes_cons, List.countP_cons, ih]
    rfl

/-! ## Streams that end too soon -/

theorem readUntilOnto_of_not_mem {stop : UInt8} :
    ∀ (bytes seen : List UInt8), stop ∉ bytes →
      readUntilOnto stop seen (ofBytes bytes) = .ok none [] := by
  intro bytes
  induction bytes with
  | nil =>
    intro seen _
    rfl
  | cons b bytes ih =>
    intro seen h
    rw [List.mem_cons, not_or] at h
    simp only [ofBytes_cons, readUntilOnto, if_neg (Ne.symm h.1), ih (b :: seen) h.2]

theorem readUntil_of_not_mem {stop : UInt8} {bytes : List UInt8} (h : stop ∉ bytes) :
    readUntil stop (ofBytes bytes) = .ok none [] :=
  readUntilOnto_of_not_mem bytes [] h

theorem readBytesOnto_of_lt (seen : List UInt8) {n : Nat} {bytes : List UInt8}
    (h : bytes.length < n) : readBytesOnto seen n (ofBytes bytes) = .ok none [] := by
  induction bytes generalizing n seen with
  | nil =>
    obtain ⟨k, rfl⟩ := Nat.exists_eq_succ_of_ne_zero (Nat.ne_of_gt h)
    rfl
  | cons b bytes ih =>
    obtain ⟨k, rfl⟩ := Nat.exists_eq_succ_of_ne_zero (Nat.ne_of_gt (Nat.zero_lt_of_lt h))
    rw [ofBytes_cons, readBytesOnto]
    exact ih (b :: seen) (Nat.lt_of_succ_lt_succ h)

theorem readBytes_of_lt {n : Nat} {bytes : List UInt8} (h : bytes.length < n) :
    readBytes n (ofBytes bytes) = .ok none [] :=
  readBytesOnto_of_lt [] h

/-- There is one way to cut a stream at the first stop. -/
theorem cut_inj {stop : UInt8} {a b x y : List UInt8} (ha : stop ∉ a) (hb : stop ∉ b)
    (h : a ++ stop :: x = b ++ stop :: y) : a = b ∧ x = y := by
  have hread := readUntil_ofBytes ha x
  rw [h, readUntil_ofBytes hb y] at hread
  injection hread with hbytes hrest
  exact ⟨(Option.some.inj hbytes).symm, (ofBytes_inj.1 hrest).symm⟩

/-! ## Words -/

/-- A prefix of two words is a part of the first, or the first with a prefix of the second. -/
theorem prefix_append_cases {front back bytes : List UInt8} (h : bytes <+: front ++ back) :
    (bytes <+: front ∧ bytes ≠ front) ∨ ∃ more, bytes = front ++ more ∧ more <+: back := by
  rcases List.prefix_or_prefix_of_prefix h (List.prefix_append front back) with hle | ⟨more, rfl⟩
  · by_cases heq : bytes = front
    · exact .inr ⟨[], by simpa using heq, List.nil_prefix⟩
    · exact .inl ⟨hle, heq⟩
  · exact .inr ⟨more, rfl, (List.prefix_append_right_inj front).1 h⟩

/-- The stream is not what the reader expects. -/
def Rejects (x : Action Source α) (bytes : List UInt8) : Prop :=
  ∃ cause s, x (ofBytes bytes) = .error (.format cause) s

namespace Rejects

variable {x : Action Source α} {f : α → Action Source β} {bytes rest : List UInt8}

theorem throw (cause : FormatError) (bytes : List UInt8) :
    Rejects (throw (.format cause) : Action Source α) bytes :=
  ⟨cause, ofBytes bytes, rfl⟩

theorem bind (h : Rejects x bytes) (f : α → Action Source β) : Rejects (x >>= f) bytes := by
  obtain ⟨cause, s, hs⟩ := h
  exact ⟨cause, s, Action.bind_of_error hs⟩

theorem after {a : α} (h : Rejects (f a) rest) (hx : x (ofBytes bytes) = .ok a (ofBytes rest)) :
    Rejects (x >>= f) bytes := by
  obtain ⟨cause, s, hs⟩ := h
  exact ⟨cause, s, by rw [Action.bind_of_ok hx, hs]⟩

end Rejects

/-- The reader reads words, of which `word` says what each is read as. -/
structure Recognises (x : Action Source α) (word : List UInt8 → α → Prop) : Prop where
  sound {bytes : List UInt8} {a : α} {s : Source} : x (ofBytes bytes) = .ok a s →
    ∃ front rest, bytes = front ++ rest ∧ word front a ∧ s = ofBytes rest
  complete {front : List UInt8} {a : α} (rest : List UInt8) : word front a →
    x (ofBytes (front ++ rest)) = .ok a (ofBytes rest)
  /-- A stream that ends inside a word is rejected. -/
  rejects {front bytes : List UInt8} {a : α} : word front a → bytes <+: front → bytes ≠ front →
    Rejects x bytes

namespace Recognises

variable {x : Action Source α} {f : α → Action Source β} {word : List UInt8 → α → Prop}

/-- A stream begins with at most one word, and that is read as one thing only. -/
theorem unique (hx : Recognises x word) {front front' rest rest' : List UInt8} {a a' : α}
    (h : word front a) (h' : word front' a') (heq : front ++ rest = front' ++ rest') :
    front = front' ∧ a = a' := by
  have hread := hx.complete rest h
  rw [heq, hx.complete rest' h'] at hread
  injection hread with ha hrest
  obtain rfl := ofBytes_inj.1 hrest
  exact ⟨List.append_cancel_right heq, ha.symm⟩

theorem congr {word' : List UInt8 → α → Prop} (hx : Recognises x word)
    (h : ∀ bytes a, word bytes a ↔ word' bytes a) : Recognises x word' := by
  have hwords : word = word' := by
    funext bytes a
    exact propext (h bytes a)
  rwa [← hwords]

/-- A word and then another, which may depend on what the first was read as. -/
theorem bind {word' : α → List UInt8 → β → Prop} (hx : Recognises x word)
    (hf : ∀ a, Recognises (f a) (word' a)) :
    Recognises (x >>= f) fun bytes b =>
      ∃ front back a, bytes = front ++ back ∧ word front a ∧ word' a back b where
  sound := by
    intro bytes b s h
    obtain ⟨a, u, hxa, hfb⟩ := Action.bind_eq_ok_iff.1 h
    obtain ⟨front, rest, rfl, hword, rfl⟩ := hx.sound hxa
    obtain ⟨back, rest', rfl, hword', rfl⟩ := (hf a).sound hfb
    exact ⟨front ++ back, rest', by simp, ⟨front, back, a, rfl, hword, hword'⟩, rfl⟩
  complete := by
    rintro _ b rest ⟨front, back, a, rfl, hword, hword'⟩
    rw [List.append_assoc, Action.bind_of_ok (hx.complete (back ++ rest) hword)]
    exact (hf a).complete rest hword'
  rejects := by
    rintro _ bytes b ⟨front, back, a, rfl, hword, hword'⟩ hle hne
    rcases prefix_append_cases hle with ⟨hfront, hnot⟩ | ⟨more, rfl, hmore⟩
    · exact (hx.rejects hword hfront hnot).bind f
    · have hback := (hf a).rejects hword' hmore fun heq => hne (by rw [heq])
      exact hback.after (hx.complete more hword)

/-- A reader that takes nothing off the stream. -/
theorem ofExcept (r : Except Error α) :
    Recognises (Action.ofExcept r) fun bytes a => bytes = [] ∧ r = .ok a where
  sound := by
    intro bytes a s h
    cases r with
    | error e => cases h
    | ok a' =>
      cases h
      exact ⟨[], bytes, rfl, ⟨rfl, rfl⟩, rfl⟩
  complete := by
    rintro front a rest ⟨rfl, rfl⟩
    rfl
  rejects := by
    rintro front bytes a ⟨rfl, rfl⟩ hle hne
    exact absurd (List.prefix_nil.1 hle) hne

theorem pure (a : α) :
    Recognises (Pure.pure a : Action Source α) fun bytes b => bytes = [] ∧ b = a :=
  (ofExcept (.ok a)).congr fun bytes b => by simp [eq_comm]

theorem throw (e : Error) : Recognises (throw e : Action Source α) fun _ _ => False :=
  (ofExcept (.error e)).congr fun bytes b => by simp

end Recognises

/-! ## Reading to the end of the stream -/

/-- The reader takes a word, or everything if the stream ends before a word does. -/
structure Takes (x : Action Source (Option α)) (word : List UInt8 → α → Prop) : Prop where
  complete {front : List UInt8} {a : α} (rest : List UInt8) : word front a →
    x (ofBytes (front ++ rest)) = .ok (some a) (ofBytes rest)
  total (bytes : List UInt8) : (∃ front rest a, bytes = front ++ rest ∧ word front a) ∨
    x (ofBytes bytes) = .ok none (ofBytes [])

namespace Takes

variable {x : Action Source (Option α)} {word : List UInt8 → α → Prop}

theorem eq_none (hx : Takes x word) {front bytes : List UInt8} {a : α} (h : word front a)
    (hle : bytes <+: front) (hne : bytes ≠ front) :
    x (ofBytes bytes) = .ok none (ofBytes []) := by
  rcases hx.total bytes with ⟨front', rest', a', rfl, h'⟩ | hnone
  · -- two words begin the stream `front`, and what they leave of it is the same
    obtain ⟨more, rfl⟩ := hle
    have hread := hx.complete [] h
    rw [List.append_nil, List.append_assoc, hx.complete _ h'] at hread
    injection hread with _ hrest
    have hnil : rest' ++ more = [] := ofBytes_inj.1 hrest
    rw [List.append_eq_nil_iff] at hnil
    exact absurd (by rw [hnil.1, hnil.2]; simp) hne
  · exact hnone

/-- Plain bytes do not fail, so it does not matter how failures would be reported. -/
theorem adaptExcept (hx : Takes x word) (f : Error → Error) : Takes (x.adaptExcept f) word where
  complete := fun rest h => Action.adaptExcept_of_ok (hx.complete rest h) f
  total := fun bytes => (hx.total bytes).imp_right fun h => Action.adaptExcept_of_ok h f

/-- A word that the stream must not end before, and then more. -/
theorem bind (hx : Takes x word) {f : Option α → Action Source β} {cause : FormatError}
    {word' : α → List UInt8 → β → Prop} (hnone : f none = throw (.format cause))
    (hsome : ∀ a, Recognises (f (some a)) (word' a)) :
    Recognises (x >>= f) fun bytes b =>
      ∃ front back a, bytes = front ++ back ∧ word front a ∧ word' a back b where
  sound := by
    intro bytes b s h
    rcases hx.total bytes with ⟨front, rest, a, rfl, hword⟩ | hend
    · rw [Action.bind_of_ok (hx.complete rest hword)] at h
      obtain ⟨back, rest', rfl, hword', rfl⟩ := (hsome a).sound h
      exact ⟨front ++ back, rest', by simp, ⟨front, back, a, rfl, hword, hword'⟩, rfl⟩
    · rw [Action.bind_of_ok hend, hnone] at h
      cases h
  complete := by
    rintro _ b rest ⟨front, back, a, rfl, hword, hword'⟩
    rw [List.append_assoc, Action.bind_of_ok (hx.complete (back ++ rest) hword)]
    exact (hsome a).complete rest hword'
  rejects := by
    rintro _ bytes b ⟨front, back, a, rfl, hword, hword'⟩ hle hne
    rcases prefix_append_cases hle with ⟨hfront, hnot⟩ | ⟨more, rfl, hmore⟩
    · have hthrow : Rejects (f none) [] := hnone ▸ Rejects.throw cause []
      exact hthrow.after (hx.eq_none hword hfront hnot)
    · have hback := (hsome a).rejects hword' hmore fun heq => hne (by rw [heq])
      exact hback.after (hx.complete more hword)

end Takes

theorem takes_readByte : Takes readByte fun bytes b => bytes = [b] where
  complete := by
    rintro front b rest rfl
    rfl
  total := by
    intro bytes
    cases bytes with
    | nil => exact .inr rfl
    | cons b bytes => exact .inl ⟨[b], bytes, b, rfl, rfl⟩

theorem takes_readUntil (stop : UInt8) :
    Takes (readUntil stop) fun bytes a => bytes = a ++ [stop] ∧ stop ∉ a where
  complete := by
    rintro front a rest ⟨rfl, hnot⟩
    rw [List.append_assoc]
    exact readUntil_ofBytes hnot rest
  total := by
    intro bytes
    by_cases hstop : stop ∈ bytes
    · obtain ⟨a, rest, rfl, hnot⟩ := List.eq_append_cons_of_mem hstop
      exact .inl ⟨a ++ [stop], rest, a, by simp, rfl, hnot⟩
    · exact .inr (readUntil_of_not_mem hstop)

theorem takes_readBytes (count : Nat) :
    Takes (readBytes count) fun bytes a => bytes = a ∧ a.length = count where
  complete := by
    rintro front a rest ⟨rfl, rfl⟩
    exact readBytes_ofBytes front rest
  total := by
    intro bytes
    by_cases hle : count ≤ bytes.length
    · exact .inl ⟨bytes.take count, bytes.drop count, bytes.take count,
        (List.take_append_drop count bytes).symm, rfl, List.length_take_of_le hle⟩
    · exact .inr (readBytes_of_lt (Nat.not_le.1 hle))

end Source

end ByteMachine
