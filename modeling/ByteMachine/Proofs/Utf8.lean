import ByteMachine.Text.Utf8

/-!
UTF-8 is read back as it was written: bytes decode to a text exactly when they are its encoding.
-/
namespace ByteMachine.Utf8

/-! ## Sequences that have begun -/

namespace Pending

/-- The bytes are those that a sequence still misses, each in its range. -/
def Fits : Pending → List UInt8 → Prop
  | p, [] => p.missing = 0
  | p, b :: tail =>
    p.missing ≠ 0 ∧ p.low ≤ b.toNat ∧ b.toNat ≤ p.high ∧ (p.extend b.toNat).Fits tail

def complete : Pending → List UInt8 → Nat
  | p, [] => p.value
  | p, b :: tail => (p.extend b.toNat).complete tail

/-- What the first of one, two, three or four bytes announces, given the bits it carries. -/
def one (bits : Nat) : Pending := { value := bits, seen := 1, missing := 0 }

def two (bits : Nat) : Pending := { value := bits, seen := 1, missing := 1 }

def three (bits : Nat) : Pending :=
  { value := bits, seen := 1, missing := 2, low := if bits = 0 then 0xA0 else 0x80
    high := if bits = 0xD then 0x9F else 0xBF }

def four (bits : Nat) : Pending :=
  { value := bits, seen := 1, missing := 3, low := if bits = 0 then 0x90 else 0x80
    high := if bits = 4 then 0x8F else 0xBF }

end Pending

theorem start_one {b : Nat} (h : b < 0x80) : start b = some (.one b) := by
  simp [start, h, Pending.one]

theorem start_two {k : Nat} (hl : 2 ≤ k) (hh : k < 0x20) : start (0xC0 + k) = some (.two k) := by
  unfold start
  rw [if_neg (by omega), if_neg (by omega), if_pos (by omega)]
  simp [Pending.two]

theorem start_three {k : Nat} (h : k < 0x10) : start (0xE0 + k) = some (.three k) := by
  revert k
  decide

theorem start_four {k : Nat} (h : k < 5) : start (0xF0 + k) = some (.four k) := by
  revert k
  decide

theorem start_cases {b : Nat} {p : Pending} (h : start b = some p) :
    (b < 0x80 ∧ p = .one b) ∨ (∃ k, 2 ≤ k ∧ k < 0x20 ∧ b = 0xC0 + k ∧ p = .two k) ∨
      (∃ k < 0x10, b = 0xE0 + k ∧ p = .three k) ∨ ∃ k < 5, b = 0xF0 + k ∧ p = .four k := by
  have hb : b < 0x80 ∨ 0xC2 ≤ b ∧ b < 0xE0 ∨ 0xE0 ≤ b ∧ b < 0xF0 ∨ 0xF0 ≤ b ∧ b < 0xF5 := by
    unfold start at h
    repeat' split at h
    all_goals first | omega | cases h
  rcases hb with hb | ⟨hl, hh⟩ | ⟨hl, hh⟩ | ⟨hl, hh⟩
  · rw [start_one hb] at h
    exact .inl ⟨hb, (Option.some.inj h).symm⟩
  · obtain ⟨k, rfl⟩ := Nat.exists_eq_add_of_le (show 0xC0 ≤ b by omega)
    rw [start_two (by omega) (by omega)] at h
    exact .inr (.inl ⟨k, by omega, by omega, rfl, (Option.some.inj h).symm⟩)
  · obtain ⟨k, rfl⟩ := Nat.exists_eq_add_of_le hl
    rw [start_three (by omega)] at h
    exact .inr (.inr (.inl ⟨k, by omega, rfl, (Option.some.inj h).symm⟩))
  · obtain ⟨k, rfl⟩ := Nat.exists_eq_add_of_le hl
    rw [start_four (by omega)] at h
    exact .inr (.inr (.inr ⟨k, by omega, rfl, (Option.some.inj h).symm⟩))

theorem decodeFrom_of_fits (done : Nat) (chars : List Char) (rest : List UInt8) :
    ∀ (tail : List UInt8) (p : Pending), p.missing ≠ 0 → p.Fits tail →
      decodeFrom done chars (some p) (tail ++ rest) =
        decodeFrom (done + (p.seen + tail.length)) (Char.ofNat (p.complete tail) :: chars) none
          rest := by
  intro tail
  induction tail with
  | nil =>
    intro p hp hf
    exact absurd hf hp
  | cons b tail ih =>
    intro p _ hf
    obtain ⟨hm, hl, hh, hf⟩ := hf
    simp only [List.cons_append, decodeFrom, hl, hh, and_self, ↓reduceIte]
    by_cases hq : (p.extend b.toNat).missing = 0
    · cases tail with
      | nil =>
        rw [if_pos hq]
        rfl
      | cons c tail => exact absurd hq hf.1
    · simp only [hq, ↓reduceIte, ih _ hq hf, Pending.complete, List.length_cons]
      simp only [Pending.extend, Nat.add_assoc, Nat.add_comm 1]

theorem fits_of_decodeFrom {done : Nat} {chars cs : List Char} :
    ∀ {bytes : List UInt8} {p : Pending}, p.missing ≠ 0 →
      decodeFrom done chars (some p) bytes = .ok cs →
      ∃ tail rest, bytes = tail ++ rest ∧ p.Fits tail := by
  intro bytes
  induction bytes with
  | nil =>
    intro p _ h
    simp [decodeFrom] at h
  | cons b bytes ih =>
    intro p hp h
    rw [decodeFrom] at h
    split at h
    case isFalse => cases h
    case isTrue hr =>
      by_cases hq : (p.extend b.toNat).missing = 0
      · exact ⟨[b], bytes, rfl, hp, hr.1, hr.2, hq⟩
      · simp only [hq, ↓reduceIte] at h
        obtain ⟨tail, rest, rfl, hf⟩ := ih hq h
        exact ⟨b :: tail, rest, rfl, hp, hr.1, hr.2, hf⟩

/-! ## Single characters -/

theorem toNat_valid (c : Char) : c.toNat < 0xD800 ∨ 0xDFFF < c.toNat ∧ c.toNat < 0x110000 :=
  c.valid

theorem toNat_ofNat_byte {n : Nat} (h : n < 0x100) : (UInt8.ofNat n).toNat = n :=
  UInt8.toNat_ofNat_of_lt' h

/-- What a character is written as begins a sequence and completes it. -/
theorem encodeChar_fits (c : Char) :
    ∃ b tail p, encodeChar c = b :: tail ∧ start b.toNat = some p ∧ p.Fits tail ∧ p.seen = 1 ∧
      p.complete tail = c.toNat := by
  have hv := toNat_valid c
  generalize hn : c.toNat = n at hv
  unfold encodeChar
  simp only [hn]
  split
  case isTrue h =>
    refine ⟨_, _, .one n, rfl, ?_, rfl, rfl, rfl⟩
    rw [toNat_ofNat_byte (by omega), start_one h]
  split
  case isTrue h =>
    refine ⟨_, _, .two (n / 0x40), rfl, ?_, ?_, rfl, ?_⟩
    · rw [toNat_ofNat_byte (by omega), start_two (by omega) (by omega)]
    · simp [Pending.Fits, Pending.extend, Pending.two]; omega
    · simp [Pending.complete, Pending.extend, Pending.two]; omega
  split
  case isTrue h =>
    refine ⟨_, _, .three (n / 0x1000), rfl, ?_, ?_, rfl, ?_⟩
    · rw [toNat_ofNat_byte (by omega), start_three (by omega)]
    · simp only [Pending.Fits, Pending.extend, Pending.three]
      rw [toNat_ofNat_byte (by omega), toNat_ofNat_byte (by omega)]
      grind
    · simp [Pending.complete, Pending.extend, Pending.three]; omega
  case isFalse h =>
    refine ⟨_, _, .four (n / 0x40000), rfl, ?_, ?_, rfl, ?_⟩
    · rw [toNat_ofNat_byte (by omega), start_four (by omega)]
    · simp only [Pending.Fits, Pending.extend, Pending.four]
      repeat rw [toNat_ofNat_byte (by omega)]
      grind
    · simp [Pending.complete, Pending.extend, Pending.four]; omega

theorem toNat_ofNat_char {n : Nat} (h : n < 0xD800 ∨ 0xDFFF < n ∧ n < 0x110000) :
    (Char.ofNat n).toNat = n := by
  rw [Char.ofNat, dif_pos h]
  rfl

theorem ofNat_eq_byte {n : Nat} {b : UInt8} (h : n = b.toNat) : UInt8.ofNat n = b := by
  rw [h, UInt8.ofNat_toNat]

/-- A sequence that is complete is what its character is written as. -/
theorem encodeChar_of_fits {b : UInt8} {tail : List UInt8} {p : Pending}
    (hs : start b.toNat = some p) (hf : p.Fits tail) :
    encodeChar (Char.ofNat (p.complete tail)) = b :: tail := by
  rcases start_cases hs with ⟨hb, rfl⟩ | ⟨k, hl, hh, hb, rfl⟩ | ⟨k, hk, hb, rfl⟩ | ⟨k, hk, hb, rfl⟩
  · match tail, hf with
    | [], _ =>
      simp only [Pending.complete, Pending.one]
      simp only [encodeChar, toNat_ofNat_char (.inl (show b.toNat < 0xD800 by omega))]
      rw [if_pos hb, UInt8.ofNat_toNat]
  · match tail, hf with
    | [x], ⟨_, hx, hx', _⟩ =>
      simp only [Pending.complete, Pending.extend, Pending.two] at hx hx' ⊢
      have hn : (Char.ofNat (k * 0x40 + x.toNat % 0x40)).toNat = k * 0x40 + x.toNat % 0x40 :=
        toNat_ofNat_char (by omega)
      simp only [encodeChar, hn]
      rw [if_neg (by omega), if_pos (by omega)]
      simp only [List.cons.injEq, and_true]
      exact ⟨ofNat_eq_byte (by omega), ofNat_eq_byte (by omega)⟩
  · match tail, hf with
    | [x, y], ⟨_, hx, hx', _, hy, hy', _⟩ =>
      simp only [Pending.complete, Pending.extend, Pending.three] at hx hx' hy hy' ⊢
      -- The restricted second byte keeps longer forms and surrogates out.
      have hv : 0x20 ≤ k * 0x40 + x.toNat % 0x40 ∧
          (k * 0x40 + x.toNat % 0x40 < 0x360 ∨ 0x380 ≤ k * 0x40 + x.toNat % 0x40) := by grind
      have hx : 0x80 ≤ x.toNat ∧ x.toNat ≤ 0xBF := by grind
      have hn : (Char.ofNat ((k * 0x40 + x.toNat % 0x40) * 0x40 + y.toNat % 0x40)).toNat =
          (k * 0x40 + x.toNat % 0x40) * 0x40 + y.toNat % 0x40 := toNat_ofNat_char (by omega)
      simp only [encodeChar, hn]
      rw [if_neg (by omega), if_neg (by omega), if_pos (by omega)]
      simp only [List.cons.injEq, and_true]
      exact ⟨ofNat_eq_byte (by omega), ofNat_eq_byte (by omega), ofNat_eq_byte (by omega)⟩
  · match tail, hf with
    | [x, y, z], ⟨_, hx, hx', _, hy, hy', _, hz, hz', _⟩ =>
      simp only [Pending.complete, Pending.extend, Pending.four] at hx hx' hy hy' hz hz' ⊢
      have hv : 0x10 ≤ k * 0x40 + x.toNat % 0x40 ∧ k * 0x40 + x.toNat % 0x40 < 0x110 := by grind
      have hx : 0x80 ≤ x.toNat ∧ x.toNat ≤ 0xBF := by grind
      have hn : (Char.ofNat (((k * 0x40 + x.toNat % 0x40) * 0x40 + y.toNat % 0x40) * 0x40 +
          z.toNat % 0x40)).toNat = ((k * 0x40 + x.toNat % 0x40) * 0x40 + y.toNat % 0x40) * 0x40 +
            z.toNat % 0x40 := toNat_ofNat_char (by omega)
      simp only [encodeChar, hn]
      rw [if_neg (by omega), if_neg (by omega), if_neg (by omega)]
      simp only [List.cons.injEq, and_true]
      exact ⟨ofNat_eq_byte (by omega), ofNat_eq_byte (by omega), ofNat_eq_byte (by omega),
        ofNat_eq_byte (by omega)⟩

/-! ## Texts -/

theorem decodeFrom_encodeChar (c : Char) (done : Nat) (chars : List Char) (rest : List UInt8) :
    decodeFrom done chars none (encodeChar c ++ rest) =
      decodeFrom (done + (encodeChar c).length) (c :: chars) none rest := by
  obtain ⟨b, tail, p, he, hs, hf, h1, hc⟩ := encodeChar_fits c
  rw [he, List.cons_append, decodeFrom, hs]
  by_cases hm : p.missing = 0
  · cases tail with
    | nil => simp [hm, show p.value = c.toNat from hc]
    | cons x tail => exact absurd hm hf.1
  · simp only [hm, ↓reduceIte]
    rw [decodeFrom_of_fits done chars rest tail p hm hf, hc, h1, Char.ofNat_toNat,
      List.length_cons, Nat.add_comm 1]

theorem decodeFrom_encode (cs : List Char) (done : Nat) (chars : List Char) :
    decodeFrom done chars none (cs.flatMap encodeChar) = .ok (chars.reverse ++ cs) := by
  induction cs generalizing done chars with
  | nil => simp [decodeFrom]
  | cons c cs ih =>
    rw [List.flatMap_cons, decodeFrom_encodeChar, ih]
    simp

theorem decode_encode (text : String) : decode (encode text) = .ok text := by
  simp [decode, encode, decodeFrom_encode, Except.map]

/-- Bytes that can be read begin with a character, unless there are none. -/
theorem exists_encodeChar_of_decodeFrom {done : Nat} {chars cs : List Char} {b : UInt8}
    {bytes : List UInt8} (h : decodeFrom done chars none (b :: bytes) = .ok cs) :
    ∃ c rest, b :: bytes = encodeChar c ++ rest := by
  rw [decodeFrom] at h
  cases hs : start b.toNat with
  | none => simp [hs] at h
  | some p =>
    simp only [hs] at h
    by_cases hm : p.missing = 0
    · exact ⟨Char.ofNat (p.complete []), bytes, by rw [encodeChar_of_fits hs (show p.Fits [] from hm)]; rfl⟩
    · rw [if_neg hm] at h
      obtain ⟨tail, rest, rfl, hf⟩ := fits_of_decodeFrom hm h
      exact ⟨Char.ofNat (p.complete tail), rest, by rw [encodeChar_of_fits hs hf]; rfl⟩

theorem encodeChar_ne_nil (c : Char) : encodeChar c ≠ [] := by
  obtain ⟨b, tail, p, he, -⟩ := encodeChar_fits c
  simp [he]

theorem encode_of_decodeFrom :
    ∀ (bytes : List UInt8) {done : Nat} {chars cs : List Char},
      decodeFrom done chars none bytes = .ok cs →
      ∃ read, cs = chars.reverse ++ read ∧ bytes = read.flatMap encodeChar
  | [], _, chars, cs, h => ⟨[], by simpa [decodeFrom, eq_comm] using h, rfl⟩
  | b :: bytes, done, chars, cs, h => by
    obtain ⟨c, rest, hb⟩ := exists_encodeChar_of_decodeFrom h
    have hlt : rest.length < (b :: bytes).length := by
      rw [hb, List.length_append]
      have := List.length_pos_iff.2 (encodeChar_ne_nil c)
      omega
    rw [hb, decodeFrom_encodeChar] at h
    obtain ⟨read, rfl, rfl⟩ := encode_of_decodeFrom rest h
    exact ⟨c :: read, by simp, by rw [hb, List.flatMap_cons]⟩
termination_by bytes => bytes.length
decreasing_by exact hlt

/-- Bytes decode to a text exactly when they are its encoding. -/
theorem decode_eq_ok_iff {bytes : List UInt8} {text : String} :
    decode bytes = .ok text ↔ bytes = encode text := by
  constructor
  · intro h
    cases hd : decodeFrom 0 [] none bytes with
    | error e => simp [decode, hd, Except.map] at h
    | ok cs =>
      obtain ⟨read, rfl, rfl⟩ := encode_of_decodeFrom bytes hd
      simp only [decode, hd, Except.map, Except.ok.injEq] at h
      simp [encode, ← h]
  · rintro rfl
    exact decode_encode text

end ByteMachine.Utf8
