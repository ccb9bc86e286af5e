import ByteMachine.Proofs.FlatMachine
import ByteMachine.Proofs.Placement

/-!
Where addresses come from and where they lead. An address is made from a number or from bytes, moves
on in its region, and can be bound to a region of another length. What it would hold then is
computed without any limit, and each operation succeeds exactly if that is an address: the value
lies in the region, and the width allows it. So does a chain of them if this holds all along it.
-/
namespace ByteMachine.Address

/-- What an address holds, whether or not it is one. -/
structure Parts where
  value : Nat
  width : Width
  maximum : Nat
  deriving DecidableEq, Repr

/-- The value lies in the region and can be encoded. -/
structure Parts.Valid (x : Parts) : Prop where
  value_lt : x.value < x.maximum
  value_le : x.value ≤ x.width.maxValue

theorem Parts.valid_iff {x : Parts} : x.Valid ↔ x.value < x.maximum ∧ x.value ≤ x.width.maxValue :=
  ⟨fun h => ⟨h.value_lt, h.value_le⟩, fun h => ⟨h.1, h.2⟩⟩

def parts (a : Address) : Parts :=
  ⟨a.value, a.width, a.maximum⟩

theorem valid_parts (a : Address) : a.parts.Valid :=
  ⟨a.value_lt, a.value_le⟩

theorem eq_of_parts_eq {a b : Address} (h : a.parts = b.parts) : a = b := by
  obtain ⟨value, width, maximum, hm, hw⟩ := a
  obtain ⟨value', width', maximum', hm', hw'⟩ := b
  cases h
  rfl

theorem Parts.Valid.exists_parts {x : Parts} (h : x.Valid) : ∃ a : Address, a.parts = x :=
  ⟨⟨x.value, x.width, x.maximum, h.value_lt, h.value_le⟩, rfl⟩

/-! ## Making addresses -/

theorem make_eq_ok_iff {value maximum : Nat} {width : Width} {a : Address} :
    make value width maximum = .ok a ↔
      (Parts.mk value width maximum).Valid ∧ a.parts = ⟨value, width, maximum⟩ := by
  constructor
  · intro h
    unfold make at h
    split at h
    · next hw =>
      split at h
      · next hm =>
        cases h
        exact ⟨⟨hm, hw⟩, rfl⟩
      · cases h
    · cases h
  · rintro ⟨-, hparts⟩
    cases hparts
    exact make_of_lt a.value_le a.value_lt

theorem ofBytes_eq_ok_iff {bytes : List UInt8} {width : Width} {maximum : Nat} {a : Address} :
    ofBytes bytes width maximum = .ok a ↔ bytes.length = width.bytes ∧
      (Parts.mk (LittleEndian.decode bytes) width maximum).Valid ∧
      a.parts = ⟨LittleEndian.decode bytes, width, maximum⟩ := by
  rw [← make_eq_ok_iff]
  by_cases hlength : bytes.length = width.bytes <;>
    simp [ofBytes, Width.decode, hlength, bind, Except.bind]

/-- An address comes back from its own bytes. -/
theorem ofBytes_bytes (a : Address) : ofBytes a.bytes a.width a.maximum = .ok a := by
  have hlimit : a.value < LittleEndian.limit a.width.bytes :=
    a.width.lt_iff_le_maxValue a.value |>.2 a.value_le
  have hdecode : LittleEndian.decode a.bytes = a.value := LittleEndian.decode_encode _ _ hlimit
  rw [ofBytes_eq_ok_iff, hdecode]
  exact ⟨LittleEndian.length_encode _ _, a.valid_parts, rfl⟩

theorem encode_value (a : Address) : a.width.encode a.value = .ok a.bytes :=
  if_pos a.value_le

/-! ## Moving -/

theorem increment_eq_ok_iff {a b : Address} {n : Nat} :
    a.increment n = .ok b ↔ (Parts.mk (a.value + n) a.width a.maximum).Valid ∧
      b.parts = ⟨a.value + n, a.width, a.maximum⟩ := by
  rw [← make_eq_ok_iff, increment]
  split
  · rfl
  · next hword =>
    have hmax : a.width.maxValue < Numeral.wordLimit := by cases a.width <;> decide
    constructor
    · intro h
      cases h
    · intro h
      have hle := (make_eq_ok_iff.1 h).1.value_le
      exact absurd (Nat.lt_of_le_of_lt hle hmax) hword

theorem value_of_increment {a b : Address} {n : Nat} (h : a.increment n = .ok b) :
    b.value = a.value + n :=
  congrArg Parts.value (increment_eq_ok_iff.1 h).2

/-- Two moves forward are one, unless the sum of their lengths is no word. -/
theorem increment_increment {a b : Address} {m n : Nat} :
    (a.increment m >>= fun c => c.increment n) = .ok b ↔
      m + n < Numeral.wordLimit ∧ a.increment (m + n) = .ok b := by
  have hmax : a.width.maxValue < Numeral.wordLimit := by cases a.width <;> decide
  constructor
  · intro h
    obtain ⟨c, hc, hb⟩ := exists_ok_of_bind h
    obtain ⟨-, hparts⟩ := increment_eq_ok_iff.1 hc
    obtain ⟨hvalue, hwidth, hmaximum⟩ := Parts.mk.inj hparts
    rw [increment_eq_ok_iff, hvalue, hwidth, hmaximum, Nat.add_assoc] at hb
    have hle : a.value + (m + n) ≤ a.width.maxValue := hb.1.value_le
    exact ⟨by omega, increment_eq_ok_iff.2 hb⟩
  · rintro ⟨-, h⟩
    obtain ⟨hvalid, hparts⟩ := increment_eq_ok_iff.1 h
    have hlt : a.value + (m + n) < a.maximum := hvalid.value_lt
    have hle : a.value + (m + n) ≤ a.width.maxValue := hvalid.value_le
    have hbetween : (Parts.mk (a.value + m) a.width a.maximum).Valid :=
      ⟨show a.value + m < a.maximum by omega, show a.value + m ≤ a.width.maxValue by omega⟩
    obtain ⟨c, hcparts⟩ := hbetween.exists_parts
    have hc : a.increment m = .ok c := increment_eq_ok_iff.2 ⟨hbetween, hcparts⟩
    obtain ⟨hvalue, hwidth, hmaximum⟩ := Parts.mk.inj hcparts
    rw [← Nat.add_assoc, ← hvalue, ← hwidth, ← hmaximum] at hvalid hparts
    rw [hc]
    exact increment_eq_ok_iff.2 ⟨hvalid, hparts⟩

inductive Move where
  | increment (n : Nat)
  | rebound (maximum : Nat)
  deriving DecidableEq, Repr

def Move.apply : Move → Address → Except Error Address
  | increment n, a => a.increment n
  | rebound maximum, a => a.rebound maximum

def Move.shift : Move → Parts → Parts
  | increment n, x => { x with value := x.value + n }
  | rebound maximum, x => { x with maximum }

theorem Move.apply_eq_ok_iff {move : Move} {a b : Address} :
    move.apply a = .ok b ↔ (move.shift a.parts).Valid ∧ b.parts = move.shift a.parts := by
  cases move with
  | increment n => exact increment_eq_ok_iff
  | rebound maximum => exact make_eq_ok_iff

/-! ## Chains -/

def follow (a : Address) (moves : List Move) : Except Error Address :=
  moves.foldlM (fun a move => move.apply a) a

def Parts.after (x : Parts) (moves : List Move) : Parts :=
  moves.foldl (fun x move => move.shift x) x

/-- Moves succeed exactly if each of them leads to an address. -/
theorem follow_eq_ok_iff {a b : Address} {moves : List Move} :
    a.follow moves = .ok b ↔
      (∀ front, front <+: moves → (a.parts.after front).Valid) ∧ b.parts = a.parts.after moves := by
  induction moves generalizing a with
  | nil =>
    constructor
    · intro h
      cases h
      refine ⟨fun front hfront => ?_, rfl⟩
      rw [List.prefix_nil.1 hfront]
      exact valid_parts _
    · rintro ⟨-, hparts⟩
      exact congrArg Except.ok (eq_of_parts_eq hparts).symm
  | cons move moves ih =>
    constructor
    · intro h
      rw [follow, List.foldlM_cons] at h
      obtain ⟨c, hc, hb⟩ := exists_ok_of_bind h
      have hparts := (Move.apply_eq_ok_iff.1 hc).2
      obtain ⟨hvalid, hend⟩ := ih.1 hb
      rw [hparts] at hvalid hend
      refine ⟨fun front hfront => ?_, hend⟩
      rcases List.prefix_cons_iff.1 hfront with rfl | ⟨rest, rfl, hrest⟩
      · exact a.valid_parts
      · exact hvalid rest hrest
    · rintro ⟨hvalid, hend⟩
      have hfirst : (move.shift a.parts).Valid :=
        hvalid [move] (List.prefix_append [move] moves)
      obtain ⟨c, hcparts⟩ := hfirst.exists_parts
      have hc : move.apply a = .ok c := Move.apply_eq_ok_iff.2 ⟨hfirst, hcparts⟩
      rw [follow, List.foldlM_cons, hc]
      refine ih.2 ⟨fun front hfront => ?_, ?_⟩
      · rw [hcparts]
        exact hvalid (move :: front) (List.cons_prefix_cons.2 ⟨rfl, hfront⟩)
      · rw [hcparts]
        exact hend

inductive Origin where
  | number (value : Nat) (width : Width) (maximum : Nat)
  | encoded (bytes : List UInt8) (width : Width) (maximum : Nat)
  deriving DecidableEq, Repr

def Origin.address : Origin → Except Error Address
  | number value width maximum => make value width maximum
  | encoded bytes width maximum => ofBytes bytes width maximum

/-- Bytes hold a number if there are as many of them as the width says. -/
inductive Origin.Holds : Origin → Parts → Prop where
  | number (value : Nat) (width : Width) (maximum : Nat) :
      Holds (.number value width maximum) ⟨value, width, maximum⟩
  | encoded {bytes : List UInt8} {width : Width} (hlength : bytes.length = width.bytes)
      (maximum : Nat) :
      Holds (.encoded bytes width maximum) ⟨LittleEndian.decode bytes, width, maximum⟩

theorem Origin.address_eq_ok_iff {origin : Origin} {a : Address} :
    origin.address = .ok a ↔ origin.Holds a.parts := by
  constructor
  · intro h
    cases origin with
    | number value width maximum =>
      rw [(make_eq_ok_iff.1 h).2]
      exact .number value width maximum
    | encoded bytes width maximum =>
      obtain ⟨hlength, -, hparts⟩ := ofBytes_eq_ok_iff.1 h
      rw [hparts]
      exact .encoded hlength maximum
  · intro h
    have hvalid := a.valid_parts
    generalize hparts : a.parts = x at h hvalid
    cases h with
    | number => exact make_eq_ok_iff.2 ⟨hvalid, hparts⟩
    | encoded hlength => exact ofBytes_eq_ok_iff.2 ⟨hlength, hvalid, hparts⟩

def chain (origin : Origin) (moves : List Move) : Except Error Address := do
  (← origin.address).follow moves

theorem chain_eq_ok_iff {origin : Origin} {moves : List Move} {a : Address} :
    chain origin moves = .ok a ↔ ∃ x, origin.Holds x ∧
      (∀ front, front <+: moves → (x.after front).Valid) ∧ a.parts = x.after moves := by
  constructor
  · intro h
    obtain ⟨first, hfirst, h⟩ := exists_ok_of_bind h
    exact ⟨first.parts, Origin.address_eq_ok_iff.1 hfirst, follow_eq_ok_iff.1 h⟩
  · rintro ⟨x, hx, hvalid, hend⟩
    obtain ⟨first, rfl⟩ := (hvalid [] (List.nil_prefix)).exists_parts
    rw [chain, Origin.address_eq_ok_iff.2 hx]
    exact follow_eq_ok_iff.2 ⟨hvalid, hend⟩

/-- A chain of operations on addresses, with any numbers whatever, yields an address exactly if its
numbers, computed without a limit, are those of an address all along the chain; and so the value
lies in the region and can be encoded. Each address comes back from its bytes, which are those of
its value. It moves forward exactly if the sum is in the region and can be encoded, keeps its width
and region then, and moving forward twice is moving by both numbers at once, if these make a word.
-/
theorem chains_stay_inside :
    (∀ origin moves a, chain origin moves = .ok a →
      a.value < a.maximum ∧ a.value ≤ a.width.maxValue) ∧
    (∀ origin moves a, chain origin moves = .ok a ↔ ∃ x, origin.Holds x ∧
      (∀ front, front <+: moves → (x.after front).Valid) ∧ a.parts = x.after moves) ∧
    ∀ a : Address,
      ofBytes a.bytes a.width a.maximum = .ok a ∧ a.width.encode a.value = .ok a.bytes ∧
      (∀ n, (∃ b, a.increment n = .ok b) ↔
        a.value + n < a.maximum ∧ a.value + n ≤ a.width.maxValue) ∧
      (∀ n b, a.increment n = .ok b →
        b.value = a.value + n ∧ b.width = a.width ∧ b.maximum = a.maximum) ∧
      ∀ m n b, (a.increment m >>= fun c => c.increment n) = .ok b ↔
        m + n < Numeral.wordLimit ∧ a.increment (m + n) = .ok b := by
  refine ⟨fun origin moves a h => ?_, fun origin moves a => chain_eq_ok_iff, fun a =>
    ⟨a.ofBytes_bytes, a.encode_value, fun n => ?_, fun n b h => ?_, fun m n b =>
      increment_increment⟩⟩
  · obtain ⟨x, -, hvalid, hend⟩ := chain_eq_ok_iff.1 h
    have hlast := hvalid moves (List.prefix_refl moves)
    rw [← hend] at hlast
    exact Parts.valid_iff.1 hlast
  · constructor
    · rintro ⟨b, h⟩
      exact Parts.valid_iff.1 (increment_eq_ok_iff.1 h).1
    · intro h
      have hvalid : (Parts.mk (a.value + n) a.width a.maximum).Valid := Parts.valid_iff.2 h
      obtain ⟨b, hparts⟩ := hvalid.exists_parts
      exact ⟨b, increment_eq_ok_iff.2 ⟨hvalid, hparts⟩⟩
  · exact Parts.mk.inj (increment_eq_ok_iff.1 h).2

/-- A one-byte address is moved to the last value of its width; in a region that is larger, the
next move fails for the width alone. -/
example :
    (chain (.encoded [0xF0] .one 0xF8) [.rebound 0x200, .increment 15]).map bytes = .ok [0xFF] ∧
      (chain (.encoded [0xF0] .one 0xF8) [.rebound 0x200, .increment 15, .increment 1]) =
        .error (.address (.tooWideForAddress 0x100 .one)) := by
  decide

end ByteMachine.Address
