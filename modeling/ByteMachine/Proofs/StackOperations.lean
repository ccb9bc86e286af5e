import ByteMachine.Proofs.Readers
import ByteMachine.Proofs.Refinement

/-!
The operations of the value stack in terms of its contents, given bottom first. One that succeeds
moves bytes between the top of the contents and its argument or its result, so pushing and popping
undo each other. One that fails changes nothing, and it fails only where bytes do not fit, are not
there, or are no text.
-/
namespace ByteMachine

namespace ValueStack

variable {s t : ValueStack} {bytes : List UInt8} {text : String} {b : UInt8} {e : Error} {n : Nat}

theorem length_bytes_le (s : ValueStack) : s.bytes.length ≤ s.capacity := by
  rw [length_bytes]
  exact Nat.le_add_right _ _

theorem exists_of_length_le {contents : List UInt8} {capacity : Nat}
    (h : contents.length ≤ capacity) :
    ∃ t : ValueStack, t.bytes = contents ∧ t.capacity = capacity := by
  refine ⟨⟨contents.reverse, capacity - contents.length⟩, List.reverse_reverse _, ?_⟩
  simp only [ValueStack.capacity, length, List.length_reverse]
  omega

theorem bytes_eq_append_iff : s.bytes = t.bytes ++ bytes ↔ s.items = bytes.reverse ++ t.items := by
  rw [ValueStack.bytes, ValueStack.bytes, List.reverse_eq_iff, List.reverse_append,
    List.reverse_reverse]

theorem exists_below {below : List UInt8} (h : s.bytes = below ++ bytes) :
    ∃ t : ValueStack, t.bytes = below ∧ t.capacity = s.capacity := by
  have hle := s.length_bytes_le
  rw [h, List.length_append] at hle
  exact exists_of_length_le (Nat.le_of_add_right_le hle)

/-! ## Pushing and popping bytes -/

theorem pushBytes_eq_ok_iff :
    pushBytes bytes s = .ok () t ↔ t.bytes = s.bytes ++ bytes ∧ t.capacity = s.capacity := by
  constructor
  · intro h
    by_cases hroom : bytes.length ≤ s.room
    · obtain ⟨u, hu, hbytes, hcapacity⟩ := pushBytes_of_le hroom
      rw [hu] at h
      cases h
      exact ⟨hbytes, hcapacity⟩
    · rw [pushBytes, if_neg hroom] at h
      cases h
  · rintro ⟨hbytes, hcapacity⟩
    have hle := t.length_bytes_le
    rw [hbytes, List.length_append, hcapacity] at hle
    obtain ⟨u, hu, hbytes', hcapacity'⟩ := pushBytes_of_fits hle
    obtain rfl : u = t := eq_of_bytes_eq (hbytes'.trans hbytes.symm)
      (hcapacity'.trans hcapacity.symm)
    exact hu

theorem pushBytes_eq_error_iff : pushBytes bytes s = .error e t ↔
    s.room < bytes.length ∧ e = .overflow (.full bytes.length s.length s.capacity) ∧ t = s := by
  unfold pushBytes
  by_cases hroom : bytes.length ≤ s.room
  · rw [if_pos hroom]
    exact iff_of_false nofun fun h => Nat.not_lt.2 hroom h.1
  · rw [if_neg hroom]
    constructor
    · rintro ⟨⟩
      exact ⟨Nat.not_le.1 hroom, rfl, rfl⟩
    · rintro ⟨-, rfl, rfl⟩
      rfl

theorem popBytes_eq_ok_iff : popBytes n s = .ok bytes t ↔
    bytes.length = n ∧ s.bytes = t.bytes ++ bytes ∧ t.capacity = s.capacity := by
  rw [bytes_eq_append_iff]
  obtain ⟨items, room⟩ := s
  obtain ⟨items', room'⟩ := t
  simp only [popBytes, ValueStack.capacity, length]
  constructor
  · intro h
    split at h
    · next hlength =>
      cases h
      rw [List.length_take] at hlength
      refine ⟨by rw [List.length_reverse, List.length_take, hlength], ?_, ?_⟩
      · rw [List.reverse_reverse, List.take_append_drop]
      · rw [List.length_drop]
        omega
    · cases h
  · rintro ⟨rfl, rfl, hcapacity⟩
    rw [List.length_append, List.length_reverse] at hcapacity
    have htake : (bytes.reverse ++ items').take bytes.length = bytes.reverse :=
      List.take_left' List.length_reverse
    have hdrop : (bytes.reverse ++ items').drop bytes.length = items' :=
      List.drop_left' List.length_reverse
    obtain rfl : room' = room + bytes.length := by omega
    rw [htake, hdrop, if_pos List.length_reverse, List.reverse_reverse]

theorem popBytes_eq_error_iff : popBytes n s = .error e t ↔
    s.length < n ∧ e = .underflow n s.length ∧ t = s := by
  simp only [popBytes, List.length_take, length]
  by_cases hdepth : n ≤ s.items.length
  · rw [if_pos (Nat.min_eq_left hdepth)]
    refine iff_of_false (fun h => ?_) fun h => Nat.not_lt.2 hdepth h.1
    cases h
  · rw [if_neg (by omega)]
    constructor
    · rintro ⟨⟩
      exact ⟨Nat.not_le.1 hdepth, rfl, rfl⟩
    · rintro ⟨-, rfl, rfl⟩
      rfl

theorem popByte_eq_ok_iff :
    popByte s = .ok b t ↔ s.bytes = t.bytes ++ [b] ∧ t.capacity = s.capacity := by
  rw [bytes_eq_append_iff]
  obtain ⟨items, room⟩ := s
  obtain ⟨items', room'⟩ := t
  simp only [popByte, ValueStack.capacity, length]
  cases items with
  | nil =>
    constructor
    · intro h
      cases h
    · rintro ⟨h, -⟩
      cases h
  | cons b' items =>
    constructor
    · rintro ⟨⟩
      exact ⟨rfl, by rw [List.length_cons]; omega⟩
    · rintro ⟨⟨⟩, hcapacity⟩
      obtain rfl : room' = room + 1 := by
        have hlength : (b :: [].append items').length = items'.length + 1 := List.length_cons
        omega
      rfl

theorem popByte_eq_error_iff :
    popByte s = .error e t ↔ s.bytes = [] ∧ e = .underflow 1 0 ∧ t = s := by
  constructor
  · intro h
    by_cases hnil : s.bytes = []
    · rw [popByte_of_eq_nil hnil] at h
      cases h
      exact ⟨hnil, rfl, rfl⟩
    · obtain ⟨b, u, hu, -⟩ := popByte_of_ne_nil hnil
      rw [hu] at h
      cases h
  · rintro ⟨hnil, rfl, rfl⟩
    exact popByte_of_eq_nil hnil

/-! ## Pushing and popping texts -/

theorem pushText_eq_ok_iff : pushText text s = .ok () t ↔
    (Utf8.encode text).length ≤ 255 ∧ t.bytes = s.bytes ++ frame text ∧
      t.capacity = s.capacity := by
  rcases Nat.lt_or_ge 255 (Utf8.encode text).length with hlong | hshort
  · rw [pushText_of_lt hlong]
    exact iff_of_false nofun fun h => Nat.not_lt.2 h.1 hlong
  · rw [pushText_of_le hshort, pushBytes_eq_ok_iff]
    exact (and_iff_right hshort).symm

/-- A text does not fit into a frame, or its frame does not fit on the stack. -/
theorem pushText_eq_error (h : pushText text s = .error e t) :
    (255 < (Utf8.encode text).length ∨ s.room < (Utf8.encode text).length + 1) ∧
      (∃ cause, e = .overflow cause) ∧ t = s := by
  rcases Nat.lt_or_ge 255 (Utf8.encode text).length with hlong | hshort
  · rw [pushText_of_lt hlong] at h
    cases h
    exact ⟨.inl hlong, ⟨_, rfl⟩, rfl⟩
  · rw [pushText_of_le hshort, pushBytes_eq_error_iff, length_frame] at h
    obtain ⟨hroom, rfl, rfl⟩ := h
    exact ⟨.inr hroom, ⟨_, rfl⟩, rfl⟩

inductive NoText : List UInt8 → Error → Prop where
  | empty : NoText [] (.underflow 1 0)
  | short {below : List UInt8} {top : UInt8} (hlength : below.length < top.toNat) :
      NoText (below ++ [top]) (.underflow (top.toNat + 1) (below.length + 1))
  | garbled {below bytes : List UInt8} {top : UInt8} {defect : Utf8.Defect}
      (hlength : bytes.length = top.toNat) (hbytes : Utf8.decode bytes = .error defect) :
      NoText (below ++ bytes ++ [top]) (.notText defect)

theorem exists_split_of_le {contents : List UInt8} (h : n ≤ contents.length) :
    ∃ below bytes, bytes.length = n ∧ contents = below ++ bytes := by
  refine ⟨contents.take (contents.length - n), contents.drop (contents.length - n), ?_,
    (List.take_append_drop _ _).symm⟩
  rw [List.length_drop]
  omega

/-- Contents either hold as many bytes below the top as it says, or too few. -/
theorem contents_cases (contents : List UInt8) :
    contents = [] ∨
      (∃ below top, below.length < UInt8.toNat top ∧ contents = below ++ [top]) ∨
      ∃ below bytes top, List.length bytes = UInt8.toNat top ∧
        contents = below ++ bytes ++ [top] := by
  rcases List.eq_nil_or_concat contents with rfl | ⟨held, top, rfl⟩
  · exact .inl rfl
  · rw [List.concat_eq_append]
    rcases Nat.lt_or_ge held.length top.toNat with hshort | hfull
    · exact .inr (.inl ⟨held, top, hshort, rfl⟩)
    · obtain ⟨below, bytes, hlength, rfl⟩ := exists_split_of_le hfull
      exact .inr (.inr ⟨below, bytes, top, hlength, rfl⟩)

theorem popText_of_nil (h : s.bytes = []) : popText s = .error (.underflow 1 0) s := by
  obtain ⟨items, room⟩ := s
  obtain rfl : items = [] := List.reverse_eq_nil_iff.1 h
  rfl

theorem popText_of_short {below : List UInt8} {top : UInt8} (h : s.bytes = below ++ [top])
    (hlength : below.length < top.toNat) :
    popText s = .error (.underflow (top.toNat + 1) (below.length + 1)) s := by
  obtain ⟨items, room⟩ := s
  obtain rfl : items = top :: below.reverse := by simpa [bytes, List.reverse_eq_iff] using h
  have htake : ¬ (below.reverse.take top.toNat).length = top.toNat := by
    rw [List.length_take, List.length_reverse]
    omega
  simp only [popText, htake, ↓reduceIte, length, List.length_cons, List.length_reverse]

/-- With enough bytes below the top it depends on these bytes whether they are popped. -/
theorem popText_of_full {below bytes : List UInt8} {top : UInt8}
    (h : s.bytes = below ++ bytes ++ [top]) (hlength : bytes.length = top.toNat) :
    match Utf8.decode bytes with
    | .ok text => ∃ t, popText s = .ok text t ∧ t.bytes = below ∧ t.capacity = s.capacity
    | .error defect => popText s = .error (.notText defect) s := by
  obtain ⟨items, room⟩ := s
  obtain rfl : items = top :: (bytes.reverse ++ below.reverse) := by
    simpa [ValueStack.bytes, List.reverse_eq_iff] using h
  have hbytes : bytes.reverse.length = top.toNat := List.length_reverse.trans hlength
  simp only [popText, List.take_left' hbytes, List.drop_left' hbytes, hbytes, ↓reduceIte,
    List.reverse_reverse]
  cases Utf8.decode bytes with
  | error defect => rfl
  | ok text =>
    refine ⟨_, rfl, List.reverse_reverse _, ?_⟩
    simp only [ValueStack.capacity, length, List.length_cons, List.length_append, hbytes]
    omega

theorem popText_eq_error_iff : popText s = .error e t ↔ NoText s.bytes e ∧ t = s := by
  constructor
  · intro h
    rcases contents_cases s.bytes with hs | ⟨below, top, hlength, hs⟩ |
      ⟨below, bytes, top, hlength, hs⟩
    · rw [popText_of_nil hs] at h
      cases h
      exact ⟨hs ▸ .empty, rfl⟩
    · rw [popText_of_short hs hlength] at h
      cases h
      exact ⟨hs ▸ .short hlength, rfl⟩
    · have hfull := popText_of_full hs hlength
      split at hfull
      · obtain ⟨u, hu, -⟩ := hfull
        rw [hu] at h
        cases h
      · next hdecode =>
        rw [hfull] at h
        cases h
        exact ⟨hs ▸ .garbled hlength hdecode, rfl⟩
  · rintro ⟨h, rfl⟩
    generalize hs : t.bytes = contents at h
    cases h with
    | empty => exact popText_of_nil hs
    | short hlength => exact popText_of_short hs hlength
    | garbled hlength hbytes =>
      have hfull := popText_of_full hs hlength
      rwa [hbytes] at hfull

/-- A text can be popped if its frame is on top. -/
theorem popText_eq_ok_iff : popText s = .ok text t ↔
    (Utf8.encode text).length ≤ 255 ∧ s.bytes = t.bytes ++ frame text ∧
      t.capacity = s.capacity := by
  constructor
  · intro h
    rcases contents_cases s.bytes with hs | ⟨below, top, hlength, hs⟩ |
      ⟨below, bytes, top, hlength, hs⟩
    · rw [popText_of_nil hs] at h
      cases h
    · rw [popText_of_short hs hlength] at h
      cases h
    · have hfull := popText_of_full hs hlength
      split at hfull
      · next hdecode =>
        obtain ⟨u, hu, hbytes, hcapacity⟩ := hfull
        rw [hu] at h
        cases h
        obtain rfl := Utf8.decode_eq_ok_iff.1 hdecode
        have htop := top.toNat_lt
        refine ⟨by omega, ?_, hcapacity⟩
        rw [hs, hbytes, frame, hlength, UInt8.ofNat_toNat, List.append_assoc]
      · rw [hfull] at h
        cases h
  · rintro ⟨hlength, hs, hcapacity⟩
    have htop : (Utf8.encode text).length = (UInt8.ofNat (Utf8.encode text).length).toNat :=
      (Utf8.toNat_ofNat_byte (by omega)).symm
    rw [frame, ← List.append_assoc] at hs
    have hfull := popText_of_full hs htop
    rw [Utf8.decode_encode] at hfull
    obtain ⟨u, hu, hbytes, hcapacity'⟩ := hfull
    obtain rfl : u = t := eq_of_bytes_eq hbytes (hcapacity'.trans hcapacity.symm)
    exact hu

theorem popByte_of_append {below : List UInt8} (h : s.bytes = below ++ [b]) :
    ∃ t, popByte s = .ok b t ∧ t.bytes = below ∧ t.capacity = s.capacity := by
  obtain ⟨t, hbytes, hcapacity⟩ := exists_below h
  exact ⟨t, popByte_eq_ok_iff.2 ⟨hbytes ▸ h, hcapacity⟩, hbytes, hcapacity⟩

theorem popText_of_frame {below : List UInt8} (hlength : (Utf8.encode text).length ≤ 255)
    (h : s.bytes = below ++ frame text) :
    ∃ t, popText s = .ok text t ∧ t.bytes = below ∧ t.capacity = s.capacity := by
  obtain ⟨t, hbytes, hcapacity⟩ := exists_below h
  exact ⟨t, popText_eq_ok_iff.2 ⟨hlength, hbytes ▸ h, hcapacity⟩, hbytes, hcapacity⟩

/-! ## Any number of operations -/

inductive Operation where
  | pushByte (b : UInt8)
  | popByte
  | popBytes (n : Nat)
  | pushText (text : String)
  | popText
  | clear
  deriving DecidableEq, Repr

open Flat (Failure)

namespace Operation

def perform : Operation → Action ValueStack (List UInt8)
  | pushByte b => do
    ValueStack.pushByte b
    return []
  | popByte => do return [← ValueStack.popByte]
  | popBytes n => ValueStack.popBytes n
  | pushText text => do
    ValueStack.pushText text
    return []
  | popText => do return Utf8.encode (← ValueStack.popText)
  | clear => do
    modify ValueStack.clear
    return []

/-- The `n` bytes on top of the contents, and what is below them. -/
def takeTop (n : Nat) (contents : List UInt8) : Except Failure (List UInt8 × List UInt8) :=
  if contents.length < n then .error .underflow
  else .ok (contents.drop (contents.length - n), contents.take (contents.length - n))

/-- The bytes that an operation pops and the contents that it leaves, bottom first, or why it
fails. -/
def outcome (capacity : Nat) (contents : List UInt8) :
    Operation → Except Failure (List UInt8 × List UInt8)
  | pushByte b =>
    if contents.length = capacity then .error .overflow else .ok ([], contents ++ [b])
  | popByte => takeTop 1 contents
  | popBytes n => takeTop n contents
  | pushText text =>
    let length := (Utf8.encode text).length
    if 255 < length ∨ capacity - contents.length < length + 1 then .error .overflow
    else .ok ([], contents ++ frame text)
  | popText =>
    match contents.getLast? with
    | none => .error .underflow
    | some top => do
      let (popped, below) ← takeTop (top.toNat + 1) contents
      if Utf8.IsText popped.dropLast then .ok (popped.dropLast, below) else .error .notText
  | clear => .ok ([], [])

theorem takeTop_append (below bytes : List UInt8) :
    takeTop bytes.length (below ++ bytes) = .ok (bytes, below) := by
  have hlength : (below ++ bytes).length - bytes.length = below.length := by
    rw [List.length_append, Nat.add_sub_cancel]
  rw [takeTop, if_neg (by rw [List.length_append]; omega), hlength, List.drop_left, List.take_left]

theorem takeTop_of_lt {n : Nat} {contents : List UInt8} (h : contents.length < n) :
    takeTop n contents = .error .underflow :=
  if_pos h

/-- The action does to the stack what is said of the contents. -/
def Meets (x : Action ValueStack (List UInt8)) (s : ValueStack) :
    Except Failure (List UInt8 × List UInt8) → Prop
  | .ok (popped, contents) => ∃ t, x s = .ok popped t ∧ t.bytes = contents ∧ t.capacity = s.capacity
  | .error failure => ∃ e, x s = .error e s ∧ Failure.ofError e = some failure

theorem meets_of_push {x : Action ValueStack Unit} {contents : List UInt8}
    (hle : (s.bytes ++ contents).length ≤ s.capacity)
    (hx : ∀ t, t.bytes = s.bytes ++ contents → t.capacity = s.capacity → x s = .ok () t) :
    Meets (do x; return []) s (.ok ([], s.bytes ++ contents)) := by
  obtain ⟨t, hbytes, hcapacity⟩ := exists_of_length_le hle
  exact ⟨t, Action.bind_of_ok (hx t hbytes hcapacity), hbytes, hcapacity⟩

theorem meets_pushByte (s : ValueStack) (b : UInt8) :
    Meets (pushByte b).perform s ((pushByte b).outcome s.capacity s.bytes) := by
  have hle := s.length_bytes_le
  have hroom : s.capacity = s.bytes.length + s.room := by rw [length_bytes, ValueStack.capacity]
  simp only [outcome]
  split
  · have hfull : s.room < [b].length := by
      rw [List.length_singleton]
      omega
    exact ⟨_, Action.bind_of_error (pushBytes_eq_error_iff.2 ⟨hfull, rfl, rfl⟩), rfl⟩
  · have hfit : (s.bytes ++ [b]).length ≤ s.capacity := by
      rw [List.length_append, List.length_singleton]
      omega
    exact meets_of_push hfit fun t hbytes hcapacity => pushBytes_eq_ok_iff.2 ⟨hbytes, hcapacity⟩

theorem meets_pushText (s : ValueStack) (text : String) :
    Meets (pushText text).perform s ((pushText text).outcome s.capacity s.bytes) := by
  have hroom : s.capacity = s.bytes.length + s.room := by rw [length_bytes, ValueStack.capacity]
  simp only [outcome]
  split
  · next hfull =>
    cases hpush : ValueStack.pushText text s with
    | error e t =>
      obtain ⟨-, ⟨cause, rfl⟩, rfl⟩ := pushText_eq_error hpush
      exact ⟨_, Action.bind_of_error hpush, rfl⟩
    | ok u t =>
      obtain ⟨hshort, hbytes, hcapacity⟩ := pushText_eq_ok_iff.1 hpush
      have hle := t.length_bytes_le
      rw [hbytes, List.length_append, length_frame, hcapacity] at hle
      omega
  · next hfit =>
    rw [not_or, Nat.not_lt, Nat.not_lt] at hfit
    have hle : (s.bytes ++ frame text).length ≤ s.capacity := by
      rw [List.length_append, length_frame]
      omega
    exact meets_of_push hle fun t hbytes hcapacity =>
      pushText_eq_ok_iff.2 ⟨hfit.1, hbytes, hcapacity⟩

theorem meets_popBytes (s : ValueStack) (n : Nat) :
    Meets (popBytes n).perform s ((popBytes n).outcome s.capacity s.bytes) := by
  simp only [outcome]
  rcases Nat.lt_or_ge s.bytes.length n with hlt | hle
  · rw [takeTop_of_lt hlt]
    rw [length_bytes] at hlt
    exact ⟨_, popBytes_eq_error_iff.2 ⟨hlt, rfl, rfl⟩, rfl⟩
  · obtain ⟨below, bytes, rfl, hs⟩ := exists_split_of_le hle
    obtain ⟨t, hbelow, hcapacity⟩ := exists_below hs
    rw [hs, takeTop_append]
    exact ⟨t, popBytes_eq_ok_iff.2 ⟨rfl, hbelow ▸ hs, hcapacity⟩, hbelow, hcapacity⟩

theorem meets_popByte (s : ValueStack) :
    Meets popByte.perform s (popByte.outcome s.capacity s.bytes) := by
  simp only [outcome]
  by_cases hnil : s.bytes = []
  · rw [takeTop_of_lt (hnil ▸ Nat.one_pos)]
    exact ⟨_, Action.bind_of_error (popByte_of_eq_nil hnil), rfl⟩
  · obtain ⟨b, t, hpop, -⟩ := popByte_of_ne_nil hnil
    obtain ⟨hs, hcapacity⟩ := popByte_eq_ok_iff.1 hpop
    have htop : takeTop 1 (t.bytes ++ [b]) = .ok ([b], t.bytes) := takeTop_append t.bytes [b]
    rw [hs, htop]
    exact ⟨t, Action.bind_of_ok hpop, rfl, hcapacity⟩

/-- Where no text can be popped, the contents say so too. -/
theorem outcome_of_noText {contents : List UInt8} (h : NoText contents e) (capacity : Nat) :
    ∃ failure, popText.outcome capacity contents = .error failure ∧
      Failure.ofError e = some failure := by
  cases h with
  | empty => exact ⟨.underflow, rfl, rfl⟩
  | @short below top hlength =>
    have hlt : (below ++ [top]).length < top.toNat + 1 := by
      rw [List.length_append, List.length_singleton]
      omega
    refine ⟨.underflow, ?_, rfl⟩
    simp only [outcome, List.getLast?_concat, takeTop_of_lt hlt, bind, Except.bind]
  | @garbled below bytes top defect hlength hbytes =>
    have hnot : ¬ Utf8.IsText bytes := by
      rintro ⟨text, rfl⟩
      rw [Utf8.decode_encode] at hbytes
      cases hbytes
    have htop : takeTop (top.toNat + 1) (below ++ bytes ++ [top]) = .ok (bytes ++ [top], below) := by
      have happend := takeTop_append below (bytes ++ [top])
      rwa [List.length_append, List.length_singleton, hlength, ← List.append_assoc] at happend
    refine ⟨.notText, ?_, rfl⟩
    simp only [outcome, List.getLast?_concat, htop, bind, Except.bind, List.dropLast_concat,
      if_neg hnot]

theorem meets_popText (s : ValueStack) :
    Meets popText.perform s (popText.outcome s.capacity s.bytes) := by
  cases hpop : ValueStack.popText s with
  | ok text t =>
    obtain ⟨hshort, hs, hcapacity⟩ := popText_eq_ok_iff.1 hpop
    have htop : (UInt8.ofNat (Utf8.encode text).length).toNat + 1 = (frame text).length := by
      rw [length_frame, Utf8.toNat_ofNat_byte (by omega)]
    have hlast : s.bytes.getLast? = some (UInt8.ofNat (Utf8.encode text).length) := by
      rw [hs, frame, ← List.append_assoc, List.getLast?_concat]
    have hframe : (frame text).dropLast = Utf8.encode text := List.dropLast_concat
    have htext : Utf8.IsText (Utf8.encode text) := ⟨text, rfl⟩
    simp only [outcome, hlast, htop]
    rw [hs, takeTop_append]
    simp only [bind, Except.bind, hframe, if_pos htext]
    exact ⟨t, Action.bind_of_ok hpop, rfl, hcapacity⟩
  | error e t =>
    obtain ⟨hnone, rfl⟩ := popText_eq_error_iff.1 hpop
    obtain ⟨failure, houtcome, he⟩ := outcome_of_noText hnone t.capacity
    rw [houtcome]
    exact ⟨e, Action.bind_of_error hpop, he⟩

theorem meets_clear (s : ValueStack) :
    Meets clear.perform s (clear.outcome s.capacity s.bytes) :=
  ⟨s.clear, rfl, rfl, Nat.zero_add _⟩

/-- Each operation does what is said of the contents. -/
theorem meets_perform (op : Operation) (s : ValueStack) :
    Meets op.perform s (op.outcome s.capacity s.bytes) := by
  cases op with
  | pushByte b => exact meets_pushByte s b
  | popByte => exact meets_popByte s
  | popBytes n => exact meets_popBytes s n
  | pushText text => exact meets_pushText s text
  | popText => exact meets_popText s
  | clear => exact meets_clear s

theorem capacity_left (op : Operation) (s : ValueStack) :
    (op.perform.left s).capacity = s.capacity := by
  have hmeets := meets_perform op s
  cases houtcome : op.outcome s.capacity s.bytes with
  | ok ends =>
    rw [houtcome] at hmeets
    obtain ⟨t, ht, -, hcapacity⟩ := hmeets
    rw [Action.left_of_ok ht, hcapacity]
  | error failure =>
    rw [houtcome] at hmeets
    obtain ⟨e, he, -⟩ := hmeets
    rw [Action.left_of_error he]

end Operation

def after (ops : List Operation) (s : ValueStack) : ValueStack :=
  ops.foldl (fun s op => op.perform.left s) s

theorem capacity_after (ops : List Operation) (s : ValueStack) :
    (after ops s).capacity = s.capacity := by
  induction ops generalizing s with
  | nil => rfl
  | cons op ops ih => exact (ih _).trans (op.capacity_left s)

def popEach : Nat → Action ValueStack (List UInt8)
  | 0 => return []
  | n + 1 => do
    let b ← popByte
    return b :: (← popEach n)

theorem popEach_eq_ok_iff : popEach n s = .ok bytes t ↔
    bytes.length = n ∧ s.bytes = t.bytes ++ bytes.reverse ∧ t.capacity = s.capacity := by
  induction n generalizing s bytes with
  | zero =>
    constructor
    · rintro ⟨⟩
      exact ⟨rfl, (List.append_nil _).symm, rfl⟩
    · rintro ⟨hlength, hs, hcapacity⟩
      obtain rfl := List.eq_nil_of_length_eq_zero hlength
      rw [List.reverse_nil, List.append_nil] at hs
      obtain rfl : t = s := eq_of_bytes_eq hs.symm hcapacity
      rfl
  | succ n ih =>
    rw [popEach, Action.bind_eq_ok_iff]
    constructor
    · rintro ⟨b, u, hpop, h⟩
      obtain ⟨rest, v, hrest, h⟩ := Action.bind_eq_ok_iff.1 h
      cases h
      obtain ⟨hs, hcapacity⟩ := popByte_eq_ok_iff.1 hpop
      obtain ⟨rfl, hu, hcapacity'⟩ := ih.1 hrest
      refine ⟨rfl, ?_, hcapacity'.trans hcapacity⟩
      rw [hs, hu, List.reverse_cons, List.append_assoc]
    · rintro ⟨hlength, hs, hcapacity⟩
      obtain ⟨b, rest, rfl⟩ := List.exists_cons_of_length_eq_add_one hlength
      rw [List.reverse_cons, ← List.append_assoc] at hs
      obtain ⟨u, hu, hcapacity'⟩ := exists_below hs
      refine ⟨b, u, popByte_eq_ok_iff.2 ⟨hu ▸ hs, hcapacity'⟩, ?_⟩
      refine Action.bind_eq_ok_iff.2 ⟨rest, t, ih.2 ⟨?_, hu, hcapacity.trans hcapacity'.symm⟩, rfl⟩
      exact Nat.succ.inj hlength

/-- Whatever is done with an empty stack, its capacity stays and its contents never exceed it. An
operation then fails exactly where its bytes do not fit, are not there or are no text, and leaves
the stack as it was; and popping bytes is popping them one by one, in the order in which they were
pushed. -/
theorem operations_complete_or_fail (capacity : Nat) (ops : List Operation) :
    let s := after ops (empty capacity)
    s.bytes.length ≤ capacity ∧ s.capacity = capacity ∧
    (∀ op : Operation,
      match op.outcome capacity s.bytes with
      | .ok (popped, contents) =>
        ∃ t, op.perform s = .ok popped t ∧ t.bytes = contents ∧ t.capacity = capacity
      | .error failure => ∃ e, op.perform s = .error e s ∧ Failure.ofError e = some failure) ∧
    ∀ n bytes t, popBytes n s = .ok bytes t ↔ popEach n s = .ok bytes.reverse t := by
  intro s
  have hcapacity : s.capacity = capacity := (capacity_after ops _).trans (Nat.zero_add _)
  refine ⟨hcapacity ▸ s.length_bytes_le, hcapacity, fun op => ?_, fun n bytes t => ?_⟩
  · have hmeets := op.meets_perform s
    simp only [Operation.Meets, hcapacity] at hmeets
    exact hmeets
  · rw [popBytes_eq_ok_iff, popEach_eq_ok_iff, List.length_reverse, List.reverse_reverse]

/-! ## Values -/

/-- What is pushed and popped as one. -/
inductive Value where
  | byte (b : UInt8)
  | text (text : String)
  deriving DecidableEq, Repr

inductive Kind where
  | byte
  | text
  deriving DecidableEq, Repr

def Value.kind : Value → Kind
  | .byte _ => .byte
  | .text _ => .text

def Value.push : Value → Action ValueStack Unit
  | .byte b => pushByte b
  | .text t => pushText t

def Kind.pop : Kind → Action ValueStack Value
  | .byte => do return .byte (← popByte)
  | .text => do return .text (← popText)

theorem popByte_eq_ok_iff_pushByte : popByte t = .ok b s ↔ pushByte b s = .ok () t := by
  rw [popByte_eq_ok_iff, pushByte, pushBytes_eq_ok_iff, eq_comm (a := s.capacity)]

theorem popText_eq_ok_iff_pushText : popText t = .ok text s ↔ pushText text s = .ok () t := by
  rw [popText_eq_ok_iff, pushText_eq_ok_iff, eq_comm (a := s.capacity)]

theorem eq_ok_of_wrapped {α : Type} {x : Action ValueStack α} {f : α → Value}
    (hf : Function.Injective f) {a : α} :
    (do return f (← x) : Action ValueStack Value) t = .ok (f a) s ↔ x t = .ok a s := by
  rw [Action.bind_eq_ok_iff]
  constructor
  · rintro ⟨a', u, hx, h⟩
    injection h with ha hu
    rw [← hf ha, ← hu]
    exact hx
  · intro hx
    exact ⟨a, s, hx, rfl⟩

/-- A value is popped exactly where pushing it leads. -/
theorem pop_eq_ok_iff_push {v : Value} : v.kind.pop t = .ok v s ↔ v.push s = .ok () t := by
  cases v with
  | byte b =>
    have hf : Function.Injective Value.byte := fun _ _ h => Value.byte.inj h
    exact (eq_ok_of_wrapped hf).trans popByte_eq_ok_iff_pushByte
  | text text =>
    have hf : Function.Injective Value.text := fun _ _ h => Value.text.inj h
    exact (eq_ok_of_wrapped hf).trans popText_eq_ok_iff_pushText

/-- Pushing values is undone by popping as many in the opposite order. -/
theorem mapM_pop_eq_ok_iff {vs : List Value} :
    (vs.reverse.map Value.kind).mapM Kind.pop t = .ok vs.reverse s ↔
      vs.forM Value.push s = .ok () t := by
  induction vs generalizing s with
  | nil =>
    constructor
    · rintro ⟨⟩
      rfl
    · rintro ⟨⟩
      rfl
  | cons v vs ih =>
    rw [List.reverse_cons, List.map_append, List.map_singleton, List.mapM_append, List.mapM_cons,
      List.mapM_nil, List.forM, Action.bind_eq_ok_iff, Action.bind_eq_ok_iff]
    constructor
    · rintro ⟨popped, u, hpopped, h⟩
      obtain ⟨last, w, hlast, h⟩ := Action.bind_eq_ok_iff.1 h
      obtain ⟨v', w', hv, hlast⟩ := Action.bind_eq_ok_iff.1 hlast
      cases hlast
      injection h with hvs hw
      subst hw
      obtain ⟨rfl, hv'⟩ := List.append_inj' hvs rfl
      obtain rfl : v' = v := List.singleton_inj.1 hv'
      exact ⟨(), u, pop_eq_ok_iff_push.1 hv, ih.1 hpopped⟩
    · rintro ⟨⟨⟩, u, hv, hvs⟩
      refine ⟨vs.reverse, u, ih.2 hvs, ?_⟩
      refine Action.bind_eq_ok_iff.2 ⟨[v], s, ?_, rfl⟩
      exact Action.bind_eq_ok_iff.2 ⟨v, s, pop_eq_ok_iff_push.2 hv, rfl⟩

/-- Values are pushed exactly where popping values of their kinds in the opposite order gives these
values in that order and the stack from before; and a text is popped exactly where pushing it gives
back the stack. -/
theorem pops_undo_pushes {s t : ValueStack} :
    (∀ vs : List Value, vs.forM Value.push s = .ok () t ↔
      (vs.reverse.map Value.kind).mapM Kind.pop t = .ok vs.reverse s) ∧
    ∀ text, popText t = .ok text s ↔ pushText text s = .ok () t :=
  ⟨fun _ => mapM_pop_eq_ok_iff.symm, fun _ => popText_eq_ok_iff_pushText⟩

end ValueStack

end ByteMachine
