import ByteMachine.Proofs.Refinement

/-!
The addressing modes at any address whatever. An address remembers an extent that it was checked
against, which need not be that of the page it is used on, and no mode relies on it. An address
that a mode returns lies in the page that the mode names, and every failure blames an address.
-/
namespace ByteMachine

def BlamesAddress {α : Type} (r : Except Error α) : Prop :=
  ∀ e, r = .error e → ∃ cause, e = .address cause

namespace BlamesAddress

variable {α β : Type} {r : Except Error α} {f : α → Except Error β}

theorem ok (a : α) : BlamesAddress (.ok a : Except Error α) :=
  nofun

theorem error (cause : AddressError) :
    BlamesAddress (.error (.address cause) : Except Error α) := by
  rintro e ⟨⟩
  exact ⟨cause, rfl⟩

theorem bind (hr : BlamesAddress r) (hf : ∀ a, r = .ok a → BlamesAddress (f a)) :
    BlamesAddress (r >>= f) := by
  cases r with
  | ok a => exact hf a rfl
  | error e =>
    obtain ⟨cause, rfl⟩ := hr e rfl
    exact error cause

end BlamesAddress

theorem Address.blames_make (value : Nat) (width : Width) (maximum : Nat) :
    BlamesAddress (make value width maximum) := by
  unfold make
  split
  · split
    · exact .ok _
    · exact .error _
  · exact .error _

theorem Width.blames_decode (w : Width) (bytes : List UInt8) : BlamesAddress (w.decode bytes) := by
  unfold decode
  split
  · exact .ok _
  · exact .error _

/-! ## Pages -/

namespace Page

variable {s : Section} {p : Page s} {start count index maximum value : Nat} {width : Width}

theorem blames_byte (p : Page s) (index : Nat) : BlamesAddress (p.byte index) := by
  unfold byte
  split
  · exact .ok _
  · exact .error _

theorem blames_checkRange (p : Page s) (start count : Nat) :
    BlamesAddress (p.checkRange start count) := by
  unfold checkRange
  split
  · exact .ok _
  · exact .error _

theorem blames_slice (p : Page s) (start count : Nat) : BlamesAddress (p.slice start count) :=
  (p.blames_checkRange start count).bind fun _ _ => .ok _

theorem blames_addressAt (p : Page s) (start : Nat) (width : Width) (maximum : Nat) :
    BlamesAddress (p.addressAt start width maximum) :=
  (p.blames_slice start width.bytes).bind fun bytes _ =>
    (width.blames_decode bytes).bind fun value _ => Address.blames_make value width maximum

/-- The number stands in the page at `start`, in as many bytes as the width says. -/
structure Stores (p : Page s) (start : Nat) (width : Width) (value : Nat) : Prop where
  fits : start + width.bytes ≤ p.length
  decode_eq : LittleEndian.decode ((p.contents.drop start).take width.bytes) = value

/-- The address is that of a byte of the page, as wide as the page's addresses are. -/
structure Owns (p : Page s) (a : Address) : Prop where
  value_lt : a.value < p.length
  width_eq : a.width = p.width
  maximum_eq : a.maximum = p.length

/-- An address is read from a page exactly where its number stands there, and then it carries the
extent that was asked for. -/
theorem addressAt_eq_ok_iff {a : Address} : p.addressAt start width maximum = .ok a ↔
    p.Stores start width a.value ∧ a.width = width ∧ a.maximum = maximum := by
  constructor
  · intro h
    by_cases hlt : start + width.bytes ≤ p.length ∧
        LittleEndian.decode ((p.contents.drop start).take width.bytes) < maximum
    · obtain ⟨b, hb, hwidth, hmaximum, hvalue⟩ := p.addressAt_of_lt hlt.1 hlt.2
      rw [hb] at h
      cases h
      exact ⟨⟨hlt.1, hvalue.symm⟩, hwidth, hmaximum⟩
    · obtain ⟨cause, he⟩ : ∃ cause, p.addressAt start width maximum = .error (.address cause) :=
        p.addressAt_of_le fun hfits => Nat.not_lt.1 fun hdecode => hlt ⟨hfits, hdecode⟩
      rw [he] at h
      cases h
  · rintro ⟨⟨hfits, hdecode⟩, rfl, rfl⟩
    obtain ⟨b, hb, hwidth, hmaximum, hvalue⟩ := p.addressAt_of_lt hfits (hdecode ▸ a.value_lt)
    rw [hb]
    obtain ⟨value, width, maximum, hm, hw⟩ := a
    obtain ⟨value', width', maximum', hm', hw'⟩ := b
    simp_all

/-- With the width and the extent of a page, what is read is the address of one of its bytes. -/
theorem addressAt_page_eq_ok_iff {s' : Section} {q : Page s'} {a : Address} :
    p.addressAt start q.width q.length = .ok a ↔ p.Stores start q.width a.value ∧ q.Owns a := by
  rw [addressAt_eq_ok_iff]
  constructor
  · rintro ⟨hstores, hwidth, hmaximum⟩
    exact ⟨hstores, hmaximum ▸ a.value_lt, hwidth, hmaximum⟩
  · rintro ⟨hstores, -, hwidth, hmaximum⟩
    exact ⟨hstores, hwidth, hmaximum⟩

theorem Owns.exists_byte {a : Address} (h : p.Owns a) :
    ∃ b, p.contents[a.value]? = some b ∧ p.byteAt a = .ok b := by
  have hlt : a.value < p.contents.length := by
    rw [p.length_contents]
    exact h.value_lt
  have hget := List.getElem?_eq_getElem hlt
  exact ⟨_, hget, byte_of_some hget⟩

end Page

namespace DataPage

variable {d : DataPage}

/-- A mode that yields a byte goes with one that yields an address: it yields the byte of the page
that stands there, and if there is no address, it fails for the same reason. -/
def ByteOf (d : DataPage) : Except Error Address → Except Error UInt8 → Prop
  | .ok a, r => d.Owns a ∧ ∃ b, d.contents[a.value]? = some b ∧ r = .ok b
  | .error e, r => r = .error e

theorem byteOf_bind {r : Except Error Address} (h : ∀ a, r = .ok a → d.Owns a) :
    d.ByteOf r (r >>= fun a => d.byteAt a) := by
  cases r with
  | error e => rfl
  | ok a => exact ⟨h a rfl, (h a rfl).exists_byte⟩

/-- No text begins at or behind the end of the page. -/
theorem textAt_of_le {a : Address} (h : d.length ≤ a.value) : BlamesAddress (d.textAt a) := by
  refine (d.blames_checkRange _ _).bind fun _ hrange => ?_
  rw [if_neg (by omega)]
  exact .error _

/-- A text fails to be read for its address or because its bytes are no text. -/
theorem textAt_eq_error {a : Address} {e : Error} (h : d.textAt a = .error e) :
    (∃ cause, e = .address cause) ∨ ∃ defect, e = .notText defect := by
  by_cases hlt : a.value < d.length
  · rw [textAt_eq hlt] at h
    split at h
    · split at h
      · cases h
      · next defect _ =>
        cases h
        exact .inr ⟨defect, rfl⟩
    · cases h
      exact .inl ⟨_, rfl⟩
  · exact .inl (textAt_of_le (Nat.not_lt.1 hlt) e h)

end DataPage

/-! ## The modes -/

namespace CodePage

variable {c : CodePage} {d : DataPage} {pc a : Address}

theorem jumpAddress_eq_ok_iff :
    c.jumpAddress pc = .ok a ↔ c.Stores (pc.value + 1) c.width a.value ∧ c.Owns a :=
  Page.addressAt_page_eq_ok_iff

theorem directAddress_eq_ok_iff :
    c.directAddress d pc = .ok a ↔ c.Stores (pc.value + 1) d.width a.value ∧ d.Owns a :=
  Page.addressAt_page_eq_ok_iff

theorem indirectAddress_eq_ok_iff : c.indirectAddress d pc = .ok a ↔
    ∃ pointer, c.directAddress d pc = .ok pointer ∧
      d.Stores pointer.value d.width a.value ∧ d.Owns a := by
  unfold indirectAddress
  cases c.directAddress d pc with
  | error e => simp [bind, Except.bind]
  | ok pointer => simp [bind, Except.bind, Page.addressAt_page_eq_ok_iff]

/-- A number that does not lie in the data with all its bytes is no address. -/
theorem indirectAddress_of_lt {pointer : Address} (hpointer : c.directAddress d pc = .ok pointer)
    (hlt : d.length < pointer.value + d.width.bytes) :
    ∃ cause, c.indirectAddress d pc = .error (.address cause) := by
  simp only [indirectAddress, hpointer, bind, Except.bind]
  exact d.addressAt_of_le fun hfits => absurd hfits (Nat.not_le.2 hlt)

theorem blames_indirectAddress (c : CodePage) (d : DataPage) (pc : Address) :
    BlamesAddress (c.indirectAddress d pc) :=
  (c.blames_addressAt _ _ _).bind fun _ _ => d.blames_addressAt _ _ _

theorem blames_conditionals (c : CodePage) (pc : Address) : BlamesAddress (c.conditionals pc) :=
  (c.blames_byte _).bind fun _ _ => (Address.blames_make _ _ _).bind fun _ _ => .ok _

/-- At any address whatever, each addressing mode fails only with an address error, and reading a
text also for its bytes. A jump leads to the byte of the code that its operand names, and a direct
address is that of the byte of the data that the operand names. An indirect address is the one that
stands in the data where the direct one points, and all of its bytes have to lie in the page. The
modes that yield a byte yield the one at that address, and fail where there is none. -/
theorem modes_stay_inside (c : CodePage) (d : DataPage) (pc : Address) :
    (BlamesAddress (c.byteAt pc) ∧ BlamesAddress (c.immediateByte pc) ∧
      BlamesAddress (c.immediateWord pc) ∧ BlamesAddress (c.jumpAddress pc) ∧
      BlamesAddress (c.directAddress d pc) ∧ BlamesAddress (c.directByte d pc) ∧
      BlamesAddress (c.indirectAddress d pc) ∧ BlamesAddress (c.indirectByte d pc) ∧
      BlamesAddress (c.conditionals pc)) ∧
    (∀ e, d.textAt pc = .error e → (∃ cause, e = .address cause) ∨ ∃ defect, e = .notText defect) ∧
    (∀ a, c.jumpAddress pc = .ok a ↔ c.Stores (pc.value + 1) c.width a.value ∧ c.Owns a) ∧
    (∀ a, c.directAddress d pc = .ok a ↔ c.Stores (pc.value + 1) d.width a.value ∧ d.Owns a) ∧
    (∀ a, c.indirectAddress d pc = .ok a ↔ ∃ pointer, c.directAddress d pc = .ok pointer ∧
      d.Stores pointer.value d.width a.value ∧ d.Owns a) ∧
    (∀ pointer, c.directAddress d pc = .ok pointer → d.length < pointer.value + d.width.bytes →
      ∃ cause, c.indirectAddress d pc = .error (.address cause)) ∧
    d.ByteOf (c.directAddress d pc) (c.directByte d pc) ∧
    d.ByteOf (c.indirectAddress d pc) (c.indirectByte d pc) := by
  have hdirect := c.blames_addressAt (pc.value + 1) d.width d.length
  have hindirect := blames_indirectAddress c d pc
  refine ⟨⟨c.blames_byte _, c.blames_byte _, c.blames_slice _ _, c.blames_addressAt _ _ _,
    hdirect, ?_, hindirect, ?_, blames_conditionals c pc⟩, fun e => DataPage.textAt_eq_error,
    fun a => jumpAddress_eq_ok_iff, fun a => directAddress_eq_ok_iff,
    fun a => indirectAddress_eq_ok_iff, fun pointer => indirectAddress_of_lt, ?_, ?_⟩
  · exact hdirect.bind fun a _ => d.blames_byte a.value
  · exact hindirect.bind fun a _ => d.blames_byte a.value
  · exact DataPage.byteOf_bind fun a ha => (directAddress_eq_ok_iff.1 ha).2
  · refine DataPage.byteOf_bind fun a ha => ?_
    obtain ⟨pointer, -, -, howns⟩ := indirectAddress_eq_ok_iff.1 ha
    exact howns

/-- The operand points at the last two bytes of the data. The address of the instruction was checked
against another region and is wider than the code's own. -/
example :
    let c : CodePage := ⟨[], #[0x42, 0x01, 0x00], .one, Table.width_nil, by decide⟩
    let d : DataPage := ⟨[⟨"address_width", "2"⟩], #[0x2A, 0x00, 0x00], .two, rfl, by decide⟩
    c.indirectByte d ⟨0, .two, 9, by decide, by decide⟩ = .ok 0x2A :=
  rfl

end CodePage

end ByteMachine
