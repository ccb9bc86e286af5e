import ByteMachine.Memory.LittleEndian
import ByteMachine.Text.Numeral

/-!
Numbers that are written and read back. The digits of a number spell it, in decimal and in the two
digits a byte of an address, and a reader takes them for the number if its limit allows.
-/
namespace ByteMachine.Numeral

/-! ## Digits -/

theorem digitValue_upperDigit {d : Nat} (hd : d < 16) : digitValue (upperDigit d) = some d := by
  have hall : ∀ d < 16, digitValue (upperDigit d) = some d := by decide
  exact hall d hd

theorem digitValue_lowerDigit {d : Nat} (hd : d < 16) : digitValue (lowerDigit d) = some d := by
  have hall : ∀ d < 16, digitValue (lowerDigit d) = some d := by decide
  exact hall d hd

theorem isDigitOf_of_digitValue {base d : Nat} {c : Char} (hc : digitValue c = some d)
    (hd : d < base) : isDigitOf base c = true := by
  rw [isDigitOf, hc]
  exact decide_eq_true hd

theorem isDigitOf_upperDigit {base d : Nat} (hbase : base ≤ 16) (hd : d < base) :
    isDigitOf base (upperDigit d) = true :=
  isDigitOf_of_digitValue (digitValue_upperDigit (Nat.lt_of_lt_of_le hd hbase)) hd

/-- The decimal digits are those that are written. -/
theorem exists_upperDigit {c : Char} (h : isDigitOf 10 c = true) : ∃ d < 10, c = upperDigit d := by
  unfold isDigitOf digitValue at h
  by_cases hc : '0' ≤ c ∧ c ≤ '9'
  · simp only [hc, and_self, ↓reduceIte, decide_eq_true_eq] at h
    refine ⟨c.toNat - 0x30, h, ?_⟩
    have hle : 0x30 ≤ c.toNat := hc.1
    rw [upperDigit, if_pos h, Nat.add_sub_cancel' hle, Char.ofNat_toNat]
  · rw [if_neg hc] at h
    by_cases hupper : 'A' ≤ c ∧ c ≤ 'F'
    · rw [if_pos hupper] at h
      have hlt := of_decide_eq_true h
      omega
    · rw [if_neg hupper] at h
      by_cases hlower : 'a' ≤ c ∧ c ≤ 'f'
      · rw [if_pos hlower] at h
        have hlt := of_decide_eq_true h
        omega
      · rw [if_neg hlower] at h
        cases h

/-- Decimal digits alone have no mark of a hexadecimal number. -/
theorem afterHexMark_of_isDigitOf {cs : List Char} (h : ∀ c ∈ cs, isDigitOf 10 c = true) :
    afterHexMark cs = none := by
  unfold afterHexMark
  split
  · cases h 'x' (by simp)
  · cases h 'X' (by simp)
  · rfl

theorem valueFrom_append (base n : Nat) (a b : List Char) :
    valueFrom base n (a ++ b) = valueFrom base (valueFrom base n a) b := by
  rw [valueFrom, List.foldl_append]
  rfl

theorem valueFrom_map {digit : Nat → Char} {ds : List Nat}
    (hds : ∀ d ∈ ds, digitValue (digit d) = some d) (base n : Nat) :
    valueFrom base n (ds.map digit) = ds.foldl (fun n d => n * base + d) n := by
  induction ds generalizing n with
  | nil => rfl
  | cons d ds ih =>
    obtain ⟨hd, hds⟩ := List.forall_mem_cons.1 hds
    rw [List.map_cons, List.foldl_cons, ← ih hds, valueFrom, List.foldl_cons, hd]
    rfl

theorem digitsOnto_ne_nil (base fuel n : Nat) (tail : List Nat) :
    digitsOnto base fuel n tail ≠ [] := by
  induction fuel generalizing n tail with
  | zero => nofun
  | succ fuel ih =>
    rw [digitsOnto]
    split
    · nofun
    · exact ih _ _

/-- The digits of a number spell it, whatever follows them. -/
theorem foldl_digitsOnto (base fuel n : Nat) (tail : List Nat) :
    (digitsOnto base fuel n tail).foldl (fun n d => n * base + d) 0 =
      tail.foldl (fun n d => n * base + d) n := by
  induction fuel generalizing n tail with
  | zero => simp [digitsOnto]
  | succ fuel ih =>
    rw [digitsOnto]
    split
    · simp
    · rw [ih, List.foldl_cons, Nat.div_add_mod']

theorem lt_of_mem_digitsOnto {base : Nat} (hbase : 2 ≤ base) {fuel n : Nat} (hn : n ≤ fuel)
    {tail : List Nat} (htail : ∀ d ∈ tail, d < base) :
    ∀ d ∈ digitsOnto base fuel n tail, d < base := by
  induction fuel generalizing n tail with
  | zero =>
    rw [digitsOnto]
    exact List.forall_mem_cons.2 ⟨by omega, htail⟩
  | succ fuel ih =>
    rw [digitsOnto]
    split
    · next hlt => exact List.forall_mem_cons.2 ⟨hlt, htail⟩
    · have hdiv : n / base ≤ fuel := by
        have hlt : n / base < n := Nat.div_lt_self (by omega) hbase
        omega
      exact ih hdiv (List.forall_mem_cons.2 ⟨Nat.mod_lt n (by omega), htail⟩)

/-! ## Reading digits -/

/-- Characters that are digits and spell a number. -/
structure Spells (base : Nat) (cs : List Char) (n : Nat) : Prop where
  ne_nil : cs ≠ []
  isDigit : ∀ c ∈ cs, isDigitOf base c = true
  valueOf_eq : valueOf base cs = n

theorem Spells.readDigits_eq {base n limit : Nat} {cs : List Char} (h : Spells base cs n)
    (hbase : 0 < base) (hn : n < limit) : readDigits base limit cs = some n := by
  have hempty : cs.isEmpty = false := List.isEmpty_eq_false_iff.2 h.ne_nil
  have hall : cs.all (isDigitOf base) = true := List.all_eq_true.2 h.isDigit
  have hvalue : valueFrom base 0 cs = n := h.valueOf_eq
  simp [readDigits, readFrom_eq hbase (Nat.zero_lt_of_lt hn), hempty, hall, hvalue, hn]

/-- Digits are read as the number they spell if the limit allows, and nothing else is read. -/
theorem readDigits_eq_some_iff {base n limit : Nat} {cs : List Char} (hbase : 0 < base)
    (hlimit : 0 < limit) : readDigits base limit cs = some n ↔ n < limit ∧ Spells base cs n := by
  constructor
  · intro h
    unfold readDigits at h
    split at h
    · cases h
    · next hne =>
      rw [readFrom_eq hbase hlimit] at h
      split at h
      · next hall =>
        cases h
        rw [Bool.and_eq_true, decide_eq_true_eq] at hall
        exact ⟨hall.2, fun hnil => hne (List.isEmpty_iff.2 hnil), List.all_eq_true.1 hall.1, rfl⟩
      · cases h
  · rintro ⟨hn, hspells⟩
    exact hspells.readDigits_eq hbase hn

theorem spells_digits {base : Nat} (hbase : 2 ≤ base) (hle : base ≤ 16) {digit : Nat → Char}
    (hdigit : ∀ d < 16, digitValue (digit d) = some d) (n : Nat) :
    Spells base ((digits base n).map digit) n := by
  have hlt : ∀ d ∈ digits base n, d < base := lt_of_mem_digitsOnto hbase (Nat.le_refl n) nofun
  have hvalue : ∀ d ∈ digits base n, digitValue (digit d) = some d := fun d hd =>
    hdigit d (Nat.lt_of_lt_of_le (hlt d hd) hle)
  refine ⟨?_, ?_, ?_⟩
  · rw [ne_eq, List.map_eq_nil_iff]
    exact digitsOnto_ne_nil base n n []
  · intro c hc
    obtain ⟨d, hd, rfl⟩ := List.mem_map.1 hc
    exact isDigitOf_of_digitValue (hvalue d hd) (hlt d hd)
  · rw [valueOf, valueFrom_map hvalue]
    exact foldl_digitsOnto base n n []

theorem spells_decimal (n : Nat) : Spells 10 (decimal n).toList n := by
  rw [decimal, String.toList_ofList]
  exact spells_digits (by decide) (by decide) (fun _ => digitValue_upperDigit) n

/-! ## Bytes in hexadecimal -/

theorem isDigitOf_hexDigits (b : UInt8) : ∀ c ∈ hexDigits b, isDigitOf 16 c = true := by
  have hb := b.toNat_lt
  intro c hc
  rcases List.mem_cons.1 hc with rfl | hc
  · exact isDigitOf_upperDigit (Nat.le_refl 16) (by omega)
  · rw [List.mem_singleton.1 hc]
    exact isDigitOf_upperDigit (Nat.le_refl 16) (by omega)

theorem valueFrom_hexDigits (n : Nat) (b : UInt8) :
    valueFrom 16 n (hexDigits b) = n * 256 + b.toNat := by
  have hb := b.toNat_lt
  have hhigh := digitValue_upperDigit (d := b.toNat / 16) (by omega)
  have hlow := digitValue_upperDigit (d := b.toNat % 16) (by omega)
  simp only [valueFrom, hexDigits, List.foldl_cons, List.foldl_nil, hhigh, hlow, Option.getD_some]
  omega

/-- Two digits a byte, last byte first, spell what little-endian bytes hold. -/
theorem valueOf_hexDigits (bytes : List UInt8) :
    valueOf 16 (bytes.reverse.flatMap hexDigits) = LittleEndian.decode bytes := by
  induction bytes with
  | nil => rfl
  | cons b bytes ih =>
    rw [valueOf] at ih
    rw [List.reverse_cons, List.flatMap_append, List.flatMap_singleton, valueOf, valueFrom_append,
      ih, valueFrom_hexDigits, LittleEndian.decode]
    omega

theorem spells_hexDigits {bytes : List UInt8} (h : bytes ≠ []) :
    Spells 16 (bytes.reverse.flatMap hexDigits) (LittleEndian.decode bytes) := by
  refine ⟨?_, ?_, valueOf_hexDigits bytes⟩
  · obtain ⟨b, bytes, rfl⟩ := List.exists_cons_of_ne_nil h
    simp [hexDigits]
  · intro c hc
    obtain ⟨b, -, hc⟩ := List.mem_flatMap.1 hc
    exact isDigitOf_hexDigits b c hc

end ByteMachine.Numeral
