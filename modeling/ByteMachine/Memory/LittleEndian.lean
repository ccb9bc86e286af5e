/-!
Numbers as bytes, least significant byte first.
-/
namespace ByteMachine.LittleEndian

/-- The lowest `count` bytes of a number. -/
def encode : Nat → Nat → List UInt8
  | 0, _ => []
  | count + 1, value => UInt8.ofNat value :: encode count (value / 256)

def decode : List UInt8 → Nat
  | [] => 0
  | b :: bytes => b.toNat + 256 * decode bytes

/-- The numbers that so many bytes can hold lie below this. -/
def limit : Nat → Nat
  | 0 => 1
  | count + 1 => 256 * limit count

theorem length_encode (count value : Nat) : (encode count value).length = count := by
  induction count generalizing value <;> simp_all [encode]

theorem decode_encode (count value : Nat) (h : value < limit count) :
    decode (encode count value) = value := by
  induction count generalizing value with
  | zero => simp_all [limit, encode, decode]
  | succ count ih =>
    have h' : value / 256 < limit count := Nat.div_lt_of_lt_mul h
    simp only [encode, decode, ih _ h', UInt8.toNat_ofNat']
    omega

theorem encode_decode (bytes : List UInt8) : encode bytes.length (decode bytes) = bytes := by
  induction bytes with
  | nil => rfl
  | cons b bytes ih =>
    have hb := b.toNat_lt
    have hhead : UInt8.ofNat (b.toNat + 256 * decode bytes) = b := by
      apply UInt8.toNat_inj.1
      rw [UInt8.toNat_ofNat']
      omega
    have htail : (b.toNat + 256 * decode bytes) / 256 = decode bytes := by omega
    rw [List.length_cons, decode, encode, hhead, htail, ih]

theorem decode_lt (bytes : List UInt8) : decode bytes < limit bytes.length := by
  induction bytes with
  | nil => simp [decode, limit]
  | cons b bytes ih =>
    have hb := b.toNat_lt
    simp only [decode, List.length_cons, limit]
    omega

end ByteMachine.LittleEndian
