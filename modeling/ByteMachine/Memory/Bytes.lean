/-!
Bytes that can be reached by their positions. Each way of reaching some of them is also said as a
way of cutting the list of all of them.
-/
namespace ByteMachine

abbrev Bytes := Array UInt8

namespace Bytes

/-- The bytes from `start` on, at most `count` of them. -/
def range (bytes : Bytes) (start count : Nat) : List UInt8 :=
  (bytes.extract start (start + count)).toList

theorem range_eq (bytes : Bytes) (start count : Nat) :
    bytes.range start count = (bytes.toList.drop start).take count := by
  simp [range, List.extract_eq_take_drop]

/-- The position where a run that has come to `i` ends. The number bounds how many bytes are
left. -/
def runEnd (bytes : Bytes) (test : UInt8 → Bool) : Nat → Nat → Nat
  | 0, i => i
  | left + 1, i =>
    match bytes[i]? with
    | some b => if test b then runEnd bytes test left (i + 1) else i
    | none => i

/-- The longest run of bytes from `start` on that pass a test. -/
def run (bytes : Bytes) (test : UInt8 → Bool) (start : Nat) : List UInt8 :=
  bytes.range start (runEnd bytes test (bytes.size - start) start - start)

theorem runEnd_eq (bytes : Bytes) (test : UInt8 → Bool) (left i : Nat)
    (h : bytes.size ≤ i + left) :
    runEnd bytes test left i = i + ((bytes.toList.drop i).takeWhile test).length := by
  induction left generalizing i with
  | zero =>
    have hnil : bytes.toList.drop i = [] := List.drop_eq_nil_of_le (by simpa using h)
    simp [runEnd, hnil]
  | succ left ih =>
    by_cases hi : i < bytes.size
    · have hcons : bytes.toList.drop i = bytes[i] :: bytes.toList.drop (i + 1) := by
        rw [List.drop_eq_getElem_cons (by simpa using hi)]
        simp
      by_cases ht : test bytes[i]
      · simp [runEnd, hi, hcons, ht, ih (i + 1) (by omega)]
        omega
      · simp [runEnd, hi, hcons, ht]
    · have hnil : bytes.toList.drop i = [] := List.drop_eq_nil_of_le (by simp; omega)
      simp [runEnd, hi, hnil]

theorem run_eq (bytes : Bytes) (test : UInt8 → Bool) (start : Nat) :
    bytes.run test start = (bytes.toList.drop start).takeWhile test := by
  have h := runEnd_eq bytes test (bytes.size - start) start (by omega)
  rw [run, h, range_eq, Nat.add_sub_cancel_left]
  exact (List.prefix_iff_eq_take.1 (List.takeWhile_prefix test)).symm

end Bytes

end ByteMachine
