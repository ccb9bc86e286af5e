import ByteMachine.Proofs.ModuleFile
import ByteMachine.Proofs.Readers

/-!
The grammar of module files. A file is a fixed sequence of sections; a table may hold more than its
records, and what is no record is passed over. Reading succeeds exactly on the streams that begin
with a file, and there is only one way to take such a stream apart.
-/
namespace ByteMachine

namespace Framing

open Source

/-! ## Headers and blocks -/

/-- The part of reading a header that comes after `nul`. -/
def checkHeader (expected : String) (bytes : List UInt8) : Action Source Unit :=
  match Utf8.decode bytes with
  | .error defect => throw (.format (.headerNotText expected defect))
  | .ok found => if found ≠ expected then throw (.format (.wrongHeader expected found)) else pure ()

theorem recognises_checkHeader (name : String) (found : List UInt8) :
    Recognises (checkHeader name found) fun bytes _ =>
      bytes = [] ∧ found = Utf8.encode name := by
  unfold checkHeader
  cases hdecode : Utf8.decode found with
  | error defect =>
    refine (Recognises.throw _).congr fun bytes a => ⟨False.elim, ?_⟩
    rintro ⟨-, rfl⟩
    rw [Utf8.decode_encode] at hdecode
    cases hdecode
  | ok text =>
    obtain rfl := Utf8.decode_eq_ok_iff.1 hdecode
    by_cases heq : text = name
    · subst heq
      simp only [ne_eq, not_true_eq_false, ↓reduceIte]
      exact (Recognises.pure ()).congr fun bytes a => by simp
    · simp only [ne_eq, heq, not_false_eq_true, ↓reduceIte]
      refine (Recognises.throw _).congr fun bytes a => ⟨False.elim, ?_⟩
      rintro ⟨-, h⟩
      rw [← Utf8.decode_eq_ok_iff, Utf8.decode_encode] at h
      cases h
      exact heq rfl

theorem recognises_readHeader {name : String} (hn : nul ∉ Utf8.encode name) :
    Recognises (readHeader name) fun bytes _ => bytes = textBytes name := by
  refine ((takes_readUntil nul).bind rfl (recognises_checkHeader name)).congr fun bytes a => ?_
  constructor
  · rintro ⟨front, back, found, rfl, ⟨rfl, -⟩, rfl, rfl⟩
    simp [textBytes]
  · rintro rfl
    exact ⟨textBytes name, [], Utf8.encode name, by simp, ⟨rfl, hn⟩, rfl, rfl⟩

theorem recognises_readPart (name : String) (count : Nat) :
    Recognises (readPart name count) fun bytes a => bytes = a ∧ a.length = count := by
  have htakes := (takes_readBytes count).adaptExcept (endedInside name)
  refine (htakes.bind rfl fun a => Recognises.pure a).congr fun bytes a => ?_
  constructor
  · rintro ⟨front, back, a, rfl, ⟨rfl, hl⟩, rfl, rfl⟩
    exact ⟨by simp, hl⟩
  · rintro ⟨rfl, hl⟩
    exact ⟨bytes, [], bytes, by simp, ⟨rfl, hl⟩, rfl, rfl⟩

theorem recognises_readBlock {name : String} (hn : nul ∉ Utf8.encode name) (width : Width) :
    Recognises (readBlock name width) fun bytes a =>
      bytes = blockBytes name width a ∧ a.length ≤ width.maxValue := by
  have hcheck : ∀ count contents again : List UInt8, Recognises
      (if LittleEndian.decode again ≠ LittleEndian.decode count then
        (throw (.format .countMismatch) >>= fun _ : Unit => pure contents)
      else pure contents : Action Source (List UInt8))
      fun bytes a => bytes = [] ∧ LittleEndian.decode again = LittleEndian.decode count ∧
        a = contents := by
    intro count contents again
    by_cases heq : LittleEndian.decode again = LittleEndian.decode count
    · rw [if_neg (not_not_intro heq)]
      exact (Recognises.pure contents).congr fun bytes a => by simp [heq]
    · rw [if_pos heq]
      exact (Recognises.throw _).congr fun bytes a => by simp [heq]
  refine ((recognises_readHeader hn).bind fun _ =>
    (recognises_readPart name width.bytes).bind fun count =>
      (recognises_readPart name (LittleEndian.decode count)).bind fun contents =>
        (recognises_readPart name width.bytes).bind (hcheck count contents)).congr ?_
  intro bytes a
  constructor
  · rintro ⟨_, _, -, rfl, rfl, count, _, _, rfl, ⟨rfl, hcount⟩, _, _, _, rfl, ⟨rfl, hlength⟩,
      again, _, _, rfl, ⟨rfl, hagain⟩, rfl, heq, rfl⟩
    have hsame : again = count := by
      rw [← LittleEndian.encode_decode again, heq, hagain, ← hcount, LittleEndian.encode_decode]
    have hencode : LittleEndian.encode width.bytes a.length = count := by
      rw [hlength, ← hcount, LittleEndian.encode_decode]
    have hlt := LittleEndian.decode_lt count
    rw [hcount, ← hlength, width.lt_iff_le_maxValue] at hlt
    exact ⟨by simp [blockBytes, hsame, hencode], hlt⟩
  · rintro ⟨rfl, hle⟩
    have hdecode : LittleEndian.decode (LittleEndian.encode width.bytes a.length) = a.length :=
      LittleEndian.decode_encode _ _ ((width.lt_iff_le_maxValue _).2 hle)
    have hlength := LittleEndian.length_encode width.bytes a.length
    refine ⟨textBytes name, _, (), ?_, rfl, _, _, _, rfl, ⟨rfl, hlength⟩, _, _, _, rfl,
      ⟨rfl, hdecode.symm⟩, _, _, _, rfl, ⟨rfl, hlength⟩, rfl, rfl, rfl⟩
    simp [blockBytes]

/-! ## Tables -/

/-- The records in the pieces of a table: each piece with exactly one `fs` is one, and all others
are passed over. -/
inductive Records : List (List UInt8) → Table → Prop where
  | nil : Records [] []
  | record {r : Record} {pieces : List (List UInt8)} {t : Table}
      (hname : fs ∉ Utf8.encode r.name) (hvalue : fs ∉ Utf8.encode r.value) :
      Records pieces t →
        Records ((Utf8.encode r.name ++ fs :: Utf8.encode r.value) :: pieces) (r :: t)
  | passed {piece : List UInt8} {pieces : List (List UInt8)} {t : Table}
      (hcount : piece.count fs ≠ 1) : Records pieces t → Records (piece :: pieces) t

/-- What stands in a file between `stx` and `etx` for a table. -/
structure IsBody (body : List UInt8) (t : Table) : Prop where
  etx_not_mem : etx ∉ body
  records : Records (body.splitOn rs) t

def framed (name : String) (body : List UInt8) : List UInt8 :=
  textBytes name ++ stx :: (body ++ [etx])

theorem splitOnto_eq (separator : UInt8) (bytes begun : List UInt8) :
    splitOnto separator begun bytes = List.splitOnPPrepend (· == separator) bytes begun := by
  induction bytes generalizing begun with
  | nil => rfl
  | cons b bytes ih =>
    rw [splitOnto, List.splitOnPPrepend_cons_eq_if, ← List.splitOnPPrepend_nil_right]
    simp only [beq_iff_eq, ih]

theorem split_eq_splitOn (separator : UInt8) (bytes : List UInt8) :
    split separator bytes = bytes.splitOn separator :=
  splitOnto_eq separator bytes []

/-- Pieces hold what stands between the separators. -/
theorem mem_of_mem_splitOnto {separator x : UInt8} {bytes begun piece : List UInt8}
    (hbegun : separator ∉ begun) (h : piece ∈ splitOnto separator begun bytes) (hx : x ∈ piece) :
    x ≠ separator ∧ (x ∈ begun ∨ x ∈ bytes) := by
  have hfirst : ∀ begun : List UInt8, separator ∉ begun → piece = begun.reverse →
      x ≠ separator ∧ x ∈ begun := by
    rintro begun hbegun rfl
    rw [List.mem_reverse] at hx
    exact ⟨fun heq => hbegun (heq ▸ hx), hx⟩
  induction bytes generalizing begun with
  | nil =>
    rw [splitOnto, List.mem_singleton] at h
    exact (hfirst begun hbegun h).imp_right .inl
  | cons b bytes ih =>
    rw [splitOnto] at h
    by_cases hb : b = separator
    · rw [if_pos hb, List.mem_cons] at h
      rcases h with h | h
      · exact (hfirst begun hbegun h).imp_right .inl
      · obtain ⟨hne, hmem⟩ := ih List.not_mem_nil h
        exact ⟨hne, .inr (List.mem_cons_of_mem b (hmem.resolve_left List.not_mem_nil))⟩
    · rw [if_neg hb] at h
      obtain ⟨hne, hmem⟩ := ih (by simpa [hbegun] using Ne.symm hb) h
      exact ⟨hne, by grind⟩

theorem mem_of_mem_splitOn {separator x : UInt8} {bytes piece : List UInt8}
    (h : piece ∈ bytes.splitOn separator) (hx : x ∈ piece) : x ≠ separator ∧ x ∈ bytes := by
  rw [← split_eq_splitOn] at h
  obtain ⟨hne, hmem⟩ := mem_of_mem_splitOnto List.not_mem_nil h hx
  exact ⟨hne, hmem.resolve_left List.not_mem_nil⟩

theorem not_mem_of_mem_splitOn {separator : UInt8} {bytes piece : List UInt8}
    (h : piece ∈ bytes.splitOn separator) : separator ∉ piece :=
  fun hx => (mem_of_mem_splitOn h hx).1 rfl

/-- The fields of a piece are what stands before and behind its only `fs`. -/
theorem fields?_eq_some_iff {piece a b : List UInt8} :
    fields? piece = some (a, b) ↔ piece = a ++ fs :: b ∧ fs ∉ a ∧ fs ∉ b := by
  constructor
  · intro h
    have hsplit : piece.splitOn fs = [a, b] := by
      unfold fields? at h
      rw [split_eq_splitOn] at h
      split at h
      · next heq =>
        cases h
        exact heq
      · cases h
    refine ⟨?_, not_mem_of_mem_splitOn (by rw [hsplit]; simp),
      not_mem_of_mem_splitOn (by rw [hsplit]; simp)⟩
    have hjoin : [fs].intercalate (piece.splitOn fs) = piece := List.intercalate_splitOn fs
    rw [← hjoin, hsplit]
    simp [List.intercalate]
  · rintro ⟨rfl, ha, hb⟩
    rw [fields?, split_append ha, split_of_not_mem hb]

theorem count_of_fields {a b : List UInt8} (ha : fs ∉ a) (hb : fs ∉ b) :
    (a ++ fs :: b).count fs = 1 := by
  rw [List.count_append, List.count_cons_self, List.count_eq_zero.2 ha, List.count_eq_zero.2 hb]

theorem exists_fields_iff {piece : List UInt8} :
    (∃ fields, fields? piece = some fields) ↔ piece.count fs = 1 := by
  constructor
  · rintro ⟨⟨a, b⟩, h⟩
    obtain ⟨rfl, ha, hb⟩ := fields?_eq_some_iff.1 h
    exact count_of_fields ha hb
  · intro h
    have hmem : fs ∈ piece := List.count_pos_iff.1 (by omega)
    obtain ⟨a, b, rfl, ha⟩ := List.eq_append_cons_of_mem hmem
    rw [List.count_append, List.count_cons_self, List.count_eq_zero.2 ha] at h
    exact ⟨(a, b), fields?_eq_some_iff.2 ⟨rfl, ha, List.count_eq_zero.1 (by omega)⟩⟩

theorem decodeField_eq_ok_iff {table : String} {bytes : List UInt8} {text : String} :
    decodeField table bytes = .ok text ↔ bytes = Utf8.encode text := by
  rw [← Utf8.decode_eq_ok_iff, decodeField]
  cases Utf8.decode bytes with
  | ok found => simp
  | error defect => simp

theorem decodeRecord_eq_ok_iff {table : String} {a b : List UInt8} {r : Record} :
    decodeRecord table (a, b) = .ok r ↔ a = Utf8.encode r.name ∧ b = Utf8.encode r.value := by
  obtain ⟨name, value⟩ := r
  have hname : decodeField table a = .ok name ↔ a = Utf8.encode name := decodeField_eq_ok_iff
  have hvalue : decodeField table b = .ok value ↔ b = Utf8.encode value := decodeField_eq_ok_iff
  simp only [← hname, ← hvalue, decodeRecord]
  cases decodeField table a with
  | error e => simp [bind, Except.bind]
  | ok found =>
    cases decodeField table b with
    | error e => simp [bind, Except.bind]
    | ok found' => simp [bind, Except.bind, pure, Except.pure]

/-- The records that are decoded are those in the pieces. -/
theorem mapM_decodeRecord_eq_ok_iff {table : String} {pieces : List (List UInt8)} {t : Table} :
    (pieces.filterMap fields?).mapM (decodeRecord table) = .ok t ↔ Records pieces t := by
  induction pieces generalizing t with
  | nil =>
    constructor
    · intro h
      cases h
      exact .nil
    · intro h
      cases h
      rfl
  | cons piece pieces ih =>
    cases hf : fields? piece with
    | none =>
      have hcount : piece.count fs ≠ 1 := by
        rw [ne_eq, ← exists_fields_iff, hf]
        simp
      rw [List.filterMap_cons_none hf, ih]
      constructor
      · exact .passed hcount
      · intro h
        cases h with
        | record hname hvalue _ => exact absurd (count_of_fields hname hvalue) hcount
        | passed _ h => exact h
    | some fields =>
      obtain ⟨a, b⟩ := fields
      obtain ⟨hpiece, ha, hb⟩ := fields?_eq_some_iff.1 hf
      rw [List.filterMap_cons_some hf, List.mapM_cons]
      constructor
      · intro h
        cases hr : decodeRecord table (a, b) with
        | error e =>
          rw [hr] at h
          cases h
        | ok r =>
          cases ht : (pieces.filterMap fields?).mapM (decodeRecord table) with
          | error e =>
            rw [hr, ht] at h
            cases h
          | ok t' =>
            rw [hr, ht] at h
            cases h
            obtain ⟨rfl, rfl⟩ := decodeRecord_eq_ok_iff.1 hr
            exact hpiece ▸ .record ha hb (ih.1 ht)
      · intro h
        cases h with
        | record hname hvalue h =>
          obtain ⟨rfl, rfl⟩ := cut_inj hname ha hpiece
          rw [decodeRecord_encode, ih.2 h]
          rfl
        | passed hcount _ => exact absurd (hpiece ▸ count_of_fields ha hb) hcount

theorem decodeBody_eq_ok_iff {table : String} {body : List UInt8} {t : Table} :
    decodeBody table body = .ok t ↔ Records (body.splitOn rs) t := by
  rw [decodeBody, split_eq_splitOn, mapM_decodeRecord_eq_ok_iff]

def readBody (name : String) : Action Source Table := do
  match ← Source.readUntil etx with
  | none => throw (.format (.missingTableEnd name))
  | some body => Action.ofExcept (decodeBody name body)

theorem recognises_readBody (name : String) :
    Recognises (readBody name) fun bytes t => ∃ body, bytes = body ++ [etx] ∧ IsBody body t := by
  refine ((takes_readUntil etx).bind rfl
    fun body => Recognises.ofExcept (decodeBody name body)).congr fun bytes t => ?_
  constructor
  · rintro ⟨_, _, body, rfl, ⟨rfl, hnot⟩, rfl, hdecode⟩
    exact ⟨body, by simp, hnot, decodeBody_eq_ok_iff.1 hdecode⟩
  · rintro ⟨body, rfl, hnot, hrecords⟩
    exact ⟨body ++ [etx], [], body, by simp, ⟨rfl, hnot⟩, rfl, decodeBody_eq_ok_iff.2 hrecords⟩

theorem recognises_readTable {name : String} (hn : nul ∉ Utf8.encode name) :
    Recognises (readTable name) fun bytes t =>
      ∃ body, bytes = framed name body ∧ IsBody body t := by
  have hstart : ∀ b : UInt8, Recognises
      (if b ≠ stx then
        (throw (.format (.wrongTableStart name b)) >>= fun _ : Unit => readBody name)
      else readBody name)
      fun bytes t => b = stx ∧ ∃ body, bytes = body ++ [etx] ∧ IsBody body t := by
    intro b
    by_cases hb : b = stx
    · rw [if_neg (not_not_intro hb)]
      exact (recognises_readBody name).congr fun bytes t => by simp [hb]
    · rw [if_pos hb]
      exact (Recognises.throw _).congr fun bytes t => by simp [hb]
  refine ((recognises_readHeader hn).bind fun _ => takes_readByte.bind rfl hstart).congr ?_
  intro bytes t
  constructor
  · rintro ⟨_, _, -, rfl, rfl, _, _, b, rfl, rfl, rfl, body, rfl, h⟩
    exact ⟨body, by simp [framed], h⟩
  · rintro ⟨body, rfl, h⟩
    exact ⟨textBytes name, stx :: (body ++ [etx]), (), rfl, rfl, [stx], body ++ [etx], stx, rfl,
      rfl, rfl, body, rfl, h⟩

theorem framed_inj {name : String} {body body' rest rest' : List UInt8} (h : etx ∉ body)
    (h' : etx ∉ body') (heq : framed name body ++ rest = framed name body' ++ rest') :
    body = body' ∧ rest = rest' := by
  simp only [framed, List.append_assoc, List.cons_append, List.nil_append] at heq
  injection List.append_cancel_left heq with _ heq
  exact cut_inj h h' heq

end Framing

/-! ## Pages and files -/

theorem Page.make_eq_ok_iff {s : Section} {properties : Table} {contents : List UInt8}
    {p : Page s} :
    make s properties contents = .ok p ↔ p.properties = properties ∧ p.contents = contents := by
  constructor
  · intro h
    unfold make at h
    split at h
    · cases h
    · simp only at h
      split at h
      · cases h
        exact ⟨rfl, by simp [Page.contents]⟩
      · cases h
  · rintro ⟨rfl, rfl⟩
    exact p.make_contents

namespace Module

open Framing Source

def readContents (s : Section) (properties : Table) : Action Source (Page s) := do
  let width ← Action.ofExcept properties.width
  let contents ← readBlock s.name width
  Action.ofExcept (Page.make s properties contents)

theorem recognises_readContents (s : Section) (properties : Table) :
    Recognises (readContents s properties) fun bytes p =>
      p.properties = properties ∧ bytes = blockBytes s.name p.width p.contents := by
  refine ((Recognises.ofExcept properties.width).bind fun width =>
    (recognises_readBlock (nul_not_mem_name s) width).bind fun contents =>
      Recognises.ofExcept (Page.make s properties contents)).congr ?_
  intro bytes p
  constructor
  · rintro ⟨_, _, width, rfl, ⟨rfl, hwidth⟩, _, _, contents, rfl, ⟨rfl, -⟩, rfl, hmake⟩
    obtain ⟨rfl, rfl⟩ := Page.make_eq_ok_iff.1 hmake
    obtain rfl : p.width = width := by
      rw [p.width_eq] at hwidth
      exact Except.ok.inj hwidth
    exact ⟨rfl, by simp⟩
  · rintro ⟨rfl, rfl⟩
    exact ⟨[], _, p.width, rfl, ⟨rfl, p.width_eq⟩, _, [], p.contents, (List.append_nil _).symm,
      ⟨rfl, length_contents_le p⟩, rfl, p.make_contents⟩

def framedPage {s : Section} (p : Page s) (body : List UInt8) : List UInt8 :=
  framed (propertiesName s) body ++ blockBytes s.name p.width p.contents

theorem recognises_readPage (s : Section) :
    Recognises (readPage s) fun bytes p =>
      ∃ body, bytes = framedPage p body ∧ IsBody body p.properties := by
  refine ((recognises_readTable (nul_not_mem_propertiesName s)).bind
    (recognises_readContents s)).congr ?_
  intro bytes p
  constructor
  · rintro ⟨_, _, _, rfl, ⟨body, rfl, h⟩, rfl, rfl⟩
    exact ⟨body, rfl, h⟩
  · rintro ⟨body, rfl, h⟩
    exact ⟨_, _, p.properties, rfl, ⟨body, rfl, h⟩, rfl, rfl⟩

/-- What stands in a file between `stx` and `etx`, for each of its tables. -/
@[ext]
structure Bodies where
  properties : List UInt8
  exports : List UInt8
  code : List UInt8
  data : List UInt8
  deriving DecidableEq, Repr

namespace Bodies

/-- The bodies are read as the tables of a module. -/
structure Of (b : Bodies) (m : Module) : Prop where
  properties : IsBody b.properties m.properties
  exports : IsBody b.exports m.exports
  code : IsBody b.code m.code.properties
  data : IsBody b.data m.data.properties

/-- The file with these bodies and the pages of a module. -/
def file (b : Bodies) (m : Module) : List UInt8 :=
  textBytes "module" ++ (framed "properties" b.properties ++ (framed "exports" b.exports ++
    (framedPage m.code b.code ++ framedPage m.data b.data)))

/-- The bodies of a file can be told from its bytes. -/
theorem eq_of_file_eq {b b' : Bodies} {m : Module} (h : b.Of m) (h' : b'.Of m)
    (heq : b.file m = b'.file m) : b = b' := by
  simp only [file, framedPage, List.append_assoc] at heq
  obtain ⟨hproperties, heq⟩ := framed_inj h.properties.etx_not_mem h'.properties.etx_not_mem
    (List.append_cancel_left heq)
  obtain ⟨hexports, heq⟩ := framed_inj h.exports.etx_not_mem h'.exports.etx_not_mem heq
  obtain ⟨hcode, heq⟩ := framed_inj h.code.etx_not_mem h'.code.etx_not_mem heq
  obtain ⟨hdata, -⟩ := framed_inj h.data.etx_not_mem h'.data.etx_not_mem
    (List.append_cancel_left heq)
  exact Bodies.ext hproperties hexports hcode hdata

end Bodies

theorem recognises_read :
    Recognises read fun bytes m => ∃ b : Bodies, b.Of m ∧ bytes = b.file m := by
  refine ((recognises_readHeader (by decide)).bind fun _ =>
    (recognises_readTable (by decide)).bind fun properties =>
      (recognises_readTable (by decide)).bind fun exports =>
        (recognises_readPage .code).bind fun code =>
          (recognises_readPage .data).bind fun data =>
            Recognises.pure (Module.mk properties exports code data)).congr ?_
  intro bytes m
  constructor
  · rintro ⟨_, _, -, rfl, rfl, _, _, properties, rfl, ⟨body, rfl, h⟩, _, _, exports, rfl,
      ⟨body', rfl, h'⟩, _, _, code, rfl, ⟨codeBody, rfl, hcode⟩, _, _, data, rfl,
      ⟨dataBody, rfl, hdata⟩, rfl, rfl⟩
    exact ⟨⟨body, body', codeBody, dataBody⟩, ⟨h, h', hcode, hdata⟩, by simp [Bodies.file]⟩
  · rintro ⟨b, hb, rfl⟩
    obtain ⟨h, h', hcode, hdata⟩ := hb
    exact ⟨_, _, (), rfl, rfl, _, _, m.properties, rfl, ⟨_, rfl, h⟩, _, _, m.exports, rfl,
      ⟨_, rfl, h'⟩, _, _, m.code, rfl, ⟨_, rfl, hcode⟩, _, [], m.data, (List.append_nil _).symm,
      ⟨_, rfl, hdata⟩, rfl, rfl⟩

section

variable {bytes : List UInt8} {m : Module} {s : Source} {p : Nat}

theorem read_eq_ok_iff :
    read (ofBytes bytes) = .ok m s ∧ remaining s + p = bytes.length ↔
      s = ofBytes (bytes.drop p) ∧ p ≤ bytes.length ∧
        ∃ b : Bodies, b.Of m ∧ bytes.take p = b.file m := by
  constructor
  · rintro ⟨h, hp⟩
    obtain ⟨front, rest, rfl, hfile, rfl⟩ := recognises_read.sound h
    rw [remaining_ofBytes, List.length_append, Nat.add_comm] at hp
    obtain rfl : p = front.length := by omega
    simpa using hfile
  · rintro ⟨rfl, hp, hfile⟩
    have h := recognises_read.complete (bytes.drop p) hfile
    rw [List.take_append_drop] at h
    rw [remaining_ofBytes, List.length_drop]
    exact ⟨h, by omega⟩

theorem file_unique {m' : Module} {p' : Nat} {b b' : Bodies} (hp : p ≤ bytes.length)
    (hp' : p' ≤ bytes.length) (hb : b.Of m) (hb' : b'.Of m') (hfile : bytes.take p = b.file m)
    (hfile' : bytes.take p' = b'.file m') : p = p' ∧ m = m' ∧ b = b' := by
  have heq : bytes.take p ++ bytes.drop p = bytes.take p' ++ bytes.drop p' := by
    rw [List.take_append_drop, List.take_append_drop]
  obtain ⟨htake, rfl⟩ := recognises_read.unique ⟨b, hb, hfile⟩ ⟨b', hb', hfile'⟩ heq
  have hlength := congrArg List.length htake
  rw [List.length_take_of_le hp, List.length_take_of_le hp'] at hlength
  exact ⟨hlength, rfl, Bodies.eq_of_file_eq hb hb' (by rw [← hfile, ← hfile', htake])⟩

end

/-- A module is read, and so many bytes for it, exactly if these bytes are a file of the module.
Then there is one way only to take the bytes apart, and those behind them do not matter. -/
theorem read_accepts_files (bytes : List UInt8) :
    (∀ m s p, read (ofBytes bytes) = .ok m s ∧ remaining s + p = bytes.length ↔
      s = ofBytes (bytes.drop p) ∧ p ≤ bytes.length ∧
        ∃ b : Bodies, b.Of m ∧ bytes.take p = b.file m) ∧
    (∀ m m' p p' (b b' : Bodies), p ≤ bytes.length → p' ≤ bytes.length → b.Of m → b'.Of m' →
      bytes.take p = b.file m → bytes.take p' = b'.file m' → p = p' ∧ m = m' ∧ b = b') ∧
    ∀ m s p, read (ofBytes bytes) = .ok m s → remaining s + p = bytes.length →
      ∀ rest, read (ofBytes (bytes.take p ++ rest)) = .ok m (ofBytes rest) := by
  refine ⟨fun m s p => read_eq_ok_iff, ?_, ?_⟩
  · intro m m' p p' b b' hp hp' hb hb' hfile hfile'
    exact file_unique hp hp' hb hb' hfile hfile'
  · intro m s p h hp rest
    obtain ⟨-, -, hfile⟩ := read_eq_ok_iff.1 ⟨h, hp⟩
    exact recognises_read.complete rest hfile

/-- A module, and bodies for it with pieces that are no records and without a last `rs`. -/
def lenient : Module :=
  { properties := [⟨"a", ""⟩]
    exports := [⟨"main", "0"⟩]
    code := ⟨[], #[0x00], .one, Table.width_nil, by decide⟩
    data := ⟨[⟨"address_width", "+2"⟩], #[0x2A], .two, rfl, by decide⟩ }

def lenientBodies : Bodies where
  properties := [0xFF, rs, rs, 0x61, fs]
  exports := [fs, fs, rs] ++ Utf8.encode "main" ++ [fs, 0x30, rs, 0x00]
  code := [rs]
  data := Utf8.encode "address_width" ++ [fs, 0x2B, 0x32]

theorem read_accepts_files_lenient :
    read (ofBytes (lenientBodies.file lenient ++ [0xAA])) = .ok lenient (ofBytes [0xAA]) ∧
      ∃ b : Bodies, b.Of lenient ∧ lenientBodies.file lenient = b.file lenient := by
  have h : read (ofBytes (lenientBodies.file lenient ++ [0xAA])) =
      .ok lenient (ofBytes [0xAA]) := by rfl
  refine ⟨h, ?_⟩
  have hlength : remaining (ofBytes [0xAA]) + (lenientBodies.file lenient).length =
      (lenientBodies.file lenient ++ [0xAA]).length := by
    simp [remaining_ofBytes, Nat.add_comm]
  obtain ⟨-, -, b, hb, hfile⟩ := ((read_accepts_files _).1 _ _ _).1 ⟨h, hlength⟩
  exact ⟨b, hb, by simpa using hfile⟩

end Module

end ByteMachine
