import ByteMachine.Proofs.PartialFile

/-!
Writing a module that was read. Only two bytes can get into a field that the writer then refuses.
What is written is read as the same module, and it is the file that was read exactly if the bodies
of that file's tables consist of records alone, each ended by `rs`.
-/
namespace ByteMachine

namespace Framing

/-! ## What a field that was read can hold -/

/-- The fields of a record hold none of the bytes that end a field, a record or a table. -/
def Unbroken (r : Record) : Prop :=
  ∀ field ∈ [r.name, r.value], ∀ b ∈ Utf8.encode field, b ≠ etx ∧ b ≠ fs ∧ b ≠ rs

theorem Records.unbroken {pieces : List (List UInt8)} {t : Table} (h : Records pieces t)
    (hpieces : ∀ piece ∈ pieces, ∀ b ∈ piece, b ≠ rs ∧ b ≠ etx) : ∀ r ∈ t, Unbroken r := by
  induction h with
  | nil => simp
  | @record r pieces t hname hvalue _ ih =>
    rw [List.forall_mem_cons] at hpieces ⊢
    refine ⟨?_, ih hpieces.2⟩
    intro field hfield b hb
    simp only [List.mem_cons, List.not_mem_nil, or_false] at hfield
    rcases hfield with rfl | rfl
    · obtain ⟨hrs, hetx⟩ := hpieces.1 b (by simp [hb])
      exact ⟨hetx, fun heq => hname (heq ▸ hb), hrs⟩
    · obtain ⟨hrs, hetx⟩ := hpieces.1 b (by simp [hb])
      exact ⟨hetx, fun heq => hvalue (heq ▸ hb), hrs⟩
  | passed _ _ ih =>
    rw [List.forall_mem_cons] at hpieces
    exact ih hpieces.2

theorem IsBody.unbroken {body : List UInt8} {t : Table} (h : IsBody body t) :
    ∀ r ∈ t, Unbroken r := by
  apply h.records.unbroken
  intro piece hpiece b hb
  obtain ⟨hne, hmem⟩ := mem_of_mem_splitOn hpiece hb
  exact ⟨hne, fun heq => h.etx_not_mem (heq ▸ hmem)⟩

/-! ## Canonical bodies -/

/-- A body of nothing but records, each ended by `rs`. -/
structure Canonical (body : List UInt8) : Prop where
  ended : body = [] ∨ ∃ front, body = front ++ [rs]
  /-- The pieces that `rs` ends are all but the last one. -/
  pieces : ∀ piece ∈ (body.splitOn rs).dropLast, piece ≠ [] ∧ piece.count fs = 1

theorem splitOn_records {t : Table} (h : ∀ r ∈ t, Unbroken r) :
    (t.flatMap recordBytes).splitOn rs =
      t.map (fun r => Utf8.encode r.name ++ fs :: Utf8.encode r.value) ++ [[]] := by
  induction t with
  | nil => simp
  | cons r t ih =>
    rw [List.forall_mem_cons] at h
    have hnot : rs ∉ Utf8.encode r.name ++ fs :: Utf8.encode r.value := by
      intro hmem
      rcases List.mem_append.1 hmem with hname | hmem
      · exact (h.1 r.name (by simp) rs hname).2.2 rfl
      · rcases List.mem_cons.1 hmem with heq | hvalue
        · exact absurd heq (by decide)
        · exact (h.1 r.value (by simp) rs hvalue).2.2 rfl
    rw [List.flatMap_cons, recordBytes, List.append_assoc, List.singleton_append,
      List.splitOn_append_cons_self_of_not_mem hnot, ih h.2]
    rfl

theorem canonical_records {t : Table} (h : ∀ r ∈ t, Unbroken r) :
    Canonical (t.flatMap recordBytes) where
  ended := by
    rcases List.eq_nil_or_concat t with rfl | ⟨front, r, rfl⟩
    · exact .inl rfl
    · exact .inr ⟨front.flatMap recordBytes ++ (Utf8.encode r.name ++ fs :: Utf8.encode r.value),
        by simp [recordBytes]⟩
  pieces := by
    rw [splitOn_records h, List.dropLast_concat]
    intro piece hpiece
    obtain ⟨r, hr, rfl⟩ := List.mem_map.1 hpiece
    refine ⟨by simp, count_of_fields ?_ ?_⟩
    · intro hmem
      exact (h r hr r.name (by simp) fs hmem).2.1 rfl
    · intro hmem
      exact (h r hr r.value (by simp) fs hmem).2.1 rfl

theorem Records.eq_nil_of_count {piece : List UInt8} {t : Table} (h : Records [piece] t)
    (hcount : piece.count fs ≠ 1) : t = [] := by
  cases h with
  | record hname hvalue _ => exact absurd (count_of_fields hname hvalue) hcount
  | passed _ h =>
    cases h
    rfl

/-- Pieces with one `fs` are records, and none of them is passed over. -/
theorem Records.eq_flatMap {pieces : List (List UInt8)} {t : Table}
    (h : Records (pieces ++ [[]]) t) (hpieces : ∀ piece ∈ pieces, piece.count fs = 1) :
    [rs].intercalate (pieces ++ [[]]) = t.flatMap recordBytes := by
  induction pieces generalizing t with
  | nil =>
    obtain rfl := Records.eq_nil_of_count h (by decide)
    rfl
  | cons piece pieces ih =>
    rw [List.forall_mem_cons] at hpieces
    cases h with
    | record _ _ h =>
      rw [List.flatMap_cons, ← ih h hpieces.2, List.cons_append,
        List.intercalate_cons_of_ne_nil (by simp)]
      simp [recordBytes]
    | passed hcount _ => exact absurd hpieces.1 hcount

theorem Canonical.eq_records {body : List UInt8} {t : Table} (h : Canonical body)
    (ht : IsBody body t) : body = t.flatMap recordBytes := by
  obtain ⟨pieces, hsplit⟩ : ∃ pieces, body.splitOn rs = pieces ++ [[]] := by
    rcases h.ended with rfl | ⟨front, rfl⟩
    · exact ⟨[], rfl⟩
    · exact ⟨front.splitOn rs, List.splitOn_append_cons_self front []⟩
  have hpieces := h.pieces
  have hrecords := ht.records
  rw [hsplit] at hpieces hrecords
  rw [List.dropLast_concat] at hpieces
  have hjoin : [rs].intercalate (body.splitOn rs) = body := List.intercalate_splitOn rs
  rw [← hjoin, hsplit]
  exact hrecords.eq_flatMap fun piece hpiece => (hpieces piece hpiece).2

theorem IsBody.canonical_iff {body : List UInt8} {t : Table} (h : IsBody body t) :
    Canonical body ↔ body = t.flatMap recordBytes := by
  constructor
  · intro hcanonical
    exact hcanonical.eq_records h
  · rintro rfl
    exact canonical_records h.unbroken

end Framing

namespace Module

open Framing Source

namespace Bodies

def all (b : Bodies) : List (List UInt8) :=
  [b.properties, b.exports, b.code, b.data]

def ofModule (m : Module) : Bodies where
  properties := m.properties.flatMap recordBytes
  exports := m.exports.flatMap recordBytes
  code := m.code.properties.flatMap recordBytes
  data := m.data.properties.flatMap recordBytes

theorem fileBytes_eq (m : Module) : m.fileBytes = (ofModule m).file m := by
  simp only [fileBytes, pageBytes, tableBytes_eq]
  rfl

theorem of_ofModule {m : Module} (h : ∀ t ∈ m.tables, CleanTable t) : (ofModule m).Of m := by
  simp only [tables, List.forall_mem_cons] at h
  obtain ⟨hproperties, hexports, hcode, hdata, -⟩ := h
  exact ⟨isBody_records hproperties, isBody_records hexports, isBody_records hcode,
    isBody_records hdata⟩

theorem Of.canonical_iff {b : Bodies} {m : Module} (h : b.Of m) :
    (∀ body ∈ b.all, Canonical body) ↔ b = ofModule m := by
  simp only [all, List.forall_mem_cons, h.properties.canonical_iff, h.exports.canonical_iff,
    h.code.canonical_iff, h.data.canonical_iff, Bodies.ext_iff, ofModule]
  simp

theorem Of.unbroken {b : Bodies} {m : Module} (h : b.Of m) :
    ∀ t ∈ m.tables, ∀ r ∈ t, Unbroken r := by
  simp only [tables, List.forall_mem_cons]
  exact ⟨h.properties.unbroken, h.exports.unbroken, h.code.unbroken, h.data.unbroken, by simp⟩

end Bodies

/-- A field holds one of the two bytes that are read as part of a field but never written. -/
def HoldsRefusedByte (m : Module) : Prop :=
  ∃ t ∈ m.tables, ∃ r ∈ t, ∃ field ∈ [r.name, r.value],
    0x00 ∈ Utf8.encode field ∨ 0x02 ∈ Utf8.encode field

theorem Bodies.Of.holdsFramingByte_iff {b : Bodies} {m : Module} (h : b.Of m) :
    m.HoldsFramingByte ↔ m.HoldsRefusedByte := by
  constructor
  · rintro ⟨t, ht, r, hr, field, hfield, byte, hbyte, hmem⟩
    refine ⟨t, ht, r, hr, field, hfield, ?_⟩
    obtain ⟨hetx, hfs, hrs⟩ := h.unbroken t ht r hr field hfield byte hbyte
    simp only [List.mem_cons, List.not_mem_nil, or_false] at hmem
    rcases hmem with rfl | rfl | rfl | rfl | rfl
    · exact .inl hbyte
    · exact .inr hbyte
    · exact absurd rfl hetx
    · exact absurd rfl hfs
    · exact absurd rfl hrs
  · rintro ⟨t, ht, r, hr, field, hfield, hbyte | hbyte⟩
    · exact ⟨t, ht, r, hr, field, hfield, 0x00, hbyte, by decide⟩
    · exact ⟨t, ht, r, hr, field, hfield, 0x02, hbyte, by decide⟩

theorem fill_write_of_holds {m : Module} (h : m.HoldsFramingByte) :
    ∃ cause w, Sink.fill m.write none = (.error (.format cause), w) := by
  obtain ⟨cause, hresult⟩ := refuses_output (not_cleanTable_of_holds h)
  exact ⟨cause, m.output.bytes, by rw [write_eq, Output.fill_unlimited, hresult]⟩

theorem fill_write_of_not_holds {m : Module} (h : ¬ m.HoldsFramingByte) :
    Sink.fill m.write none = (.ok (), m.fileBytes) := by
  rw [write_eq, Output.fill_unlimited, output_of_clean (cleanTable_of_not_holds h)]
  rfl

theorem fill_write_eq_error {m : Module} {e : Error} {w : List UInt8}
    (h : Sink.fill m.write none = (.error e, w)) :
    m.HoldsFramingByte ∧ ∃ cause, e = .format cause := by
  by_cases hholds : m.HoldsFramingByte
  · obtain ⟨cause, w', hfill⟩ := fill_write_of_holds hholds
    rw [hfill] at h
    cases h
    exact ⟨hholds, cause, rfl⟩
  · rw [fill_write_of_not_holds hholds] at h
    cases h

theorem fill_write_eq_ok {m : Module} {w : List UInt8}
    (h : Sink.fill m.write none = (.ok (), w)) : ¬ m.HoldsFramingByte ∧ w = m.fileBytes := by
  by_cases hholds : m.HoldsFramingByte
  · obtain ⟨cause, w', hfill⟩ := fill_write_of_holds hholds
    rw [hfill] at h
    cases h
  · rw [fill_write_of_not_holds hholds] at h
    cases h
    exact ⟨hholds, rfl⟩

/-- Whatever room there was, a module that was written is read back. -/
theorem read_of_fill {m : Module} {room : Option Nat} {w : List UInt8}
    (h : Sink.fill m.write room = (.ok (), w)) : read (ofBytes w) = .ok m (ofBytes []) := by
  rw [write_eq] at h
  have hunlimited := Output.fill_unlimited_of_ok h
  rw [← write_eq] at hunlimited
  obtain ⟨hholds, rfl⟩ := fill_write_eq_ok hunlimited
  have hread := read_fileBytes (cleanTable_of_not_holds hholds) []
  rwa [List.append_nil] at hread

/-- Writing a module gives back a file of it exactly if the bodies there are canonical. -/
theorem Bodies.Of.fileBytes_eq_iff {b : Bodies} {m : Module} (h : b.Of m)
    (hclean : ∀ t ∈ m.tables, CleanTable t) :
    m.fileBytes = b.file m ↔ ∀ body ∈ b.all, Canonical body := by
  rw [h.canonical_iff, Bodies.fileBytes_eq]
  constructor
  · intro heq
    exact (Bodies.eq_of_file_eq (Bodies.of_ofModule hclean) h heq).symm
  · rintro rfl
    rfl

/-- A module that was read can be written unless a field holds one of two bytes. What is written is
read as that module, which is then written as before, and it is what was read exactly if the bodies
there are canonical. -/
theorem write_of_read {bytes : List UInt8} {m : Module} {s : Source} {p : Nat}
    (h : read (ofBytes bytes) = .ok m s) (hp : remaining s + p = bytes.length) :
    ((∃ e w, Sink.fill m.write none = (.error e, w)) ↔ m.HoldsRefusedByte) ∧
    (∀ e w, Sink.fill m.write none = (.error e, w) → ∃ cause, e = .format cause) ∧
    ∀ w, Sink.fill m.write none = (.ok (), w) →
      read (ofBytes w) = .ok m (ofBytes []) ∧
      (∀ m' s', read (ofBytes w) = .ok m' s' → Sink.fill m'.write none = (.ok (), w)) ∧
      ∃ b : Bodies, b.Of m ∧ bytes.take p = b.file m ∧
        (w = bytes.take p ↔ ∀ body ∈ b.all, Canonical body) := by
  obtain ⟨-, -, b, hb, hfile⟩ := read_eq_ok_iff.1 ⟨h, hp⟩
  rw [← hb.holdsFramingByte_iff]
  refine ⟨⟨?_, ?_⟩, ?_, ?_⟩
  · rintro ⟨e, w, hw⟩
    exact (fill_write_eq_error hw).1
  · intro hholds
    obtain ⟨cause, w, hw⟩ := fill_write_of_holds hholds
    exact ⟨.format cause, w, hw⟩
  · intro e w hw
    exact (fill_write_eq_error hw).2
  · intro w hw
    obtain ⟨hholds, rfl⟩ := fill_write_eq_ok hw
    have hclean := cleanTable_of_not_holds hholds
    have hread : read (ofBytes m.fileBytes) = .ok m (ofBytes []) := by
      simpa using read_fileBytes hclean []
    refine ⟨hread, ?_, b, hb, hfile, ?_⟩
    · intro m' s' hread'
      rw [hread] at hread'
      cases hread'
      exact hw
    · rw [hfile]
      exact hb.fileBytes_eq_iff hclean

/-- A file with pieces that are no records is written shorter than it was read. -/
theorem write_of_read_lenient :
    read (ofBytes (lenientBodies.file lenient)) = .ok lenient (ofBytes []) ∧
      ¬ lenient.HoldsRefusedByte ∧
      ∃ w, Sink.fill lenient.write none = (.ok (), w) ∧
        read (ofBytes w) = .ok lenient (ofBytes []) ∧
        ∃ b : Bodies, b.Of lenient ∧ lenientBodies.file lenient = b.file lenient ∧
          ¬ ∀ body ∈ b.all, Canonical body := by
  have h : read (ofBytes (lenientBodies.file lenient)) = .ok lenient (ofBytes []) := by rfl
  obtain ⟨w, hfill, hlength⟩ : ∃ w, Sink.fill lenient.write none = (.ok (), w) ∧
      w.length < (lenientBodies.file lenient).length := ⟨_, rfl, by decide⟩
  have hall : remaining (ofBytes []) + (lenientBodies.file lenient).length =
      (lenientBodies.file lenient).length := Nat.zero_add _
  obtain ⟨hfails, -, hwrites⟩ := write_of_read h hall
  obtain ⟨hread, -, b, hb, hfile, hcanonical⟩ := hwrites w hfill
  rw [List.take_length] at hfile hcanonical
  refine ⟨h, ?_, w, hfill, hread, b, hb, hfile, ?_⟩
  · rw [← hfails]
    rintro ⟨e, w', hw⟩
    rw [hfill] at hw
    cases hw
  · rw [← hcanonical]
    rintro rfl
    exact Nat.lt_irrefl _ hlength

end Module

end ByteMachine
