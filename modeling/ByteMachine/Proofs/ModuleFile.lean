import ByteMachine.Module.File
import ByteMachine.Proofs.Framing

/-!
Module files. A module can be written unless a field of one of its tables holds a framing byte, and
then it is read back as it was, whatever follows it in the stream.
-/
namespace ByteMachine

theorem Page.make_contents {s : Section} (p : Page s) :
    Page.make s p.properties p.contents = .ok p := by
  obtain ⟨properties, memory, width, hw, hl⟩ := p
  simp only [Page.make, Page.contents]
  split
  · next e he => rw [hw] at he; cases he
  · next w he =>
    obtain rfl : width = w := by rw [hw] at he; cases he; rfl
    simp [hl]

namespace Module

open Framing Output

/-! ## Writing -/

def pageBytes {s : Section} (p : Page s) : List UInt8 :=
  tableBytes (propertiesName s) p.properties ++ blockBytes s.name p.width p.contents

def fileBytes (m : Module) : List UInt8 :=
  textBytes "module" ++ (tableBytes "properties" m.properties ++ (tableBytes "exports" m.exports ++
    (pageBytes m.code ++ pageBytes m.data)))

def pageOutput {s : Section} (p : Page s) : Output :=
  (tableOutput (propertiesName s) p.properties).andThen (blockOutput s.name p.width p.contents)

def output (m : Module) : Output :=
  (textOutput "module").andThen ((tableOutput "properties" m.properties).andThen
    ((tableOutput "exports" m.exports).andThen ((pageOutput m.code).andThen (pageOutput m.data))))

theorem writePage_eq {s : Section} (p : Page s) : writePage p = (pageOutput p).send := by
  simp only [writePage, pageOutput, send_andThen, writeTable_eq, writeBlock_eq]

theorem write_eq (m : Module) : m.write = m.output.send := by
  simp only [write, output, send_andThen, writeText_eq, writeTable_eq, writePage_eq]

theorem nul_not_mem_name (s : Section) : nul ∉ Utf8.encode s.name := by
  cases s <;> decide

theorem nul_not_mem_propertiesName (s : Section) : nul ∉ Utf8.encode (propertiesName s) := by
  cases s <;> decide

theorem length_contents_le {s : Section} (p : Page s) : p.contents.length ≤ p.width.maxValue := by
  simpa [Page.contents] using p.size_le

theorem pageOutput_of_clean {s : Section} {p : Page s} (h : CleanTable p.properties) :
    pageOutput p = .of (pageBytes p) := by
  rw [pageOutput, tableOutput_of_clean (nul_not_mem_propertiesName s) h,
    blockOutput_of_le (nul_not_mem_name s) (length_contents_le p)]
  rfl

theorem refuses_pageOutput {s : Section} {p : Page s} (h : ¬ CleanTable p.properties) :
    (pageOutput p).Refuses :=
  (refuses_tableOutput (nul_not_mem_propertiesName s) h).andThen _

def tables (m : Module) : List Table :=
  [m.properties, m.exports, m.code.properties, m.data.properties]

/-- A name or a value in some table holds one of the bytes that frame tables. -/
def HoldsFramingByte (m : Module) : Prop :=
  ∃ t ∈ m.tables, ∃ r ∈ t, ∃ field ∈ [r.name, r.value], ∃ b ∈ Utf8.encode field,
    b ∈ ([0x00, 0x02, 0x03, 0x1C, 0x1E] : List UInt8)

theorem isControl_iff (b : UInt8) :
    isControl b = true ↔ b ∈ ([0x00, 0x02, 0x03, 0x1C, 0x1E] : List UInt8) := by
  simp [isControl, nul, stx, etx, fs, rs, or_assoc]

theorem cleanTable_of_not_holds {m : Module} (h : ¬ m.HoldsFramingByte) :
    ∀ t ∈ m.tables, CleanTable t := by
  intro t ht r hr
  have hf : ∀ field ∈ [r.name, r.value], Clean field := by
    intro field hf b hb
    rw [Bool.eq_false_iff]
    intro hc
    exact h ⟨t, ht, r, hr, field, hf, b, hb, (isControl_iff b).1 hc⟩
  exact ⟨hf _ (by simp), hf _ (by simp)⟩

theorem not_cleanTable_of_holds {m : Module} (h : m.HoldsFramingByte) :
    ∃ t ∈ m.tables, ¬ CleanTable t := by
  obtain ⟨t, ht, r, hr, field, hf, b, hb, hc⟩ := h
  refine ⟨t, ht, fun hclean => ?_⟩
  have hfield : Clean field := by
    simp only [List.mem_cons, List.not_mem_nil, or_false] at hf
    rcases hf with rfl | rfl
    · exact (hclean r hr).1
    · exact (hclean r hr).2
  exact hfield.not_mem ((isControl_iff b).2 hc) hb

theorem output_of_clean {m : Module} (h : ∀ t ∈ m.tables, CleanTable t) :
    m.output = .of m.fileBytes := by
  simp only [tables, List.forall_mem_cons] at h
  obtain ⟨hp, he, hc, hd, -⟩ := h
  rw [output, textOutput_of_not_mem (by decide), tableOutput_of_clean (by decide) hp,
    tableOutput_of_clean (by decide) he, pageOutput_of_clean hc, pageOutput_of_clean hd]
  rfl

/-- The first table that holds a framing byte is where writing stops. -/
theorem refuses_output {m : Module} (h : ∃ t ∈ m.tables, ¬ CleanTable t) : m.output.Refuses := by
  rw [output, textOutput_of_not_mem (by decide)]
  apply Refuses.after
  by_cases hp : CleanTable m.properties
  case neg => exact (refuses_tableOutput (by decide) hp).andThen _
  rw [tableOutput_of_clean (by decide) hp]
  apply Refuses.after
  by_cases he : CleanTable m.exports
  case neg => exact (refuses_tableOutput (by decide) he).andThen _
  rw [tableOutput_of_clean (by decide) he]
  apply Refuses.after
  by_cases hc : CleanTable m.code.properties
  case neg => exact (refuses_pageOutput hc).andThen _
  rw [pageOutput_of_clean hc]
  apply Refuses.after
  apply refuses_pageOutput
  obtain ⟨t, ht, hn⟩ := h
  simp only [tables, List.mem_cons, List.not_mem_nil, or_false] at ht
  rcases ht with rfl | rfl | rfl | rfl
  · exact absurd hp hn
  · exact absurd he hn
  · exact absurd hc hn
  · exact hn

/-! ## Reading -/

theorem readPage_pageBytes {s : Section} {p : Page s} (h : CleanTable p.properties)
    (rest : List UInt8) :
    readPage s (Source.ofBytes (pageBytes p ++ rest)) = .ok p (Source.ofBytes rest) := by
  rw [pageBytes, List.append_assoc, readPage,
    Action.bind_of_ok (readTable_tableBytes (nul_not_mem_propertiesName s) h _),
    p.width_eq, Action.bind_of_ok (Action.ofExcept_ok _ _),
    Action.bind_of_ok (readBlock_blockBytes (nul_not_mem_name s) (length_contents_le p) _),
    p.make_contents, Action.ofExcept_ok]

theorem read_fileBytes {m : Module} (h : ∀ t ∈ m.tables, CleanTable t) (rest : List UInt8) :
    read (Source.ofBytes (m.fileBytes ++ rest)) = .ok m (Source.ofBytes rest) := by
  simp only [tables, List.forall_mem_cons] at h
  obtain ⟨hp, he, hc, hd, -⟩ := h
  simp only [fileBytes, List.append_assoc]
  rw [read, Action.bind_of_ok (readHeader_textBytes (by decide) _),
    Action.bind_of_ok (readTable_tableBytes (by decide) hp _),
    Action.bind_of_ok (readTable_tableBytes (by decide) he _),
    Action.bind_of_ok (readPage_pageBytes hc _), Action.bind_of_ok (readPage_pageBytes hd _)]
  rfl

/-- Writing to a sink without a limit fails exactly for a module with a framing byte in a table,
and then as a format error. Otherwise it appends bytes from which the module is read back, and
reading stops right behind them. -/
theorem write_then_read (m : Module) (recent rest : List UInt8) :
    (m.HoldsFramingByte →
      ∃ cause s, m.write ⟨recent, none⟩ = .error (.format cause) s) ∧
    (¬ m.HoldsFramingByte →
      ∃ w, m.write ⟨recent, none⟩ = .ok () ⟨w.reverse ++ recent, none⟩ ∧
        read (Source.ofBytes (w ++ rest)) = .ok m (Source.ofBytes rest)) := by
  rw [write_eq]
  constructor
  · intro h
    obtain ⟨cause, hr⟩ := refuses_output (not_cleanTable_of_holds h)
    refine ⟨cause, ⟨m.output.bytes.reverse ++ recent, none⟩, ?_⟩
    rw [send, Action.bind_of_ok (Sink.write_unlimited _ _), hr, Action.ofExcept_error]
  · intro h
    have hc := cleanTable_of_not_holds h
    refine ⟨m.fileBytes, ?_, read_fileBytes hc rest⟩
    rw [output_of_clean hc, send_of, Sink.write_unlimited]

/-- A module with a wide page, a repeated name, empty fields and a page of one byte. -/
def sample : Module :=
  { properties := [⟨"name", "é"⟩, ⟨"name", ""⟩, ⟨"", ""⟩]
    exports := [⟨"main", "0x0"⟩]
    code := ⟨[⟨"address_width", " +2 "⟩], #[0x00], .two, rfl, by decide⟩
    data := ⟨[], #[], .one, rfl, by decide⟩ }

theorem write_then_read_sample :
    ¬ sample.HoldsFramingByte ∧
      ∃ w, sample.write ⟨[], none⟩ = .ok () ⟨w.reverse ++ [], none⟩ ∧
        read (Source.ofBytes (w ++ [0x00])) = .ok sample (Source.ofBytes [0x00]) := by
  have h : ¬ sample.HoldsFramingByte := by
    unfold HoldsFramingByte
    decide
  exact ⟨h, (write_then_read sample [] [0x00]).2 h⟩

end Module

end ByteMachine
