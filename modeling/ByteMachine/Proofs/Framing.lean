import ByteMachine.Module.Framing
import ByteMachine.Proofs.Streams
import ByteMachine.Proofs.Utf8

/-!
Framing. A text, a block or a table that a writer accepts is read back from what was written, and
nothing behind it is touched.
-/
namespace ByteMachine.Framing

open Output

/-! ## Texts -/

def textBytes (text : String) : List UInt8 :=
  Utf8.encode text ++ [nul]

def textOutput (text : String) : Output :=
  if (Utf8.encode text).contains nul then .check (.error (.format (.containsNul text)))
  else .of (textBytes text)

theorem writeText_eq (text : String) : writeText text = (textOutput text).send := by
  unfold writeText textOutput
  split
  · rw [send_check]
    rfl
  · rw [send_of]
    rfl

theorem textOutput_of_not_mem {text : String} (h : nul ∉ Utf8.encode text) :
    textOutput text = .of (textBytes text) := by
  rw [textOutput, if_neg (by simpa using h)]

theorem readHeader_textBytes {name : String} (h : nul ∉ Utf8.encode name) (rest : List UInt8) :
    readHeader name (Source.ofBytes (textBytes name ++ rest)) = .ok () (Source.ofBytes rest) := by
  rw [textBytes, List.append_assoc, List.singleton_append, readHeader,
    Action.bind_of_ok (Source.readUntil_ofBytes h rest)]
  simp only [Utf8.decode_encode]
  simp
  rfl

/-! ## Blocks -/

def blockBytes (name : String) (width : Width) (bytes : List UInt8) : List UInt8 :=
  textBytes name ++ LittleEndian.encode width.bytes bytes.length ++ bytes ++
    LittleEndian.encode width.bytes bytes.length

def blockOutput (name : String) (width : Width) (bytes : List UInt8) : Output :=
  let count := LittleEndian.encode width.bytes bytes.length
  (Output.check (if width.maxValue < bytes.length then
      .error (.config (.blockTooLong name bytes.length width)) else .ok ())).andThen
    ((textOutput name).andThen (.of (count ++ bytes ++ count)))

theorem writeBlock_eq (name : String) (width : Width) (bytes : List UInt8) :
    writeBlock name width bytes = (blockOutput name width bytes).send := by
  simp only [blockOutput, send_andThen, send_of, send_check, writeBlock, writeText_eq]
  split <;> rfl

theorem blockOutput_of_le {name : String} {width : Width} {bytes : List UInt8}
    (hn : nul ∉ Utf8.encode name) (hl : bytes.length ≤ width.maxValue) :
    blockOutput name width bytes = .of (blockBytes name width bytes) := by
  rw [blockOutput, if_neg (by omega), textOutput_of_not_mem hn]
  simp [blockBytes, Output.of, Output.check, Output.andThen]

theorem readPart_ofBytes (name : String) (bytes rest : List UInt8) :
    readPart name bytes.length (Source.ofBytes (bytes ++ rest)) =
      .ok bytes (Source.ofBytes rest) := by
  have hread := Action.adaptExcept_of_ok (Source.readBytes_ofBytes bytes rest) (endedInside name)
  rw [readPart, Action.bind_of_ok hread]
  rfl

theorem readBlock_blockBytes {name : String} {width : Width} {bytes : List UInt8}
    (hn : nul ∉ Utf8.encode name) (hl : bytes.length ≤ width.maxValue) (rest : List UInt8) :
    readBlock name width (Source.ofBytes (blockBytes name width bytes ++ rest)) =
      .ok bytes (Source.ofBytes rest) := by
  have hd : LittleEndian.decode (LittleEndian.encode width.bytes bytes.length) = bytes.length :=
    LittleEndian.decode_encode _ _ ((width.lt_iff_le_maxValue _).2 hl)
  have hc : ∀ tail, readPart name width.bytes
      (Source.ofBytes (LittleEndian.encode width.bytes bytes.length ++ tail)) =
        .ok (LittleEndian.encode width.bytes bytes.length) (Source.ofBytes tail) := by
    intro tail
    have h := readPart_ofBytes name (LittleEndian.encode width.bytes bytes.length) tail
    rwa [LittleEndian.length_encode] at h
  simp only [blockBytes, List.append_assoc]
  rw [readBlock, Action.bind_of_ok (readHeader_textBytes hn _), Action.bind_of_ok (hc _)]
  simp only [hd]
  rw [Action.bind_of_ok (readPart_ofBytes name bytes _), Action.bind_of_ok (hc _)]
  simp [hd]
  rfl

/-! ## Tables -/

def Clean (field : String) : Prop :=
  ∀ b ∈ Utf8.encode field, isControl b = false

def CleanTable (t : Table) : Prop :=
  ∀ r ∈ t, Clean r.name ∧ Clean r.value

theorem Clean.not_mem {field : String} (h : Clean field) {b : UInt8} (hb : isControl b = true) :
    b ∉ Utf8.encode field := by
  intro hm
  rw [h b hm] at hb
  cases hb

def recordBytes (r : Record) : List UInt8 :=
  Utf8.encode r.name ++ fs :: Utf8.encode r.value ++ [rs]

def tableBytes (name : String) (t : Table) : List UInt8 :=
  textBytes name ++ [stx] ++ t.flatMap recordBytes ++ [etx]

def recordOutput (r : Record) : Output :=
  (Output.check (checkField r.name)).andThen
    ((Output.check (checkField r.value)).andThen (.of (recordBytes r)))

def recordsOutput : Table → Output
  | [] => .of []
  | r :: t => (recordOutput r).andThen (recordsOutput t)

def tableOutput (name : String) (t : Table) : Output :=
  (textOutput name).andThen
    ((Output.of [stx]).andThen ((recordsOutput t).andThen (.of [etx])))

theorem writeRecord_eq (r : Record) : writeRecord r = (recordOutput r).send := by
  simp only [recordOutput, send_andThen, send_of, send_check]
  rfl

theorem forM_writeRecord_eq (t : Table) : t.forM writeRecord = (recordsOutput t).send := by
  induction t with
  | nil =>
    funext ⟨recent, room⟩
    cases room <;> simp [recordsOutput, send_of, Sink.write, pure, EStateM.pure]
  | cons r t ih =>
    change (do writeRecord r; t.forM writeRecord) = _
    rw [ih, writeRecord_eq, recordsOutput, send_andThen]

theorem writeTable_eq (name : String) (t : Table) :
    writeTable name t = (tableOutput name t).send := by
  simp only [tableOutput, send_andThen, send_of, writeTable, writeText_eq, forM_writeRecord_eq]

theorem checkField_of_clean {field : String} (h : Clean field) : checkField field = .ok () := by
  have hn : (Utf8.encode field).find? isControl = none := by
    rw [List.find?_eq_none]
    intro b hb
    simp [h b hb]
  rw [checkField, hn]

theorem refuses_check_of_not_clean {field : String} (h : ¬ Clean field) :
    (Output.check (checkField field)).Refuses := by
  cases hf : (Utf8.encode field).find? isControl with
  | none =>
    rw [List.find?_eq_none] at hf
    exact absurd (fun b hb => by simpa using hf b hb) h
  | some b => exact ⟨.controlByte field b, by rw [Output.check, checkField, hf]⟩

theorem recordOutput_of_clean {r : Record} (hn : Clean r.name) (hv : Clean r.value) :
    recordOutput r = .of (recordBytes r) := by
  rw [recordOutput, checkField_of_clean hn, checkField_of_clean hv]
  rfl

theorem refuses_recordOutput {r : Record} (h : ¬ (Clean r.name ∧ Clean r.value)) :
    (recordOutput r).Refuses := by
  by_cases hn : Clean r.name
  · rw [recordOutput, checkField_of_clean hn]
    exact ((refuses_check_of_not_clean fun hv => h ⟨hn, hv⟩).andThen _).after []
  · exact (refuses_check_of_not_clean hn).andThen _

theorem recordsOutput_of_clean {t : Table} (h : CleanTable t) :
    recordsOutput t = .of (t.flatMap recordBytes) := by
  induction t with
  | nil => rfl
  | cons r t ih =>
    have hr := h r (by simp)
    have ht : CleanTable t := fun r' hr' => h r' (by simp [hr'])
    rw [recordsOutput, ih ht, recordOutput_of_clean hr.1 hr.2, of_andThen_of, List.flatMap_cons]

theorem refuses_recordsOutput {t : Table} (h : ¬ CleanTable t) : (recordsOutput t).Refuses := by
  induction t with
  | nil => exact absurd (fun r hr => by cases hr) h
  | cons r t ih =>
    by_cases hr : Clean r.name ∧ Clean r.value
    · have ht : ¬ CleanTable t := by
        intro ht
        apply h
        intro r' hr'
        rcases List.mem_cons.1 hr' with rfl | hr'
        · exact hr
        · exact ht r' hr'
      rw [recordsOutput, recordOutput_of_clean hr.1 hr.2]
      exact (ih ht).after _
    · exact (refuses_recordOutput hr).andThen _

theorem tableOutput_of_clean {name : String} {t : Table} (hn : nul ∉ Utf8.encode name)
    (ht : CleanTable t) : tableOutput name t = .of (tableBytes name t) := by
  rw [tableOutput, textOutput_of_not_mem hn, recordsOutput_of_clean ht]
  simp [of_andThen_of, tableBytes]

theorem refuses_tableOutput {name : String} {t : Table} (hn : nul ∉ Utf8.encode name)
    (ht : ¬ CleanTable t) : (tableOutput name t).Refuses := by
  rw [tableOutput, textOutput_of_not_mem hn]
  exact (((refuses_recordsOutput ht).andThen _).after _).after _

/-! ## Reading tables back -/

theorem splitOnto_append {separator : UInt8} (rest : List UInt8) :
    ∀ (piece begun : List UInt8), separator ∉ piece →
      splitOnto separator begun (piece ++ separator :: rest) =
        (begun.reverse ++ piece) :: split separator rest := by
  intro piece
  induction piece with
  | nil =>
    intro begun _
    simp [splitOnto, split]
  | cons b piece ih =>
    intro begun h
    rw [List.mem_cons, not_or] at h
    simp only [List.cons_append, splitOnto, if_neg (Ne.symm h.1), ih (b :: begun) h.2]
    simp

theorem split_append {separator : UInt8} {piece : List UInt8} (h : separator ∉ piece)
    (rest : List UInt8) :
    split separator (piece ++ separator :: rest) = piece :: split separator rest :=
  splitOnto_append rest piece [] h

theorem splitOnto_of_not_mem {separator : UInt8} :
    ∀ (piece begun : List UInt8), separator ∉ piece →
      splitOnto separator begun piece = [begun.reverse ++ piece] := by
  intro piece
  induction piece with
  | nil =>
    intro begun _
    simp [splitOnto]
  | cons b piece ih =>
    intro begun h
    rw [List.mem_cons, not_or] at h
    simp only [splitOnto, if_neg (Ne.symm h.1), ih (b :: begun) h.2]
    simp

theorem split_of_not_mem {separator : UInt8} {piece : List UInt8} (h : separator ∉ piece) :
    split separator piece = [piece] :=
  splitOnto_of_not_mem piece [] h

theorem fields?_of_clean {r : Record} (hn : Clean r.name) (hv : Clean r.value) :
    fields? (Utf8.encode r.name ++ fs :: Utf8.encode r.value) =
      some (Utf8.encode r.name, Utf8.encode r.value) := by
  rw [fields?, split_append (hn.not_mem rfl), split_of_not_mem (hv.not_mem rfl)]

theorem decodeRecord_encode (table : String) (r : Record) :
    decodeRecord table (Utf8.encode r.name, Utf8.encode r.value) = .ok r := by
  simp only [decodeRecord, decodeField, Utf8.decode_encode]
  rfl

/-- The records of a table are the pieces of its body, and the last piece is empty. -/
theorem filterMap_split_records {t : Table} (h : CleanTable t) :
    (split rs (t.flatMap recordBytes)).filterMap fields? =
      t.map fun r => (Utf8.encode r.name, Utf8.encode r.value) := by
  induction t with
  | nil => rfl
  | cons r t ih =>
    obtain ⟨hn, hv⟩ := h r (by simp)
    have ht : CleanTable t := fun r' hr' => h r' (by simp [hr'])
    have hm : rs ∉ Utf8.encode r.name ++ fs :: Utf8.encode r.value := by
      simp only [List.mem_append, List.mem_cons, not_or]
      exact ⟨hn.not_mem rfl, by decide, hv.not_mem rfl⟩
    rw [List.flatMap_cons, recordBytes, List.append_assoc, List.singleton_append, split_append hm,
      List.filterMap_cons, fields?_of_clean hn hv, ih ht, List.map_cons]

theorem decodeBody_records (table : String) {t : Table} (h : CleanTable t) :
    decodeBody table (t.flatMap recordBytes) = .ok t := by
  rw [decodeBody, filterMap_split_records h]
  clear h
  induction t with
  | nil => rfl
  | cons r t ih =>
    rw [List.map_cons, List.mapM_cons, decodeRecord_encode, ih]
    rfl

theorem etx_not_mem_records {t : Table} (h : CleanTable t) : etx ∉ t.flatMap recordBytes := by
  intro hm
  obtain ⟨r, hr, hb⟩ := List.mem_flatMap.1 hm
  obtain ⟨hn, hv⟩ := h r hr
  simp only [recordBytes, List.mem_append, List.mem_cons, List.not_mem_nil, or_false] at hb
  rcases hb with (hb | hb | hb) | hb
  · exact hn.not_mem rfl hb
  · exact absurd hb (by decide)
  · exact hv.not_mem rfl hb
  · exact absurd hb (by decide)

theorem readTable_tableBytes {name : String} {t : Table} (hn : nul ∉ Utf8.encode name)
    (ht : CleanTable t) (rest : List UInt8) :
    readTable name (Source.ofBytes (tableBytes name t ++ rest)) = .ok t (Source.ofBytes rest) := by
  simp only [tableBytes, List.append_assoc, List.cons_append, List.nil_append]
  rw [readTable, Action.bind_of_ok (readHeader_textBytes hn _),
    Action.bind_of_ok (Source.readByte_ofBytes stx _)]
  simp only [ne_eq, not_true_eq_false, ↓reduceIte]
  rw [Action.bind_of_ok (Source.readUntil_ofBytes (etx_not_mem_records ht) rest)]
  simp only [decodeBody_records name ht, Action.ofExcept_ok]

end ByteMachine.Framing
