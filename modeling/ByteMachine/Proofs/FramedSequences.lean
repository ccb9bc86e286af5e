import ByteMachine.Proofs.PartialFile

/-!
Texts, blocks and tables one after the other in a stream. Nothing stands between them, so each
reader has to stop right behind what its writer wrote, whatever comes next. What was written in
full reads back in the same order, and a text or a block that is refused has left no bytes.
-/
namespace ByteMachine

/-! ## Writing in full and refusing -/

namespace Sink

variable {bytes : List UInt8} {s t : Sink}

/-- Writing that succeeds has added all the bytes. -/
theorem written_of_write (h : write bytes s = .ok () t) : t.written = s.written ++ bytes := by
  obtain ⟨recent, room⟩ := s
  cases room with
  | none =>
    rw [write_unlimited] at h
    cases h
    simp [written]
  | some room =>
    by_cases hfits : bytes.length ≤ room
    · rw [write_of_le hfits] at h
      cases h
      simp [written]
    · rw [write_of_lt (Nat.not_le.1 hfits)] at h
      cases h

/-- Writing fails only for want of room. -/
theorem io_of_write {e : Error} (h : write bytes s = .error e t) : e = .io .writeFailed := by
  obtain ⟨recent, room⟩ := s
  cases room with
  | none =>
    rw [write_unlimited] at h
    cases h
  | some room =>
    by_cases hfits : bytes.length ≤ room
    · rw [write_of_le hfits] at h
      cases h
    · rw [write_of_lt (Nat.not_le.1 hfits)] at h
      cases h
      rfl

end Sink

namespace Output

variable {o : Output} {s t : Sink} {e : Error}

theorem written_of_send (h : o.send s = .ok () t) :
    o.result = .ok () ∧ t.written = s.written ++ o.bytes := by
  obtain ⟨⟨⟩, u, hwrite, hresult⟩ := Action.bind_eq_ok_iff.1 h
  obtain ⟨hok, rfl⟩ := Action.ofExcept_eq_ok_iff.1 hresult
  exact ⟨hok, Sink.written_of_write hwrite⟩

/-- A writer that checks everything before its first byte leaves the sink alone when it refuses. -/
theorem send_eq_error_iff (hchecks : ∀ e, o.result = .error e → o.bytes = [])
    (he : ∀ cause, e ≠ .io cause) : o.send s = .error e t ↔ o.result = .error e ∧ t = s := by
  cases hresult : o.result with
  | ok u =>
    refine iff_of_false (fun h => ?_) (by simp)
    rcases Action.bind_eq_error_iff.1 h with hwrite | ⟨_, v, -, hrefused⟩
    · exact he _ (Sink.io_of_write hwrite)
    · rw [hresult] at hrefused
      cases hrefused
  | error e' =>
    have hcheck : o = check (.error e') := by
      rw [check, ← hchecks e' hresult, ← hresult]
    rw [hcheck, send_check, Action.ofExcept_eq_error_iff]

end Output

namespace Framing

open Output

theorem textOutput_eq_error_iff {text : String} {e : Error} :
    (textOutput text).result = .error e ↔
      nul ∈ Utf8.encode text ∧ e = .format (.containsNul text) := by
  by_cases h : nul ∈ Utf8.encode text
  · simp [textOutput, h, check, eq_comm]
  · simp [textOutput, h, Output.of]

theorem bytes_of_textOutput {text : String} {e : Error} (h : (textOutput text).result = .error e) :
    (textOutput text).bytes = [] := by
  have hnul := (textOutput_eq_error_iff.1 h).1
  simp [textOutput, hnul, check]

/-- A text is refused for a zero byte in it, and then nothing is written. -/
theorem writeText_eq_error_iff {text : String} {s t : Sink} {e : Error}
    (he : ∀ cause, e ≠ .io cause) : writeText text s = .error e t ↔
      (nul ∈ Utf8.encode text ∧ e = .format (.containsNul text)) ∧ t = s := by
  rw [writeText_eq, send_eq_error_iff (fun _ => bytes_of_textOutput) he, textOutput_eq_error_iff]

inductive RefusesBlock (name : String) (width : Width) (bytes : List UInt8) : Error → Prop where
  | tooLong (h : width.maxValue < bytes.length) :
      RefusesBlock name width bytes (.config (.blockTooLong name bytes.length width))
  | name (hfits : bytes.length ≤ width.maxValue) (h : nul ∈ Utf8.encode name) :
      RefusesBlock name width bytes (.format (.containsNul name))

theorem blockOutput_of_lt {name : String} {width : Width} {bytes : List UInt8}
    (h : width.maxValue < bytes.length) : blockOutput name width bytes =
      check (.error (.config (.blockTooLong name bytes.length width))) := by
  simp [blockOutput, h, check, andThen]

theorem blockOutput_of_mem {name : String} {width : Width} {bytes : List UInt8}
    (hfits : bytes.length ≤ width.maxValue) (h : nul ∈ Utf8.encode name) :
    blockOutput name width bytes = check (.error (.format (.containsNul name))) := by
  simp [blockOutput, Nat.not_lt.2 hfits, textOutput, h, check, andThen]

theorem blockOutput_eq_error_iff {name : String} {width : Width} {bytes : List UInt8} {e : Error} :
    (blockOutput name width bytes).result = .error e ↔ RefusesBlock name width bytes e := by
  by_cases hlong : width.maxValue < bytes.length
  · rw [blockOutput_of_lt hlong]
    constructor
    · rintro ⟨⟩
      exact .tooLong hlong
    · rintro (_ | ⟨hfits, -⟩)
      · rfl
      · exact absurd hlong (Nat.not_lt.2 hfits)
  · have hfits := Nat.not_lt.1 hlong
    by_cases hnul : nul ∈ Utf8.encode name
    · rw [blockOutput_of_mem hfits hnul]
      constructor
      · rintro ⟨⟩
        exact .name hfits hnul
      · rintro (h | _)
        · exact absurd h hlong
        · rfl
    · rw [blockOutput_of_le hnul hfits]
      refine iff_of_false nofun ?_
      rintro (h | ⟨-, h⟩)
      · exact hlong h
      · exact hnul h

theorem bytes_of_blockOutput {name : String} {width : Width} {bytes : List UInt8} {e : Error}
    (h : (blockOutput name width bytes).result = .error e) :
    (blockOutput name width bytes).bytes = [] := by
  cases blockOutput_eq_error_iff.1 h with
  | tooLong hlong => rw [blockOutput_of_lt hlong, check]
  | name hfits hnul => rw [blockOutput_of_mem hfits hnul, check]

/-- A block is refused for its length or its name, and then nothing is written. -/
theorem writeBlock_eq_error_iff {name : String} {width : Width} {bytes : List UInt8} {s t : Sink}
    {e : Error} (he : ∀ cause, e ≠ .io cause) :
    writeBlock name width bytes s = .error e t ↔ RefusesBlock name width bytes e ∧ t = s := by
  rw [writeBlock_eq, send_eq_error_iff (fun _ => bytes_of_blockOutput) he,
    blockOutput_eq_error_iff]

/-! ## Items -/

inductive Item where
  | text (text : String)
  | block (name : String) (width : Width) (bytes : List UInt8)
  | table (name : String) (records : Table)
  deriving DecidableEq

/-- What a reader has to know of an item: its kind, its name and the width of its counts. -/
inductive Shape where
  | text
  | block (name : String) (width : Width)
  | table (name : String)
  deriving DecidableEq

namespace Item

def shape : Item → Shape
  | text _ => .text
  | block name width _ => .block name width
  | table name _ => .table name

def write : Item → Action Sink Unit
  | text t => writeText t
  | block name width bytes => writeBlock name width bytes
  | table name records => writeTable name records

def output : Item → Output
  | text t => textOutput t
  | block name width bytes => blockOutput name width bytes
  | table name records => tableOutput name records

theorem write_eq (i : Item) : i.write = i.output.send := by
  cases i with
  | text t => exact writeText_eq t
  | block name width bytes => exact writeBlock_eq name width bytes
  | table name records => exact writeTable_eq name records

end Item

def Shape.read : Shape → Action Source Item
  | text => do return .text (← readText)
  | block name width => do return .block name width (← readBlock name width)
  | table name => do return .table name (← readTable name)

theorem readText_textBytes {text : String} (h : nul ∉ Utf8.encode text) (rest : List UInt8) :
    readText (Source.ofBytes (textBytes text ++ rest)) = .ok text (Source.ofBytes rest) := by
  rw [textBytes, List.append_assoc, List.singleton_append, readText,
    Action.bind_of_ok (Source.readUntil_ofBytes h rest)]
  simp only [Utf8.decode_encode]
  rfl

theorem nul_not_mem_of_textOutput {text : String} (h : (textOutput text).result = .ok ()) :
    nul ∉ Utf8.encode text := by
  intro hnul
  rw [textOutput_eq_error_iff.2 ⟨hnul, rfl⟩] at h
  cases h

/-- A table is refused wherever its name is. -/
theorem textOutput_of_tableOutput {name : String} {t : Table}
    (h : (tableOutput name t).result = .ok ()) : (textOutput name).result = .ok () := by
  unfold tableOutput andThen at h
  split at h
  · assumption
  · cases h

/-- What was written of an item in full is read as that item, whatever follows it. -/
theorem Item.read_of_output {i : Item} (h : i.output.result = .ok ()) (rest : List UInt8) :
    i.shape.read (Source.ofBytes (i.output.bytes ++ rest)) = .ok i (Source.ofBytes rest) := by
  cases i with
  | text t =>
    have hnul := nul_not_mem_of_textOutput h
    rw [output, textOutput_of_not_mem hnul]
    exact Action.bind_of_ok (readText_textBytes hnul rest)
  | block name width bytes =>
    have hnone (e : Error) : ¬ RefusesBlock name width bytes e := by
      intro hrefuses
      rw [output, blockOutput_eq_error_iff.2 hrefuses] at h
      cases h
    have hfits : bytes.length ≤ width.maxValue :=
      Nat.not_lt.1 fun hlong => hnone _ (.tooLong hlong)
    have hnul : nul ∉ Utf8.encode name := fun hnul => hnone _ (.name hfits hnul)
    rw [output, blockOutput_of_le hnul hfits]
    exact Action.bind_of_ok (readBlock_blockBytes hnul hfits rest)
  | table name records =>
    have hnul := nul_not_mem_of_textOutput (textOutput_of_tableOutput h)
    exact Action.bind_of_ok ((feeds_tableOutput hnul records).reads h rest)

/-! ## Sequences -/

/-- Writing an item in full adds bytes that are read as that item. -/
theorem Item.reads_of_write {i : Item} {s t : Sink} (h : i.write s = .ok () t) :
    ∃ bytes, t.written = s.written ++ bytes ∧ ∀ rest,
      i.shape.read (Source.ofBytes (bytes ++ rest)) = .ok i (Source.ofBytes rest) := by
  rw [write_eq] at h
  obtain ⟨hok, hwritten⟩ := written_of_send h
  exact ⟨i.output.bytes, hwritten, read_of_output hok⟩

/-- Writing items one after the other adds bytes that are read as these items. -/
theorem reads_of_writes {items : List Item} {s t : Sink}
    (h : items.forM Item.write s = .ok () t) :
    ∃ bytes, t.written = s.written ++ bytes ∧ ∀ rest,
      (items.map Item.shape).mapM Shape.read (Source.ofBytes (bytes ++ rest)) =
        .ok items (Source.ofBytes rest) := by
  induction items generalizing s with
  | nil =>
    cases h
    exact ⟨[], by simp, fun rest => rfl⟩
  | cons i items ih =>
    obtain ⟨⟨⟩, u, hfirst, hmore⟩ := Action.bind_eq_ok_iff.1 h
    obtain ⟨bytes, hbytes, hread⟩ := i.reads_of_write hfirst
    obtain ⟨bytes', hbytes', hreads⟩ := ih hmore
    refine ⟨bytes ++ bytes', by rw [hbytes', hbytes, List.append_assoc], fun rest => ?_⟩
    rw [List.map_cons, List.mapM_cons, List.append_assoc, Action.bind_of_ok (hread _),
      Action.bind_of_ok (hreads rest)]
    rfl

theorem exists_of_writes_append {items more : List Item} {s t : Sink}
    (h : (items ++ more).forM Item.write s = .ok () t) :
    ∃ u, items.forM Item.write s = .ok () u ∧ more.forM Item.write u = .ok () t := by
  have hsplit : (items ++ more).forM Item.write =
      items.forM Item.write >>= fun _ => more.forM Item.write := List.forM_append
  rw [hsplit] at h
  obtain ⟨⟨⟩, u, hfirst, hmore⟩ := Action.bind_eq_ok_iff.1 h
  exact ⟨u, hfirst, hmore⟩

/-- Items that were written in full are read back, whatever follows them: after each of them the
reader stands where the writer stood. And a text or a block is refused exactly for a zero byte in
the text or the name or for its length, and then nothing of it has been written. -/
theorem sequence_reads_back :
    (∀ (items : List Item) (s t : Sink) (rest : List UInt8) (n : Nat),
      items.forM Item.write s = .ok () t →
      ∃ u, (items.take n).forM Item.write s = .ok () u ∧
        s.written <+: u.written ∧ u.written <+: t.written ∧
        ((items.take n).map Item.shape).mapM Shape.read
            (Source.ofBytes (t.written.drop s.written.length ++ rest)) =
          .ok (items.take n) (Source.ofBytes (t.written.drop u.written.length ++ rest))) ∧
    (∀ (text : String) (s t : Sink) (e : Error), (∀ cause, e ≠ .io cause) →
      ((Item.text text).write s = .error e t ↔
        (nul ∈ Utf8.encode text ∧ e = .format (.containsNul text)) ∧ t = s)) ∧
    ∀ (name : String) (width : Width) (bytes : List UInt8) (s t : Sink) (e : Error),
      (∀ cause, e ≠ .io cause) →
      ((Item.block name width bytes).write s = .error e t ↔
        RefusesBlock name width bytes e ∧ t = s) := by
  refine ⟨?_, fun text s t e => writeText_eq_error_iff,
    fun name width bytes s t e => writeBlock_eq_error_iff⟩
  intro items s t rest n h
  rw [← List.take_append_drop n items] at h
  obtain ⟨u, hfirst, hmore⟩ := exists_of_writes_append h
  obtain ⟨bytes, hu, hread⟩ := reads_of_writes hfirst
  obtain ⟨bytes', ht, -⟩ := reads_of_writes hmore
  refine ⟨u, hfirst, hu ▸ List.prefix_append _ _, ht ▸ List.prefix_append _ _, ?_⟩
  have hall : t.written.drop s.written.length = bytes ++ bytes' := by
    rw [ht, hu, List.append_assoc, List.drop_left]
  rw [hall, ht, List.drop_left, List.append_assoc]
  exact hread _

/-- Items with nothing in them, and with bytes in them that frame others. -/
def assortment : List Item :=
  [.text "", .block "b" .two [], .table "t" [⟨"", ""⟩, ⟨"é", "1"⟩],
   .block "" .one [0x03, 0x00, 0x02], .table "" []]

/-- After the table the reader stands in front of the second block. A third one is refused for its
name. -/
theorem sequence_reads_back_assortment :
    ∃ t u, assortment.forM Item.write {} = .ok () t ∧
      (assortment.take 3).forM Item.write {} = .ok () u ∧
      ((assortment.take 3).map Item.shape).mapM Shape.read
          (Source.ofBytes (t.written.drop 0 ++ [0x1E])) =
        .ok (assortment.take 3) (Source.ofBytes (t.written.drop u.written.length ++ [0x1E])) ∧
      (Item.block "\x00" .one []).write u = .error (.format (.containsNul "\x00")) u := by
  obtain ⟨t, ht⟩ : ∃ t, assortment.forM Item.write {} = .ok () t := ⟨_, rfl⟩
  obtain ⟨hreads, -, hblock⟩ := sequence_reads_back
  obtain ⟨u, hu, -, -, hread⟩ := hreads assortment {} t [0x1E] 3 ht
  have hrefuses : RefusesBlock "\x00" .one [] (.format (.containsNul "\x00")) :=
    .name (by decide) (by decide)
  exact ⟨t, u, ht, hu, hread, (hblock "\x00" .one [] u u _ (by simp)).2 ⟨hrefuses, rfl⟩⟩

end Framing

end ByteMachine
