import ByteMachine.Proofs.FileGrammar

/-!
Files that were not written to their end. A limit on a sink only cuts off what is written, and a
writer that refuses a field has left nothing that ends its table. What such a writer leaves behind
is never read as a module.
-/
namespace ByteMachine

/-! ## Limited sinks -/

/-- How a writer ends on an empty sink with so much room, and what the sink then holds. -/
def Sink.fill (x : Action Sink Unit) (room : Option Nat) : Except Error Unit × List UInt8 :=
  match x ⟨[], room⟩ with
  | .ok () s => (.ok (), s.written)
  | .error e s => (.error e, s.written)

namespace Output

theorem fill_unlimited (o : Output) : Sink.fill o.send none = (o.result, o.bytes) := by
  rw [Sink.fill, send, Action.bind_of_ok (Sink.write_unlimited _ _)]
  cases o.result <;> simp [Sink.written]

theorem fill_limited (o : Output) (k : Nat) :
    Sink.fill o.send (some k) =
      (if k < o.bytes.length then .error (.io .writeFailed) else o.result, o.bytes.take k) := by
  rw [Sink.fill, send]
  by_cases h : k < o.bytes.length
  · rw [if_pos h, Action.bind_of_error (Sink.write_of_lt h)]
    simp [Sink.written]
  · rw [if_neg h, Action.bind_of_ok (Sink.write_of_le (Nat.not_lt.1 h)),
      List.take_of_length_le (Nat.not_lt.1 h)]
    cases o.result <;> simp [Sink.written]

/-- What a limited sink takes to the end, a sink without a limit takes too. -/
theorem fill_unlimited_of_ok {o : Output} {room : Option Nat} {bytes : List UInt8}
    (h : Sink.fill o.send room = (.ok (), bytes)) : Sink.fill o.send none = (.ok (), bytes) := by
  cases room with
  | none => exact h
  | some k =>
    rw [fill_limited] at h
    obtain ⟨hresult, hbytes⟩ := Prod.mk.inj h
    split at hresult
    · cases hresult
    · next hfits =>
      rw [fill_unlimited, hresult, ← hbytes, List.take_of_length_le (Nat.not_lt.1 hfits)]

/-! ## Writers and their readers -/

/-- What a sink can hold when the writer has not written all or has refused something. -/
def Torn (o : Output) (bytes : List UInt8) : Prop :=
  bytes <+: o.bytes ∧ (bytes ≠ o.bytes ∨ o.result ≠ .ok ())

/-- A sink that is left with an error holds torn output. -/
theorem torn_of_fill {o : Output} {room : Option Nat} {e : Error} {bytes : List UInt8}
    (h : Sink.fill o.send room = (.error e, bytes)) : o.Torn bytes := by
  cases room with
  | none =>
    rw [fill_unlimited] at h
    obtain ⟨hresult, rfl⟩ := Prod.mk.inj h
    exact ⟨List.prefix_refl _, .inr (by simp [hresult])⟩
  | some k =>
    rw [fill_limited] at h
    obtain ⟨hresult, rfl⟩ := Prod.mk.inj h
    have hle : o.bytes.take k <+: o.bytes := List.take_prefix k o.bytes
    refine ⟨hle, ?_⟩
    by_cases hk : k < o.bytes.length
    · left
      intro heq
      have hlength := congrArg List.length heq
      rw [List.length_take] at hlength
      omega
    · right
      rw [if_neg hk] at hresult
      simp [hresult]

variable {α β : Type}

/-- What the writer sends is read as `a`, and what is left of it when it fails is rejected. -/
structure Feeds (o : Output) (x : Action Source α) (a : α) : Prop where
  reads : o.result = .ok () → ∀ rest,
    x (Source.ofBytes (o.bytes ++ rest)) = .ok a (Source.ofBytes rest)
  rejects : ∀ bytes, o.Torn bytes → Source.Rejects x bytes

namespace Feeds

variable {o p : Output} {x : Action Source α} {f : α → Action Source β} {a : α} {b : β}

theorem of_recognises {word : List UInt8 → α → Prop} {bytes : List UInt8}
    (hx : Source.Recognises x word) (h : word bytes a) : Feeds (.of bytes) x a where
  reads := fun _ rest => hx.complete rest h
  rejects := by
    rintro part ⟨hle, hne | hne⟩
    · exact hx.rejects h hle hne
    · exact absurd rfl hne

/-- Writing one thing after another feeds reading one after another. -/
theorem andThen (ho : Feeds o x a) (hp : Feeds p (f a) b) : Feeds (o.andThen p) (x >>= f) b := by
  obtain ⟨bytes, result⟩ := o
  cases result with
  | ok u =>
    constructor
    · intro hresult rest
      have hx := ho.reads rfl (p.bytes ++ rest)
      rw [← List.append_assoc] at hx
      exact (Action.bind_of_ok hx).trans (hp.reads hresult rest)
    · rintro part ⟨hle, hfail⟩
      rcases Source.prefix_append_cases hle with ⟨hpart, hne⟩ | ⟨more, rfl, hmore⟩
      · exact (ho.rejects part ⟨hpart, .inl hne⟩).bind f
      · have htorn : p.Torn more := by
          refine ⟨hmore, hfail.imp_left ?_⟩
          rintro hne rfl
          exact hne rfl
        exact (hp.rejects more htorn).after (ho.reads rfl more)
  | error e =>
    constructor
    · intro hresult
      cases hresult
    · rintro part ⟨hle, -⟩
      exact (ho.rejects part ⟨hle, .inr (by simp)⟩).bind f

theorem map (ho : Feeds o x a) (g : α → β) : Feeds o (x >>= fun a => pure (g a)) (g a) where
  reads := fun hresult rest => Action.bind_of_ok (ho.reads hresult rest)
  rejects := fun part htorn => (ho.rejects part htorn).bind _

end Feeds

end Output

namespace Framing

open Output

/-- The bytes of the records of a table are a body that is read as the table. -/
theorem isBody_records {t : Table} (h : CleanTable t) : IsBody (t.flatMap recordBytes) t where
  etx_not_mem := etx_not_mem_records h
  records := decodeBody_eq_ok_iff.1 (decodeBody_records "" h)

theorem tableBytes_eq (name : String) (t : Table) :
    tableBytes name t = framed name (t.flatMap recordBytes) := by
  simp [tableBytes, framed]

/-- The fields of a record are checked before any of it is written. -/
theorem bytes_recordOutput_of_refuses {r : Record} (h : (recordOutput r).Refuses) :
    (recordOutput r).bytes = [] := by
  obtain ⟨cause, h⟩ := h
  unfold recordOutput at h ⊢
  cases hname : checkField r.name with
  | error e => rfl
  | ok u =>
    cases hvalue : checkField r.value with
    | error e => rfl
    | ok v =>
      rw [hname, hvalue] at h
      cases h

/-- Only records that hold no framing byte are written. -/
theorem exists_clean_of_recordsOutput (t : Table) :
    ∃ t', CleanTable t' ∧ (recordsOutput t).bytes = t'.flatMap recordBytes := by
  induction t with
  | nil => exact ⟨[], by simp [CleanTable], rfl⟩
  | cons r t ih =>
    by_cases hr : Clean r.name ∧ Clean r.value
    · obtain ⟨t', ht', hbytes⟩ := ih
      refine ⟨r :: t', ?_, ?_⟩
      · intro r' hr'
        rcases List.mem_cons.1 hr' with rfl | hr'
        · exact hr
        · exact ht' r' hr'
      · rw [recordsOutput, recordOutput_of_clean hr.1 hr.2, List.flatMap_cons, ← hbytes]
        rfl
    · have hnone := bytes_recordOutput_of_refuses (refuses_recordOutput hr)
      obtain ⟨cause, hresult⟩ := refuses_recordOutput hr
      refine ⟨[], by simp [CleanTable], ?_⟩
      simp [recordsOutput, Output.andThen, hresult, hnone]

theorem feeds_tableOutput {name : String} (hn : nul ∉ Utf8.encode name) (t : Table) :
    Feeds (tableOutput name t) (readTable name) t := by
  by_cases ht : CleanTable t
  · rw [tableOutput_of_clean hn ht]
    exact .of_recognises (recognises_readTable hn)
      ⟨t.flatMap recordBytes, tableBytes_eq name t, isBody_records ht⟩
  · obtain ⟨cause, hresult⟩ := refuses_recordsOutput ht
    obtain ⟨t', ht', hbytes⟩ := exists_clean_of_recordsOutput t
    have houtput : tableOutput name t =
        ⟨textBytes name ++ stx :: t'.flatMap recordBytes, .error (.format cause)⟩ := by
      rw [tableOutput, textOutput_of_not_mem hn, ← hbytes]
      simp [Output.andThen, Output.of, hresult]
    rw [houtput]
    constructor
    · intro hok
      cases hok
    · rintro part ⟨hle, -⟩
      replace hle : part <+: textBytes name ++ stx :: t'.flatMap recordBytes := hle
      have hopen : framed name (t'.flatMap recordBytes) =
          (textBytes name ++ stx :: t'.flatMap recordBytes) ++ [etx] := by
        simp [framed]
      refine (recognises_readTable hn).rejects ⟨_, rfl, isBody_records ht'⟩
        (hle.trans (hopen ▸ List.prefix_append _ _)) ?_
      rintro rfl
      have hlength := hle.length_le
      rw [hopen, List.length_append, List.length_singleton] at hlength
      omega

end Framing

namespace Module

open Framing Output

theorem feeds_pageOutput {s : Section} (p : Page s) : Feeds (pageOutput p) (readPage s) p := by
  rw [pageOutput, blockOutput_of_le (nul_not_mem_name s) (length_contents_le p)]
  have hcontents : Feeds (.of (blockBytes s.name p.width p.contents))
      (readContents s p.properties) p :=
    .of_recognises (recognises_readContents s p.properties) ⟨rfl, rfl⟩
  exact (feeds_tableOutput (nul_not_mem_propertiesName s) p.properties).andThen hcontents

theorem feeds_output (m : Module) : Feeds m.output read m := by
  have hheader : Feeds (textOutput "module") (readHeader "module") () := by
    rw [textOutput_of_not_mem (by decide)]
    exact .of_recognises (recognises_readHeader (by decide)) rfl
  exact hheader.andThen ((feeds_tableOutput (by decide) m.properties).andThen
    ((feeds_tableOutput (by decide) m.exports).andThen
      ((feeds_pageOutput m.code).andThen ((feeds_pageOutput m.data).map _))))

/-- A limited sink holds the first bytes of what an unlimited one would, and writing fails for want
of room exactly if these are not all. What a writer leaves that fails for any reason is rejected
when it is read. -/
theorem failed_write_unreadable (m : Module) :
    (∀ k, Sink.fill m.write (some k) =
      (if k < (Sink.fill m.write none).2.length then .error (.io .writeFailed)
        else (Sink.fill m.write none).1,
      (Sink.fill m.write none).2.take k)) ∧
    ∀ room e bytes, Sink.fill m.write room = (.error e, bytes) →
      ∃ cause s, read (Source.ofBytes bytes) = .error (.format cause) s := by
  rw [write_eq]
  refine ⟨fun k => by rw [fill_limited, fill_unlimited], ?_⟩
  intro room e bytes h
  exact m.feeds_output.rejects bytes (torn_of_fill h)

/-- A module with a record that cannot be written behind one that can. -/
def tainted : Module :=
  { properties := []
    exports := [⟨"é", "1"⟩, ⟨"b", "\x03"⟩]
    code := ⟨[], #[], .one, Table.width_nil, Page.size_empty_le .one⟩
    data := ⟨[], #[], .one, Table.width_nil, Page.size_empty_le .one⟩ }

/-- The limit cuts the one character of a name in two. -/
theorem failed_write_unreadable_tainted :
    ∃ bytes, Sink.fill tainted.write none = (.error (.format (.controlByte "\x03" 0x03)), bytes) ∧
      (∃ cause s, read (Source.ofBytes bytes) = .error (.format cause) s) ∧
      Sink.fill tainted.write (some 30) = (.error (.io .writeFailed), bytes.take 30) ∧
      ∃ cause s, read (Source.ofBytes (bytes.take 30)) = .error (.format cause) s := by
  obtain ⟨hlimited, hrejects⟩ := failed_write_unreadable tainted
  obtain ⟨bytes, h, hlength⟩ : ∃ bytes, Sink.fill tainted.write none =
      (.error (.format (.controlByte "\x03" 0x03)), bytes) ∧ 30 < bytes.length :=
    ⟨_, rfl, by decide⟩
  have hcut : Sink.fill tainted.write (some 30) = (.error (.io .writeFailed), bytes.take 30) := by
    rw [hlimited, h, if_pos hlength]
  exact ⟨bytes, h, hrejects none _ _ h, hcut, hrejects (some 30) _ _ hcut⟩

end Module

end ByteMachine
