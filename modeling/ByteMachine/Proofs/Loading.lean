import ByteMachine.Proofs.FileGrammar
import ByteMachine.Proofs.OrderlyReaders

/-!
Loading a module from a source that is damaged, ends too soon, fails, or interrupts. All that is
ever refused is a wrong format or an address width, and whatever else goes wrong is reported as it
came.
-/
namespace ByteMachine

/-! ## Readers of sections -/

def Error.IsFormat (e : Error) : Prop := ∃ cause, e = .format cause

def Error.IsConfig (e : Error) : Prop := ∃ cause, e = .config cause

def Error.IsRefusal (e : Error) : Prop := e.IsFormat ∨ e.IsConfig

theorem Error.IsFormat.isRefusal {e : Error} (h : e.IsFormat) : e.IsRefusal := .inl h

namespace Framing

open Source

theorem orderly_checkHeader (name : String) (found : List UInt8) :
    Orderly (checkHeader name found) Error.IsFormat := by
  unfold checkHeader
  split
  · exact .throw ⟨_, rfl⟩
  · split
    · exact .throw ⟨_, rfl⟩
    · exact .pure ()

theorem orderly_readHeader (name : String) : Orderly (readHeader name) Error.IsFormat :=
  .ofLook (look_readUntil nul) (fun _ => rfl) (steady_readUntil nul) rfl (orderly_checkHeader name)

theorem endedInside_io (name : String) (cause : IoError) :
    endedInside name (.io cause) = (FormatError.endInside name).onFailure cause := by
  cases cause <;> rfl

theorem orderly_readPart (name : String) (count : Nat) :
    Orderly (readPart name count) Error.IsFormat :=
  .ofLook (fun bytes => (look_readBytes count bytes).adaptExcept (endedInside name))
    (endedInside_io name) ((steady_readBytes count).adaptExcept _) rfl fun bytes => .pure bytes

theorem orderly_readBlock (name : String) (width : Width) :
    Orderly (readBlock name width) Error.IsFormat := by
  refine (orderly_readHeader name).bind fun _ => (orderly_readPart name _).bind fun count =>
    (orderly_readPart name _).bind fun contents => (orderly_readPart name _).bind fun again => ?_
  dsimp only
  split
  · exact (Orderly.throw ⟨_, rfl⟩).bind fun _ => .pure contents
  · exact .pure contents

theorem isFormat_of_decodeField {table : String} {bytes : List UInt8} {e : Error}
    (h : decodeField table bytes = .error e) : e.IsFormat := by
  unfold decodeField at h
  split at h
  · cases h
  · cases h
    exact ⟨_, rfl⟩

theorem isFormat_of_decodeRecord {table : String} {fields : List UInt8 × List UInt8} {e : Error}
    (h : decodeRecord table fields = .error e) : e.IsFormat := by
  unfold decodeRecord at h
  cases hname : decodeField table fields.1 with
  | error e' =>
    rw [hname] at h
    cases h
    exact isFormat_of_decodeField hname
  | ok name =>
    cases hvalue : decodeField table fields.2 with
    | error e' =>
      rw [hname, hvalue] at h
      cases h
      exact isFormat_of_decodeField hvalue
    | ok value =>
      rw [hname, hvalue] at h
      cases h

theorem isFormat_of_decodeBody {table : String} {body : List UInt8} {e : Error}
    (h : decodeBody table body = .error e) : e.IsFormat := by
  unfold decodeBody at h
  generalize (split rs body).filterMap fields? = pieces at h
  induction pieces with
  | nil => cases h
  | cons fields pieces ih =>
    rw [List.mapM_cons] at h
    cases hr : decodeRecord table fields with
    | error e' =>
      rw [hr] at h
      cases h
      exact isFormat_of_decodeRecord hr
    | ok r =>
      cases ht : pieces.mapM (decodeRecord table) with
      | error e' =>
        rw [hr, ht] at h
        cases h
        exact ih ht
      | ok t =>
        rw [hr, ht] at h
        cases h

theorem orderly_readBody (name : String) : Orderly (readBody name) Error.IsFormat :=
  .ofLook (look_readUntil etx) (fun _ => rfl) (steady_readUntil etx) rfl fun _ =>
    .ofExcept fun _ => isFormat_of_decodeBody

theorem orderly_readTable (name : String) : Orderly (readTable name) Error.IsFormat := by
  have hstart : ∀ b : UInt8, Orderly
      (if b ≠ stx then
        (throw (.format (.wrongTableStart name b)) >>= fun _ : Unit => readBody name)
      else readBody name) Error.IsFormat := by
    intro b
    split
    · exact (Orderly.throw ⟨_, rfl⟩).bind fun _ => orderly_readBody name
    · exact orderly_readBody name
  exact (orderly_readHeader name).bind fun _ =>
    .ofLook look_readByte (fun _ => rfl) steady_readByte rfl hstart

end Framing

/-! ## Address widths -/

namespace Table

/-- The last width that the properties name is no number of bytes that an address can have. -/
def MisnamesWidth (t : Table) : Prop :=
  ∃ value, t.get? "address_width" = some value ∧
    Numeral.readSigned 10 256 (Text.trim value.toList) ∉ [some 1, some 2]

theorem misnamesWidth_of_width {t : Table} {e : Error} (h : t.width = .error e) :
    e.IsConfig ∧ t.MisnamesWidth := by
  unfold width at h
  cases hvalue : t.get? "address_width" with
  | none => simp [hvalue] at h
  | some value =>
    cases hread : Numeral.readSigned 10 256 (Text.trim value.toList) with
    | none =>
      simp only [hvalue, hread] at h
      cases h
      exact ⟨⟨_, rfl⟩, value, hvalue, by simp [hread]⟩
    | some n =>
      simp only [hvalue, hread, Width.ofNumber] at h
      split at h
      · cases h
      · next hn =>
        cases h
        refine ⟨⟨_, rfl⟩, value, hvalue, ?_⟩
        rw [hread]
        intro hmem
        simp only [List.mem_cons, Option.some.injEq, List.not_mem_nil, or_false] at hmem
        rcases hmem with rfl | rfl <;> cases hn

theorem width_of_misnamesWidth {t : Table} (h : t.MisnamesWidth) :
    ∃ cause, t.width = .error (.config cause) := by
  obtain ⟨value, hvalue, hread⟩ := h
  cases hw : t.width with
  | error e =>
    obtain ⟨⟨cause, rfl⟩, -⟩ := misnamesWidth_of_width hw
    exact ⟨cause, rfl⟩
  | ok w =>
    unfold width at hw
    simp only [hvalue] at hw
    split at hw
    · next n hn =>
      rw [hn] at hread
      unfold Width.ofNumber Width.ofNat? at hw
      split at hw
      · next hsome =>
        split at hsome
        · simp at hread
        · simp at hread
        · cases hsome
      · cases hw
    · cases hw

end Table

namespace Module

open Framing Source

/-- What a file holds before its pages. -/
def IsOpening (bytes : List UInt8) : Prop :=
  ∃ properties exports t t', IsBody properties t ∧ IsBody exports t' ∧
    bytes = textBytes "module" ++ (framed "properties" properties ++ framed "exports" exports)

/-- The bytes begin as a file does up to the table of a page's properties, which is read as `t`. -/
inductive BringsProperties : Section → List UInt8 → Table → Prop where
  | code {opening body rest : List UInt8} {t : Table} (hopening : IsOpening opening)
      (hbody : IsBody body t) :
      BringsProperties .code (opening ++ (framed (propertiesName .code) body ++ rest)) t
  | data {opening codeBody body rest : List UInt8} {code : CodePage} {t : Table}
      (hopening : IsOpening opening) (hcode : IsBody codeBody code.properties)
      (hbody : IsBody body t) :
      BringsProperties .data
        (opening ++ (framedPage code codeBody ++ (framed (propertiesName .data) body ++ rest))) t

theorem orderly_readContents (s : Section) (properties : Table) :
    Orderly (readContents s properties) Error.IsRefusal := by
  refine (Orderly.ofExcept fun e he => .inr (Table.misnamesWidth_of_width he).1).bind fun width =>
    ((orderly_readBlock s.name width).mono fun _ => Error.IsFormat.isRefusal).bind fun contents =>
      .ofExcept fun e he => .inr ?_
  unfold Page.make at he
  split at he
  · next h =>
    cases he
    exact (Table.misnamesWidth_of_width h).1
  · dsimp only at he
    split at he
    · cases he
    · cases he
      exact ⟨_, rfl⟩

theorem orderly_readPage (s : Section) : Orderly (readPage s) Error.IsRefusal :=
  ((orderly_readTable _).mono fun _ => Error.IsFormat.isRefusal).bind (orderly_readContents s)

theorem orderly_read : Orderly read Error.IsRefusal := by
  have hheader := (orderly_readHeader "module").mono fun _ => Error.IsFormat.isRefusal
  have htable := fun name => (orderly_readTable name).mono fun _ => Error.IsFormat.isRefusal
  exact hheader.bind fun _ => (htable _).bind fun _ => (htable _).bind fun _ =>
    (orderly_readPage .code).bind fun _ => (orderly_readPage .data).bind fun _ => .pure _

/-- A reader that refuses only formats has read its word where a width is refused behind it. -/
theorem word_of_config {α β : Type} {x : Action Source α} {f : α → Action Source β}
    {word : List UInt8 → α → Prop} (hx : Orderly x Error.IsFormat) (hword : Recognises x word)
    {bytes : List UInt8} {cause : ConfigError} {s : Source}
    (h : (x >>= f) (ofBytes bytes) = .error (.config cause) s) :
    ∃ front rest a, bytes = front ++ rest ∧ word front a ∧
      f a (ofBytes rest) = .error (.config cause) s := by
  rcases Action.bind_eq_error_iff.1 h with herror | ⟨a, u, hok, hf⟩
  · obtain ⟨format, hformat⟩ := hx.allowed_of_error (fun cause => ⟨cause, rfl⟩) herror
    cases hformat
  · obtain ⟨front, rest, rfl, ha, rfl⟩ := hword.sound hok
    exact ⟨front, rest, a, rfl, ha, hf⟩

/-- Reading the contents of a page fails for its configuration only if the properties misname the
width: what a block holds fits into a page of the width of its counts. -/
theorem misnamesWidth_of_readContents {s : Section} {t : Table} {bytes : List UInt8}
    {cause : ConfigError} {u : Source}
    (h : readContents s t (ofBytes bytes) = .error (.config cause) u) : t.MisnamesWidth := by
  rcases Action.bind_eq_error_iff.1 h with hwidth | ⟨width, u', hwidth, hblock⟩
  · cases hw : t.width with
    | error e => exact (Table.misnamesWidth_of_width hw).2
    | ok w =>
      rw [hw] at hwidth
      cases hwidth
  · cases hw : t.width with
    | error e => exact (Table.misnamesWidth_of_width hw).2
    | ok w =>
      rw [hw] at hwidth
      cases hwidth
      obtain ⟨front, rest, contents, -, ⟨-, hle⟩, hmake⟩ := word_of_config
        (orderly_readBlock s.name width) (recognises_readBlock (nul_not_mem_name s) width) hblock
      have hpage : Page.make s t contents =
          .ok ⟨t, contents.toArray, width, hw, by simpa using hle⟩ :=
        Page.make_eq_ok_iff.2 ⟨rfl, by simp [Page.contents]⟩
      rw [hpage] at hmake
      cases hmake

theorem readPage_config_iff {s : Section} {bytes : List UInt8} :
    (∃ cause u, readPage s (ofBytes bytes) = .error (.config cause) u) ↔
      ∃ body t rest, bytes = framed (propertiesName s) body ++ rest ∧ IsBody body t ∧
        t.MisnamesWidth := by
  have hword := recognises_readTable (nul_not_mem_propertiesName s)
  constructor
  · rintro ⟨cause, u, h⟩
    obtain ⟨_, rest, t, rfl, ⟨body, rfl, hbody⟩, hcontents⟩ :=
      word_of_config (orderly_readTable _) hword h
    exact ⟨body, t, rest, rfl, hbody, misnamesWidth_of_readContents hcontents⟩
  · rintro ⟨body, t, rest, rfl, hbody, hmisnames⟩
    obtain ⟨cause, hwidth⟩ := Table.width_of_misnamesWidth hmisnames
    refine ⟨cause, ofBytes rest, ?_⟩
    rw [readPage, Action.bind_of_ok (hword.complete rest ⟨body, rfl, hbody⟩), hwidth]
    rfl

def readPages (properties exports : Table) : Action Source Module := do
  let code ← readPage .code
  let data ← readPage .data
  return ⟨properties, exports, code, data⟩

/-- The opening of a file is read, and then its pages. -/
theorem read_opening {opening : List UInt8} (h : IsOpening opening) (rest : List UInt8) :
    ∃ properties exports,
      read (ofBytes (opening ++ rest)) = readPages properties exports (ofBytes rest) := by
  obtain ⟨b, b', t, t', hb, hb', rfl⟩ := h
  refine ⟨t, t', ?_⟩
  rw [List.append_assoc, List.append_assoc, read,
    Action.bind_of_ok ((recognises_readHeader (by decide)).complete (a := ()) _ rfl),
    Action.bind_of_ok ((recognises_readTable (by decide)).complete _ ⟨b, rfl, hb⟩),
    Action.bind_of_ok ((recognises_readTable (by decide)).complete _ ⟨b', rfl, hb'⟩)]
  rfl

theorem opening_of_config {bytes : List UInt8} {cause : ConfigError} {s : Source}
    (h : read (ofBytes bytes) = .error (.config cause) s) :
    ∃ opening rest properties exports, bytes = opening ++ rest ∧ IsOpening opening ∧
      readPages properties exports (ofBytes rest) = .error (.config cause) s := by
  obtain ⟨_, _, -, rfl, rfl, hheader⟩ :=
    word_of_config (orderly_readHeader _) (recognises_readHeader (by decide)) h
  obtain ⟨_, _, t, rfl, ⟨b, rfl, hb⟩, hproperties⟩ :=
    word_of_config (orderly_readTable _) (recognises_readTable (by decide)) hheader
  obtain ⟨_, rest, t', rfl, ⟨b', rfl, hb'⟩, hexports⟩ :=
    word_of_config (orderly_readTable _) (recognises_readTable (by decide)) hproperties
  exact ⟨_, rest, t, t', by simp, ⟨b, b', t, t', hb, hb', rfl⟩, hexports⟩

/-- A file is refused for its configuration exactly if the properties of a page misname the
width. -/
theorem read_config_iff {bytes : List UInt8} :
    (∃ cause s, read (ofBytes bytes) = .error (.config cause) s) ↔
      ∃ page t, BringsProperties page bytes t ∧ t.MisnamesWidth := by
  constructor
  · rintro ⟨cause, s, h⟩
    obtain ⟨opening, rest, properties, exports, rfl, hopening, hpages⟩ := opening_of_config h
    rcases Action.bind_eq_error_iff.1 hpages with hcode | ⟨code, u, hcode, hrest⟩
    · obtain ⟨body, t, rest', rfl, hbody, ht⟩ := readPage_config_iff.1 ⟨cause, s, hcode⟩
      exact ⟨.code, t, .code hopening hbody, ht⟩
    · obtain ⟨_, rest', rfl, ⟨codeBody, rfl, hcodeBody⟩, rfl⟩ :=
        (recognises_readPage .code).sound hcode
      rcases Action.bind_eq_error_iff.1 hrest with hdata | ⟨data, u, -, hpure⟩
      · obtain ⟨body, t, rest', rfl, hbody, ht⟩ := readPage_config_iff.1 ⟨cause, s, hdata⟩
        exact ⟨.data, t, .data hopening hcodeBody hbody, ht⟩
      · cases hpure
  · rintro ⟨page, t, hbrings, ht⟩
    cases hbrings with
    | @code opening body rest _ hopening hbody =>
      obtain ⟨cause, u, hpage⟩ := readPage_config_iff.2 ⟨body, t, rest, rfl, hbody, ht⟩
      obtain ⟨properties, exports, hread⟩ := read_opening hopening _
      exact ⟨cause, u, hread.trans (Action.bind_of_error hpage)⟩
    | @data opening codeBody body rest code _ hopening hcode hbody =>
      obtain ⟨cause, u, hpage⟩ := readPage_config_iff.2 ⟨body, t, rest, rfl, hbody, ht⟩
      obtain ⟨properties, exports, hread⟩ := read_opening hopening _
      refine ⟨cause, u, hread.trans ?_⟩
      rw [readPages, Action.bind_of_ok ((recognises_readPage .code).complete _ ⟨_, rfl, hcode⟩)]
      exact Action.bind_of_error hpage

/-- A file that is cut short is rejected for its format. -/
theorem read_of_take {bytes : List UInt8} {m : Module} {p k : Nat}
    (h : consume read (ofBytes bytes) = (.ok m, p)) (hk : k < p) :
    ∃ cause, read.result (ofBytes (bytes.take k)) = .error (.format cause) := by
  obtain ⟨hresult, hcount⟩ := Prod.mk.inj h
  obtain ⟨s, hs⟩ := Action.exists_of_result_ok hresult
  rw [Action.left_of_ok hs] at hcount
  obtain ⟨front, rest, rfl, hfile, rfl⟩ := recognises_read.sound hs
  rw [remaining_ofBytes, remaining_ofBytes, List.length_append, Nat.add_sub_cancel] at hcount
  have hfront : (front ++ rest).take k = front.take k :=
    List.take_append_of_le_length (by omega)
  have hne : front.take k ≠ front := by
    intro heq
    have hlength := congrArg List.length heq
    rw [List.length_take] at hlength
    omega
  obtain ⟨cause, t, ht⟩ := recognises_read.rejects hfile (List.take_prefix k front) hne
  exact ⟨cause, by rw [hfront, Action.result_of_error ht]⟩

theorem failingAt_of_le {bytes : List UInt8} {k : Nat} (h : k ≤ bytes.length) (cause : IoError) :
    failingAt bytes k cause = ofBytes (bytes.take k) ++ [.failure cause] := by
  rw [failingAt, if_pos h]

/-- Loading fails cleanly. From memory a module is read, or refused for its format, or, exactly if
the properties of a page misname the width, for its configuration. A file that is cut short is
refused for its format. A source that fails is read as if it ended there, unless reading gets that
far, where a file would be cut short; then it is the failure that is reported, except that inside a
block a source's own report that its data end is taken for their end. Interruptions change
nothing. -/
theorem loading_fails_cleanly (bytes : List UInt8) :
    (((∃ m, read.result (ofBytes bytes) = .ok m) ∨
        (∃ cause, read.result (ofBytes bytes) = .error (.format cause)) ∨
        ∃ cause, read.result (ofBytes bytes) = .error (.config cause)) ∧
      ((∃ cause, read.result (ofBytes bytes) = .error (.config cause)) ↔
        ∃ page t, BringsProperties page bytes t ∧ t.MisnamesWidth)) ∧
    (∀ m p, consume read (ofBytes bytes) = (.ok m, p) →
      ∀ k < p, ∃ cause, read.result (ofBytes (bytes.take k)) = .error (.format cause)) ∧
    (∀ k ≤ bytes.length, ∀ cause,
      (¬ ReachesEnd read (bytes.take k) →
        consume read (failingAt bytes k cause) = consume read (ofBytes (bytes.take k))) ∧
      (ReachesEnd read (bytes.take k) → ∃ format,
        consume read (ofBytes (bytes.take k)) = (.error (.format format), k) ∧
        consume read (failingAt bytes k cause) = (.error (format.onFailure cause), k))) ∧
    ∀ s s' : Source, steady s = steady s' → consume read s = consume read s' := by
  refine ⟨⟨?_, ?_⟩, fun m p h k hk => read_of_take h hk, ?_, ?_⟩
  · cases h : read (ofBytes bytes) with
    | ok m s => exact .inl ⟨m, Action.result_of_ok h⟩
    | error e s =>
      rcases orderly_read.allowed_of_error (fun cause => .inl ⟨cause, rfl⟩) h with
        ⟨cause, rfl⟩ | ⟨cause, rfl⟩
      · exact .inr (.inl ⟨cause, Action.result_of_error h⟩)
      · exact .inr (.inr ⟨cause, Action.result_of_error h⟩)
  · rw [← read_config_iff]
    constructor
    · rintro ⟨cause, h⟩
      obtain ⟨s, hs⟩ := Action.exists_of_result_error h
      exact ⟨cause, s, hs⟩
    · rintro ⟨cause, s, hs⟩
      exact ⟨cause, Action.result_of_error hs⟩
  · intro k hk cause
    obtain ⟨hbefore, hend⟩ := orderly_read.consume_failure (bytes.take k) cause
    rw [List.length_take_of_le hk] at hend
    rw [failingAt_of_le hk]
    exact ⟨hbefore, hend⟩
  · intro s s' h
    rw [← orderly_read.consume_steady s, h, orderly_read.consume_steady s']

set_option maxRecDepth 4000 in
/-- A source that reports the end of its data inside the code is not reported as failing. -/
theorem refused_where_end_reported :
    ∃ file, file = lenientBodies.file lenient ∧ 71 ≤ file.length ∧
      ReachesEnd read (file.take 71) ∧
      consume read (failingAt file 71 (.unexpectedEnd "cut")) =
        (.error (.format (.endInside "code")), 71) ∧
      consume read (failingAt file 71 (.unexpectedEnd "cut")) ≠
        (.error (.io (.unexpectedEnd "cut")), 71) := by
  have hread : consume read (failingAt (lenientBodies.file lenient) 71 (.unexpectedEnd "cut")) =
      (.error (.format (.endInside "code")), 71) := rfl
  refine ⟨_, rfl, by decide, rfl, hread, ?_⟩
  rw [hread]
  intro h
  cases h

set_option maxRecDepth 4000 in
theorem loading_fails_cleanly_lenient :
    ∃ file, file = lenientBodies.file lenient ∧ 71 < file.length ∧
      consume read (ofBytes file) = (.ok lenient, file.length) ∧
      (∃ cause, read.result (ofBytes (file.take 40)) = .error (.format cause)) ∧
      ReachesEnd read (file.take 40) ∧
      consume read (failingAt file 40 .notFound) = (.error (.io .notFound), 40) ∧
      ReachesEnd read (file.take 71) ∧
      consume read (failingAt file 71 (.unexpectedEnd "cut")) =
        (.error (.format (.endInside "code")), 71) ∧
      ¬ ReachesEnd read (file.take file.length) ∧
      consume read (failingAt file file.length .notFound) = (.ok lenient, file.length) ∧
      consume read (interrupting (ofBytes file)) = (.ok lenient, file.length) := by
  have hread : consume read (ofBytes (lenientBodies.file lenient)) =
      (.ok lenient, (lenientBodies.file lenient).length) := rfl
  have hlong : 71 < (lenientBodies.file lenient).length := by decide
  have hcut : ReachesEnd read ((lenientBodies.file lenient).take 40) := rfl
  have hinside : ReachesEnd read ((lenientBodies.file lenient).take 71) := rfl
  have hwhole : ¬ ReachesEnd read
      ((lenientBodies.file lenient).take (lenientBodies.file lenient).length) := by
    have hleft : read.left (ofBytes (lenientBodies.file lenient) ++ [.interrupted]) =
        [.interrupted] := rfl
    rw [List.take_length, ReachesEnd, hleft]
    simp
  obtain ⟨-, htake, hfail, hsteady⟩ := loading_fails_cleanly (lenientBodies.file lenient)
  have hreport (k : Nat) (format : FormatError) (cause : IoError) (hk : k ≤ 71)
      (hend : ReachesEnd read ((lenientBodies.file lenient).take k))
      (hmemory : consume read (ofBytes ((lenientBodies.file lenient).take k)) =
        (.error (.format format), k)) :
      consume read (failingAt (lenientBodies.file lenient) k cause) =
        (.error (format.onFailure cause), k) := by
    obtain ⟨_, hmemory', hfailing⟩ := (hfail k (by omega) cause).2 hend
    rw [hmemory] at hmemory'
    cases hmemory'
    exact hfailing
  refine ⟨_, rfl, hlong, hread, htake _ _ hread 40 (by omega), hcut, ?_, hinside, ?_, hwhole, ?_,
    ?_⟩
  · exact hreport 40 (.missingTableEnd "exports") .notFound (by omega) hcut rfl
  · exact hreport 71 (.endInside "code") (.unexpectedEnd "cut") (by omega) hinside rfl
  · rw [(hfail _ (Nat.le_refl _) .notFound).1 hwhole, List.take_length, hread]
  · rw [hsteady (interrupting _) (ofBytes (lenientBodies.file lenient)) rfl, hread]

end Module

end ByteMachine
