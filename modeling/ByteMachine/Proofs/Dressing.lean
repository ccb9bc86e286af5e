import Mathlib.Data.List.Basic
import ByteMachine.Proofs.Outline
import ByteMachine.Proofs.Parsing
import ByteMachine.Proofs.Tokens

/-!
What may be changed in a source without a change to the program. Blanks and comments may be put
around the lines and lines of nothing else between them, and lines may end with a carriage return
and a line feed or with a line feed alone.
-/
namespace ByteMachine

/-! ## Texts as lines -/

namespace Text

/-- A text with its lines. Each ends with a line feed, before which a carriage return belongs to the
end, but the last one may have no end. -/
inductive Lined : List (List Char) → List Char → Prop where
  | nil : Lined [] []
  | last {line : List Char} : line ≠ [] → '\n' ∉ line → Lined [line] line
  | feed {line cs : List Char} {ls : List (List Char)} : '\n' ∉ line →
      line.getLast? ≠ some '\r' → Lined ls cs → Lined (line :: ls) (line ++ '\n' :: cs)
  | returnFeed {line cs : List Char} {ls : List (List Char)} : '\n' ∉ line → Lined ls cs →
      Lined (line :: ls) (line ++ '\r' :: '\n' :: cs)

theorem linesFrom_of_not_mem {line : List Char} (h : '\n' ∉ line) {begun : List Char}
    (hne : line ++ begun ≠ []) : linesFrom begun line = [begun.reverse ++ line] := by
  induction line generalizing begun with
  | nil =>
    rw [linesFrom, List.append_nil, if_neg]
    exact fun hempty => hne (List.isEmpty_iff.1 hempty)
  | cons c line ih =>
    rw [List.mem_cons, not_or] at h
    rw [linesFrom, ih h.2 (by simp), List.reverse_cons, List.append_assoc, List.singleton_append]
    exact fun hc => h.1 hc.symm

theorem Lined.linesFrom_eq {ls : List (List Char)} {cs : List Char} (h : Lined ls cs) :
    linesFrom [] cs = ls := by
  induction h with
  | nil => rfl
  | last hne hfeed =>
    rw [linesFrom_of_not_mem hfeed (by simpa using hne)]
    rfl
  | feed hfeed hreturn _ ih =>
    rw [linesFrom_append hfeed, List.append_nil, finishLine_of_getLast? hreturn, ih]
  | @returnFeed line cs ls hfeed _ ih =>
    have hsplit : line ++ '\r' :: '\n' :: cs = (line ++ ['\r']) ++ '\n' :: cs := by simp
    rw [hsplit, linesFrom_append (by simp [hfeed]), ih]
    simp [finishLine]

theorem exists_lined (cs : List Char) : ∃ ls, Lined ls cs := by
  induction cs with
  | nil => exact ⟨[], .nil⟩
  | cons c cs ih =>
    obtain ⟨ls, hls⟩ := ih
    by_cases hc : c = '\n'
    · subst hc
      exact ⟨[] :: ls, .feed (List.not_mem_nil) (by simp) hls⟩
    · have hmem {line : List Char} (h : '\n' ∉ line) : '\n' ∉ c :: line := by
        simp [h, Ne.symm hc]
      cases hls with
      | nil => exact ⟨[[c]], .last (by simp) (hmem List.not_mem_nil)⟩
      | last _ hfeed => exact ⟨_, .last (by simp) (hmem hfeed)⟩
      | @feed line cs ls hfeed hreturn hrest =>
        cases line with
        | cons d line => exact ⟨_, .feed (hmem hfeed) (by simpa using hreturn) hrest⟩
        | nil =>
          by_cases hr : c = '\r'
          · subst hr
            exact ⟨_, .returnFeed hfeed hrest⟩
          · exact ⟨_, .feed (hmem hfeed) (by simpa using hr) hrest⟩
      | returnFeed hfeed hrest => exact ⟨_, .returnFeed (hmem hfeed) hrest⟩

/-- Every text has lines, and only the ones that are read. -/
theorem lines_eq_iff {text : String} {ls : List (List Char)} :
    lines text = ls ↔ Lined ls text.toList := by
  constructor
  · rintro rfl
    obtain ⟨ls, hls⟩ := exists_lined text.toList
    rw [lines, hls.linesFrom_eq]
    exact hls
  · exact Lined.linesFrom_eq

def withReturns (text : String) : String :=
  String.ofList (text.toList.flatMap fun c => if c = '\n' then ['\r', '\n'] else [c])

theorem flatMap_of_not_mem {line : List Char} (h : '\n' ∉ line) :
    (line.flatMap fun c => if c = '\n' then ['\r', '\n'] else [c]) = line := by
  induction line with
  | nil => rfl
  | cons c line ih =>
    rw [List.mem_cons, not_or] at h
    rw [List.flatMap_cons, if_neg (Ne.symm h.1), ih h.2]
    rfl

theorem lines_withReturns {text : String} (h : '\r' ∉ text.toList) :
    lines (withReturns text) = lines text := by
  rw [lines_eq_iff, withReturns, String.toList_ofList]
  obtain ⟨ls, hls⟩ : ∃ ls, lines text = ls := ⟨_, rfl⟩
  rw [hls]
  have hlined := lines_eq_iff.1 hls
  clear hls
  generalize text.toList = cs at hlined h ⊢
  induction hlined with
  | nil => exact .nil
  | last hne hfeed =>
    rw [flatMap_of_not_mem hfeed]
    exact .last hne hfeed
  | feed hfeed _ _ ih =>
    rw [List.mem_append, List.mem_cons, not_or, not_or] at h
    rw [List.flatMap_append, List.flatMap_cons, if_pos rfl, flatMap_of_not_mem hfeed]
    exact .returnFeed hfeed (ih h.2.2)
  | returnFeed => simp at h

end Text

namespace Assembly

/-! ## Lines with blanks and comments -/

/-- Blanks, and perhaps a comment behind them. -/
def Void (cs : List Char) : Prop :=
  ∃ gap comment, cs = gap ++ comment ∧ (∀ c ∈ gap, isGap c = true) ∧ isFinished comment = true

theorem Void.lexes {cs : List Char} (h : Void cs) : Lexes cs [] := by
  obtain ⟨gap, comment, rfl, hgap, hcomment⟩ := h
  exact (Lexes.finished hcomment).gaps hgap

theorem Void.stops {cs : List Char} (h : Void cs) : Stops cs := by
  obtain ⟨gap, comment, rfl, hgap, hcomment⟩ := h
  by_cases hne : gap = []
  · subst hne
    cases comment with
    | nil => nofun
    | cons c comment =>
      have hc : c = ';' := by simpa [isFinished] using hcomment
      simp [Stops, hc]
  · exact stops_of_gap hgap hne comment

theorem void_gap {gap : List Char} (h : ∀ c ∈ gap, isGap c = true) : Void gap :=
  ⟨gap, [], (List.append_nil gap).symm, h, rfl⟩

theorem void_comment {gap : List Char} (h : ∀ c ∈ gap, isGap c = true) (comment : List Char) :
    Void (gap ++ ';' :: comment) :=
  ⟨gap, ';' :: comment, rfl, h, rfl⟩

/-- Nothing behind a line changes its tokens. -/
theorem Lexes.append {line tail : List Char} {ts : List Token} (h : Lexes line ts)
    (htail : Void tail) : Lexes (line ++ tail) ts := by
  induction h with
  | @finished cs hfinished =>
    cases cs with
    | nil => exact htail.lexes
    | cons c cs => exact .finished hfinished
  | gap hc _ ih => exact .gap hc ih
  | token htoken _ ih => exact .token (scanToken_append htoken htail.stops) ih

/-- Lines with blanks and comments added: each line may have blanks before it and blanks and a
comment behind it, and anywhere there may be lines with nothing else. -/
inductive Dressed : List (List Char) → List (List Char) → Prop where
  | nil : Dressed [] []
  | dress {line : List Char} {ls ls' : List (List Char)} (indent tail : List Char) :
      (∀ c ∈ indent, isGap c = true) → Void tail → Dressed ls ls' →
      Dressed (line :: ls) ((indent ++ line ++ tail) :: ls')
  | insert {line : List Char} {ls ls' : List (List Char)} :
      Void line → Dressed ls ls' → Dressed ls (line :: ls')

/-! ## Statements -/

/-- Statements with empty ones added between them, and any line numbers. -/
inductive Padded : List Statement → List Statement → Prop where
  | nil : Padded [] []
  | keep {s : Statement} {line : Nat} {ss ss' : List Statement} :
      Padded ss ss' → Padded (s :: ss) ({ s with line } :: ss')
  | pad {line : Nat} {ss ss' : List Statement} :
      Padded ss ss' → Padded ss (⟨line, none, [], .blank⟩ :: ss')

/-- Dressed lines are parsed as padded statements. -/
theorem parseFrom_of_dressed {ls ls' : List (List Char)} (hdressed : Dressed ls ls')
    {ss : List Statement} {first : Nat} (h : parseFrom first ls = .ok ss) (first' : Nat) :
    ∃ ss', parseFrom first' ls' = .ok ss' ∧ Padded ss ss' := by
  induction hdressed generalizing ss first first' with
  | nil =>
    cases h
    exact ⟨[], rfl, .nil⟩
  | dress _ _ hindent htail _ ih =>
    obtain ⟨s, rest, hs, hrest, rfl⟩ := parseFrom_cons_eq_ok_iff.1 h
    obtain ⟨rest', hrest', hpadded⟩ := ih hrest (first' + 1)
    obtain ⟨tokens, hscan, hparse⟩ := parseLine_eq_ok_iff.1 hs
    have hlexes := ((scan_eq_ok_iff.1 hscan).gaps hindent).append htail
    have hline := parseLine_eq_ok_iff.2
      ⟨tokens, scan_eq_ok_iff.2 hlexes, parseStatement_of_line hparse first'⟩
    exact ⟨_, parseFrom_cons_eq_ok_iff.2 ⟨_, _, hline, hrest', rfl⟩, .keep hpadded⟩
  | insert hvoid _ ih =>
    obtain ⟨rest', hrest', hpadded⟩ := ih h (first' + 1)
    have hline := parseLine_eq_ok_iff.2
      ⟨[], scan_eq_ok_iff.2 hvoid.lexes, (rfl : parseStatement first' [] = .ok _)⟩
    exact ⟨_, parseFrom_cons_eq_ok_iff.2 ⟨_, _, hline, hrest', rfl⟩, .pad hpadded⟩

/-! ## Modules -/

theorem sectionsOnto_done (statements : List Statement) (current : Section)
    (done : List (Section × Statement)) :
    sectionsOnto current done statements = done.reverse ++ sectionsOnto current [] statements := by
  induction statements generalizing current done with
  | nil => simp [sectionsOnto]
  | cons s rest ih =>
    rw [sectionsOnto, sectionsOnto, ih, ih _ [_]]
    simp

/-- What is collected from statements is collected from padded ones, if line numbers do not matter
to it and empty statements have nothing of it. -/
theorem Padded.flatMap_sections {α : Type} {f : Section × Statement → List α}
    (hline : ∀ page s line, f (page, { s with line }) = f (page, s))
    (hblank : ∀ page line, f (page, ⟨line, none, [], .blank⟩) = [])
    {ss ss' : List Statement} (h : Padded ss ss') :
    (sections ss').flatMap f = (sections ss).flatMap f := by
  suffices hall : ∀ current, (sectionsOnto current [] ss').flatMap f =
      (sectionsOnto current [] ss).flatMap f from hall .code
  induction h with
  | nil => exact fun current => rfl
  | keep _ ih =>
    intro current
    rw [sectionsOnto, sectionsOnto, sectionsOnto_done _ _ [_], sectionsOnto_done _ _ [_]]
    simp [hline, ih]
  | pad _ ih =>
    intro current
    rw [sectionsOnto, sectionsOnto_done _ _ [_]]
    simp [hblank, ih, Body.switch]

theorem Padded.outline_eq {ss ss' : List Statement} (h : Padded ss ss') :
    outline (sections ss) = outline (sections ss') := by
  have hparts (page : Section) : partsOf page (sections ss') = partsOf page (sections ss) :=
    h.flatMap_sections (fun _ _ _ => rfl) (fun p _ => ite_self [])
  have hpage (page : Section) :
      pageProperties page (sections ss') = pageProperties page (sections ss) := by
    simp only [pageProperties, List.filterMap_eq_flatMap_toList]
    exact h.flatMap_sections (fun _ _ _ => rfl) fun _ _ => rfl
  have hprogram : programProperties (sections ss') = programProperties (sections ss) := by
    simp only [programProperties, List.filterMap_eq_flatMap_toList]
    exact h.flatMap_sections (fun _ _ _ => rfl) fun _ _ => rfl
  have hexported : exportedBy (sections ss') = exportedBy (sections ss) :=
    h.flatMap_sections (fun _ _ _ => rfl) fun _ _ => rfl
  simp only [outline, hparts, hpage, hprogram, hexported]

theorem Padded.isPlain {ss ss' : List Statement} (h : Padded ss ss')
    (hplain : ∀ s ∈ ss, s.body.isPlain = true) : ∀ s ∈ ss', s.body.isPlain = true := by
  induction h with
  | nil => exact hplain
  | keep _ ih =>
    obtain ⟨hs, hss⟩ := List.forall_mem_cons.1 hplain
    exact List.forall_mem_cons.2 ⟨hs, ih hss⟩
  | pad _ ih => exact List.forall_mem_cons.2 ⟨rfl, ih hplain⟩

theorem isPlain_of_emit {scope : Scope} {p : Placed} {e : Emitted} (h : emit scope p = .ok e) :
    p.statement.body.isPlain = true := by
  unfold emit at h
  cases hbody : p.statement.body with
  | blank | property owner name value | instruction opcode arguments => rfl
  | directive d arguments =>
    simp only [hbody] at h
    obtain ⟨_, hcheck, -⟩ := exists_ok_of_bind h
    cases d with
    | bytes | words | addresses | texts => rfl
    | unknown name => cases hcheck
    | code | data | exports => cases arguments <;> first | rfl | cases hcheck

namespace FirstPass

variable {source edited : String} {m : Module}

/-- The statements of an assembled source are plain. -/
theorem isPlain_of_assemble (f : FirstPass source) (hm : assemble source = .ok m) :
    ∀ s ∈ f.statements, s.body.isPlain = true := by
  intro s hs
  obtain ⟨emitted, hemitted, -⟩ := f.exists_emitted hm
  rw [← sections_snd f.statements] at hs
  obtain ⟨item, hitem, rfl⟩ := List.mem_map.1 hs
  obtain ⟨p, hp, rfl⟩ := f.exists_placed_of_mem hitem
  obtain ⟨a, b, hsplit⟩ := List.append_of_mem (List.mem_reverse.2 hp)
  rw [hsplit] at hemitted
  obtain ⟨_, _, -, hrest, -⟩ := emitAll_append hemitted
  obtain ⟨e, _, he, -, -⟩ := emitAll_cons hrest
  exact isPlain_of_emit he

theorem assemble_of_padded (f : FirstPass source) (hm : assemble source = .ok m)
    {statements : List Statement} (hparse : parse edited = .ok statements)
    (hpadded : Padded f.statements statements) : assemble edited = .ok m :=
  f.assemble_of_outline hm hparse (hpadded.isPlain (f.isPlain_of_assemble hm)) hpadded.outline_eq

end FirstPass

theorem assemble_of_lines {a b : String} (h : Text.lines a = Text.lines b) :
    assemble a = assemble b := by
  rw [assemble, parse, h]
  rfl

/-- Blanks, comments and line ends do not matter. A line with blanks before it, blanks behind it,
or blanks and any comment behind it has the tokens of the line alone. So whatever blanks and
comments the lines of a source are given, whatever lines of blanks and comments are put between
them, and however they end, the text is assembled to the module that the source is; and so is the
source itself with a carriage return before each of its line feeds, if it had none. -/
theorem assemble_dressed :
    (∀ line ts w, scan line = .ok ts → (∀ c ∈ w, isGap c = true) →
      scan (w ++ line) = .ok ts ∧ scan (line ++ w) = .ok ts ∧
        ∀ comment, scan (line ++ (w ++ ';' :: comment)) = .ok ts) ∧
    ∀ source m, assemble source = .ok m →
      (∀ ls ls' edited, Text.Lined ls source.toList → Dressed ls ls' →
        Text.Lined ls' edited.toList → assemble edited = .ok m) ∧
      ('\r' ∉ source.toList → assemble (Text.withReturns source) = .ok m) := by
  constructor
  · intro line ts w hline hw
    have hlexes := scan_eq_ok_iff.1 hline
    exact ⟨scan_eq_ok_iff.2 (hlexes.gaps hw), scan_eq_ok_iff.2 (hlexes.append (void_gap hw)),
      fun comment => scan_eq_ok_iff.2 (hlexes.append (void_comment hw comment))⟩
  · intro source m hm
    constructor
    · intro ls ls' edited hls hdressed hls'
      obtain ⟨f⟩ := FirstPass.exists_of_assemble hm
      have hparse := f.parse_eq
      rw [parse_eq_parseFrom, Text.lines_eq_iff.2 hls] at hparse
      obtain ⟨statements, hstatements, hpadded⟩ := parseFrom_of_dressed hdressed hparse 1
      rw [← Text.lines_eq_iff.2 hls', ← parse_eq_parseFrom] at hstatements
      exact f.assemble_of_padded hm hstatements hpadded
    · intro hreturn
      rw [assemble_of_lines (Text.lines_withReturns hreturn)]
      exact hm

def bare : String := "go: push.b ';'\njmp go"

/-- The same program with an indented line, comments, a line of nothing, and ends of both kinds. -/
def adorned : String := "; it's \"\r\n \tgo: push.b ';' ; \"x\\\n\r\njmp go\t"

set_option maxRecDepth 4000 in
theorem assemble_dressed_bare :
    scan ("jmp go".toList ++ ([' ', '\t'] ++ ';' :: "it's \"".toList)) =
        .ok [.word "jmp", .word "go"] ∧
      ∃ m, assemble bare = .ok m ∧ assemble adorned = .ok m ∧
        assemble (Text.withReturns bare) = .ok m := by
  obtain ⟨hscan, hassemble⟩ := assemble_dressed
  have hwords := (hscan "jmp go".toList [.word "jmp", .word "go"] [' ', '\t'] rfl
    (by simp [isGap])).2.2
  have hbare : Text.lines bare = ["go: push.b ';'".toList, "jmp go".toList] := rfl
  have hadorned : Text.lines adorned =
      ["; it's \"".toList, " \tgo: push.b ';' ; \"x\\".toList, [], "jmp go\t".toList] := rfl
  have hdressed : Dressed ["go: push.b ';'".toList, "jmp go".toList]
      ["; it's \"".toList, " \tgo: push.b ';' ; \"x\\".toList, [], "jmp go\t".toList] :=
    .insert ⟨[], _, rfl, by simp, rfl⟩ <|
    .dress [' ', '\t'] " ; \"x\\".toList (by simp [isGap]) ⟨[' '], _, rfl, by simp [isGap], rfl⟩ <|
    .insert ⟨[], _, rfl, by simp, rfl⟩ <|
    .dress [] ['\t'] (by simp) ⟨['\t'], [], rfl, by simp [isGap], rfl⟩ .nil
  obtain ⟨m, hm⟩ : ∃ m, assemble bare = .ok m := exists_ok_of_isOk (by decide +kernel)
  obtain ⟨hedited, hreturns⟩ := hassemble bare m hm
  exact ⟨hwords _, m, hm, hedited _ _ adorned (Text.lines_eq_iff.1 hbare) hdressed
    (Text.lines_eq_iff.1 hadorned), hreturns (by decide)⟩

end Assembly

end ByteMachine
