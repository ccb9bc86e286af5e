import ByteMachine.Proofs.Loading
import ByteMachine.Proofs.Parsing
import ByteMachine.Proofs.Program

/-!
Why a source is refused, and where. Lines come first, then the widths of the pages, then the places
of the statements, and what they emit comes last; of each kind it is the first mistake that counts.
-/
namespace ByteMachine

/-! ## First failures -/

theorem error_of_bind_iff {ε α β : Type} {x : Except ε α} {f : α → Except ε β} {e : ε} :
    (x >>= f) = .error e ↔ x = .error e ∨ ∃ a, x = .ok a ∧ f a = .error e := by
  cases x with
  | error e' =>
    constructor
    · intro h
      cases h
      exact .inl rfl
    · rintro (h | ⟨a, h, -⟩)
      · cases h
        rfl
      · cases h
  | ok a =>
    constructor
    · intro h
      exact .inr ⟨a, rfl, h⟩
    · rintro (h | ⟨_, ⟨⟩, h⟩)
      · cases h
      · exact h

/-- A fold fails at the first element that the fold of those before it cannot take. -/
theorem foldlM_eq_error_iff {ε α σ : Type} {f : σ → α → Except ε σ} {l : List α} {s : σ} {e : ε} :
    l.foldlM f s = .error e ↔ ∃ before a after t, l = before ++ a :: after ∧
      before.foldlM f s = .ok t ∧ f t a = .error e := by
  constructor
  · intro h
    induction l generalizing s with
    | nil => cases h
    | cons a l ih =>
      rw [List.foldlM_cons] at h
      rcases error_of_bind_iff.1 h with ha | ⟨t, ht, h⟩
      · exact ⟨[], a, l, s, rfl, rfl, ha⟩
      · obtain ⟨before, b, after, u, rfl, hbefore, hb⟩ := ih h
        refine ⟨a :: before, b, after, u, rfl, ?_, hb⟩
        rw [List.foldlM_cons, ht]
        exact hbefore
  · rintro ⟨before, a, after, t, rfl, hbefore, ha⟩
    rw [List.foldlM_append]
    exact error_of_bind_iff.2 (.inr ⟨t, hbefore, error_of_bind_iff.2 (.inl ha)⟩)

/-- A list is refused for the first of its elements that is. -/
theorem mapM_eq_error_iff {ε α β : Type} {f : α → Except ε β} {l : List α} {e : ε} :
    l.mapM f = .error e ↔ ∃ before a after, l = before ++ a :: after ∧
      (∀ b ∈ before, ∃ c, f b = .ok c) ∧ f a = .error e := by
  constructor
  · intro h
    induction l with
    | nil => cases h
    | cons a l ih =>
      rw [List.mapM_cons] at h
      rcases error_of_bind_iff.1 h with ha | ⟨c, hc, h⟩
      · exact ⟨[], a, l, rfl, nofun, ha⟩
      · rcases error_of_bind_iff.1 h with hl | ⟨cs, -, h⟩
        · obtain ⟨before, b, after, rfl, hbefore, hb⟩ := ih hl
          exact ⟨a :: before, b, after, rfl, List.forall_mem_cons.2 ⟨⟨c, hc⟩, hbefore⟩, hb⟩
        · cases h
  · rintro ⟨before, a, after, rfl, hbefore, ha⟩
    induction before with
    | nil =>
      rw [List.nil_append, List.mapM_cons]
      exact error_of_bind_iff.2 (.inl ha)
    | cons b before ih =>
      obtain ⟨⟨c, hc⟩, hrest⟩ := List.forall_mem_cons.1 hbefore
      rw [List.cons_append, List.mapM_cons]
      exact error_of_bind_iff.2 (.inr ⟨c, hc, error_of_bind_iff.2 (.inl (ih hrest))⟩)

namespace Assembly

theorem onLine_eq_error {α : Type} {line : Nat} {r : Except AssemblyError α} {e : Error} :
    onLine line r = .error e ↔ ∃ cause, r = .error cause ∧ e = .assembly line cause := by
  cases r with
  | ok a =>
    constructor
    · intro h
      cases h
    · rintro ⟨cause, h, -⟩
      cases h
  | error cause =>
    constructor
    · intro h
      cases h
      exact ⟨cause, rfl, rfl⟩
    · rintro ⟨_, ⟨⟩, rfl⟩
      rfl

/-! ## Lines -/

def IsStatement (line : List Char) : Prop :=
  ∃ number s, parseLine number line = .ok s

theorem IsStatement.parseLine {line : List Char} (h : IsStatement line) (number : Nat) :
    ∃ s, parseLine number line = .ok s := by
  obtain ⟨number', s, hs⟩ := h
  obtain ⟨tokens, hscan, hparse⟩ := parseLine_eq_ok_iff.1 hs
  exact ⟨_, parseLine_eq_ok_iff.2 ⟨tokens, hscan, parseStatement_of_line hparse number⟩⟩

/-- Lines are refused for the first that is no statement. -/
theorem parseFrom_eq_error_iff {first : Nat} {ls : List (List Char)} {e : Error} :
    parseFrom first ls = .error e ↔ ∃ before line after cause, ls = before ++ line :: after ∧
      (∀ earlier ∈ before, IsStatement earlier) ∧
      parseLine (first + before.length) line = .error cause ∧
      e = .assembly (first + before.length) cause := by
  rw [parseFrom, mapM_eq_error_iff]
  constructor
  · rintro ⟨numbered, ⟨line, number⟩, later, hsplit, hnumbered, hline⟩
    obtain ⟨before, rest, rfl, rfl, hrest⟩ := List.zipIdx_eq_append_iff.1 hsplit
    obtain ⟨_, after, rfl, heq, -⟩ := List.zipIdx_eq_cons_iff.1 hrest.symm
    cases heq
    obtain ⟨cause, hcause, rfl⟩ := onLine_eq_error.1 hline
    refine ⟨before, line, after, cause, rfl, fun earlier hearlier => ?_, hcause, rfl⟩
    rw [← List.zipIdx_map_fst first before] at hearlier
    obtain ⟨⟨_, number⟩, hmem, rfl⟩ := List.mem_map.1 hearlier
    obtain ⟨s, hs⟩ := hnumbered _ hmem
    exact ⟨number, s, onLine_eq_ok.1 hs⟩
  · rintro ⟨before, line, after, cause, rfl, hbefore, hcause, rfl⟩
    rw [List.zipIdx_append, List.zipIdx_cons]
    refine ⟨_, _, _, rfl, fun numbered hnumbered => ?_, onLine_eq_error.2 ⟨cause, hcause, rfl⟩⟩
    have hmem := List.mem_map_of_mem (f := Prod.fst) hnumbered
    rw [List.zipIdx_map_fst] at hmem
    obtain ⟨s, hs⟩ := (hbefore numbered.1 hmem).parseLine numbered.2
    exact ⟨s, onLine_eq_ok.2 hs⟩

/-- A statement stands on the line of its number. -/
theorem line_of_parseFrom {first : Nat} {ls : List (List Char)} {before after : List Statement}
    {s : Statement} (h : parseFrom first ls = .ok (before ++ s :: after)) :
    s.line = first + before.length ∧ before.length < ls.length := by
  induction before generalizing first ls with
  | nil =>
    cases ls with
    | nil => cases h
    | cons line ls =>
      obtain ⟨t, rest, ht, -, heq⟩ := parseFrom_cons_eq_ok_iff.1 h
      cases heq
      exact ⟨line_of_parseLine ht, Nat.zero_lt_succ _⟩
  | cons earlier before ih =>
    cases ls with
    | nil => cases h
    | cons line ls =>
      obtain ⟨t, rest, -, hrest, heq⟩ := parseFrom_cons_eq_ok_iff.1 h
      cases heq
      obtain ⟨hline, hlt⟩ := ih hrest
      simp only [List.length_cons]
      omega

theorem line_of_sections {source : String} {statements : List Statement}
    (hparse : parse source = .ok statements) {before after : List (Section × Statement)}
    {item : Section × Statement} (h : sections statements = before ++ item :: after) :
    item.2.line = before.length + 1 ∧ before.length + 1 ≤ (Text.lines source).length := by
  have hstatements : statements =
      before.map Prod.snd ++ item.2 :: after.map Prod.snd := by
    rw [← sections_snd statements, h, List.map_append, List.map_cons]
  rw [hstatements] at hparse
  obtain ⟨hline, hlt⟩ := line_of_parseFrom hparse
  rw [List.length_map] at hline hlt
  omega

/-! ## Places -/

/-- No statement before this one has its label. -/
def Fresh (before : List (Section × Statement)) (s : Statement) : Prop :=
  ∀ name, s.label = some name → ∀ earlier ∈ before, earlier.2.label ≠ some name

/-- Why a statement cannot be placed behind others: its label is theirs, its directive is unknown,
or its page would be longer than its addresses reach. -/
inductive Misplaced (w : Widths) (before : List (Section × Statement)) :
    Section × Statement → AssemblyError → Prop where
  | duplicate {page : Section} {s : Statement} {name : String} {earlier : Section × Statement} :
      s.label = some name → earlier ∈ before → earlier.2.label = some name →
      Misplaced w before (page, s) (.duplicateLabel name earlier.2.line)
  | unknown {page : Section} {s : Statement} {name : String} {arguments : List Argument} :
      Fresh before s → s.body = .directive (.unknown name) arguments →
      Misplaced w before (page, s) (.unknownDirective name)
  | full {page : Section} {s : Statement} {size : Nat} :
      Fresh before s → s.size w page = .ok size →
      (w.of page).maxValue < extent w page before + size →
      Misplaced w before (page, s)
        (.pageFull page (extent w page before + size) (w.of page).maxValue)

def Placeable (w : Widths) (items : List (Section × Statement)) : Prop :=
  ∀ before item after, items = before ++ item :: after → ∀ cause, ¬ Misplaced w before item cause

section

variable {w : Widths} {before : List (Section × Statement)} {l : Layout}

theorem Layout.Agrees.exists_of_lookup (hl : l.Agrees w before) {name : String} {symbol : Symbol}
    (h : l.symbols.lookup name = some symbol) :
    ∃ earlier ∈ before, earlier.2.label = some name ∧ symbol.line = earlier.2.line := by
  obtain ⟨p, hp, hsymbol⟩ := hl.exists_placed h
  obtain ⟨label, hlabel, heq⟩ := Option.map_eq_some_iff.1 hsymbol
  cases heq
  have hitem := List.mem_map_of_mem (f := Placed.item) (List.mem_reverse.2 hp)
  rw [hl.placed_eq, placements_item] at hitem
  exact ⟨p.item, hitem, hlabel, rfl⟩

theorem Layout.Agrees.lookup_of_mem (hl : l.Agrees w before) {earlier : Section × Statement}
    (hmem : earlier ∈ before) {name : String} (hlabel : earlier.2.label = some name) :
    ∃ symbol, l.symbols.lookup name = some symbol ∧ symbol.line = earlier.2.line := by
  obtain ⟨a, b, rfl⟩ := List.append_of_mem hmem
  obtain ⟨page, s⟩ := earlier
  exact ⟨_, hl.lookup hlabel, rfl⟩

theorem Layout.Agrees.fresh_iff (hl : l.Agrees w before) {s : Statement} :
    Fresh before s ↔ ∀ name, s.label = some name → l.symbols.lookup name = none := by
  constructor
  · intro h name hname
    cases hlookup : l.symbols.lookup name with
    | none => rfl
    | some symbol =>
      obtain ⟨earlier, hmem, hlabel, -⟩ := hl.exists_of_lookup hlookup
      exact absurd hlabel (h name hname earlier hmem)
  · intro h name hname earlier hmem hlabel
    obtain ⟨symbol, hlookup, -⟩ := hl.lookup_of_mem hmem hlabel
    rw [h name hname] at hlookup
    cases hlookup

theorem Statement.size_eq_error_iff {page : Section} {s : Statement} {cause : AssemblyError} :
    s.size w page = .error cause ↔
      ∃ name arguments, s.body = .directive (.unknown name) arguments ∧
        cause = .unknownDirective name := by
  unfold size
  constructor
  · intro h
    cases hbody : s.body with
    | blank | instruction opcode arguments | property owner name value =>
      rw [hbody] at h
      cases h
    | directive d arguments =>
      rw [hbody] at h
      cases d with
      | unknown name =>
        cases h
        exact ⟨name, arguments, rfl, rfl⟩
      | code | data | bytes | words | addresses | texts | exports => cases h
  · rintro ⟨name, arguments, hbody, rfl⟩
    rw [hbody]

theorem Layout.Agrees.define_eq_error_iff (hl : l.Agrees w before) {page : Section} {s : Statement}
    {cause : AssemblyError} : l.define page s = .error cause ↔
      ∃ name, s.label = some name ∧ ∃ earlier ∈ before, earlier.2.label = some name ∧
        cause = .duplicateLabel name earlier.2.line := by
  unfold Layout.define
  constructor
  · intro h
    cases hname : s.label with
    | none =>
      rw [hname] at h
      cases h
    | some name =>
      simp only [hname] at h
      cases hlookup : l.symbols.lookup name with
      | none =>
        rw [hlookup] at h
        cases h
      | some existing =>
        rw [hlookup] at h
        cases h
        obtain ⟨earlier, hmem, hlabel, hline⟩ := hl.exists_of_lookup hlookup
        exact ⟨name, rfl, earlier, hmem, hlabel, by rw [hline]⟩
  · rintro ⟨name, hname, earlier, hmem, hlabel, rfl⟩
    obtain ⟨symbol, hlookup, hline⟩ := hl.lookup_of_mem hmem hlabel
    simp only [hname, hlookup, hline]

/-- A layout refuses what is misplaced behind the statements that it has. -/
theorem Layout.Agrees.place_eq_error_iff (hl : l.Agrees w before) {item : Section × Statement}
    {cause : AssemblyError} : l.place w item = .error cause ↔ Misplaced w before item cause := by
  obtain ⟨page, s⟩ := item
  constructor
  · intro h
    rcases error_of_bind_iff.1 h with hdefine | ⟨d, hdefine, h⟩
    · obtain ⟨name, hname, earlier, hmem, hlabel, rfl⟩ := hl.define_eq_error_iff.1 hdefine
      exact .duplicate hname hmem hlabel
    have hfresh := hl.fresh_iff.2 (define_cases hdefine).1
    rcases error_of_bind_iff.1 h with hsize | ⟨size, hsize, h⟩
    · obtain ⟨name, arguments, hbody, rfl⟩ := Statement.size_eq_error_iff.1 hsize
      exact .unknown hfresh hbody
    · by_cases hfull : (w.of page).maxValue < l.size page + size
      · simp only [hfull, ↓reduceIte] at h
        cases h
        rw [hl.size_eq] at hfull ⊢
        exact .full hfresh hsize hfull
      · simp only [hfull, ↓reduceIte] at h
        cases h
  · intro h
    have hdefined (hfresh : Fresh before s) : ∃ d, l.define page s = .ok d := by
      cases hdefine : l.define page s with
      | ok d => exact ⟨d, rfl⟩
      | error cause =>
        obtain ⟨name, hname, earlier, hmem, hlabel, -⟩ := hl.define_eq_error_iff.1 hdefine
        exact absurd hlabel (hfresh name hname earlier hmem)
    cases h with
    | duplicate hname hmem hlabel =>
      exact error_of_bind_iff.2
        (.inl (hl.define_eq_error_iff.2 ⟨_, hname, _, hmem, hlabel, rfl⟩))
    | unknown hfresh hbody =>
      obtain ⟨d, hdefine⟩ := hdefined hfresh
      exact error_of_bind_iff.2 (.inr ⟨d, hdefine, error_of_bind_iff.2
        (.inl (Statement.size_eq_error_iff.2 ⟨_, _, hbody, rfl⟩))⟩)
    | full hfresh hsize hfull =>
      obtain ⟨d, hdefine⟩ := hdefined hfresh
      rw [← hl.size_eq] at hfull ⊢
      refine error_of_bind_iff.2 (.inr ⟨d, hdefine, error_of_bind_iff.2 (.inr ⟨_, hsize, ?_⟩)⟩)
      rw [if_pos hfull]
      rfl

end

/-- Statements can be laid out if each can be placed. -/
theorem exists_layOut_iff {w : Widths} {items : List (Section × Statement)} :
    (∃ l, layOut w items = .ok l) ↔ Placeable w items := by
  constructor
  · rintro ⟨l, h⟩ before item after rfl cause hmisplaced
    obtain ⟨l₀, hbefore⟩ := layOut_of_append h
    have hplace := (layOut_agrees hbefore).place_eq_error_iff.2 hmisplaced
    have herror : layOut w (before ++ item :: after) = .error (.assembly item.2.line cause) :=
      foldlM_eq_error_iff.2 ⟨before, item, after, l₀, rfl, hbefore,
        onLine_eq_error.2 ⟨cause, hplace, rfl⟩⟩
    rw [h] at herror
    cases herror
  · intro h
    cases hlayout : layOut w items with
    | ok l => exact ⟨l, rfl⟩
    | error e =>
      obtain ⟨before, item, after, l, hitems, hbefore, hplace⟩ := foldlM_eq_error_iff.1 hlayout
      obtain ⟨cause, hcause, -⟩ := onLine_eq_error.1 hplace
      exact absurd ((layOut_agrees hbefore).place_eq_error_iff.1 hcause)
        (h before item after hitems cause)

/-- Statements are refused for the first that is misplaced. -/
theorem layOut_eq_error_iff {w : Widths} {items : List (Section × Statement)} {e : Error} :
    layOut w items = .error e ↔ ∃ before item after cause, items = before ++ item :: after ∧
      Placeable w before ∧ Misplaced w before item cause ∧ e = .assembly item.2.line cause := by
  constructor
  · intro h
    obtain ⟨before, item, after, l, hitems, hbefore, hplace⟩ := foldlM_eq_error_iff.1 h
    obtain ⟨cause, hcause, rfl⟩ := onLine_eq_error.1 hplace
    exact ⟨before, item, after, cause, hitems, exists_layOut_iff.1 ⟨l, hbefore⟩,
      (layOut_agrees hbefore).place_eq_error_iff.1 hcause, rfl⟩
  · rintro ⟨before, item, after, cause, hitems, hplaceable, hmisplaced, rfl⟩
    obtain ⟨l, hbefore⟩ := exists_layOut_iff.2 hplaceable
    exact foldlM_eq_error_iff.2 ⟨before, item, after, l, hitems, hbefore,
      onLine_eq_error.2 ⟨cause, (layOut_agrees hbefore).place_eq_error_iff.2 hmisplaced, rfl⟩⟩

/-! ## Sources -/

/-- The mistake for which a source is refused. -/
inductive Diagnosis (source : String) : Error → Prop where
  /-- The first line that is no statement, whatever else is wrong. -/
  | line {before after : List (List Char)} {line : List Char} {cause : AssemblyError} :
      Text.lines source = before ++ line :: after → (∀ earlier ∈ before, IsStatement earlier) →
      parseLine (before.length + 1) line = .error cause →
      Diagnosis source (.assembly (before.length + 1) cause)
  /-- All lines are statements, but the last width that a page is given is no width of addresses. If
  both pages are given such ones, it is that of the code. -/
  | width {statements : List Statement} {page : Section} {cause : ConfigError} :
      parse source = .ok statements →
      (pageProperties page (sections statements)).MisnamesWidth →
      (page = .data → ¬ (pageProperties .code (sections statements)).MisnamesWidth) →
      (pageProperties page (sections statements)).width = .error (.config cause) →
      Diagnosis source (.config cause)
  /-- The widths are right too, and this is the first statement that is misplaced. -/
  | place {statements : List Statement} {w : Widths} {before after : List (Section × Statement)}
      {item : Section × Statement} {cause : AssemblyError} :
      parse source = .ok statements →
      (∀ page, (pageProperties page (sections statements)).width = .ok (w.of page)) →
      sections statements = before ++ item :: after → Placeable w before →
      Misplaced w before item cause → Diagnosis source (.assembly (before.length + 1) cause)
  /-- All statements have places, and this is the first that cannot be emitted. -/
  | emit (f : FirstPass source) {before after : List Placed} {p : Placed} {cause : AssemblyError} :
      f.layout.placed.reverse = before ++ p :: after →
      (∀ earlier ∈ before, ∃ e, emit f.scope earlier = .ok e) →
      emit f.scope p = .error cause → Diagnosis source (.assembly (before.length + 1) cause)

theorem FirstPass.line_of_placed {source : String} {f : FirstPass source}
    {before after : List Placed} {p : Placed} (h : f.layout.placed.reverse = before ++ p :: after) :
    p.statement.line = before.length + 1 ∧ before.length + 1 ≤ (Text.lines source).length := by
  have hline := line_of_sections f.parse_eq (placed_split h).1
  rwa [List.length_map] at hline

theorem exists_width_iff {t : Table} : (∃ width, t.width = .ok width) ↔ ¬ t.MisnamesWidth := by
  constructor
  · rintro ⟨width, h⟩ hmisnames
    obtain ⟨cause, herror⟩ := Table.width_of_misnamesWidth hmisnames
    rw [h] at herror
    cases herror
  · intro h
    cases hwidth : t.width with
    | error e => exact absurd (Table.misnamesWidth_of_width hwidth).2 h
    | ok width => exact ⟨width, rfl⟩

theorem diagnosis_of_assemble {source : String} {e : Error} (h : assemble source = .error e) :
    Diagnosis source e := by
  have hassemble := h
  rcases error_of_bind_iff.1 h with hparse | ⟨statements, hparse, h⟩
  · obtain ⟨before, line, after, cause, hlines, hbefore, hcause, rfl⟩ :=
      parseFrom_eq_error_iff.1 hparse
    rw [Nat.add_comm] at hcause ⊢
    exact .line hlines hbefore hcause
  rcases error_of_bind_iff.1 h with hcode | ⟨code, hcode, h⟩
  · obtain ⟨⟨cause, rfl⟩, hmisnames⟩ := Table.misnamesWidth_of_width hcode
    exact .width hparse hmisnames nofun hcode
  rcases error_of_bind_iff.1 h with hdata | ⟨data, hdata, h⟩
  · obtain ⟨⟨cause, rfl⟩, hmisnames⟩ := Table.misnamesWidth_of_width hdata
    exact .width hparse hmisnames (fun _ => exists_width_iff.1 ⟨code, hcode⟩) hdata
  have hwidths : ∀ page, (pageProperties page (sections statements)).width =
      .ok ((⟨code, data⟩ : Widths).of page) := by
    intro page
    cases page
    · exact hcode
    · exact hdata
  rcases error_of_bind_iff.1 h with hlayout | ⟨layout, hlayout, h⟩
  · obtain ⟨before, item, after, cause, hitems, hplaceable, hmisplaced, rfl⟩ :=
      layOut_eq_error_iff.1 hlayout
    rw [(line_of_sections hparse hitems).1]
    exact .place hparse hwidths hitems hplaceable hmisplaced
  let f : FirstPass source := ⟨statements, ⟨code, data⟩, layout, hparse, hwidths, hlayout⟩
  rcases error_of_bind_iff.1 h with hemit | ⟨emitted, hemitted, -⟩
  · obtain ⟨before, p, after, hplaced, hbefore, hp⟩ := mapM_eq_error_iff.1 hemit
    obtain ⟨cause, hcause, rfl⟩ := onLine_eq_error.1 hp
    rw [(f.line_of_placed hplaced).1]
    refine .emit f hplaced (fun earlier hearlier => ?_) hcause
    obtain ⟨e, he⟩ := hbefore earlier hearlier
    exact ⟨e, onLine_eq_ok.1 he⟩
  · obtain ⟨m, hm, -⟩ := f.assemble_of_emitAll hemitted
    rw [hassemble] at hm
    cases hm

theorem assemble_of_diagnosis {source : String} {e : Error} (h : Diagnosis source e) :
    assemble source = .error e := by
  cases h with
  | @line before after line cause hlines hbefore hcause =>
    rw [Nat.add_comm] at hcause ⊢
    have hparse := parseFrom_eq_error_iff.2
      ⟨before, line, after, cause, hlines, hbefore, hcause, rfl⟩
    exact error_of_bind_iff.2 (.inl hparse)
  | @width statements page cause hparse hmisnames hcode hwidth =>
    refine error_of_bind_iff.2 (.inr ⟨statements, hparse, ?_⟩)
    cases page with
    | code => exact error_of_bind_iff.2 (.inl hwidth)
    | data =>
      obtain ⟨width, hcode⟩ := exists_width_iff.2 (hcode rfl)
      exact error_of_bind_iff.2 (.inr ⟨width, hcode, error_of_bind_iff.2 (.inl hwidth)⟩)
  | @place statements w before after item cause hparse hwidths hitems hplaceable hmisplaced =>
    have hlayout := layOut_eq_error_iff.2
      ⟨before, item, after, cause, hitems, hplaceable, hmisplaced, rfl⟩
    rw [(line_of_sections hparse hitems).1] at hlayout
    exact error_of_bind_iff.2 (.inr ⟨statements, hparse, error_of_bind_iff.2
      (.inr ⟨w.code, hwidths .code, error_of_bind_iff.2
        (.inr ⟨w.data, hwidths .data, error_of_bind_iff.2 (.inl hlayout)⟩)⟩)⟩)
  | @emit f before after p cause hplaced hbefore hcause =>
    have hemit : emitAll f.scope f.layout.placed.reverse =
        .error (.assembly (before.length + 1) cause) := by
      refine mapM_eq_error_iff.2 ⟨before, p, after, hplaced, fun earlier hearlier => ?_, ?_⟩
      · obtain ⟨e, he⟩ := hbefore earlier hearlier
        exact ⟨e, onLine_eq_ok.2 he⟩
      · exact onLine_eq_error.2 ⟨cause, hcause, by rw [(f.line_of_placed hplaced).1]⟩
    rw [f.assemble_eq]
    exact error_of_bind_iff.2 (.inl hemit)

/-- What a width cannot encode is a mistake of the statement that asked for it. -/
theorem encode_eq_mapError {scope : Scope} {page : Option Section} {a : Argument} {n : Nat}
    (h : scope.value page a = .ok n) (width : Width) :
    scope.encode page width a = (width.encode n).mapError fun _ => .tooWide n width := by
  by_cases hle : n ≤ width.maxValue
  · simp only [Scope.encode, h, Width.encode, bind, Except.bind, if_pos hle]
    rfl
  · simp only [Scope.encode, h, Width.encode, bind, Except.bind, if_neg hle]
    rfl

/-- Errors of the assembler are classified and located. A source is refused exactly for the mistake
that comes first: its first line that is no statement, a wrong width of a page, its first statement
that is misplaced, or its first that cannot be emitted. So an error is about the width of a page or
about one of the lines of the source, and of no other kind; where a width cannot encode a number,
the error is that of the statement. -/
theorem assemble_diagnosis (source : String) :
    (∀ e, assemble source = .error e ↔ Diagnosis source e) ∧
    (∀ e, assemble source = .error e → (∃ cause, e = .config cause) ∨
      ∃ line cause, e = .assembly line cause ∧ 1 ≤ line ∧ line ≤ (Text.lines source).length) ∧
    ∀ (scope : Scope) page (width : Width) a n, scope.value page a = .ok n →
      scope.encode page width a = (width.encode n).mapError fun _ => .tooWide n width := by
  refine ⟨fun e => ⟨diagnosis_of_assemble, assemble_of_diagnosis⟩, fun e h => ?_,
    fun scope page width a n hn => encode_eq_mapError hn width⟩
  have hlocated {n : Nat} {cause : AssemblyError} (hn : n + 1 ≤ (Text.lines source).length) :
      ∃ line cause', Error.assembly (n + 1) cause = .assembly line cause' ∧ 1 ≤ line ∧
        line ≤ (Text.lines source).length := ⟨n + 1, cause, rfl, Nat.le_add_left 1 n, hn⟩
  cases diagnosis_of_assemble h with
  | width => exact .inl ⟨_, rfl⟩
  | line hlines => exact .inr (hlocated (by simp [hlines]))
  | place hparse _ hitems => exact .inr (hlocated (line_of_sections hparse hitems).2)
  | emit f hplaced => exact .inr (hlocated (f.line_of_placed hplaced).2)

/-- A source with a mistake of each kind, of which the last line has the one that counts. -/
def mistaken : String := "jmp nowhere\n.bogus 1\n.property address_width 3\nnope"

theorem assemble_diagnosis_mistaken :
    Diagnosis "jmp nowhere" (.assembly 1 (.undefinedLabel "nowhere")) ∧
    Diagnosis "jmp nowhere\n.bogus 1" (.assembly 2 (.unknownDirective "bogus")) ∧
    Diagnosis "jmp nowhere\n.bogus 1\n.property address_width 3" (.config (.widthNumber 3)) ∧
    Diagnosis mistaken (.assembly 4 (.notOperation "nope")) ∧
    4 ≤ (Text.lines mistaken).length := by
  have hmistaken : assemble mistaken = .error (.assembly 4 (.notOperation "nope")) := by
    decide +kernel
  refine ⟨((assemble_diagnosis _).1 _).1 (by decide +kernel),
    ((assemble_diagnosis _).1 _).1 (by decide +kernel),
    ((assemble_diagnosis _).1 _).1 (by decide +kernel),
    ((assemble_diagnosis _).1 _).1 hmistaken, ?_⟩
  obtain ⟨cause, ⟨⟩⟩ | ⟨_, _, ⟨⟩, -, hle⟩ := (assemble_diagnosis mistaken).2.1 _ hmistaken
  exact hle

end Assembly

end ByteMachine
