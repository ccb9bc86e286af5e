import ByteMachine.Proofs.Program
import ByteMachine.Proofs.Scopes

/-!
What a module owes to its source. The code and the data, each with its labels, the properties, and
the exported names may be mixed in any way: only the order within each of these sequences matters.
-/
namespace ByteMachine

namespace Assembly

/-! ## Sequences -/

def Body.emits : Body → Bool
  | .instruction _ _ | .directive .bytes _ | .directive .words _ | .directive .addresses _
  | .directive .texts _ => true
  | _ => false

inductive Part where
  | label (name : String)
  | body (prefixes : List UInt8) (body : Body)
  deriving DecidableEq, Repr

/-- A label comes just before the body of its statement. -/
def Statement.parts (s : Statement) : List Part :=
  s.label.toList.map .label ++ if s.body.emits then [.body s.prefixes s.body] else []

def partsOf (page : Section) (items : List (Section × Statement)) : List Part :=
  items.flatMap fun item => if item.1 = page then item.2.parts else []

def exportedBy (items : List (Section × Statement)) : List Argument :=
  items.flatMap fun item => item.2.body.exported

/-- The sequences of a source that make up its module. -/
structure Outline where
  code : List Part
  data : List Part
  codeProperties : Table
  dataProperties : Table
  programProperties : Table
  exported : List Argument
  deriving DecidableEq

def outline (items : List (Section × Statement)) : Outline where
  code := partsOf .code items
  data := partsOf .data items
  codeProperties := pageProperties .code items
  dataProperties := pageProperties .data items
  programProperties := programProperties items
  exported := exportedBy items

/-- Whether a body adds nothing to a source but what its outline has: a switch has no arguments, an
export has some, and every directive is known. -/
def Body.isPlain : Body → Bool
  | .directive .code arguments | .directive .data arguments => arguments.isEmpty
  | .directive .exports arguments => !arguments.isEmpty
  | .directive (.unknown _) _ => false
  | _ => true

theorem partsOf_outline {items items' : List (Section × Statement)}
    (h : outline items = outline items') (page : Section) :
    partsOf page items = partsOf page items' := by
  cases page with
  | code => exact congrArg Outline.code h
  | data => exact congrArg Outline.data h

theorem pageProperties_outline {items items' : List (Section × Statement)}
    (h : outline items = outline items') (page : Section) :
    pageProperties page items = pageProperties page items' := by
  cases page with
  | code => exact congrArg Outline.codeProperties h
  | data => exact congrArg Outline.dataProperties h

theorem partsOf_cons (page : Section) (item : Section × Statement)
    (items : List (Section × Statement)) :
    partsOf page (item :: items) =
      (if item.1 = page then item.2.parts else []) ++ partsOf page items :=
  List.flatMap_cons

theorem partsOf_append (page : Section) (a b : List (Section × Statement)) :
    partsOf page (a ++ b) = partsOf page a ++ partsOf page b :=
  List.flatMap_append

/-! ## Places -/

def Part.statement : Part → Statement
  | label name => ⟨0, some name, [], .blank⟩
  | body prefixes b => ⟨0, none, prefixes, b⟩

def Part.span (w : Widths) (page : Section) (part : Part) : Nat :=
  part.statement.span w page

def partsSpan (w : Widths) (page : Section) (parts : List Part) : Nat :=
  (parts.map (Part.span w page)).foldr (· + ·) 0

theorem partsSpan_append (w : Widths) (page : Section) (a b : List Part) :
    partsSpan w page (a ++ b) = partsSpan w page a + partsSpan w page b := by
  simp only [partsSpan, ← List.sum_eq_foldr, List.map_append, List.sum_append_nat]

theorem Statement.span_of_not_emits {s : Statement} (h : s.body.emits = false) (w : Widths)
    (page : Section) : s.span w page = 0 := by
  unfold span size
  cases hbody : s.body with
  | blank | property owner name value => rfl
  | instruction opcode arguments => simp [hbody, Body.emits] at h
  | directive d arguments =>
    rw [hbody] at h
    cases d with
    | code | data | exports | unknown name => rfl
    | bytes | words | addresses | texts => cases h

theorem partsSpan_parts (w : Widths) (page : Section) (s : Statement) :
    partsSpan w page s.parts = s.span w page := by
  have hlabel (name : String) : (Part.label name).span w page = 0 := rfl
  have hbody : (Part.body s.prefixes s.body).span w page = s.span w page := rfl
  have hlabels : partsSpan w page (s.label.toList.map .label) = 0 := by
    cases s.label <;> simp [partsSpan, hlabel]
  rw [Statement.parts, partsSpan_append, hlabels, Nat.zero_add]
  by_cases hemits : s.body.emits = true
  · simp [hemits, partsSpan, hbody]
  · simp [hemits, partsSpan, Statement.span_of_not_emits (Bool.eq_false_iff.2 hemits)]

/-- A page is as long as its parts. -/
theorem extent_eq_partsSpan (w : Widths) (page : Section) (items : List (Section × Statement)) :
    extent w page items = partsSpan w page (partsOf page items) := by
  induction items with
  | nil => rfl
  | cons item items ih =>
    obtain ⟨p, s⟩ := item
    rw [extent_cons, partsOf_cons, partsSpan_append, ih]
    by_cases hp : p = page
    · simp only [if_pos hp, partsSpan_parts]
    · simp only [if_neg hp]
      rfl

theorem Statement.parts_eq_append {s : Statement} {name : String} {before after : List Part}
    (h : s.parts = before ++ .label name :: after) : before = [] ∧ s.label = some name := by
  unfold parts at h
  generalize s.label = label, s.body.emits = emits at h ⊢
  cases label <;> cases emits <;> rcases before with _ | ⟨x, _ | ⟨y, ys⟩⟩ <;> simp_all

/-- A label among the parts of a page is that of a statement, and what is before the one is before
the other. -/
theorem exists_of_partsOf_eq {page : Section} {items : List (Section × Statement)} {name : String}
    {before after : List Part} (h : partsOf page items = before ++ .label name :: after) :
    ∃ a s b, items = a ++ (page, s) :: b ∧ s.label = some name ∧ partsOf page a = before := by
  induction items generalizing before with
  | nil => simp [partsOf] at h
  | cons item items ih =>
    obtain ⟨p, s⟩ := item
    have hrest {later : List Part} (hlater : partsOf page items = later ++ .label name :: after) :
        ∃ a t b, (p, s) :: items = a ++ (page, t) :: b ∧ t.label = some name ∧
          partsOf page a = (if p = page then s.parts else []) ++ later := by
      obtain ⟨a, t, b, rfl, hlabel, rfl⟩ := ih hlater
      exact ⟨(p, s) :: a, t, b, rfl, hlabel, partsOf_cons page (p, s) a⟩
    rw [partsOf_cons] at h
    rcases List.append_eq_append_iff.1 h with ⟨later, rfl, hlater⟩ | ⟨bs, hparts, hlater⟩
    · exact hrest hlater
    · cases bs with
      | nil =>
        rw [List.append_nil] at hparts
        rw [← hparts, ← List.append_nil (ite _ _ _)]
        exact hrest hlater.symm
      | cons part bs =>
        cases hlater
        split at hparts
        · next hp =>
          subst hp
          obtain ⟨rfl, hlabel⟩ := Statement.parts_eq_append hparts
          exact ⟨[], s, items, rfl, hlabel, rfl⟩
        · simp at hparts

def Part.name? : Part → Option String
  | label name => some name
  | body _ _ => none

theorem Statement.filterMap_parts (s : Statement) :
    s.parts.filterMap Part.name? = s.label.toList := by
  unfold parts
  cases s.label <;> split <;> simp [Part.name?]

/-- The labels of a source are those of its pages. -/
theorem labels_perm (items : List (Section × Statement)) :
    ((items.map Prod.snd).filterMap Statement.label).Perm
      ((partsOf .code items).filterMap Part.name? ++
        (partsOf .data items).filterMap Part.name?) := by
  induction items with
  | nil => exact .nil
  | cons item items ih =>
    obtain ⟨page, s⟩ := item
    have hcons : ((((page, s) :: items).map Prod.snd).filterMap Statement.label) =
        s.label.toList ++ (items.map Prod.snd).filterMap Statement.label := by
      cases hlabel : s.label <;> simp [hlabel]
    rw [hcons, partsOf_cons, partsOf_cons]
    cases page with
    | code =>
      simp only [if_pos, List.filterMap_append, Statement.filterMap_parts, List.append_assoc]
      exact ih.append_left _
    | data =>
      simp only [if_pos, List.filterMap_append, Statement.filterMap_parts]
      exact (ih.append_left _).trans (List.perm_append_comm_assoc _ _ _)

/-! ## Bytes -/

def Part.bytes (scope : Scope) (page : Section) (part : Part) :
    Except AssemblyError (List UInt8) :=
  (emit scope ⟨page, 0, part.statement⟩).map Emitted.bytes

def partsBytes (scope : Scope) (page : Section) (parts : List Part) :
    Except AssemblyError (List UInt8) := do
  return (← parts.mapM (Part.bytes scope page)).flatten

theorem partsBytes_append_iff {scope : Scope} {page : Section} {a b : List Part}
    {bytes : List UInt8} :
    partsBytes scope page (a ++ b) = .ok bytes ↔
      ∃ x y, partsBytes scope page a = .ok x ∧ partsBytes scope page b = .ok y ∧
        bytes = x ++ y := by
  unfold partsBytes
  rw [List.mapM_append]
  cases a.mapM (Part.bytes scope page) with
  | error e => exact ⟨nofun, nofun⟩
  | ok xs =>
    cases b.mapM (Part.bytes scope page) with
    | error e =>
      refine ⟨nofun, ?_⟩
      rintro ⟨x, y, -, hy, -⟩
      cases hy
    | ok ys =>
      constructor
      · intro h
        cases h
        exact ⟨_, _, rfl, rfl, List.flatten_append⟩
      · rintro ⟨x, y, hx, hy, rfl⟩
        cases hx
        cases hy
        exact congrArg Except.ok List.flatten_append

theorem partsBytes_parts (scope : Scope) (page : Section) (s : Statement) :
    partsBytes scope page s.parts =
      if s.body.emits then Part.bytes scope page (.body s.prefixes s.body) else .ok [] := by
  have hone : partsBytes scope page [.body s.prefixes s.body] =
      Part.bytes scope page (.body s.prefixes s.body) := by
    simp only [partsBytes, List.mapM_cons, List.mapM_nil]
    cases Part.bytes scope page (.body s.prefixes s.body) with
    | error e => rfl
    | ok bytes => exact congrArg Except.ok (List.append_nil bytes)
  have hlabel (name : String) (parts : List Part) :
      partsBytes scope page (.label name :: parts) = partsBytes scope page parts := by
    simp only [partsBytes, List.mapM_cons]
    cases parts.mapM (Part.bytes scope page) <;> rfl
  have hbody : partsBytes scope page (if s.body.emits then [.body s.prefixes s.body] else []) =
      if s.body.emits then Part.bytes scope page (.body s.prefixes s.body) else .ok [] := by
    split
    · exact hone
    · rfl
  unfold Statement.parts
  cases s.label with
  | none => exact hbody
  | some name => exact (hlabel name _).trans hbody

/-- What a statement emits is what its parts become. -/
theorem partsBytes_of_emit {scope : Scope} {p : Placed} {e : Emitted} (h : emit scope p = .ok e) :
    partsBytes scope p.page p.statement.parts = .ok e.bytes := by
  rw [partsBytes_parts]
  cases hemits : p.statement.body.emits with
  | true =>
    have hbytes : (emit scope p).map Emitted.bytes = .ok e.bytes := by rw [h]; rfl
    exact hbytes
  | false =>
    have hspan := Statement.span_of_not_emits hemits scope.widths p.page
    rw [Statement.span_of_size (emit_size h).2] at hspan
    rw [List.eq_nil_of_length_eq_zero hspan]
    rfl

/-- A plain statement is emitted if its parts and its exports are. -/
theorem exists_emit {scope : Scope} {p : Placed} (hplain : p.statement.body.isPlain = true)
    {bytes : List UInt8} (hbytes : partsBytes scope p.page p.statement.parts = .ok bytes)
    {records : Table} (hrecords : p.statement.body.exported.mapM scope.exportRecord = .ok records) :
    ∃ e, emit scope p = .ok e := by
  rw [partsBytes_parts] at hbytes
  cases hemits : p.statement.body.emits with
  | true =>
    rw [hemits] at hbytes
    have hmap : (emit scope p).map Emitted.bytes = .ok bytes := hbytes
    cases hemit : emit scope p with
    | error e =>
      rw [hemit] at hmap
      cases hmap
    | ok e => exact ⟨e, rfl⟩
  | false =>
    unfold emit
    cases hbody : p.statement.body with
    | blank | property owner name value => exact ⟨_, rfl⟩
    | instruction opcode arguments => simp [hbody, Body.emits] at hemits
    | directive d arguments =>
      rw [hbody] at hplain hemits hrecords
      cases d with
      | bytes | words | addresses | texts => cases hemits
      | unknown name => cases hplain
      | code | data =>
        have hnil : arguments = [] := List.isEmpty_iff.1 hplain
        subst hnil
        exact ⟨_, rfl⟩
      | exports =>
        cases arguments with
        | nil => cases hplain
        | cons a arguments =>
          have hrecords' : (a :: arguments).mapM scope.exportRecord = .ok records := hrecords
          simp only [emitDirective, checkArguments, hrecords']
          exact ⟨_, rfl⟩

theorem exportedBy_cons (item : Section × Statement) (items : List (Section × Statement)) :
    exportedBy (item :: items) = item.2.body.exported ++ exportedBy items :=
  List.flatMap_cons

/-- What statements emit is what their parts and exports become. -/
theorem parts_of_emitAll {scope : Scope} {placed : List Placed} {emitted : List Emitted}
    (h : emitAll scope placed = .ok emitted) :
    (∀ page, partsBytes scope page (partsOf page (placed.map Placed.item)) =
        .ok (pageContents page emitted)) ∧
      (exportedBy (placed.map Placed.item)).mapM scope.exportRecord =
        .ok (emitted.flatMap Emitted.exports) := by
  induction placed generalizing emitted with
  | nil =>
    cases h
    exact ⟨fun page => rfl, rfl⟩
  | cons p placed ih =>
    obtain ⟨e, es, he, hes, rfl⟩ := emitAll_cons h
    obtain ⟨hbytes, hrecords⟩ := ih hes
    refine ⟨fun page => ?_, ?_⟩
    · rw [List.map_cons, partsOf_cons, pageContents_cons, (emit_size he).1]
      refine partsBytes_append_iff.2 ⟨_, _, ?_, hbytes page, rfl⟩
      by_cases hpage : p.page = page
      · subst hpage
        simpa [Placed.item] using partsBytes_of_emit he
      · simp [Placed.item, hpage]
        rfl
    · rw [List.map_cons, exportedBy_cons, List.mapM_append, List.flatMap_cons]
      have hfirst : p.item.2.body.exported.mapM scope.exportRecord = .ok e.exports :=
        exported_of_emit he
      rw [hfirst, hrecords]
      rfl

/-- Plain statements are emitted if their parts and exports are. -/
theorem exists_emitAll_of_parts {scope : Scope} {placed : List Placed}
    (hplain : ∀ p ∈ placed, p.statement.body.isPlain = true)
    (hbytes : ∀ page, ∃ bytes,
      partsBytes scope page (partsOf page (placed.map Placed.item)) = .ok bytes)
    (hrecords : ∃ records,
      (exportedBy (placed.map Placed.item)).mapM scope.exportRecord = .ok records) :
    ∃ emitted, emitAll scope placed = .ok emitted := by
  induction placed with
  | nil => exact ⟨[], rfl⟩
  | cons p placed ih =>
    obtain ⟨hp, hrest⟩ := List.forall_mem_cons.1 hplain
    have hsplit (page : Section) : ∃ x y,
        partsBytes scope page (if p.page = page then p.statement.parts else []) = .ok x ∧
          partsBytes scope page (partsOf page (placed.map Placed.item)) = .ok y := by
      obtain ⟨bytes, hb⟩ := hbytes page
      rw [List.map_cons, partsOf_cons] at hb
      obtain ⟨x, y, hx, hy, -⟩ := partsBytes_append_iff.1 hb
      exact ⟨x, y, hx, hy⟩
    obtain ⟨records, hr⟩ := hrecords
    rw [List.map_cons, exportedBy_cons, List.mapM_append] at hr
    obtain ⟨first, hfirst, hr⟩ := exists_ok_of_bind hr
    obtain ⟨rest, hrecords, -⟩ := exists_ok_of_bind hr
    obtain ⟨x, -, hx, -⟩ := hsplit p.page
    rw [if_pos rfl] at hx
    obtain ⟨e, he⟩ := exists_emit hp hx hfirst
    obtain ⟨es, hes⟩ := ih hrest
      (fun page => let ⟨_, y, _, hy⟩ := hsplit page; ⟨y, hy⟩) ⟨rest, hrecords⟩
    refine ⟨e :: es, ?_⟩
    unfold emitAll at hes ⊢
    rw [List.mapM_cons, onLine_eq_ok.2 he, hes]
    rfl

/-! ## Sources with one outline -/

theorem Statement.exists_size {s : Statement} (h : s.body.isPlain = true) (w : Widths)
    (page : Section) : ∃ n, s.size w page = .ok n := by
  unfold size
  cases hbody : s.body with
  | blank | property owner name value | instruction opcode arguments => exact ⟨_, rfl⟩
  | directive d arguments =>
    rw [hbody] at h
    cases d with
    | unknown name => cases h
    | code | data | bytes | words | addresses | texts | exports => exact ⟨_, rfl⟩

namespace FirstPass

variable {a b : String} {m : Module}

/-- A plain source passes the first pass if another one with its outline does. -/
theorem exists_of_outline (f : FirstPass a) {statements : List Statement}
    (hparse : parse b = .ok statements) (hplain : ∀ s ∈ statements, s.body.isPlain = true)
    (houtline : outline (sections f.statements) = outline (sections statements)) :
    ∃ g : FirstPass b, g.statements = statements ∧ g.widths = f.widths := by
  have hsizes : ∀ item ∈ sections statements, ∃ n, item.2.size f.widths item.1 = .ok n := by
    intro item hitem
    have hmem := List.mem_map_of_mem (f := Prod.snd) hitem
    rw [sections_snd] at hmem
    exact Statement.exists_size (hplain item.2 hmem) f.widths item.1
  have hlabels : (((sections statements).map Prod.snd).filterMap Statement.label).Nodup := by
    have hnodup := f.agrees.nodup
    rw [f.agrees.keys, (List.reverse_perm _).nodup_iff, (labels_perm _).nodup_iff,
      partsOf_outline houtline, partsOf_outline houtline, ← (labels_perm _).nodup_iff] at hnodup
    exact hnodup
  have hfit : ∀ page, extent f.widths page (sections statements) ≤ (f.widths.of page).maxValue := by
    intro page
    rw [extent_eq_partsSpan, ← partsOf_outline houtline, ← extent_eq_partsSpan,
      ← f.agrees.size_eq]
    exact f.agrees.size_le page
  obtain ⟨layout, hlayout⟩ := exists_layOut hsizes hlabels hfit
  have hwidth : ∀ page,
      (pageProperties page (sections statements)).width = .ok (f.widths.of page) := by
    intro page
    rw [← pageProperties_outline houtline]
    exact f.width_eq page
  exact ⟨⟨statements, f.widths, layout, hparse, hwidth, hlayout⟩, rfl, rfl⟩

/-- Labels have the same places in all sources with one outline. -/
theorem lookup_of_outline (f : FirstPass a) (g : FirstPass b) (hwidths : g.widths = f.widths)
    (houtline : outline (sections f.statements) = outline (sections g.statements)) {name : String}
    {symbol : Symbol} (h : f.layout.symbols.lookup name = some symbol) :
    ∃ line, g.layout.symbols.lookup name = some { symbol with line } := by
  obtain ⟨before, page, s, after, hitems, hlabel, rfl⟩ := f.split_of_lookup h
  have hparts : partsOf page (sections f.statements) = partsOf page before ++ .label name ::
      ((if s.body.emits then [.body s.prefixes s.body] else []) ++ partsOf page after) := by
    simp [hitems, partsOf_append, partsOf_cons, Statement.parts, hlabel]
  rw [partsOf_outline houtline] at hparts
  obtain ⟨before', s', after', hitems', hlabel', hbefore⟩ := exists_of_partsOf_eq hparts
  have hagrees := g.agrees
  rw [hitems'] at hagrees
  refine ⟨s'.line, ?_⟩
  rw [hagrees.lookup hlabel', hwidths, extent_eq_partsSpan, hbefore, ← extent_eq_partsSpan]

theorem serves_of_outline (f : FirstPass a) (g : FirstPass b) (hwidths : g.widths = f.widths)
    (houtline : outline (sections f.statements) = outline (sections g.statements))
    (page : Section) (body : Body) : f.scope.Serves g.scope page body := by
  have hscope : g.scope.widths = f.scope.widths := hwidths
  refine ⟨fun a _ n hn => ?_, fun _ _ _ => by rw [hscope], fun _ _ => by rw [hscope]⟩
  exact Scope.value_of_lookup
    (fun name symbol _ hsymbol => lookup_of_outline f g hwidths houtline hsymbol) hn

/-- The parts of a page become the same bytes in all sources with one outline. -/
theorem partsBytes_of_outline (f : FirstPass a) (g : FirstPass b) (hwidths : g.widths = f.widths)
    (houtline : outline (sections f.statements) = outline (sections g.statements))
    {page : Section} {parts : List Part} {bytes : List UInt8}
    (h : partsBytes f.scope page parts = .ok bytes) :
    partsBytes g.scope page parts = .ok bytes := by
  obtain ⟨pieces, hpieces, h⟩ := exists_ok_of_bind h
  have hpart : ∀ part ∈ parts, ∀ bytes, Part.bytes f.scope page part = .ok bytes →
      Part.bytes g.scope page part = .ok bytes := by
    intro part _ bytes hbytes
    unfold Part.bytes at hbytes ⊢
    cases hemit : emit f.scope ⟨page, 0, part.statement⟩ with
    | error e =>
      rw [hemit] at hbytes
      cases hbytes
    | ok e =>
      have hserves := serves_of_outline f g hwidths houtline page part.statement.body
      rw [hemit] at hbytes
      rw [Scope.emit_of_serves rfl rfl rfl hserves hemit]
      exact hbytes
  rw [partsBytes, mapM_of_forall hpart hpieces]
  exact h

theorem exportRecords_of_outline (f : FirstPass a) (g : FirstPass b) (hwidths : g.widths = f.widths)
    (houtline : outline (sections f.statements) = outline (sections g.statements))
    {arguments : List Argument} {records : Table}
    (h : arguments.mapM f.scope.exportRecord = .ok records) :
    arguments.mapM g.scope.exportRecord = .ok records := by
  refine mapM_of_forall (fun a _ r hr => Scope.exportRecord_of_value (fun n hn => ?_) hr) h
  exact Scope.value_of_lookup
    (fun name symbol _ hsymbol => lookup_of_outline f g hwidths houtline hsymbol) hn

/-- Plain sources with one outline emit the same pages and exports. -/
theorem emitAll_of_outline (f : FirstPass a) (g : FirstPass b) (hwidths : g.widths = f.widths)
    (houtline : outline (sections f.statements) = outline (sections g.statements))
    (hplain : ∀ s ∈ g.statements, s.body.isPlain = true) {emitted : List Emitted}
    (h : emitAll f.scope f.layout.placed.reverse = .ok emitted) :
    ∃ emitted', emitAll g.scope g.layout.placed.reverse = .ok emitted' ∧
      (∀ page, pageContents page emitted' = pageContents page emitted) ∧
      emitted'.flatMap Emitted.exports = emitted.flatMap Emitted.exports := by
  have hitems : g.layout.placed.reverse.map Placed.item = sections g.statements := by
    rw [g.agrees.placed_eq, placements_item]
  have hexported : exportedBy (sections f.statements) = exportedBy (sections g.statements) :=
    congrArg Outline.exported houtline
  obtain ⟨hbytes, hrecords⟩ := parts_of_emitAll h
  simp only [f.agrees.placed_eq, placements_item, partsOf_outline houtline, hexported]
    at hbytes hrecords
  have hbytes' (page : Section) := partsBytes_of_outline f g hwidths houtline (hbytes page)
  have hrecords' := exportRecords_of_outline f g hwidths houtline hrecords
  rw [← hitems] at hbytes' hrecords'
  obtain ⟨emitted', hemitted'⟩ := exists_emitAll_of_parts
    (fun p hp => hplain p.statement (g.statement_mem (List.mem_reverse.1 hp)))
    (fun page => ⟨_, hbytes' page⟩) ⟨_, hrecords'⟩
  obtain ⟨hbytes'', hrecords''⟩ := parts_of_emitAll hemitted'
  refine ⟨emitted', hemitted', fun page => ?_, ?_⟩
  · exact Except.ok.inj ((hbytes'' page).symm.trans (hbytes' page))
  · exact Except.ok.inj (hrecords''.symm.trans hrecords')

theorem assemble_of_outline (f : FirstPass a) (hm : assemble a = .ok m)
    {statements : List Statement} (hparse : parse b = .ok statements)
    (hplain : ∀ s ∈ statements, s.body.isPlain = true)
    (houtline : outline (sections f.statements) = outline (sections statements)) :
    assemble b = .ok m := by
  obtain ⟨g, rfl, hwidths⟩ := f.exists_of_outline hparse hplain houtline
  rw [f.assemble_eq] at hm
  obtain ⟨emitted, hemitted, hm⟩ := exists_ok_of_bind hm
  obtain ⟨emitted', hemitted', hcontents, hexports⟩ :=
    emitAll_of_outline f g hwidths houtline hplain hemitted
  have hprogram : programProperties (sections f.statements) =
      programProperties (sections g.statements) := congrArg Outline.programProperties houtline
  rw [g.assemble_eq, hemitted']
  simp only [bind, Except.bind, hcontents, hexports, ← pageProperties_outline houtline, ← hprogram]
  exact hm

/-- The module that a source is assembled to depends only on the outline of the source: the
sequences of the labels and bodies of the code and of the data, of the properties of the code, of
the data and of the program, and of the exported names. Every other source with these sequences
that has nothing besides them is assembled to the same module, however it interleaves them. -/
theorem outline_determines_module {statements statements' : List Statement}
    (hm : assemble a = .ok m) (hparse : parse a = .ok statements)
    (hparse' : parse b = .ok statements')
    (hplain : ∀ s ∈ statements', s.body.isPlain = true)
    (houtline : outline (sections statements) = outline (sections statements')) :
    assemble b = .ok m := by
  obtain ⟨f⟩ := exists_of_assemble hm
  obtain rfl : f.statements = statements := Except.ok.inj (f.parse_eq.symm.trans hparse)
  exact f.assemble_of_outline hm hparse' hplain houtline

/-- A source in which everything stands in its place. -/
def tidy : String :=
  ".module n 1\n.property address_width 2\na: pushs.d t\njmp a\n.data\nt: .byte 7\n.code\n.export a"

def tidyStatements : List Statement :=
  [⟨1, none, [], .property .program "n" (.number 1)⟩,
   ⟨2, none, [], .property .page "address_width" (.number 2)⟩,
   ⟨3, some "a", [], .instruction .pushString [.label "t"]⟩,
   ⟨4, none, [], .instruction .jump [.label "a"]⟩, ⟨5, none, [], .directive .data []⟩,
   ⟨6, some "t", [], .directive .bytes [.number 7]⟩, ⟨7, none, [], .directive .code []⟩,
   ⟨8, none, [], .directive .exports [.label "a"]⟩]

/-- The same source with its blocks mixed up. -/
def mixed : String :=
  ".export a\na:\n.data\nt:\n.code\npushs.d t\n.data\n.byte 7\n.module n 1\n.code\njmp a\n" ++
    ".property address_width 2"

def mixedStatements : List Statement :=
  [⟨1, none, [], .directive .exports [.label "a"]⟩, ⟨2, some "a", [], .blank⟩,
   ⟨3, none, [], .directive .data []⟩, ⟨4, some "t", [], .blank⟩,
   ⟨5, none, [], .directive .code []⟩, ⟨6, none, [], .instruction .pushString [.label "t"]⟩,
   ⟨7, none, [], .directive .data []⟩, ⟨8, none, [], .directive .bytes [.number 7]⟩,
   ⟨9, none, [], .property .program "n" (.number 1)⟩, ⟨10, none, [], .directive .code []⟩,
   ⟨11, none, [], .instruction .jump [.label "a"]⟩,
   ⟨12, none, [], .property .page "address_width" (.number 2)⟩]

theorem outline_determines_module_mixed :
    parse tidy = .ok tidyStatements ∧ parse mixed = .ok mixedStatements ∧
      ∃ m, assemble tidy = .ok m ∧ assemble mixed = .ok m := by
  have htidy : parse tidy = .ok tidyStatements := by decide +kernel
  have hmixed : parse mixed = .ok mixedStatements := by decide +kernel
  have hplain : ∀ s ∈ mixedStatements, s.body.isPlain = true := by decide
  have houtline : outline (sections tidyStatements) = outline (sections mixedStatements) := by
    decide +kernel
  have hok : (assemble tidy).isOk = true := by
    rw [assemble, htidy]
    decide +kernel
  cases hm : assemble tidy with
  | error e =>
    rw [hm] at hok
    cases hok
  | ok m =>
    exact ⟨htidy, hmixed, m, rfl, outline_determines_module hm htidy hmixed hplain houtline⟩

end FirstPass

end Assembly

end ByteMachine
