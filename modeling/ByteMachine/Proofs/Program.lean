import ByteMachine.Proofs.FlatMachine
import ByteMachine.Proofs.Parsing
import ByteMachine.Proofs.Passes

/-!
The program that a source describes, as a list of instructions, and where they stand in the code.
A label leads to the first instruction at or after it.
-/
namespace ByteMachine

/-! ## Prefixes -/

namespace Assembly

theorem parseStatement_isConditional {line : Nat} {tokens : List Token} {s : Statement}
    (h : parseStatement line tokens = .ok s) : ∀ b ∈ s.prefixes, isConditional b = true := by
  obtain ⟨-, -, -, rest, hprefixes, -⟩ := parseStatement_eq_ok_iff.1 h
  exact (parsePrefixes_eq_ok_iff.1 hprefixes).2.1

theorem parseLine_isConditional {line : Nat} {chars : List Char} {s : Statement}
    (h : parseLine line chars = .ok s) : ∀ b ∈ s.prefixes, isConditional b = true := by
  obtain ⟨tokens, -, hparse⟩ := parseLine_eq_ok_iff.1 h
  exact parseStatement_isConditional hparse

theorem exists_of_mem_mapM {ε α β : Type} {f : α → Except ε β} :
    ∀ {l : List α} {r : List β}, l.mapM f = .ok r → ∀ b ∈ r, ∃ a ∈ l, f a = .ok b := by
  intro l
  induction l with
  | nil =>
    intro r h b hb
    cases h
    cases hb
  | cons a l ih =>
    intro r h b hb
    rw [List.mapM_cons] at h
    obtain ⟨c, hc, h⟩ := exists_ok_of_bind h
    obtain ⟨cs, hcs, h⟩ := exists_ok_of_bind h
    cases h
    rcases List.mem_cons.1 hb with rfl | hb
    · exact ⟨a, List.mem_cons_self, hc⟩
    · obtain ⟨d, hd, hfd⟩ := ih hcs b hb
      exact ⟨d, List.mem_cons_of_mem a hd, hfd⟩

theorem parse_isConditional {source : String} {statements : List Statement}
    (h : parse source = .ok statements) :
    ∀ s ∈ statements, ∀ b ∈ s.prefixes, isConditional b = true := by
  intro s hs
  obtain ⟨⟨line, number⟩, -, hl⟩ := exists_of_mem_mapM h s hs
  exact parseLine_isConditional (onLine_eq_ok.1 hl)

end Assembly

/-! ## The program as statements -/

namespace Assembly

def Placed.inProgram (p : Placed) : Bool :=
  p.page = .code && p.statement.body.isInstruction

def Argument.isLabel : Argument → Bool
  | label _ => true
  | _ => false

def Body.jumpsToLabel : Body → Bool
  | instruction .jump arguments => arguments.all Argument.isLabel
  | _ => true

namespace FirstPass

variable {source : String} (f : FirstPass source)

def program : List Placed := f.layout.placed.reverse.filter Placed.inProgram

/-- Where the instruction of an index is placed, and for any further index the end of the code. -/
def position (index : Nat) : Nat :=
  match f.program[index]? with
  | some p => p.offset
  | none => f.layout.size .code

/-- The index of the first instruction at or after a label. -/
def target (name : String) : Nat :=
  ((f.layout.placed.reverse.takeWhile fun p => p.statement.label ≠ some name).filter
    Placed.inProgram).length

/-- The index of the instruction that is executed after the one of an index. -/
def next (index : Nat) : Nat :=
  match f.program[index]? with
  | none => index
  | some p =>
    match p.statement.body with
    | .instruction .jump [.label name] => f.target name
    | _ => index + 1

/-- The index after a number of instructions have been executed. -/
def indexAfter : Nat → Nat → Nat
  | 0, index => index
  | steps + 1, index => f.next (indexAfter steps index)

/-- In the code only instructions become bytes, and jumps are to labels. -/
structure Structured : Prop where
  isInstruction : ∀ p ∈ f.layout.placed, p.page = .code →
    p.statement.size f.widths .code ≠ .ok 0 → p.statement.body.isInstruction = true
  jumpsToLabel : ∀ p ∈ f.layout.placed, p.page = .code → p.statement.body.jumpsToLabel = true

variable {f}

theorem placed_split {a b : List Placed} {p : Placed}
    (h : f.layout.placed.reverse = a ++ p :: b) :
    sections f.statements = a.map Placed.item ++ (p.page, p.statement) :: b.map Placed.item ∧
      p.offset = extent f.widths p.page (a.map Placed.item) := by
  have hitems := placements_item f.widths (sections f.statements)
  rw [← f.agrees.placed_eq, h, List.map_append, List.map_cons] at hitems
  have hplaced := f.placed_append_cons hitems.symm
  rw [h] at hplaced
  obtain ⟨-, hcons⟩ := List.append_inj hplaced (by simp [length_placements])
  obtain ⟨hp, -⟩ := List.cons.inj hcons
  exact ⟨hitems.symm, congrArg Placed.offset hp⟩

theorem exists_instruction {p : Placed} (hp : p.inProgram = true) :
    p.page = .code ∧ ∃ opcode arguments, p.statement.body = .instruction opcode arguments := by
  simp only [Placed.inProgram, Bool.and_eq_true, decide_eq_true_eq] at hp
  refine ⟨hp.1, ?_⟩
  cases hb : p.statement.body with
  | instruction opcode arguments => exact ⟨opcode, arguments, rfl⟩
  | blank | directive | property => simp [hb, Body.isInstruction] at hp

theorem mem_placed_of_program {index : Nat} {p : Placed} (h : f.program[index]? = some p) :
    p ∈ f.layout.placed ∧ p.inProgram = true := by
  have hmem := List.mem_of_getElem? h
  rw [program, List.mem_filter, List.mem_reverse] at hmem
  exact hmem

/-- A statement that is no instruction of the code takes no room there. -/
theorem Structured.span_eq_zero (hs : f.Structured) {p : Placed} (hp : p ∈ f.layout.placed)
    (hno : p.inProgram = false) :
    (if p.page = .code then p.statement.span f.widths .code else 0) = 0 := by
  by_cases hpage : p.page = .code
  · have hsize : p.statement.size f.widths .code = .ok 0 := by
      by_cases hz : p.statement.size f.widths .code = .ok 0
      · exact hz
      · have hi := hs.isInstruction p hp hpage hz
        simp [Placed.inProgram, hpage, hi] at hno
    rw [if_pos hpage, Statement.span_of_size hsize]
  · rw [if_neg hpage]

/-- Where the statement of an index among those that pass a test is placed, and for any further
index the end of the page. -/
def placeAmong (f : FirstPass source) (test : Placed → Bool) (page : Section) (index : Nat) : Nat :=
  match (f.layout.placed.reverse.filter test)[index]? with
  | some p => p.offset
  | none => f.layout.size page

section

variable {test : Placed → Bool} {page : Section} (hpage : ∀ p, test p = true → p.page = page)
  (hzero : ∀ p ∈ f.layout.placed, test p = false →
    (if p.page = page then p.statement.span f.widths page else 0) = 0)
include hpage hzero

/-- Wherever the source is cut, the first statement behind the cut that passes is placed where the
page before the cut ends, if all that takes room on the page passes. -/
theorem placeAmong_of_append {b : List Placed} :
    ∀ {a : List Placed}, f.layout.placed.reverse = a ++ b →
      f.placeAmong test page (a.filter test).length = extent f.widths page (a.map Placed.item) := by
  -- The cut moves on over statements without bytes until one that passes, or the end, is behind it.
  induction b with
  | nil =>
    intro a h
    rw [List.append_nil] at h
    have hitems := placements_item f.widths (sections f.statements)
    rw [← f.agrees.placed_eq, h] at hitems
    rw [placeAmong, h, List.getElem?_eq_none (Nat.le_refl _)]
    simp only [f.agrees.size_eq, hitems]
  | cons p b ih =>
    intro a h
    cases hp : test p with
    | true =>
      have hget : (f.layout.placed.reverse.filter test)[(a.filter test).length]? = some p := by
        rw [h, List.filter_append, List.filter_cons_of_pos hp]
        simp
      have hoffset := (placed_split h).2
      rw [hpage p hp] at hoffset
      simp only [placeAmong, hget, hoffset]
    | false =>
      have hmem : p ∈ f.layout.placed := by
        rw [← List.mem_reverse, h]
        simp
      have hcut := ih (show f.layout.placed.reverse = (a ++ [p]) ++ b by simp [h])
      have hspan := hzero p hmem hp
      simp only [List.filter_append, List.filter_cons_of_neg (by simp [hp] : ¬ test p = true),
        List.filter_nil, List.append_nil, List.map_append, List.map_cons, List.map_nil,
        extent_append, extent_cons, extent_nil, Placed.item, hspan, Nat.add_zero] at hcut
      exact hcut

/-- The next statement that passes is placed right behind one that does. -/
theorem placeAmong_succ {a b : List Placed} {p : Placed}
    (h : f.layout.placed.reverse = a ++ p :: b) (hp : test p = true) :
    f.placeAmong test page ((a.filter test).length + 1) =
      p.offset + p.statement.span f.widths page := by
  have hafter := placeAmong_of_append hpage hzero
    (show f.layout.placed.reverse = (a ++ [p]) ++ b by simp [h])
  have hoffset := (placed_split h).2
  rw [List.filter_append, List.filter_cons_of_pos hp, List.filter_nil, List.length_append,
    List.map_append, extent_append] at hafter
  rw [hpage p hp] at hoffset
  rw [hoffset]
  simpa [extent_cons, Placed.item, hpage p hp] using hafter

end

/-- Wherever the source is cut, the first instruction behind the cut is placed where the code
before the cut ends. -/
theorem Structured.position_of_append (hs : f.Structured) {a b : List Placed}
    (h : f.layout.placed.reverse = a ++ b) :
    f.position (a.filter Placed.inProgram).length = extent f.widths .code (a.map Placed.item) :=
  placeAmong_of_append (fun _ hp => (exists_instruction hp).1) (fun _ => hs.span_eq_zero) h

theorem exists_split_of_filter {α : Type} {test : α → Bool} {x : α} :
    ∀ {l : List α} {i : Nat}, (l.filter test)[i]? = some x →
      ∃ a b, l = a ++ x :: b ∧ (a.filter test).length = i ∧ test x = true := by
  intro l
  induction l with
  | nil =>
    intro i h
    cases h
  | cons y l ih =>
    intro i h
    by_cases hy : test y = true
    · rw [List.filter_cons_of_pos hy] at h
      cases i with
      | zero =>
        cases h
        exact ⟨[], l, rfl, rfl, hy⟩
      | succ i =>
        obtain ⟨a, b, rfl, hi, hx⟩ := ih (i := i) h
        exact ⟨y :: a, b, rfl, by simp [hy, hi], hx⟩
    · rw [List.filter_cons_of_neg hy] at h
      obtain ⟨a, b, rfl, hi, hx⟩ := ih h
      exact ⟨y :: a, b, rfl, by simp [hy, hi], hx⟩

theorem item_mem (f : FirstPass source) {p : Placed} (hp : p ∈ f.layout.placed) :
    p.item ∈ sections f.statements := by
  rw [← placements_item f.widths (sections f.statements), ← f.agrees.placed_eq]
  exact List.mem_map_of_mem (List.mem_reverse.2 hp)

theorem exists_placed_of_mem (f : FirstPass source) {item : Section × Statement}
    (h : item ∈ sections f.statements) : ∃ p ∈ f.layout.placed, p.item = item := by
  rw [← placements_item f.widths (sections f.statements), ← f.agrees.placed_eq] at h
  obtain ⟨p, hp, hitem⟩ := List.mem_map.1 h
  exact ⟨p, List.mem_reverse.1 hp, hitem⟩

theorem statement_mem (f : FirstPass source) {p : Placed} (hp : p ∈ f.layout.placed) :
    p.statement ∈ f.statements := by
  rw [← sections_snd f.statements]
  exact List.mem_map_of_mem (f.item_mem hp)

theorem isConditional_of_mem (f : FirstPass source) {p : Placed}
    (hp : p ∈ f.layout.placed) : ∀ b ∈ p.statement.prefixes, isConditional b = true :=
  parse_isConditional f.parse_eq p.statement (f.statement_mem hp)

/-- In an assembled module an instruction of the code stands where it was placed, with the operand
that its arguments stand for, and the flat machine fetches it from there. -/
theorem fetch_placed (f : FirstPass source) {m : Module} (hm : assemble source = .ok m) {p : Placed}
    (hp : p ∈ f.layout.placed) (hpage : p.page = .code) {opcode : Opcode}
    {arguments : List Argument} (hbody : p.statement.body = .instruction opcode arguments) :
    ∃ operand, f.scope.operand opcode arguments = .ok operand ∧
      Flat.fetch (.of m) p.offset = .ok (⟨p.statement.prefixes, opcode, operand⟩,
        p.offset + p.statement.span f.widths .code) := by
  obtain ⟨a, b, hsplit⟩ := List.append_of_mem (List.mem_reverse.2 hp)
  obtain ⟨hitems, hoffset⟩ := placed_split hsplit
  rw [hpage] at hitems hoffset
  obtain ⟨e, pre, post, hemit, hcontents, hpre⟩ := f.contents_append hm hitems
  have hspan := Statement.span_of_size (emit_size hemit).2
  obtain ⟨-, -, hwidths, -⟩ := f.exists_emitted hm
  simp only [emit, hbody] at hemit
  obtain ⟨operand, hoperand, hemit⟩ := exists_ok_of_bind hemit
  cases hemit
  have hlength := length_operand hoperand
  rw [show f.scope.widths = m.widths from hwidths.symm] at hlength
  refine ⟨operand, hoperand, ?_⟩
  rw [hoffset, ← hpre, show p.statement.span f.widths .code = _ from hspan]
  exact Flat.fetch_of_append hcontents (f.isConditional_of_mem hp) hlength

/-- At the place of an instruction of the program the flat machine fetches that instruction, with
the operand that its arguments stand for, and finds the next one behind it. -/
theorem Structured.fetch_program (hs : f.Structured) {m : Module} (hm : assemble source = .ok m)
    {index : Nat} {p : Placed} (h : f.program[index]? = some p) :
    ∃ opcode arguments operand, p.statement.body = .instruction opcode arguments ∧
      f.scope.operand opcode arguments = .ok operand ∧
      Flat.fetch (.of m) (f.position index) =
        .ok (⟨p.statement.prefixes, opcode, operand⟩, f.position (index + 1)) := by
  have hposition : f.position index = p.offset := by simp only [position, h]
  obtain ⟨a, b, hsplit, rfl, hp⟩ := exists_split_of_filter h
  obtain ⟨hpage, opcode, arguments, hbody⟩ := exists_instruction hp
  obtain ⟨operand, hoperand, hfetch⟩ :=
    f.fetch_placed hm (mem_placed_of_program h).1 hpage hbody
  have hnext : f.position ((a.filter Placed.inProgram).length + 1) =
      p.offset + p.statement.span f.widths .code :=
    placeAmong_succ (fun _ hp => (exists_instruction hp).1) (fun _ => hs.span_eq_zero) hsplit hp
  refine ⟨opcode, arguments, operand, hbody, hoperand, ?_⟩
  rw [hposition, hnext]
  exact hfetch

theorem exists_of_lookup (f : FirstPass source) {name : String} {symbol : Symbol}
    (h : f.layout.symbols.lookup name = some symbol) :
    ∃ p ∈ f.layout.placed, p.statement.label = some name := by
  obtain ⟨p, hp, hsymbol⟩ := f.agrees.exists_placed h
  obtain ⟨label, hlabel, heq⟩ := Option.map_eq_some_iff.1 hsymbol
  cases heq
  exact ⟨p, hp, hlabel⟩

/-- A symbol is the place of the statement that has its label. -/
theorem split_of_lookup (f : FirstPass source) {name : String} {symbol : Symbol}
    (h : f.layout.symbols.lookup name = some symbol) :
    ∃ before page s after, sections f.statements = before ++ (page, s) :: after ∧
      s.label = some name ∧ symbol = ⟨page, extent f.widths page before, s.line⟩ := by
  obtain ⟨p, hp, hlabel⟩ := f.exists_of_lookup h
  obtain ⟨a, b, hsplit⟩ := List.append_of_mem (List.mem_reverse.2 hp)
  obtain ⟨hitems, -⟩ := placed_split hsplit
  have hagrees := f.agrees
  rw [hitems] at hagrees
  have hlookup := hagrees.lookup hlabel
  rw [h] at hlookup
  exact ⟨_, _, _, _, hitems, hlabel, Option.some.inj hlookup⟩

/-- A label of the code stands for the place of the first instruction at or after it. -/
theorem Structured.position_target (hs : f.Structured) {name : String} {symbol : Symbol}
    (h : f.layout.symbols.lookup name = some symbol) (hpage : symbol.page = .code) :
    f.position (f.target name) = symbol.offset := by
  have hsplit := (List.takeWhile_append_dropWhile (p := fun p : Placed =>
    decide (p.statement.label ≠ some name)) (l := f.layout.placed.reverse)).symm
  rw [target, hs.position_of_append hsplit]
  cases hrest : f.layout.placed.reverse.dropWhile fun p => p.statement.label ≠ some name with
  | nil =>
    obtain ⟨p, hp, hlabel⟩ := f.exists_of_lookup h
    rw [hrest, List.append_nil] at hsplit
    have hmem := List.mem_reverse.2 hp
    rw [hsplit] at hmem
    have hno := List.all_eq_true.1 List.all_takeWhile p hmem
    simp [hlabel] at hno
  | cons p rest =>
    rw [hrest] at hsplit
    have hlabel : p.statement.label = some name := by
      have hhead := List.head?_dropWhile_not
        (fun p : Placed => decide (p.statement.label ≠ some name)) f.layout.placed.reverse
      rw [hrest] at hhead
      simpa using hhead
    have hagrees := f.agrees
    rw [(placed_split hsplit).1] at hagrees
    have hlookup := hagrees.lookup hlabel
    rw [h] at hlookup
    cases hlookup
    simp only at hpage
    rw [hpage]

/-- The operand of a jump is the place of the instruction that it goes to. -/
theorem Structured.jump_operand (hs : f.Structured) {p : Placed} (hp : p ∈ f.layout.placed)
    (hpage : p.page = .code) {arguments : List Argument} {operand : List UInt8}
    (hbody : p.statement.body = .instruction .jump arguments)
    (h : f.scope.operand .jump arguments = .ok operand) :
    ∃ name, arguments = [.label name] ∧
      LittleEndian.decode operand = f.position (f.target name) := by
  rcases operand_cases h with ⟨hform, -, -⟩ | ⟨page, width, a, hform, rfl, henc⟩
  · cases hform
  · cases hform
    have hlabel := hs.jumpsToLabel p hp hpage
    rw [hbody] at hlabel
    obtain ⟨n, hvalue, hle, rfl⟩ := encode_cases henc
    cases a with
    | number n => cases hlabel
    | text t => cases hlabel
    | label name =>
      refine ⟨name, rfl, ?_⟩
      rw [LittleEndian.decode_encode _ _ ((Width.lt_iff_le_maxValue _ _).2 hle)]
      simp only [Scope.value, Scope.offset] at hvalue
      cases hlookup : f.scope.symbols.lookup name with
      | none => simp [hlookup] at hvalue
      | some symbol =>
        simp only [hlookup] at hvalue
        split at hvalue
        · next hcode =>
          cases hvalue
          exact (hs.position_target hlookup hcode).symm
        · cases hvalue

end FirstPass

end Assembly

end ByteMachine
