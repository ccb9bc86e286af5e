import ByteMachine.Proofs.Exports
import ByteMachine.Proofs.Outline
import ByteMachine.Proofs.Reencoding

/-!
Where an assembled program can be started. The export directives of its source say at which symbols,
the layout says at which positions, and going through a file changes neither.
-/
namespace ByteMachine

/-! ## Modules that go through a file -/

namespace Module

/-- The module itself, or what is read back from all the bytes that were written of it. -/
inductive Stored (m : Module) : Module → Prop where
  | same : Stored m m
  | reread {m' : Module} {room : Option Nat} {bytes : List UInt8} {rest : Source} :
      Sink.fill m.write room = (.ok (), bytes) → read (Source.ofBytes bytes) = .ok m' rest →
      Stored m m'

variable {m m' : Module}

theorem Stored.eq (h : m.Stored m') : m' = m := by
  cases h with
  | same => rfl
  | reread hwrite hread =>
    rw [read_of_fill hwrite] at hread
    cases hread
    rfl

end Module

/-! ## Exported names -/

theorem eq_map_of_mapM {ε α β : Type} {f : α → Except ε β} {g : β → α}
    (h : ∀ a b, f a = .ok b → a = g b) {l : List α} {r : List β} (hl : l.mapM f = .ok r) :
    l = r.map g := by
  induction l generalizing r with
  | nil =>
    cases hl
    rfl
  | cons a l ih =>
    rw [List.mapM_cons] at hl
    obtain ⟨b, hb, hl⟩ := exists_ok_of_bind hl
    obtain ⟨bs, hbs, hl⟩ := exists_ok_of_bind hl
    cases hl
    rw [List.map_cons, ← h a b hb, ← ih hbs]

namespace Assembly.FirstPass

variable {source : String} {m : Module}

def Exports (f : FirstPass source) (name : String) : Prop :=
  ∃ s ∈ f.statements, ∃ arguments,
    s.body = .directive .exports arguments ∧ .label name ∈ arguments

theorem mem_exportedBy_iff (f : FirstPass source) {name : String} :
    .label name ∈ exportedBy (sections f.statements) ↔ f.Exports name := by
  have hsections : exportedBy (sections f.statements) =
      f.statements.flatMap fun s => s.body.exported := by
    have h := congrArg (List.flatMap fun s => s.body.exported) (sections_snd f.statements)
    rwa [List.flatMap_map] at h
  rw [hsections, List.mem_flatMap, Exports]
  constructor
  · rintro ⟨s, hs, hname⟩
    refine ⟨s, hs, ?_⟩
    unfold Body.exported at hname
    split at hname
    · next arguments hbody => exact ⟨arguments, hbody, hname⟩
    · cases hname
  · rintro ⟨s, hs, arguments, hbody, hname⟩
    refine ⟨s, hs, ?_⟩
    rw [hbody]
    exact hname

/-- The exports of an assembled module have the names that its source exports, in order. -/
theorem exportedBy_eq (f : FirstPass source) (hm : assemble source = .ok m) :
    exportedBy (sections f.statements) = m.exports.map fun r => .label r.name := by
  obtain ⟨emitted, hemitted, -⟩ := f.exists_emitted hm
  have hrecords := (parts_of_emitAll hemitted).2
  rw [f.agrees.placed_eq, placements_item, ← f.exports_eq hm hemitted] at hrecords
  apply eq_map_of_mapM _ hrecords
  intro a r hr
  obtain ⟨-, ha, -⟩ := exportRecord_cases hr
  exact ha

theorem mem_exports_iff (f : FirstPass source) (hm : assemble source = .ok m) {name : String} :
    name ∈ m.exports.map Record.name ↔ f.Exports name := by
  rw [← f.mem_exportedBy_iff, f.exportedBy_eq hm]
  simp

end Assembly.FirstPass

/-! ## Starting -/

namespace Host

/-- A start succeeds: it gives a processor that has done nothing yet at a position of the code, and
empties the value stack. -/
def StartsAt (m : Module) (symbol : Option String) (h : Host) (position : Nat) : Prop :=
  ∃ p, start m symbol h = .ok p { h with stack := h.stack.clear } ∧ p.pc.value = position ∧
    m.code.programCounter p.pc.value = .ok p.pc ∧ p.state = .running ∧ p.steps = 0

theorem startsAt_of_entry {m : Module} {symbol : Option String} {position : Nat} (h : Host)
    (hentry : entry m symbol = .ok position) (hle : position ≤ m.code.length) :
    StartsAt m symbol h position := by
  obtain ⟨p, hp, hholds, hvalue, hrun, hsteps⟩ := start_of_entry h hentry hle
  exact ⟨p, hp, hvalue, hholds.programCounter_eq, hrun, hsteps⟩

end Host

namespace Assembly.FirstPass

variable {source : String} {m : Module} {name : String}

/-- A label that the source exports can be started at, even one at the end of the code. -/
theorem startsAt_of_exports (f : FirstPass source) (hm : assemble source = .ok m) (h : Host)
    (hname : f.Exports name) :
    ∃ symbol, f.layout.symbols.lookup name = some symbol ∧ symbol.page = .code ∧
      m.resolve name = .ok (some symbol.offset) ∧
      Host.StartsAt m (some name) h symbol.offset := by
  obtain ⟨symbol, hlookup, hpage, hresolve⟩ :=
    f.resolve_of_mem hm ((f.mem_exports_iff hm).2 hname)
  refine ⟨symbol, hlookup, hpage, hresolve, ?_⟩
  apply Host.startsAt_of_entry h (Host.entry_of_resolve hresolve)
  exact f.offset_le_length hm hlookup hpage

theorem start_of_not_exports (f : FirstPass source) (hm : assemble source = .ok m) (h : Host)
    (hname : ¬ f.Exports name) :
    m.resolve name = .ok none ∧ Host.start m (some name) h = .error (.missingStart name) h := by
  have hresolve := Module.resolve_of_not_mem (mt (f.mem_exports_iff hm).1 hname)
  exact ⟨hresolve, Host.start_of_entry_error h (Host.entry_of_resolve_none hresolve)⟩

/-- An assembled module, also when it has gone through a file, starts at every label that its source
exports, and without a symbol at the beginning. No other symbol is known, and that is the only way
in which a start can fail. -/
theorem exports_start (f : FirstPass source) (hm : assemble source = .ok m) {m' : Module}
    (hstored : m.Stored m') (h : Host) :
    (∀ name, f.Exports name →
      ∃ symbol, f.layout.symbols.lookup name = some symbol ∧ symbol.page = .code ∧
        m'.resolve name = .ok (some symbol.offset) ∧
        Host.StartsAt m' (some name) h symbol.offset) ∧
    (∀ name, ¬ f.Exports name →
      m'.resolve name = .ok none ∧
        Host.start m' (some name) h = .error (.missingStart name) h) ∧
    Host.StartsAt m' none h 0 ∧
    ∀ symbol e h', Host.start m' symbol h = .error e h' →
      ∃ name, symbol = some name ∧ ¬ f.Exports name ∧ e = .missingStart name := by
  obtain rfl := hstored.eq
  have hbeginning : Host.StartsAt m' none h 0 := Host.startsAt_of_entry h rfl (Nat.zero_le _)
  refine ⟨fun name => f.startsAt_of_exports hm h, fun name => f.start_of_not_exports hm h,
    hbeginning, ?_⟩
  intro symbol e h' hstart
  cases symbol with
  | none =>
    obtain ⟨p, hp, -⟩ := hbeginning
    rw [hp] at hstart
    cases hstart
  | some name =>
    by_cases hname : f.Exports name
    · obtain ⟨-, -, -, -, p, hp, -⟩ := f.startsAt_of_exports hm h hname
      rw [hp] at hstart
      cases hstart
    · rw [(f.start_of_not_exports hm h hname).2] at hstart
      cases hstart
      exact ⟨name, rfl, hname, rfl⟩

/-- A program that exports its end twice, once under another name. -/
def signpost : String :=
  "go: push.b 7\nend:\nfin: .export end, fin, end"

def signpostStatements : List Statement :=
  [⟨1, some "go", [], .instruction .pushByte [.number 7]⟩,
   ⟨2, some "end", [], .blank⟩,
   ⟨3, some "fin", [], .directive .exports [.label "end", .label "fin", .label "end"]⟩]

set_option maxRecDepth 4000 in
def signpostPass : FirstPass signpost where
  statements := signpostStatements
  widths := ⟨.one, .one⟩
  layout :=
    { codeSize := 2
      symbols := [("fin", ⟨.code, 2, 3⟩), ("end", ⟨.code, 2, 2⟩), ("go", ⟨.code, 0, 1⟩)]
      placed := (placements ⟨.one, .one⟩ (sections signpostStatements)).reverse }
  parse_eq := rfl
  width_eq := by intro page; cases page <;> rfl
  layOut_eq := rfl

def signpostModule : Module :=
  { properties := []
    exports := [⟨"end", "2"⟩, ⟨"fin", "2"⟩, ⟨"end", "2"⟩]
    code := ⟨[], #[0x40, 0x07], .one, Table.width_nil, by decide⟩
    data := ⟨[], #[], .one, Table.width_nil, Page.size_empty_le .one⟩ }

theorem assemble_signpost : assemble signpost = .ok signpostModule := by
  rw [signpostPass.assemble_eq]
  rfl

/-- Read back from its file, the program starts at its end, and not at a label it does not
export. -/
theorem exports_start_signpost :
    ∃ bytes rest, Sink.fill signpostModule.write none = (.ok (), bytes) ∧
      Module.read (Source.ofBytes bytes) = .ok signpostModule rest ∧
      Host.StartsAt signpostModule (some "end") (.create 4 none {}) 2 ∧
      Host.start signpostModule (some "go") (.create 4 none {}) =
        .error (.missingStart "go") (.create 4 none {}) := by
  have hclean : ¬ signpostModule.HoldsFramingByte := by
    unfold Module.HoldsFramingByte
    decide
  have hfill := Module.fill_write_of_not_holds hclean
  have hread := Module.read_of_fill hfill
  obtain ⟨hexported, hunknown, -⟩ := signpostPass.exports_start assemble_signpost
    (.reread hfill hread) (.create 4 none {})
  refine ⟨_, _, hfill, hread, ?_, ?_⟩
  · obtain ⟨symbol, hlookup, -, -, hstart⟩ :=
      hexported "end" ⟨signpostStatements[2], by decide, _, rfl, by decide⟩
    cases hlookup
    exact hstart
  · refine (hunknown "go" ?_).2
    rintro ⟨s, hs, arguments, hbody, hgo⟩
    have hnone : ∀ s ∈ signpostStatements, .label "go" ∉ s.body.exported := by decide
    apply hnone s hs
    rw [hbody]
    exact hgo

end Assembly.FirstPass

end ByteMachine
