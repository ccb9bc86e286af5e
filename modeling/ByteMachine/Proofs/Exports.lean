import ByteMachine.Machine.Host
import ByteMachine.Proofs.ControlFlow
import ByteMachine.Proofs.NumeralGrammar
import ByteMachine.Proofs.Readers
import ByteMachine.Proofs.Scopes

/-!
The exports of assembled modules. Each of them names a label of the code and gives the place of the
label, so a processor can be started at every symbol that a module exports.
-/
namespace ByteMachine

namespace Assembly.FirstPass

variable {source : String} {f : FirstPass source} {m : Module}

/-- A label is never behind the end of its page. -/
theorem offset_le_size (f : FirstPass source) {name : String} {symbol : Symbol}
    (h : f.layout.symbols.lookup name = some symbol) :
    symbol.offset ≤ f.layout.size symbol.page := by
  obtain ⟨before, page, s, after, hitems, -, rfl⟩ := f.split_of_lookup h
  rw [f.agrees.size_eq, hitems, extent_append]
  exact Nat.le_add_right _ _

theorem offset_cases {scope : Scope} {page : Section} {name : String} {n : Nat}
    (h : scope.offset (some page) name = .ok n) :
    ∃ symbol, scope.symbols.lookup name = some symbol ∧ symbol.page = page ∧ symbol.offset = n := by
  unfold Scope.offset at h
  split at h
  · cases h
  · next symbol hlookup =>
    dsimp only at h
    split at h
    · next hpage =>
      cases h
      exact ⟨symbol, hlookup, hpage, rfl⟩
    · cases h

/-- An exported name stands for the place of its label in the code. -/
theorem exportRecord_cases {scope : Scope} {a : Argument} {r : Record}
    (h : scope.exportRecord a = .ok r) :
    ∃ symbol, a = .label r.name ∧ scope.symbols.lookup r.name = some symbol ∧
      symbol.page = .code ∧ r.value = Numeral.decimal symbol.offset := by
  cases a with
  | number n => cases h
  | text t => cases h
  | label name =>
    obtain ⟨n, hn, h⟩ := exists_ok_of_bind h
    cases h
    obtain ⟨symbol, hlookup, hpage, rfl⟩ := offset_cases hn
    exact ⟨symbol, rfl, hlookup, hpage, rfl⟩

theorem exports_eq (f : FirstPass source) (hm : assemble source = .ok m) {emitted : List Emitted}
    (h : emitAll f.scope f.layout.placed.reverse = .ok emitted) :
    m.exports = emitted.flatMap Emitted.exports := by
  obtain ⟨m', hm', -, -, hexports⟩ := f.assemble_of_emitAll h
  rw [hm] at hm'
  cases hm'
  exact hexports

/-- Every export of an assembled module is a label of the code with its place. -/
theorem symbol_of_mem_exports (f : FirstPass source) (hm : assemble source = .ok m) {r : Record}
    (hr : r ∈ m.exports) :
    ∃ symbol, f.layout.symbols.lookup r.name = some symbol ∧ symbol.page = .code ∧
      r.value = Numeral.decimal symbol.offset := by
  obtain ⟨emitted, hemitted, -⟩ := f.exists_emitted hm
  rw [f.exports_eq hm hemitted] at hr
  obtain ⟨e, he, hre⟩ := List.mem_flatMap.1 hr
  obtain ⟨p, -, hp⟩ := exists_of_mem_mapM hemitted e he
  obtain ⟨a, -, ha⟩ := exists_of_mem_mapM (exported_of_emit (onLine_eq_ok.1 hp)) r hre
  obtain ⟨symbol, -, hsymbol⟩ := exportRecord_cases ha
  exact ⟨symbol, hsymbol⟩

/-- The code of an assembled module reaches at least as far as each of its labels. -/
theorem offset_le_length (f : FirstPass source) (hm : assemble source = .ok m) {name : String}
    {symbol : Symbol} (h : f.layout.symbols.lookup name = some symbol)
    (hpage : symbol.page = .code) : symbol.offset ≤ m.code.length := by
  have hle := f.offset_le_size h
  rw [hpage, ← f.length_contents hm .code] at hle
  rwa [← m.code.length_contents]

/-- A symbol that an assembled module exports leads to the label of its name. -/
theorem resolve_of_mem (f : FirstPass source) (hm : assemble source = .ok m) {name : String}
    (h : name ∈ m.exports.map Record.name) :
    ∃ symbol, f.layout.symbols.lookup name = some symbol ∧ symbol.page = .code ∧
      m.resolve name = .ok (some symbol.offset) := by
  have hne : m.exports.filter (fun r => r.name = name) ≠ [] := by
    obtain ⟨r, hr, rfl⟩ := List.mem_map.1 h
    exact List.ne_nil_of_mem (List.mem_filter.2 ⟨hr, by simp⟩)
  have hlast := List.getLast_mem hne
  obtain ⟨hr, hname⟩ := List.mem_filter.1 hlast
  obtain ⟨symbol, hlookup, hpage, hvalue⟩ := f.symbol_of_mem_exports hm hr
  rw [of_decide_eq_true hname] at hlookup
  refine ⟨symbol, hlookup, hpage, ?_⟩
  have hget : m.exports.get? name = some (Numeral.decimal symbol.offset) := by
    rw [Table.get?, List.getLast?_eq_some_getLast hne, Option.map_some, hvalue]
  have hsmall : symbol.offset < Numeral.wordLimit := by
    have hle := f.offset_le_length hm hlookup hpage
    have hlength := m.code.length_le
    have hmax : m.code.width.maxValue < Numeral.wordLimit := by cases m.code.width <;> decide
    omega
  simp only [Module.resolve, hget, Numeral.readWord_decimal hsmall]

end Assembly.FirstPass

theorem Module.resolve_of_not_mem {m : Module} {name : String}
    (h : name ∉ m.exports.map Record.name) : m.resolve name = .ok none := by
  have hnil : m.exports.filter (fun r => r.name = name) = [] := by
    rw [List.filter_eq_nil_iff]
    intro r hr hname
    exact h (List.mem_map.2 ⟨r, hr, of_decide_eq_true hname⟩)
  simp [resolve, Table.get?, hnil]

namespace Host

variable {m : Module}

/-- A processor starts at every position up to the end of the code. -/
theorem start_of_entry {symbol : Option String} {position : Nat} (h : Host)
    (hentry : entry m symbol = .ok position) (hle : position ≤ m.code.length) :
    ∃ p, start m symbol h = .ok p { h with stack := h.stack.clear } ∧ m.code.Holds p.pc ∧
      p.pc.value = position ∧ p.state = .running ∧ p.steps = 0 := by
  obtain ⟨pc, hpc, hholds, hvalue⟩ := m.code.exists_programCounter hle
  refine ⟨⟨pc, .running, 0, none⟩, ?_, hholds, hvalue, rfl, rfl⟩
  have hstart : Processor.start m position = .ok ⟨pc, .running, 0, none⟩ := by
    simp only [Processor.start, hpc]
    rfl
  refine Action.bind_eq_ok_iff.2 ⟨position, h, by rw [hentry, Action.ofExcept_ok], ?_⟩
  exact Action.bind_eq_ok_iff.2 ⟨⟨⟩, _, rfl, by rw [hstart, Action.ofExcept_ok]⟩

theorem start_of_entry_error {symbol : Option String} {e : Error} (h : Host)
    (hentry : entry m symbol = .error e) : start m symbol h = .error e h := by
  refine Action.bind_eq_error_iff.2 (.inl ?_)
  rw [hentry, Action.ofExcept_error]

theorem entry_of_resolve {name : String} {position : Nat}
    (h : m.resolve name = .ok (some position)) : entry m (some name) = .ok position := by
  simp only [entry, h]
  rfl

theorem entry_of_resolve_none {name : String} (h : m.resolve name = .ok none) :
    entry m (some name) = .error (.missingStart name) := by
  simp only [entry, h]
  rfl

/-- A program can be entered at its beginning and at every label that it exports, and nowhere
else. -/
theorem entry_cases {source : String} (hm : assemble source = .ok m) (symbol : Option String) :
    (∃ position ≤ m.code.length, entry m symbol = .ok position) ∨
      ∃ name, symbol = some name ∧ name ∉ m.exports.map Record.name ∧
        entry m symbol = .error (.missingStart name) := by
  cases symbol with
  | none => exact .inl ⟨0, Nat.zero_le _, rfl⟩
  | some name =>
    by_cases h : name ∈ m.exports.map Record.name
    · obtain ⟨f⟩ := Assembly.FirstPass.exists_of_assemble hm
      obtain ⟨symbol, hlookup, hpage, hresolve⟩ := f.resolve_of_mem hm h
      exact .inl ⟨symbol.offset, f.offset_le_length hm hlookup hpage, entry_of_resolve hresolve⟩
    · exact .inr ⟨name, rfl, h, entry_of_resolve_none (Module.resolve_of_not_mem h)⟩

end Host

end ByteMachine
