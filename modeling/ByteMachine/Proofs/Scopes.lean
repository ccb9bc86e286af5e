import ByteMachine.Proofs.Passes

/-!
What a statement takes from its scope: the numbers that its arguments stand for, and the widths of
addresses. Where another scope gives it the same, it emits the same.
-/
namespace ByteMachine

/-- Where two functions give what looks the same, so do all results of the one and the other. -/
theorem exists_mapM {ε α β γ : Type} {f g : α → Except ε β} {as : List α} {bs : List β}
    (look : β → γ) (h : ∀ a ∈ as, ∀ b, f a = .ok b → ∃ b', g a = .ok b' ∧ look b' = look b)
    (hf : as.mapM f = .ok bs) : ∃ bs', as.mapM g = .ok bs' ∧ bs'.map look = bs.map look := by
  induction as generalizing bs with
  | nil => exact ⟨bs, hf, rfl⟩
  | cons a as ih =>
    obtain ⟨ha, has⟩ := List.forall_mem_cons.1 h
    rw [List.mapM_cons] at hf
    obtain ⟨b, hb, hf⟩ := exists_ok_of_bind hf
    obtain ⟨rest, hrest, hf⟩ := exists_ok_of_bind hf
    cases hf
    obtain ⟨b', hb', hlook⟩ := ha b hb
    obtain ⟨rest', hrest', hlooks⟩ := ih has hrest
    refine ⟨b' :: rest', ?_, by rw [List.map_cons, List.map_cons, hlook, hlooks]⟩
    rw [List.mapM_cons, hb', hrest']
    rfl

theorem mapM_of_forall {ε α β : Type} {f g : α → Except ε β} {as : List α} {bs : List β}
    (h : ∀ a ∈ as, ∀ b, f a = .ok b → g a = .ok b) (hf : as.mapM f = .ok bs) :
    as.mapM g = .ok bs := by
  obtain ⟨bs', hg, hmap⟩ := exists_mapM id (fun a ha b hb => ⟨b, h a ha b hb, rfl⟩) hf
  rw [List.map_id, List.map_id] at hmap
  rw [hg, hmap]

def Operand.page : Operand → Option Section
  | .codeAddress => some .code
  | .dataAddress => some .data
  | .none | .immediateByte | .immediateWord => Option.none

namespace Assembly

def Body.numbers : Body → List Argument
  | .instruction opcode arguments => if opcode.operand = .none then [] else arguments
  | .directive .bytes arguments | .directive .words arguments | .directive .addresses arguments
  | .directive .exports arguments => arguments
  | _ => []

/-- The page on which labels among these arguments have to be, if it is one page only. -/
def Body.page : Body → Option Section
  | .instruction opcode _ => opcode.operand.page
  | .directive .exports _ => some .code
  | _ => none

/-- A statement of a page finds in another scope what it finds in this one. -/
structure Scope.Serves (scope scope' : Scope) (page : Section) (b : Body) : Prop where
  value_eq : ∀ a ∈ b.numbers, ∀ n,
    scope.value b.page a = .ok n → scope'.value b.page a = .ok n
  operandForm_eq : ∀ opcode arguments, b = .instruction opcode arguments →
    operandForm scope'.widths opcode.operand = operandForm scope.widths opcode.operand
  width_eq : ∀ arguments, b = .directive .addresses arguments →
    scope'.widths.of page = scope.widths.of page

namespace Scope

variable {scope scope' : Scope}

theorem encode_of_value {page : Option Section} {width : Width} {a : Argument}
    {bytes : List UInt8} (hvalue : ∀ n, scope.value page a = .ok n → scope'.value page a = .ok n)
    (h : scope.encode page width a = .ok bytes) : scope'.encode page width a = .ok bytes := by
  obtain ⟨n, hn, hle, rfl⟩ := encode_cases h
  simp only [encode, hvalue n hn, bind, Except.bind, if_pos hle]
  rfl

theorem encodeAll_of_value {width : Width} (arguments : List Argument) {bytes : List UInt8}
    (hvalue : ∀ a ∈ arguments, ∀ n, scope.value none a = .ok n → scope'.value none a = .ok n)
    (h : scope.encodeAll width arguments = .ok bytes) :
    scope'.encodeAll width arguments = .ok bytes := by
  obtain ⟨pieces, hpieces, h⟩ := exists_ok_of_bind h
  have hpieces' := mapM_of_forall
    (fun a ha _ hb => encode_of_value (hvalue a ha) hb) hpieces
  rw [encodeAll, hpieces']
  exact h

theorem page_of_operandForm {w : Widths} {o : Operand} {page : Option Section} {width : Width}
    (h : operandForm w o = some (page, width)) : o.page = page := by
  cases o <;> cases h <;> rfl

theorem operand_of_value {opcode : Opcode} {arguments : List Argument} {bytes : List UInt8}
    (hform : operandForm scope'.widths opcode.operand = operandForm scope.widths opcode.operand)
    (hvalue : ∀ a ∈ (Body.instruction opcode arguments).numbers, ∀ n,
      scope.value opcode.operand.page a = .ok n → scope'.value opcode.operand.page a = .ok n)
    (h : scope.operand opcode arguments = .ok bytes) :
    scope'.operand opcode arguments = .ok bytes := by
  rcases operand_cases h with ⟨hnone, rfl, rfl⟩ | ⟨page, width, a, hsome, rfl, hencode⟩
  · simp only [operand, hform, hnone]
  · have hoperand : opcode.operand ≠ .none := by
      intro hnone
      rw [hnone] at hsome
      cases hsome
    rw [page_of_operandForm hsome, Body.numbers, if_neg hoperand] at hvalue
    simp only [operand, hform, hsome]
    exact encode_of_value (hvalue a List.mem_cons_self) hencode

theorem exportRecord_of_value {a : Argument} {r : Record}
    (hvalue : ∀ n, scope.value (some .code) a = .ok n → scope'.value (some .code) a = .ok n)
    (h : scope.exportRecord a = .ok r) : scope'.exportRecord a = .ok r := by
  cases a with
  | number n => cases h
  | text t => cases h
  | label name =>
    obtain ⟨n, hn, h⟩ := exists_ok_of_bind h
    have hn' : scope'.offset (some .code) name = .ok n := hvalue n hn
    rw [exportRecord, hn']
    exact h

theorem emitDirective_of_serves {page : Section} {d : Directive} {arguments : List Argument}
    {e : Emitted} (hserves : scope.Serves scope' page (.directive d arguments))
    (h : emitDirective scope page d arguments = .ok e) :
    emitDirective scope' page d arguments = .ok e := by
  obtain ⟨⟨⟩, hcheck, h⟩ := exists_ok_of_bind h
  have hvalue := hserves.value_eq
  simp only [emitDirective, hcheck, bind, Except.bind]
  cases d with
  | bytes | words =>
    obtain ⟨bytes, hbytes, h⟩ := exists_ok_of_bind h
    dsimp only
    rw [encodeAll_of_value arguments hvalue hbytes]
    exact h
  | addresses =>
    obtain ⟨bytes, hbytes, h⟩ := exists_ok_of_bind h
    dsimp only
    rw [hserves.width_eq arguments rfl, encodeAll_of_value arguments hvalue hbytes]
    exact h
  | exports =>
    obtain ⟨records, hrecords, h⟩ := exists_ok_of_bind h
    have hrecord : ∀ a ∈ arguments, ∀ r, scope.exportRecord a = .ok r →
        scope'.exportRecord a = .ok r := fun a ha _ hr => exportRecord_of_value (hvalue a ha) hr
    rw [mapM_of_forall hrecord hrecords]
    exact h
  | texts | code | data | unknown name => exact h

/-- A statement emits in another scope that serves it what it emits in this one, wherever it is
placed on its page. -/
theorem emit_of_serves {p p' : Placed} {e : Emitted} (hpage : p'.page = p.page)
    (hprefixes : p'.statement.prefixes = p.statement.prefixes)
    (hbody : p'.statement.body = p.statement.body)
    (hserves : scope.Serves scope' p.page p.statement.body) (h : emit scope p = .ok e) :
    emit scope' p' = .ok e := by
  unfold emit at h ⊢
  rw [hpage, hprefixes, hbody]
  split at h
  · exact h
  · exact h
  · next opcode arguments hinstruction =>
    rw [hinstruction] at hserves
    obtain ⟨bytes, hbytes, h⟩ := exists_ok_of_bind h
    have hbytes' : scope'.operand opcode arguments = .ok bytes :=
      operand_of_value (hserves.operandForm_eq opcode arguments rfl) hserves.value_eq hbytes
    rw [hbytes']
    exact h
  · next d arguments hdirective =>
    rw [hdirective] at hserves
    exact emitDirective_of_serves hserves h

end Scope

/-- Where a statement is placed on its page makes no difference to what it emits. -/
theorem emitAll_eq_items (scope : Scope) (placed : List Placed) :
    emitAll scope placed = (placed.map Placed.item).mapM fun item =>
      onLine item.2.line (emit scope ⟨item.1, 0, item.2⟩) := by
  unfold emitAll
  induction placed with
  | nil => rfl
  | cons p placed ih => rw [List.mapM_cons, List.map_cons, List.mapM_cons, ih]; rfl

/-- A label that is found at the same place stands for the same number. -/
theorem Scope.value_of_lookup {scope scope' : Scope} {page : Option Section} {a : Argument}
    {n : Nat}
    (hlookup : ∀ name symbol, a = .label name → scope.symbols.lookup name = some symbol →
      ∃ line, scope'.symbols.lookup name = some { symbol with line })
    (h : scope.value page a = .ok n) : scope'.value page a = .ok n := by
  cases a with
  | number n => exact h
  | text t => cases h
  | label name =>
    simp only [value, offset] at h ⊢
    cases hsymbol : scope.symbols.lookup name with
    | none =>
      rw [hsymbol] at h
      cases h
    | some symbol =>
      obtain ⟨line, hline⟩ := hlookup name symbol rfl hsymbol
      rw [hsymbol] at h
      rw [hline]
      exact h

/-! ## Exports -/

def Body.exported : Body → List Argument
  | .directive .exports arguments => arguments
  | _ => []

/-- The records that a statement makes are those of the names that it exports. -/
theorem exported_of_emit {scope : Scope} {p : Placed} {e : Emitted} (h : emit scope p = .ok e) :
    p.statement.body.exported.mapM scope.exportRecord = .ok e.exports := by
  unfold emit at h
  split at h
  · next hbody =>
    cases h
    rw [hbody]
    rfl
  · next hbody =>
    cases h
    rw [hbody]
    rfl
  · next hbody =>
    obtain ⟨operand, -, h⟩ := exists_ok_of_bind h
    cases h
    rw [hbody]
    rfl
  · next d arguments hbody =>
    obtain ⟨-, -, h⟩ := exists_ok_of_bind h
    rw [hbody]
    cases d with
    | exports =>
      obtain ⟨records, hrecords, h⟩ := exists_ok_of_bind h
      cases h
      exact hrecords
    | bytes | words | addresses | texts =>
      obtain ⟨bytes, -, h⟩ := exists_ok_of_bind h
      cases h
      rfl
    | code | data | unknown name =>
      cases h
      rfl

end Assembly

end ByteMachine
