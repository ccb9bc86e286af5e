import ByteMachine.Assembly.Statement
import ByteMachine.Module.Table

/-!
Where statements go. Each belongs to the page that the last switch before it, or the statement
itself, chose, and begins where the bytes of the statements before it on that page end. A label
stands for the place of its statement.
-/
namespace ByteMachine.Assembly

/-- The page in force after a statement. -/
def Body.switch (current : Section) : Body → Section
  | directive .code _ => .code
  | directive .data _ => .data
  | _ => current

/-- Pairs each statement with its page. The arguments are the page in force and the pairs made so
far, last first. -/
def sectionsOnto (current : Section) (done : List (Section × Statement)) :
    List Statement → List (Section × Statement)
  | [] => done.reverse
  | s :: rest =>
    let page := s.body.switch current
    sectionsOnto page ((page, s) :: done) rest

/-- The statements with their pages; a program begins with its code. -/
def sections (statements : List Statement) : List (Section × Statement) :=
  sectionsOnto .code [] statements

def pageProperty? (page : Section) : Section × Statement → Option Record
  | (s, statement) =>
    match statement.body with
    | .property .page name value => if s = page then some ⟨name, value.value⟩ else none
    | _ => none

def programProperty? : Section × Statement → Option Record
  | (_, statement) =>
    match statement.body with
    | .property .program name value => some ⟨name, value.value⟩
    | _ => none

def pageProperties (page : Section) (items : List (Section × Statement)) : Table :=
  items.filterMap (pageProperty? page)

def programProperties (items : List (Section × Statement)) : Table :=
  items.filterMap programProperty?

/-- What a label stands for. -/
structure Symbol where
  page : Section
  offset : Nat
  /-- The line on which it is defined. -/
  line : Nat
  deriving DecidableEq, Repr

/-- A statement with its place. -/
structure Placed where
  page : Section
  offset : Nat
  statement : Statement
  deriving DecidableEq, Repr

structure Layout where
  codeSize : Nat := 0
  dataSize : Nat := 0
  /-- The labels, last defined first. -/
  symbols : List (String × Symbol) := []
  /-- The statements, last placed first. -/
  placed : List Placed := []
  deriving DecidableEq, Repr

namespace Layout

def size (l : Layout) : Section → Nat
  | .code => l.codeSize
  | .data => l.dataSize

def setSize (l : Layout) (size : Nat) : Section → Layout
  | .code => { l with codeSize := size }
  | .data => { l with dataSize := size }

end Layout

/-- The number of bytes of an argument of `.string`. -/
def Argument.textSize : Argument → Nat
  | text t => (Utf8.encode t).length + 1
  | _ => 0

/-- The number of bytes that a statement of a page emits. -/
def Statement.size (w : Widths) (page : Section) (s : Statement) : Except AssemblyError Nat :=
  match s.body with
  | .blank | .property _ _ _ => .ok 0
  | .instruction opcode _ => .ok (s.prefixes.length + opcode.size w)
  | .directive d arguments =>
    match d with
    | .code | .data | .exports => .ok 0
    | .bytes => .ok arguments.length
    | .words => .ok (2 * arguments.length)
    | .addresses => .ok ((w.of page).bytes * arguments.length)
    | .texts => .ok ((arguments.map Argument.textSize).foldr (· + ·) 0)
    | .unknown name => .error (.unknownDirective name)

/-- Defines the label of a statement, which must be new. -/
def Layout.define (l : Layout) (page : Section) (s : Statement) : Except AssemblyError Layout :=
  match s.label with
  | none => .ok l
  | some name =>
    match l.symbols.lookup name with
    | some existing => .error (.duplicateLabel name existing.line)
    | none => .ok { l with symbols := (name, ⟨page, l.size page, s.line⟩) :: l.symbols }

/-- Places one more statement. -/
def Layout.place (w : Widths) (l : Layout) (item : Section × Statement) :
    Except AssemblyError Layout := do
  let (page, s) := item
  let offset := l.size page
  let l ← l.define page s
  let size := offset + (← s.size w page)
  if (w.of page).maxValue < size then throw (.pageFull page size (w.of page).maxValue)
  return { l.setSize size page with placed := ⟨page, offset, s⟩ :: l.placed }

def layOut (w : Widths) (items : List (Section × Statement)) : Except Error Layout :=
  items.foldlM (fun l item => onLine item.2.line (l.place w item)) {}

end ByteMachine.Assembly
