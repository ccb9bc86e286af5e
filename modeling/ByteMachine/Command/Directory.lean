import ByteMachine.Command.Path
import ByteMachine.Error

/-!
The files that a command sees, and how it finds them. A path is followed step by step, and every
step is taken from a folder, so the first place on the way that is none ends the search.
-/
namespace ByteMachine

inductive Entry where
  | file (bytes : List UInt8)
  | folder
  deriving DecidableEq, Repr

abbrev Directory := List (Place × Entry)

namespace Directory

/-- The length in bytes of the longest name. -/
def maxNameLength : Nat := 255

/-- The length in bytes of the longest path. -/
def maxPathLength : Nat := 4095

/-- What stands at a place. The current folder and those above it are always there. -/
def find? (d : Directory) (p : Place) : Option Entry :=
  if p.names.isEmpty then some .folder else d.lookup p

def set (d : Directory) (p : Place) (entry : Entry) : Directory :=
  (p, entry) :: d.filter fun e => e.1 ≠ p

/-- Puts an entry at a path, together with the folders that hold it. -/
def add (d : Directory) (path : String) (entry : Entry) : Directory :=
  let p := (Path.ofText path).place
  let missing := p.holders.filter fun holder => (d.find? holder).isNone
  set (missing.foldl (fun d holder => d.set holder .folder) d) p entry

def checkFolder (d : Directory) (p : Place) : Except IoError Unit :=
  match d.find? p with
  | some .folder => .ok ()
  | some (.file _) => .error .notDirectory
  | none => .error .notFound

def takeStep (d : Directory) (p : Place) (step : Step) : Except IoError Place := do
  d.checkFolder p
  match step with
  | .down name =>
    if name.utf8ByteSize ≤ maxNameLength then .ok (p.child name) else .error .nameTooLong
  | step => .ok (step.target p)

def parsePath (path : String) : Except IoError Path :=
  if path.isEmpty then .error .notFound
  else if path.utf8ByteSize ≤ maxPathLength then .ok (.ofText path)
  else .error .nameTooLong

/-- The place of a path that is read. -/
def source (d : Directory) (path : Path) : Except IoError Place := do
  let p ← path.steps.foldlM d.takeStep path.start
  if path.meansFolder then d.checkFolder p
  return p

/-- The place of a path that is written to. Only a name at the end can be that of a file. -/
def destination (d : Directory) (path : Path) : Except IoError Place := do
  let p ← path.steps.dropLast.foldlM d.takeStep path.start
  d.checkFolder p
  match path.steps.getLast?, path.meansFolder with
  | some (.down name), false => d.takeStep p (.down name)
  | _, _ => .error .isDirectory

def bytesAt (d : Directory) (path : String) : Except IoError (List UInt8) := do
  match d.find? (← d.source (← parsePath path)) with
  | some (.file bytes) => .ok bytes
  | some .folder => .error .isDirectory
  | none => .error .notFound

def replaceBytes (d : Directory) (path : String) (bytes : List UInt8) :
    Except IoError Directory := do
  let p ← d.destination (← parsePath path)
  match d.find? p with
  | some .folder => .error .isDirectory
  | _ => .ok (d.set p (.file bytes))

def readFile (d : Directory) (path : String) : Except Error (List UInt8) :=
  (d.bytesAt path).mapError .io

/-- Makes a file with these bytes, in the place of one that is there already. -/
def writeFile (path : String) (bytes : List UInt8) : Action Directory Unit := fun d =>
  match d.replaceBytes path bytes with
  | .ok d => .ok () d
  | .error e => .error (.io e) d

end Directory

end ByteMachine
