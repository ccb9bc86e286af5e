/-!
Paths to files. Slashes divide a path into steps, of which `.` stays where it is and `..` goes up.
Slashes in a row count as one, a slash at the front starts at the root, and a slash at the end says
that a folder is meant.
-/
namespace ByteMachine

/-- The folder that a place is counted from. -/
inductive Origin where
  /-- The folder so many levels above the current one. -/
  | above (levels : Nat)
  | root
  deriving DecidableEq, Repr

/-- A place in the tree of files. No name in it goes up, so that paths which differ only by steps
down and up again lead to equal places. -/
structure Place where
  origin : Origin
  /-- The names on the way from the origin, last first. -/
  names : List String
  deriving DecidableEq, Repr

namespace Place

/-- The folder that holds a place. The root holds itself. -/
def parent : Place → Place
  | ⟨o, _ :: names⟩ => ⟨o, names⟩
  | ⟨.above levels, []⟩ => ⟨.above (levels + 1), []⟩
  | ⟨.root, []⟩ => ⟨.root, []⟩

def child (p : Place) (name : String) : Place :=
  ⟨p.origin, name :: p.names⟩

def holdersFrom (o : Origin) : List String → List Place
  | [] | [_] => []
  | _ :: names => ⟨o, names⟩ :: holdersFrom o names

/-- The folders on the way to a place, without the origin, inner ones first. -/
def holders (p : Place) : List Place :=
  holdersFrom p.origin p.names

/-- A path to a place. -/
def text (p : Place) : String :=
  let start := match p.origin with
    | .above levels => "./" ++ String.join (List.replicate levels "../")
    | .root => "/"
  start ++ "/".intercalate p.names.reverse

end Place

inductive Step where
  | stay
  | up
  | down (name : String)
  deriving DecidableEq, Repr

namespace Step

def ofText : String → Step
  | "." => .stay
  | ".." => .up
  | name => .down name

/-- Where a step from a folder leads. -/
def target (p : Place) : Step → Place
  | .stay => p
  | .up => p.parent
  | .down name => p.child name

end Step

structure Path where
  origin : Origin
  steps : List Step
  /-- Whether the path ends in a slash. -/
  meansFolder : Bool
  deriving DecidableEq, Repr

namespace Path

/-- The texts between the slashes, of the first of which `begun` has been read, last character
first. -/
def piecesFrom (begun : List Char) : List Char → List (List Char)
  | [] => [begun.reverse]
  | c :: cs => if c = '/' then begun.reverse :: piecesFrom [] cs else piecesFrom (c :: begun) cs

def ofText (text : String) : Path :=
  let cs := text.toList
  let pieces := (piecesFrom [] cs).filter fun piece => !piece.isEmpty
  { origin := if cs.head? = some '/' then .root else .above 0
    steps := pieces.map fun piece => .ofText (String.ofList piece)
    meansFolder := cs.getLast? = some '/' }

def start (path : Path) : Place :=
  ⟨path.origin, []⟩

/-- Where the path leads, if every place on the way is a folder. -/
def place (path : Path) : Place :=
  path.steps.foldl Step.target path.start

end Path

end ByteMachine
