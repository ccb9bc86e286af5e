/-!
Tables drawn with lines: a title over each column, a rule below the titles and one below the last
row. A cell may have several lines of text, and a column is as wide as its widest line.
-/
namespace ByteMachine

inductive Alignment where
  | left
  | right
  deriving DecidableEq, Repr

structure Column where
  title : String
  alignment : Alignment
  deriving DecidableEq, Repr

/-- Each row has a cell for each column, and each cell is a list of lines. -/
structure Grid where
  columns : List Column
  rows : List (List (List String))
  deriving DecidableEq, Repr

namespace Grid

def repeated (c : Char) (n : Nat) : String :=
  String.ofList (List.replicate n c)

/-- Fills a line up to a width and adds the blanks beside it. -/
def pad (alignment : Alignment) (width : Nat) (line : String) : String :=
  let fill := repeated ' ' (width - line.length)
  match alignment with
  | .left => " " ++ line ++ fill ++ " "
  | .right => " " ++ fill ++ line ++ " "

/-- The width of a column, given its title and its cells. -/
def columnWidth (title : String) (cells : List (List String)) : Nat :=
  (title :: cells.flatten).foldl (fun width line => max width line.length) 0

def widths (g : Grid) : List Nat :=
  g.columns.zipIdx.map fun (column, i) =>
    columnWidth column.title (g.rows.map fun row => row.getD i [])

def joinCells (cells : List String) : String :=
  " " ++ "│".intercalate cells ++ " "

def rule (widths : List Nat) (crossing : String) : String :=
  " " ++ crossing.intercalate (widths.map fun width => repeated '─' (width + 2)) ++ " "

/-- One line across columns of the given widths. -/
def lineOf (columns : List (Column × Nat)) (cells : List String) : String :=
  joinCells
    ((columns.zip cells).map fun ((column, width), cell) => pad column.alignment width cell)

/-- The first lines of the cells of a row, as many as the number says. A cell with too few of them
is filled up with blank ones. -/
def slices : Nat → List (List String) → List (List String)
  | 0, _ => []
  | n + 1, row => row.map (fun cell => cell.headD "") :: slices n (row.map List.tail)

def height (row : List (List String)) : Nat :=
  row.foldl (fun height cell => max height cell.length) 0

def rowLines (columns : List (Column × Nat)) (row : List (List String)) : List String :=
  (slices (height row) row).map (lineOf columns)

def lines (g : Grid) : List String :=
  let widths := g.widths
  let columns := g.columns.zip widths
  lineOf columns (g.columns.map Column.title) :: rule widths "┼" ::
    g.rows.flatMap (rowLines columns) ++ [rule widths "┴"]

def text (g : Grid) : String :=
  String.join (g.lines.map (· ++ "\n"))

end Grid

end ByteMachine
