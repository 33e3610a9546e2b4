import FormLower.Text.Width

/-! # Text tables with borders

Rows of cells with lines drawn around them.  A column is as wide as its widest cell, and a cell of
several lines makes its row higher. -/

namespace FormLower

/-- A table of texts with a header. -/
structure Grid where
  header : List String
  rows : List (List String)

namespace Grid

def cellLines (cell : String) : List String := cell.splitOn "\n"

def cellWidth (cell : String) : Nat := ((cellLines cell).map textWidth).foldl max 0

/-- The wider of two rows, column by column. -/
def widen : List Nat → List Nat → List Nat
  | [], ws => ws
  | ws, [] => ws
  | w :: ws, v :: vs => max w v :: widen ws vs

/-- The widths of the columns. -/
def widths (g : Grid) : List Nat :=
  (g.header :: g.rows).foldl (fun ws row => widen ws (row.map cellWidth)) []

/-- A text filled up with blanks to a width, with a blank on both sides. -/
def pad (width : Nat) (s : String) : String :=
  " " ++ s ++ String.ofList (List.replicate (width - textWidth s) ' ') ++ " "

/-- One line of a row. -/
def rowLine (ws : List Nat) (cells : List String) : String :=
  "│" ++ "┆".intercalate (ws.zipWith pad cells) ++ "│"

def rowLines (ws : List Nat) (row : List String) : List String :=
  let cells := row.map cellLines
  let height := (cells.map List.length).foldl max 0
  (List.range height).map fun i => rowLine ws (cells.map fun lines => lines.getD i "")

/-- A line between rows. -/
def rule (left fill cross right : String) (ws : List Nat) : String :=
  left ++ cross.intercalate (ws.map fun w => String.join (List.replicate (w + 2) fill)) ++ right

/-- The lines of all rows, with a line between any two rows. -/
def bodyLines (ws : List Nat) (rows : List (List String)) : List String :=
  [rule "├" "╌" "┼" "┤" ws].intercalate (rows.map (rowLines ws))

def lines (g : Grid) : List String :=
  let ws := g.widths
  [rule "┌" "─" "┬" "┐" ws] ++ rowLines ws g.header ++ [rule "╞" "═" "╪" "╡" ws] ++
    bodyLines ws g.rows ++ [rule "└" "─" "┴" "┘" ws]

def text (g : Grid) : String := "\n".intercalate g.lines

end Grid

end FormLower
