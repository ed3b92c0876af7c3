/-!
# Left-aligned columns

A cell is filled with spaces on the right up to the width of its column.  Widths count
characters, and a cell that is too long is kept whole.
-/

namespace OpGraph.Text

/-- Fill a cell with spaces on the right up to `width` characters. -/
def padRight (width : Nat) (cell : String) : String :=
  cell ++ String.ofList (List.replicate (width - cell.length) ' ')

end OpGraph.Text
