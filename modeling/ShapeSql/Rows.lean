import ShapeSql.Error

namespace ShapeSql

structure Rows where
  columns : List String
  rows : List (List Value)
  widths : ∀ row ∈ rows, row.length = columns.length

namespace Rows

/-- A result set without rows. -/
def ofColumns (columns : List String) : Rows := ⟨columns, [], by simp⟩

/-- Appends a row, which must have a cell for each column. -/
def push (r : Rows) (row : List Value) : Except Error Rows :=
  if h : row.length = r.columns.length then
    .ok ⟨r.columns, r.rows ++ [row], by
      intro other member
      rcases List.mem_append.mp member with old | new
      · exact r.widths other old
      · rw [List.mem_singleton.mp new, h]⟩
  else
    .error (.incident (.raggedRow r.rows.length row.length r.columns.length))

/-- The result set of the given rows, refused at the first one of another width. -/
def ofRows (columns : List String) (rows : List (List Value)) : Except Error Rows :=
  rows.foldlM push (ofColumns columns)

def columnIndex? (r : Rows) (name : String) : Option Nat := r.columns.findIdx? (· == name)

/-- The cell of a row under the first column of this name. -/
def cell (columns : List String) (row : List Value) (name : String) : Value :=
  (((columns.zip row).find? fun entry => entry.1 == name).map Prod.snd).getD .null

end Rows
end ShapeSql
