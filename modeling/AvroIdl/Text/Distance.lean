import AvroIdl.Text

/-!
# Edit distance

The number of single-byte insertions, deletions and substitutions between two texts, by the usual
table of which one row is kept, and the choice of the nearest candidate for a misspelt name.
-/
namespace AvroIdl.Distance

/-- The cells of the next row from the second one on. `row` is the current row from the cell above
the left neighbour on, and `left` is the left neighbour. -/
def cells (c : UInt8) : Text → (row : List Nat) → (left : Nat) → List Nat
  | d :: ds, diagonal :: above :: row, left =>
    let here := min (min (diagonal + if c = d then 0 else 1) (above + 1)) (left + 1)
    here :: cells c ds (above :: row) here
  | _, _, _ => []

/-- The row of distances to every beginning of `b`, after one more byte of the other text. -/
def nextRow (b : Text) (row : List Nat) (c : UInt8) : List Nat :=
  match row with
  | [] => []
  | corner :: _ => (corner + 1) :: cells c b row (corner + 1)

/-- The least number of single-byte edits that turn `a` into `b`. -/
def edits (a b : Text) : Nat :=
  ((a.foldl (nextRow b) (List.range (b.length + 1))).getLast?).getD 0

/-- How far a suggestion may be from a name: short names allow a single edit. -/
def limit (nameLength : Nat) : Nat := if nameLength ≤ 4 then 1 else 2

/-- Whether a candidate is near the name without being the name itself. -/
def isNear (name candidate : Text) : Bool :=
  let d := edits name candidate
  0 < d && d ≤ limit name.length

/-- The first of the nearest candidates within the limit. -/
def closest (name : Text) (candidates : List Text) : Option Text :=
  (candidates.filter (isNear name)).foldl
    (fun best candidate =>
      match best with
      | none => some candidate
      | some b => if edits name candidate < edits name b then some candidate else some b)
    none

end AvroIdl.Distance
