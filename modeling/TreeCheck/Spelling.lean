/-!
# Names that look alike

* `editDistance` — how many single characters have to be inserted, deleted or replaced to turn one
  name into another; it is computed row by row of the usual table;
* `similarNames` — the names that are close to a name, the closest first.
-/

namespace TreeCheck

/-- The rest of a row of the table: `left` is the entry before it, and the row above is given as the
entry above-left followed by those above, in step with the characters of the other name. -/
def distanceRow (c : Char) : Nat → Nat → List Nat → List Char → List Nat
  | left, diagonal, above :: row, d :: ds =>
    let entry := min (min (above + 1) (left + 1)) (diagonal + if c = d then 0 else 1)
    entry :: distanceRow c entry above row ds
  | _, _, _, _ => []

/-- The row below a row, for one more character. -/
def nextRow (b : List Char) (row : List Nat) (c : Char) : List Nat :=
  match row with
  | [] => []
  | first :: rest => (first + 1) :: distanceRow c (first + 1) first rest b

/-- The last row of the table. -/
def distanceTable (a b : List Char) : List Nat :=
  a.foldl (nextRow b) (List.range (b.length + 1))

/-- The least number of insertions, deletions and replacements of characters that turn `a` into
`b`. -/
def editDistance (a b : String) : Nat :=
  (distanceTable a.toList b.toList).getLastD 0

/-- How many edits apart two names may be to look alike. -/
def spellingTolerance : Nat := 2

/-- The other names that are close to a name, the closest first; equally close ones keep their
order.  A name as far away as it is long has nothing in common with the name. -/
def similarNames (name : String) (names : List String) : List String :=
  let close := names.filterMap fun n =>
    let d := editDistance name n
    if n ≠ name ∧ d ≤ spellingTolerance ∧ d < name.utf8ByteSize then some (n, d) else none
  (close.mergeSort fun x y => decide (x.2 ≤ y.2)).map (·.1)

end TreeCheck
