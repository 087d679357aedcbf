import TreeCheck.Assoc
import TreeCheck.Toml.Token

/-!
# Key-value documents

* `Value` — a value, an array, a table, or an array of tables;
* `readMoment`, `readValue` — the value that a row of tokens starts with;
* `Item` — a line of a document: an assignment or a header;
* `Value.setAt` — put a value at names below a table, which go to the last table of an array
  of tables;
* `Document.read` — the root table of a document.  A key is assigned once, a header stands once, and
  a table written as a value is closed.
-/

namespace TreeCheck.Toml

/-- A value of a document; a closed table takes no further keys. -/
inductive Value where
  | scalar (v : Scalar)
  | array (items : List Value)
  | table (closed : Bool) (entries : List (String × Value))
  | tables (items : List Value)
deriving Repr, Inhabited

namespace Value

def isTable : Value → Bool
  | .table _ _ => true
  | _ => false

/-- An array; one that holds tables only is an array of tables. -/
def ofItems (items : List Value) : Value :=
  if !items.isEmpty && items.all isTable then .tables items else .array items

/-- The table that a value stands for: itself, or the last of an array. -/
def target? : Value → Option Value
  | .table c es => some (.table c es)
  | .tables items => items.getLast?
  | _ => none

/-- The value of a name in a table. -/
def get? (v : Value) (name : String) : Option Value :=
  match v.target? with
  | some (.table _ es) => Assoc.get? es name
  | _ => none

def getAt? (v : Value) : List String → Option Value
  | [] => some v
  | n :: ns => (v.get? n).bind fun w => w.getAt? ns

/-- Change the table that a value stands for. -/
def onTarget (v : Value) (f : Value → Option Value) : Option Value :=
  match v with
  | .table c es => f (.table c es)
  | .tables items =>
    match items.getLast? with
    | some t => (f t).map fun t => .tables (items.dropLast ++ [t])
    | none => none
  | _ => none

/-- Give a name of a table a value. -/
def set (v : Value) (name : String) (w : Value) : Option Value :=
  v.onTarget fun
    | .table c es => some (.table c (Assoc.set es name w))
    | _ => none

/-- Change the value at names below a table; missing tables are made on the way, and they are
closed where the table above is. -/
def changeAt (v : Value) (names : List String) (f : Value → Option Value) : Option Value :=
  match names with
  | [] => f v
  | n :: ns =>
    v.onTarget fun
      | .table c es => do
        let w ← ((Assoc.get? es n).getD (.table c [])).changeAt ns f
        some (.table c (Assoc.set es n w))
      | _ => none

/-- Put a value at names below a table, in place of what is there.  Missing tables are made on the
way, and a name that leads to no table is passed over. -/
def setAt (v : Value) : List String → Value → Option Value
  | [], _ => none
  | [n], w => v.set n w
  | n :: ns, w =>
    v.onTarget fun
      | .table c es =>
        match Assoc.get? es n with
        | none => ((table false []).setAt ns w).map fun t => .table c (Assoc.set es n t)
        | some t =>
          if t.target?.isSome then (t.setAt ns w).map fun t => .table c (Assoc.set es n t)
          else (table c es).setAt ns w
      | _ => none

/-- Whether the table that a value stands for is closed. -/
def isClosed (v : Value) : Bool :=
  match v.target? with
  | some (.table c _) => c
  | _ => false

end Value

/-! ### Values of tokens -/

/-- A date or a time that tokens start with.  A time after a date belongs to it, and so does an
offset after both. -/
def readMoment (ts : List Token) : Option (Value × List Token) :=
  let moment (ok : Bool) (written : String) (ts : List Token) : Option (Value × List Token) :=
    if ok then some (.scalar (.moment written), ts) else none
  match ts with
  | .date d :: .time t :: .offset o :: ts =>
    moment (Moment.isDate d.toList && Moment.isTime t.toList && Moment.isOffset o.toList)
      (d ++ "T" ++ t ++ o) ts
  | .date d :: .time t :: ts =>
    moment (Moment.isDate d.toList && Moment.isTime t.toList) (d ++ "T" ++ t) ts
  | .date d :: ts => moment (Moment.isDate d.toList) d ts
  | .time t :: ts => moment (Moment.isTime t.toList) t ts
  | _ => none

mutual
def readValue : Nat → List Token → Option (Value × List Token)
  | 0, _ => none
  | n + 1, ts =>
    match ts with
    | .scalar v :: ts => some (.scalar v, ts)
    | .openArray :: ts => readItems n ts []
    | .openTable :: ts => readEntries n ts true (.table false [])
    | ts => readMoment ts

/-- The items of an array up to its end; a comma stands between two of them and may follow the
last. -/
def readItems : Nat → List Token → List Value → Option (Value × List Token)
  | 0, _, _ => none
  | n + 1, ts, acc =>
    match ts with
    | .closeArray :: ts => some (.ofItems acc.reverse, ts)
    | ts => do
      let (v, ts) ← readValue n ts
      match ts with
      | .closeArray :: _ => readItems n ts (v :: acc)
      | .comma :: ts => readItems n ts (v :: acc)
      | _ => none

/-- The entries of a table up to its end; a comma stands between two of them.  `first` tells
whether none has been read. -/
def readEntries : Nat → List Token → Bool → Value → Option (Value × List Token)
  | 0, _, _, _ => none
  | n + 1, ts, first, t =>
    match ts with
    | .closeTable :: ts =>
      match t with
      | .table _ es => some (.table true es, ts)
      | _ => none
    | .comma :: .key k :: ts => if first then none else readEntry n k ts t
    | .key k :: ts => if first then readEntry n k ts t else none
    | _ => none

/-- The rest of a table after the key of an entry. -/
def readEntry : Nat → String → List Token → Value → Option (Value × List Token)
  | 0, _, _, _ => none
  | n + 1, key, ts, t =>
    match ts with
    | .equals :: ts => do
      let names ← keyNames key
      let (v, ts) ← readValue n ts
      readEntries n ts false (← t.setAt names v)
    | _ => none
end

/-! ### Lines -/

/-- A line of a document. -/
inductive Item where
  | assign (names : List String) (v : Value)
  | table (written : String) (names : List String)
  | tableItem (written : String) (names : List String)
deriving Repr, Inhabited

def readLines : Nat → List Token → Option (List Item)
  | 0, _ => none
  | n + 1, ts =>
    match ts with
    | [] => some []
    | .key k :: .equals :: ts => do
      let names ← keyNames k
      let (v, ts) ← readValue (3 * ts.length + 1) ts
      return .assign names v :: (← readLines n ts)
    | .table k :: ts => return .table k (← keyNames k) :: (← readLines n ts)
    | .tableItem k :: ts => return .tableItem k (← keyNames k) :: (← readLines n ts)
    | _ => none

/-! ### Documents -/

/-- A document as far as it is read. -/
structure Document where
  root : Value := .table false []
  /-- The table that assignments go to. -/
  current : List String := []
  /-- The headers that stand for a table already. -/
  headers : List String := []
deriving Inhabited

namespace Document

/-- Assign a key of the current table. -/
def assign (d : Document) (names : List String) (v : Value) : Option Document :=
  match names.getLast? with
  | none => none
  | some last => do
    let root ← d.root.changeAt (d.current ++ names.dropLast) fun t =>
      if t.isClosed || (t.get? last).isSome then none else t.set last v
    return { d with root }

/-- Go to a table by its header. -/
def enter (d : Document) (written : String) (names : List String) : Option Document := do
  if d.headers.contains written then none
  else
    let root ← d.root.changeAt names fun t => if t.isTable && t.isClosed then none else t.onTarget some
    return { root, current := names, headers := written :: d.headers }

/-- Add a table to an array of tables and go to it.  Missing tables above it are made first.  The
headers below the array may stand again. -/
def enterItem (d : Document) (written : String) (names : List String) : Option Document := do
  let root := (d.root.changeAt names.dropLast some).getD d.root
  let items ← match root.getAt? names with
    | none => some []
    | some (.tables items) => some items
    | some _ => none
  let root ← root.setAt names (.tables (items ++ [.table false []]))
  let headers := d.headers.filter fun h => !h.startsWith (written ++ ".")
  return { root, current := names, headers := if headers.contains written then headers else written :: headers }

def step (d : Document) : Item → Option Document
  | .assign names v => d.assign names v
  | .table written names => d.enter written names
  | .tableItem written names => d.enterItem written names

/-- The root table of a document; `none` when it is malformed. -/
def read (text : String) : Option Value := do
  let ts ← tokens text
  let items ← readLines (ts.length + 1) ts
  let d ← items.foldlM step {}
  return d.root

end Document

end TreeCheck.Toml
