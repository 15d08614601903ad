import MetricLayer.Number.Binary64

/-!
# TOML documents

The values of a TOML document and the rules by which its lines build up one table. A table remembers
how it came to be, because that decides what may still be added to it. A number in which only the
shape is right is the value `broken`, which a document may hold where nothing looks at it.
-/

namespace MetricLayer.Toml

/-- How a table came to be. -/
inductive TableForm where
  /-- By a header of its own. -/
  | header
  /-- By the header of a table inside it. -/
  | implied
  /-- By a dotted key. -/
  | dotted
  /-- Between braces; nothing can be added to it. -/
  | inline
  deriving DecidableEq, Repr

/-- A value. -/
inductive Value where
  | string (s : String)
  | integer (n : Int)
  | float (x : Binary64)
  | bool (b : Bool)
  /-- A date, a time, or both. -/
  | moment
  | array (items : List Value)
  /-- The tables that share a header in double brackets. -/
  | tables (items : List Value)
  | table (form : TableForm) (members : List (String × Value))
  /-- A number in which only the shape is right: it has other characters than digits, or its value
  is out of range. -/
  | broken
  deriving Repr, Inhabited

/-- Whether no part of a value is broken. -/
def Value.isWhole : Value → Bool
  | broken => false
  | array items => wholeItems items
  | tables items => wholeItems items
  | table _ members => wholeMembers members
  | _ => true
where
  wholeItems : List Value → Bool
    | [] => true
    | v :: vs => v.isWhole && wholeItems vs
  wholeMembers : List (String × Value) → Bool
    | [] => true
    | (_, v) :: vs => v.isWhole && wholeMembers vs

/-- The members of a table and how the table came to be. -/
abbrev Table := TableForm × List (String × Value)

/-- What a line of a document says. A key is given as the parts before its last and the last. -/
inductive Statement where
  /-- The lines that follow belong to a table. -/
  | table (path : List String) (key : String)
  /-- The lines that follow belong to a new table at the end of a list of tables. -/
  | tables (path : List String) (key : String)
  /-- A key has a value. -/
  | entry (path : List String) (key : String) (value : Value)
  deriving Repr

/-! ## Adding to tables -/

/-- The members of a table with a value for a key, in the place of the key if it is there. -/
def setMember (key : String) (v : Value) : List (String × Value) → List (String × Value)
  | [] => [(key, v)]
  | (k, x) :: rest => if k = key then (k, v) :: rest else (k, x) :: setMember key v rest

/-- Changes the table that a path leads to, creating the tables on the way that are not there. A
list of tables leads to its last table. Nothing leads into a table between braces, and a dotted key
does not lead into a table that has a header. -/
def descend (dotted : Bool) (change : Table → Option Table) : List String → Table → Option Table
  | [], t => change t
  | key :: path, (form, members) =>
    match members.lookup key with
    | none => do
      let (f, ms) ← descend dotted change path (if dotted then .dotted else .implied, [])
      return (form, setMember key (.table f ms) members)
    | some (.tables items) =>
      match items.getLast? with
      | some (.table f ms) => do
        let (f, ms) ← descend dotted change path (f, ms)
        return (form, setMember key (.tables (items.dropLast ++ [.table f ms])) members)
      | _ => none
    | some (.table f ms) =>
      if f = .inline || (dotted && f = .header) then none
      else do
        let (f, ms) ← descend dotted change path (f, ms)
        return (form, setMember key (.table f ms) members)
    | some _ => none

/-- Gives a key of a table its first value. The last table that a dotted key leads to must have come
to be by dotted keys. -/
def addEntry (path : List String) (key : String) (v : Value) (t : Table) : Option Table :=
  descend true
    (fun (form, members) =>
      if (form = .dotted) = path.isEmpty || (members.lookup key).isSome then none
      else some (form, members ++ [(key, v)]))
    path t

/-- Opens the table of a header, which must be new or known only from headers of tables inside
it. -/
def openTable (key : String) (t : Table) : Option Table :=
  match t.2.lookup key with
  | none => some (t.1, t.2 ++ [(key, .table .header [])])
  | some (.table .implied members) => some (t.1, setMember key (.table .header members) t.2)
  | some _ => none

/-- Opens a new table at the end of a list of tables. -/
def openTables (key : String) (t : Table) : Option Table :=
  match t.2.lookup key with
  | none => some (t.1, t.2 ++ [(key, .tables [.table .header []])])
  | some (.tables items) => some (t.1, setMember key (.tables (items ++ [.table .header []])) t.2)
  | some _ => none

/-- The document and the path of the table that its lines belong to. -/
abbrev Building := Table × List String

/-- A document with one more line. -/
def addStatement (b : Building) : Statement → Option Building
  | .entry path key v => do return (← descend false (addEntry path key v) b.2 b.1, b.2)
  | .table path key => do return (← descend false (openTable key) path b.1, path ++ [key])
  | .tables path key => do return (← descend false (openTables key) path b.1, path ++ [key])

/-- The members of the document that lines build up. -/
def ofStatements? (lines : List Statement) : Option (List (String × Value)) := do
  let (t, _) ← lines.foldlM addStatement ((.header, []), [])
  return t.2

/-- The table between braces that entries build up. -/
def ofEntries? (entries : List (List String × String × Value)) : Option Value := do
  let (form, members) ←
    entries.foldlM (fun t (path, key, v) => addEntry path key v t) (.inline, [])
  return .table form members

end MetricLayer.Toml
