import MetricLayer.Json.Reader
import MetricLayer.Toml.Scalar

/-!
# Reading TOML text

Each reader takes the characters that are left and gives what it read and what follows, or nothing
if the text breaks the grammar.
-/

namespace MetricLayer.Toml

/-! ## Blanks and comments -/

/-- The characters that may stand in comments and strings. -/
def isTextChar (c : Char) : Bool := c = '\t' || (0x20 ≤ c.toNat && c.toNat ≠ 0x7f)

/-- A text without the blanks at its beginning, line ends not being blanks. -/
def skipBlanks (cs : List Char) : List Char := cs.dropWhile fun c => c = ' ' || c = '\t'

/-- A text without the blanks, line ends and comments at its beginning. -/
def skipLines (inComment : Bool) : List Char → Option (List Char)
  | [] => some []
  | c :: cs =>
    if c = '\n' then skipLines false cs
    else if c = '\r' then
      match cs with
      | '\n' :: rest => skipLines false rest
      | _ => none
    else if inComment then if isTextChar c then skipLines true cs else none
    else if c = ' ' || c = '\t' then skipLines false cs
    else if c = '#' then skipLines true cs
    else some (c :: cs)

/-- What follows the end of a line, in front of which only blanks and a comment may stand. -/
def endLine (inComment : Bool) : List Char → Option (List Char)
  | [] => some []
  | c :: cs =>
    if c = '\n' then some cs
    else if c = '\r' then
      match cs with
      | '\n' :: rest => some rest
      | _ => none
    else if inComment then if isTextChar c then endLine true cs else none
    else if c = ' ' || c = '\t' then endLine false cs
    else if c = '#' then endLine true cs
    else none

/-! ## Strings -/

/-- The value of hexadecimal digits. -/
def hexNumber? (cs : List Char) : Option Nat :=
  cs.foldlM (fun n c => (Json.hexValue? c).map fun d => n * 16 + d) 0

/-- The character of a number, if it has one. -/
def scalarChar? (n : Nat) : Option Char := if n.isValidChar then some (Char.ofNat n) else none

/-- The character that the text after a backslash stands for, and what follows. -/
def escape? : List Char → Option (Char × List Char)
  | [] => none
  | c :: cs =>
    let numbered := fun count : Nat =>
      if cs.length < count then none
      else
        ((hexNumber? (cs.take count)).bind scalarChar?).map fun x => (x, cs.drop count)
    if c = '"' ∨ c = '\\' then some (c, cs)
    else if c = 'b' then some ('\x08', cs)
    else if c = 't' then some ('\t', cs)
    else if c = 'n' then some ('\n', cs)
    else if c = 'f' then some ('\x0c', cs)
    else if c = 'r' then some ('\r', cs)
    else if c = 'e' then some ('\x1b', cs)
    else if c = 'x' then numbered 2
    else if c = 'u' then numbered 4
    else if c = 'U' then numbered 8
    else none

/-- The rest of a string up to its closing quote, which is consumed. A backslash escapes only
between double quotes. -/
def stringRest (quote : Char) : Nat → List Char → Option (List Char × List Char)
  | 0, _ => none
  | _, [] => none
  | fuel + 1, c :: cs =>
    if c = quote then some ([], cs)
    else if c = '\\' && quote = '"' then do
      let (x, rest) ← escape? cs
      let (s, rest) ← stringRest quote fuel rest
      return (x :: s, rest)
    else if isTextChar c then do
      let (s, rest) ← stringRest quote fuel cs
      return (c :: s, rest)
    else none

/-- A text without the blanks and line ends at its beginning. -/
def dropBlankLines : List Char → List Char
  | [] => []
  | c :: cs =>
    if c = ' ' || c = '\t' || c = '\n' then dropBlankLines cs
    else if c = '\r' then
      match cs with
      | '\n' :: rest => dropBlankLines rest
      | _ => c :: cs
    else c :: cs

/-- What follows a backslash at the end of a line: the next character that is not a blank. -/
def continuation? (cs : List Char) : Option (List Char) :=
  match skipBlanks cs with
  | '\n' :: rest => some (dropBlankLines rest)
  | '\r' :: '\n' :: rest => some (dropBlankLines rest)
  | _ => none

/-- The rest of a string over several lines up to its three closing quotes, in front of which one or
two quotes may stand. -/
def linesRest (quote : Char) : Nat → List Char → Option (List Char × List Char)
  | 0, _ => none
  | _, [] => none
  | fuel + 1, c :: cs =>
    if c = quote then
      let quotes := (c :: cs).takeWhile (· = quote)
      let rest := (c :: cs).dropWhile (· = quote)
      if quotes.length < 3 then do
        let (s, rest) ← linesRest quote fuel rest
        return (quotes ++ s, rest)
      else
        let kept := min (quotes.length - 3) 2
        some (quotes.take kept, (c :: cs).drop (kept + 3))
    else if c = '\\' && quote = '"' then
      match continuation? cs with
      | some rest => linesRest quote fuel rest
      | none => do
        let (x, rest) ← escape? cs
        let (s, rest) ← linesRest quote fuel rest
        return (x :: s, rest)
    else if c = '\r' then
      match cs with
      | '\n' :: rest => do
        let (s, rest) ← linesRest quote fuel rest
        return ('\n' :: s, rest)
      | _ => none
    else if isTextChar c || c = '\n' then do
      let (s, rest) ← linesRest quote fuel cs
      return (c :: s, rest)
    else none

/-- A text without a line end at its beginning. -/
def dropLineEnd : List Char → List Char
  | '\n' :: rest => rest
  | '\r' :: '\n' :: rest => rest
  | rest => rest

/-- A string in quotes of either kind, on one line. -/
def string? (fuel : Nat) : List Char → Option (List Char × List Char)
  | c :: cs => if c = '"' ∨ c = '\'' then stringRest c fuel cs else none
  | [] => none

/-- A string in quotes of either kind, on one line or several. -/
def anyString? (fuel : Nat) (cs : List Char) : Option (List Char × List Char) :=
  match cs with
  | a :: b :: c :: rest =>
    if (a = '"' ∨ a = '\'') ∧ b = a ∧ c = a then linesRest a fuel (dropLineEnd rest)
    else string? fuel cs
  | _ => string? fuel cs

/-! ## Keys -/

/-- The characters of a key without quotes. -/
def isKeyChar (c : Char) : Bool := c.isAlphanum || c = '_' || c = '-'

/-- A part of a key. -/
def keyPart? (fuel : Nat) (cs : List Char) : Option (String × List Char) :=
  match string? fuel cs with
  | some (s, rest) => some (String.ofList s, rest)
  | none =>
    let name := cs.takeWhile isKeyChar
    if name.isEmpty then none else some (String.ofList name, cs.dropWhile isKeyChar)

/-- The parts of a key before its last, the last, and what follows without blanks. -/
def keyParts? : Nat → List Char → Option (List String × String × List Char)
  | 0, _ => none
  | fuel + 1, cs => do
    let (part, rest) ← keyPart? fuel (skipBlanks cs)
    match skipBlanks rest with
    | '.' :: rest =>
      let (path, last, rest) ← keyParts? fuel rest
      return (part :: path, last, rest)
    | rest => return ([], part, rest)

/-- How many parts a key may have. -/
def maxKeyParts : Nat := 80

/-- A key, given by its parts as in `keyParts?`. -/
def key? (fuel : Nat) (cs : List Char) : Option (List String × String × List Char) :=
  (keyParts? fuel cs).filter fun (path, _, _) => path.length < maxKeyParts

/-! ## Values -/

/-- What follows an equals sign and the blanks, line ends and comments around it. -/
def equalsSign? (cs : List Char) : Option (List Char) :=
  match skipLines false cs with
  | some ('=' :: rest) => skipLines false rest
  | _ => none

/-- How many arrays and tables between braces may be open at once. -/
def maxNesting : Nat := 80

mutual

/-- A value. The first argument bounds how many readers may be at work at once, the second how many
arrays and tables may still be opened. -/
def value? : Nat → Nat → List Char → Option (Value × List Char)
  | 0, _, _ => none
  | fuel + 1, room, cs =>
    match cs with
    | '[' :: rest =>
      match room with
      | 0 => none
      | room + 1 => (items? fuel room rest).map fun (xs, rest) => (.array xs, rest)
    | '\x7b' :: rest =>
      match room with
      | 0 => none
      | room + 1 =>
        match entries? fuel room rest with
        | none => none
        | some (es, rest) => (ofEntries? es).map fun t => (t, rest)
    | '"' :: _ => (anyString? fuel cs).map fun (s, rest) => (.string (String.ofList s), rest)
    | '\'' :: _ => (anyString? fuel cs).map fun (s, rest) => (.string (String.ofList s), rest)
    | _ => plainPrefix? cs

/-- The items of an array up to its closing bracket; a comma may follow the last. -/
def items? : Nat → Nat → List Char → Option (List Value × List Char)
  | 0, _, _ => none
  | fuel + 1, room, cs =>
    match skipLines false cs with
    | none => none
    | some (']' :: rest) => some ([], rest)
    | some cs =>
      match value? fuel room cs with
      | none => none
      | some (v, rest) =>
        match skipLines false rest with
        | some (',' :: rest) => (items? fuel room rest).map fun (xs, rest) => (v :: xs, rest)
        | some (']' :: rest) => some ([v], rest)
        | _ => none

/-- The entries of a table between braces up to its closing brace; a comma may follow the last, and
lines may end everywhere but inside a key. -/
def entries? : Nat → Nat → List Char → Option (List (List String × String × Value) × List Char)
  | 0, _, _ => none
  | fuel + 1, room, cs =>
    match skipLines false cs with
    | none => none
    | some ('\x7d' :: rest) => some ([], rest)
    | some cs =>
      match key? fuel cs with
      | none => none
      | some (path, key, rest) =>
        match (equalsSign? rest).bind (value? fuel room) with
        | none => none
        | some (v, rest) =>
          match skipLines false rest with
          | some (',' :: rest) =>
            (entries? fuel room rest).map fun (es, rest) => ((path, key, v) :: es, rest)
          | some ('\x7d' :: rest) => some ([(path, key, v)], rest)
          | _ => none

end

/-! ## Documents -/

/-- The statement at the beginning of a text, which does not begin with a blank, and the rest of its
line. -/
def statement? (fuel : Nat) : List Char → Option (Statement × List Char)
  | '[' :: '[' :: cs =>
    match key? fuel cs with
    | some (path, key, ']' :: ']' :: rest) => some (.tables path key, rest)
    | _ => none
  | '[' :: cs =>
    match key? fuel cs with
    | some (path, key, ']' :: rest) => some (.table path key, rest)
    | _ => none
  | cs =>
    match key? fuel cs with
    | some (path, key, '=' :: rest) =>
      (value? fuel maxNesting (skipBlanks rest)).map fun (v, rest) => (.entry path key v, rest)
    | _ => none

/-- The statements of a text. -/
def statements? : Nat → List Char → Option (List Statement)
  | 0, _ => none
  | fuel + 1, cs =>
    match skipLines false cs with
    | none => none
    | some [] => some []
    | some cs =>
      match statement? fuel cs with
      | none => none
      | some (s, rest) =>
        match endLine false rest with
        | none => none
        | some rest => (statements? fuel rest).map (s :: ·)

/-- A text without the mark of its byte order. -/
def dropMark : List Char → List Char
  | c :: cs => if c = '\ufeff' then cs else c :: cs
  | [] => []

/-- Reads a text as a document. Each character opens at most two readers, so the bound is never what
stops the reading. -/
def ofText? (text : String) : Option (List (String × Value)) :=
  let cs := dropMark text.toList
  (statements? (2 * cs.length + 4) cs).bind ofStatements?

end MetricLayer.Toml
