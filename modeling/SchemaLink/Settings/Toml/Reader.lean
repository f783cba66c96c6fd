import SchemaLink.Json.Quoted
import SchemaLink.Settings.Value
import SchemaLink.Text.Pieces

/-!
# Reading settings files

A settings file is written line by line in a small part of TOML: headers `[table]`, texts
`key = "text"`, lists `key = ["text", "text"]` on one line, comments and blank lines. Keys and
tables may not occur twice; spellings that differ in case are different keys here.

**Lines** end with a line feed, before which a carriage return may stand. Anywhere else a carriage
return, like any control character but the tab, is refused, also in comments.
-/

namespace SchemaLink.Settings

/-! ### Texts -/

/-- A character that may not stand in a text or a comment as it is. -/
def isControl (c : Char) : Bool :=
  (c.toNat < 0x20 && c ≠ '\t') || c.toNat = 0x7F

/-- Where the reader of a text stands: in the text itself, after a backslash, or before the last
`left` digits of a code point. -/
inductive TextState where
  | plain
  | escape
  | code (left value : Nat)

/-- One character of a text other than its closing quote. -/
def TextState.next (state : TextState) (c : Char) : Option (TextState × Option Char) :=
  match state with
  | plain =>
    if c = '\\' then some (escape, none)
    else if isControl c then none
    else some (plain, some c)
  | escape =>
    if c = 'u' then some (code 4 0, none)
    else if c = 'U' then some (code 8 0, none)
    else if c = '/' then none
    else (Json.shortEscape? c).map fun e ↦ (plain, some e)
  | code left value =>
    match Json.hexDigit? c with
    | none => none
    | some d =>
      if 1 < left then some (code (left - 1) (16 * value + d), none)
      else if (16 * value + d).isValidChar then
        some (plain, some (Char.ofNat (16 * value + d)))
      else none

/-- The state inside the text itself, where a quote closes it. -/
def TextState.isPlain : TextState → Bool
  | plain => true
  | _ => false

/-- Reads up to the closing quote. -/
def readText (state : TextState) : List Char → Option (List Char × List Char)
  | [] => none
  | c :: cs =>
    if state.isPlain ∧ c = '"' then some ([], cs)
    else
      match state.next c with
      | none => none
      | some (state', char) => (readText state' cs).map fun r ↦ (char.toList ++ r.1, r.2)

/-! ### Values -/

/-- Drops the blanks within a line at the front. -/
def skipLineBlanks (cs : List Char) : List Char :=
  cs.dropWhile fun c ↦ c = ' ' || c = '\t'

/-- Reads the items of a list up to its closing bracket; every item needs less than `fuel`
characters of what is left. -/
def readItems : Nat → List Char → Option (List Value × List Char)
  | 0, _ => none
  | fuel + 1, cs =>
    match skipLineBlanks cs with
    | ']' :: rest => some ([], rest)
    | '"' :: rest =>
      match readText .plain rest with
      | none => none
      | some (item, rest) =>
        match skipLineBlanks rest with
        | ']' :: rest => some ([.text (String.ofList item)], rest)
        | ',' :: rest =>
          (readItems fuel rest).map fun r ↦ (.text (String.ofList item) :: r.1, r.2)
        | _ => none
    | _ => none

/-- Reads a value. -/
def readValue : List Char → Option (Value × List Char)
  | '"' :: cs => (readText .plain cs).map fun r ↦ (.text (String.ofList r.1), r.2)
  | '[' :: cs => (readItems (cs.length + 1) cs).map fun r ↦ (.list r.1, r.2)
  | _ => none

/-! ### Lines -/

/-- What a line says. -/
inductive Line where
  | nothing
  | header (name : String)
  | entry (key : String) (value : Value)

/-- Only blanks or a comment follow. -/
def lineEnds (cs : List Char) : Bool :=
  match skipLineBlanks cs with
  | [] => true
  | '#' :: comment => !comment.any isControl
  | _ => false

/-- The characters of a bare key. -/
def isKeyChar (c : Char) : Bool :=
  c.isAlphanum || c = '_' || c = '-'

/-- Reads a bare key; there must be one. -/
def readKey (cs : List Char) : Option (String × List Char) :=
  match cs.span isKeyChar with
  | ([], _) => none
  | (key, rest) => some (String.ofList key, rest)

/-- Reads a line. -/
def readLine (line : List Char) : Option Line :=
  if lineEnds line then some .nothing
  else
    match skipLineBlanks line with
    | '[' :: cs =>
      match readKey (skipLineBlanks cs) with
      | none => none
      | some (name, rest) =>
        match skipLineBlanks rest with
        | ']' :: rest => if lineEnds rest then some (.header name) else none
        | _ => none
    | cs =>
      match readKey cs with
      | none => none
      | some (key, rest) =>
        match skipLineBlanks rest with
        | '=' :: rest =>
          match readValue (skipLineBlanks rest) with
          | some (value, rest) => if lineEnds rest then some (.entry key value) else none
          | none => none
        | _ => none

/-- Adds what follows to a layer: `open?` is the table that the last header names. -/
def readLines (open? : Option String) (layer : Value) : List (List Char) → Option Value
  | [] => some layer
  | line :: lines =>
    match readLine line with
    | none => none
    | some .nothing => readLines open? layer lines
    | some (.header name) =>
      if (layer.get? name).isSome then none
      else readLines (some name) (layer.put name (.table [])) lines
    | some (.entry key value) =>
      match open? with
      | none =>
        if (layer.get? key).isSome then none else readLines none (layer.put key value) lines
      | some name =>
        let table := (layer.get? name).getD (.table [])
        if (table.get? key).isSome then none
        else readLines open? (layer.put name (table.put key value)) lines

/-- The lines of a text. All but the last one end with a line feed, and may have a carriage return
before it. -/
def linesOf (text : List Char) : List (List Char) :=
  let ls := Text.pieces '\n' text
  ls.dropLast.map (fun l ↦ if l.getLast? = some '\r' then l.dropLast else l) ++ ls.getLast?.toList

/-- Reads a settings file. -/
def readToml (text : String) : Option Value :=
  readLines none (.table []) (linesOf text.toList)

end SchemaLink.Settings
