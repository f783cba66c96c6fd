/-!
# JSON strings

The quoted form of a text, written and read. Writing escapes the quote, the backslash and the
control characters; reading accepts every escape of the format.

**Reading is a small machine** that looks at one character at a time, so it is recursion on the
text. An escape `\\uXXXX` denotes a UTF-16 unit: a high surrogate must be followed at once by the
escape of a low one, and a low surrogate may not stand alone.
-/

namespace SchemaLink.Json

/-- The value of a hexadecimal digit. -/
def hexDigit? (c : Char) : Option Nat :=
  if '0' ≤ c ∧ c ≤ '9' then some (c.toNat - '0'.toNat)
  else if 'a' ≤ c ∧ c ≤ 'f' then some (c.toNat - 'a'.toNat + 10)
  else if 'A' ≤ c ∧ c ≤ 'F' then some (c.toNat - 'A'.toNat + 10)
  else none

/-- The character of a one-letter escape. -/
def shortEscape? : Char → Option Char
  | '"' => some '"'
  | '\\' => some '\\'
  | '/' => some '/'
  | 'b' => some '\x08'
  | 'f' => some '\x0c'
  | 'n' => some '\n'
  | 'r' => some '\r'
  | 't' => some '\t'
  | _ => none

/-- Where the reader of a quoted text stands. `high` is a high surrogate that waits for its low
one. -/
inductive QuoteState where
  /-- Between characters. -/
  | plain
  /-- After a backslash. -/
  | escape
  /-- After a high surrogate. -/
  | half (high : Nat)
  /-- After a high surrogate and a backslash. -/
  | halfEscape (high : Nat)
  /-- Inside a `\\u` escape, with `count` digits read. -/
  | unit (high : Option Nat) (count value : Nat)

/-- What a complete `\\u` escape means: the next state, and a character if one is finished. -/
def finishUnit (high : Option Nat) (value : Nat) : Option (QuoteState × Option Char) :=
  let isLow := 0xDC00 ≤ value ∧ value ≤ 0xDFFF
  match high with
  | some h =>
    if isLow then
      some (.plain, some (Char.ofNat (0x10000 + (h - 0xD800) * 0x400 + (value - 0xDC00))))
    else none
  | none =>
    if isLow then none
    else if 0xD800 ≤ value ∧ value ≤ 0xDBFF then some (.half value, none)
    else some (.plain, some (Char.ofNat value))

/-- One character of a quoted text other than its closing quote. -/
def QuoteState.next (state : QuoteState) (c : Char) : Option (QuoteState × Option Char) :=
  match state with
  | plain =>
    if c = '\\' then some (escape, none)
    else if c.toNat < 0x20 then none
    else some (plain, some c)
  | escape =>
    match shortEscape? c with
    | some e => some (plain, some e)
    | none => if c = 'u' then some (unit none 0 0, none) else none
  | half high => if c = '\\' then some (halfEscape high, none) else none
  | halfEscape high => if c = 'u' then some (unit (some high) 0 0, none) else none
  | unit high count value =>
    match hexDigit? c with
    | none => none
    | some d =>
      if count < 3 then some (unit high (count + 1) (16 * value + d), none)
      else finishUnit high (16 * value + d)

/-- The state between characters, where a quote closes the text. -/
def QuoteState.isPlain : QuoteState → Bool
  | plain => true
  | _ => false

/-- Reads up to the closing quote: the text and what follows it. -/
def readQuoted (state : QuoteState) : List Char → Option (List Char × List Char)
  | [] => none
  | c :: cs =>
    if state.isPlain ∧ c = '"' then some ([], cs)
    else
      match state.next c with
      | none => none
      | some (state', char) =>
        (readQuoted state' cs).map fun r ↦ (char.toList ++ r.1, r.2)

/-- A hexadecimal digit in lower case. -/
def hexChar (n : Nat) : Char :=
  Char.ofNat (if n < 10 then '0'.toNat + n else 'a'.toNat + (n - 10))

/-- The written form of one character inside quotes. -/
def quoteChar (c : Char) : List Char :=
  if c = '"' then ['\\', '"']
  else if c = '\\' then ['\\', '\\']
  else if c = '\x08' then ['\\', 'b']
  else if c = '\x0c' then ['\\', 'f']
  else if c = '\n' then ['\\', 'n']
  else if c = '\r' then ['\\', 'r']
  else if c = '\t' then ['\\', 't']
  else if c.toNat < 0x20 then
    ['\\', 'u', '0', '0', hexChar (c.toNat / 16), hexChar (c.toNat % 16)]
  else [c]

/-- The quoted form of a text. -/
def quote (s : String) : String :=
  String.ofList ('"' :: (s.toList.flatMap quoteChar ++ ['"']))

end SchemaLink.Json
