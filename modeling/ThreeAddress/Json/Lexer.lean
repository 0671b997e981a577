import ThreeAddress.Json.Number
/-!
# JSON tokens

`tokens?` cuts a text into tokens in one pass, a character at a time. Words and numbers end where a
character comes that cannot go on; strings end at their quote. Within a string an escaped character
outside the basic plane is written as two halves, and a half alone has no meaning.
-/

namespace ThreeAddress.Json

/-- The words of the grammar. -/
inductive Token where
  | openArray | closeArray | openObject | closeObject | comma | colon
  | null
  | bool (b : Bool)
  | number (n : Number)
  | string (s : String)

namespace Lexer

/-- What has been read of a token; characters come last first. -/
inductive Mode where
  /-- Between tokens. -/
  | ready
  | word (read : List Char)
  | number (read : List Char)
  | string (read : List Char)
  /-- After a backslash. -/
  | escape (read : List Char)
  /-- Within the four hexadecimal digits of an escape; `high?` is the first half of a pair. -/
  | hex (read : List Char) (high? : Option Nat) (digits : List Nat)
  /-- After the first half of a pair. -/
  | half (read : List Char) (high : Nat)
  /-- After the first half of a pair and a backslash. -/
  | halfEscape (read : List Char) (high : Nat)

def isBlank (c : Char) : Bool := c = ' ' || c = '\n' || c = '\t' || c = '\r'

def isNumeric (c : Char) : Bool := c.isDigit || c = '-' || c = '+' || c = '.' || c = 'e' || c = 'E'

def punctuation? (c : Char) : Option Token :=
  match c with
  | '[' => some .openArray
  | ']' => some .closeArray
  | '\x7b' => some .openObject
  | '\x7d' => some .closeObject
  | ',' => some .comma
  | ':' => some .colon
  | _ => none

def word? (cs : List Char) : Option Token :=
  match String.ofList cs with
  | "null" => some .null
  | "true" => some (.bool true)
  | "false" => some (.bool false)
  | _ => none

/-- The character that a backslash and `c` stand for. -/
def escaped? (c : Char) : Option Char :=
  match c with
  | '"' => some '"'
  | '\\' => some '\\'
  | '/' => some '/'
  | 'b' => some (Char.ofNat 8)
  | 'f' => some (Char.ofNat 12)
  | 'n' => some '\n'
  | 'r' => some '\r'
  | 't' => some '\t'
  | _ => none

def hexDigit? (c : Char) : Option Nat :=
  if c.isDigit then some (c.toNat - '0'.toNat)
  else if 'a' ≤ c && c ≤ 'f' then some (c.toNat - 'a'.toNat + 10)
  else if 'A' ≤ c && c ≤ 'F' then some (c.toNat - 'A'.toNat + 10)
  else none

def isHighHalf (n : Nat) : Bool := 0xD800 ≤ n && n < 0xDC00

def isLowHalf (n : Nat) : Bool := 0xDC00 ≤ n && n < 0xE000

/-- Goes on after an escape of four digits. -/
def afterHex? (read : List Char) (high? : Option Nat) (code : Nat) : Option Mode :=
  match high? with
  | some high =>
    if isLowHalf code then
      some (.string (Char.ofNat (0x10000 + (high - 0xD800) * 0x400 + (code - 0xDC00)) :: read))
    else none
  | none =>
    if isHighHalf code then some (.half read code)
    else if isLowHalf code then none
    else some (.string (Char.ofNat code :: read))

/-- Starts a token. -/
def start? (c : Char) : Option (Mode × List Token) :=
  if isBlank c then some (.ready, [])
  else if c = '"' then some (.string [], [])
  else if c.isDigit || c = '-' then some (.number [c], [])
  else if 'a' ≤ c && c ≤ 'z' then some (.word [c], [])
  else (punctuation? c).map fun t => (.ready, [t])

/-- Reads a character: what the token is now, and the tokens that are complete. -/
def step? (mode : Mode) (c : Char) : Option (Mode × List Token) :=
  match mode with
  | .ready => start? c
  | .word read =>
    if 'a' ≤ c && c ≤ 'z' then some (.word (c :: read), [])
    else do
      let token ← word? read.reverse
      let (mode, tokens) ← start? c
      return (mode, token :: tokens)
  | .number read =>
    if isNumeric c then some (.number (c :: read), [])
    else do
      let n ← Number.read? read.reverse
      let (mode, tokens) ← start? c
      return (mode, .number n :: tokens)
  | .string read =>
    if c = '"' then some (.ready, [.string (String.ofList read.reverse)])
    else if c = '\\' then some (.escape read, [])
    else if c.toNat < 32 then none
    else some (.string (c :: read), [])
  | .escape read =>
    if c = 'u' then some (.hex read none [], [])
    else (escaped? c).map fun c => (.string (c :: read), [])
  | .hex read high? digits => do
    let digit ← hexDigit? c
    let digits := digits ++ [digit]
    if digits.length < 4 then return (.hex read high? digits, [])
    let mode ← afterHex? read high? (digits.foldl (fun n d => 16 * n + d) 0)
    return (mode, [])
  | .half read high => if c = '\\' then some (.halfEscape read high, []) else none
  | .halfEscape read high => if c = 'u' then some (.hex read (some high) [], []) else none

/-- Ends the text: the token that is complete there. -/
def finish? : Mode → Option (List Token)
  | .ready => some []
  | .word read => (word? read.reverse).map ([·])
  | .number read => (Number.read? read.reverse).map ([.number ·])
  | _ => none

/-- The tokens of a text of which the beginning is read. -/
def scan? (mode : Mode) : List Char → Option (List Token)
  | [] => finish? mode
  | c :: cs => do
    let (mode, tokens) ← step? mode c
    let rest ← scan? mode cs
    return tokens ++ rest

end Lexer

/-- The tokens of a text. -/
def tokens? (text : String) : Option (List Token) :=
  Lexer.scan? .ready text.toList

end ThreeAddress.Json
