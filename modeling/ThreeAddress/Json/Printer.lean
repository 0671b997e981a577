import ThreeAddress.Json.Value
/-!
# Writing JSON

`compact` writes a value without blanks, `pretty` with a line for each item and member, indented by
two spaces a level. Both keep the order of members. In a string, the quote, the backslash and
control characters are escaped, all else stands for itself.
-/

namespace ThreeAddress.Json

/-- A hexadecimal digit, in lower case. -/
def hexDigit (n : Nat) : Char := Nat.digitChar (n % 16)

/-- The character as it stands in a string. -/
def escapeChar (c : Char) : List Char :=
  if c = '"' then ['\\', '"']
  else if c = '\\' then ['\\', '\\']
  else if c = '\n' then ['\\', 'n']
  else if c = '\r' then ['\\', 'r']
  else if c = '\t' then ['\\', 't']
  else if c.toNat = 8 then ['\\', 'b']
  else if c.toNat = 12 then ['\\', 'f']
  else if c.toNat < 32 then ['\\', 'u', '0', '0', hexDigit (c.toNat / 16), hexDigit c.toNat]
  else [c]

/-- The string between quotes. -/
def quoted (s : String) : String :=
  "\"" ++ String.ofList (s.toList.flatMap escapeChar) ++ "\""

mutual

/-- The text without blanks. -/
def compact : Json → String
  | null => "null"
  | bool b => toString b
  | number n => n.text
  | string s => quoted s
  | array items => "[" ++ ",".intercalate (compactItems items) ++ "]"
  | object members => "\x7b" ++ ",".intercalate (compactMembers members) ++ "\x7d"

def compactItems : List Json → List String
  | [] => []
  | v :: vs => v.compact :: compactItems vs

def compactMembers : List (String × Json) → List String
  | [] => []
  | (name, v) :: ms => (quoted name ++ ":" ++ v.compact) :: compactMembers ms

end

/-- Lines between two brackets, indented by `depth + 1` levels. -/
def block (opening closing : String) (depth : Nat) (lines : List String) : String :=
  let indent (n : Nat) := "\n" ++ String.ofList (List.replicate (2 * n) ' ')
  if lines.isEmpty then opening ++ closing
  else opening ++ ",".intercalate (lines.map (indent (depth + 1) ++ ·)) ++ indent depth ++ closing

mutual

/-- The text in lines, as it stands at a depth of nesting. -/
def prettyAt (depth : Nat) : Json → String
  | array items => block "[" "]" depth (prettyItems depth items)
  | object members => block "\x7b" "\x7d" depth (prettyMembers depth members)
  | null => "null"
  | bool b => toString b
  | number n => n.text
  | string s => quoted s

def prettyItems (depth : Nat) : List Json → List String
  | [] => []
  | v :: vs => v.prettyAt (depth + 1) :: prettyItems depth vs

def prettyMembers (depth : Nat) : List (String × Json) → List String
  | [] => []
  | (name, v) :: ms => (quoted name ++ ": " ++ v.prettyAt (depth + 1)) :: prettyMembers depth ms

end

/-- The text in lines. -/
def pretty (v : Json) : String := v.prettyAt 0

end ThreeAddress.Json
