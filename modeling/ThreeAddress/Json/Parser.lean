import ThreeAddress.Json.Lexer
import ThreeAddress.Json.Value
/-!
# Reading JSON

`parse?` reads the tokens of a text one by one. The containers that are open at a token lie on a
stack, innermost first, and a text that would nest deeper than a limit is refused.
-/

namespace ThreeAddress.Json

namespace Parser

/-- A container whose next item is being read; what it holds already comes last first. -/
inductive Container where
  | array (items : List Json)
  | object (members : List (String × Json)) (name : String)

/-- What has to come next. The innermost container that has a value to wait for is at the head. -/
inductive State where
  | value (stack : List Container)
  /-- The first item of an array, or its end. -/
  | firstItem (stack : List Container)
  /-- The first member of an object, or its end. -/
  | firstMember (stack : List Container)
  | name (members : List (String × Json)) (stack : List Container)
  | colon (members : List (String × Json)) (name : String) (stack : List Container)
  /-- A comma or the end, after an item. -/
  | afterItem (items : List Json) (stack : List Container)
  /-- A comma or the end, after a member. -/
  | afterMember (members : List (String × Json)) (stack : List Container)
  /-- The end of the text. -/
  | done (v : Json)

/-- Goes on after a value. -/
def complete (v : Json) : List Container → State
  | [] => .done v
  | .array items :: stack => .afterItem (v :: items) stack
  | .object members name :: stack => .afterMember ((name, v) :: members) stack

/-- Starts a value with its first token. -/
def start? (limit : Nat) (stack : List Container) : Token → Option State
  | .null => some (complete .null stack)
  | .bool b => some (complete (.bool b) stack)
  | .number n => some (complete (.number n) stack)
  | .string s => some (complete (.string s) stack)
  | .openArray => if stack.length < limit then some (.firstItem stack) else none
  | .openObject => if stack.length < limit then some (.firstMember stack) else none
  | .closeArray | .closeObject | .comma | .colon => none

/-- Reads a token. -/
def step? (limit : Nat) (state : State) (token : Token) : Option State :=
  match state, token with
  | .value stack, token => start? limit stack token
  | .firstItem stack, .closeArray => some (complete (.array []) stack)
  | .firstItem stack, token => start? limit (.array [] :: stack) token
  | .firstMember stack, .closeObject => some (complete (.object []) stack)
  | .firstMember stack, .string name => some (.colon [] name stack)
  | .name members stack, .string name => some (.colon members name stack)
  | .colon members name stack, .colon => some (.value (.object members name :: stack))
  | .afterItem items stack, .comma => some (.value (.array items :: stack))
  | .afterItem items stack, .closeArray => some (complete (.array items.reverse) stack)
  | .afterMember members stack, .comma => some (.name members stack)
  | .afterMember members stack, .closeObject => some (complete (.object members.reverse) stack)
  | _, _ => none

def run? (limit : Nat) (state : State) : List Token → Option Json
  | [] => match state with
    | .done v => some v
    | _ => none
  | token :: tokens => (step? limit state token).bind (run? limit · tokens)

end Parser

/-- The value that a text spells, with at most `limit` containers around one another. -/
def parse? (limit : Nat) (text : String) : Option Json :=
  (tokens? text).bind (Parser.run? limit (.value []))

end ThreeAddress.Json
