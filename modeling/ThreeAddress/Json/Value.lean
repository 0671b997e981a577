import ThreeAddress.Json.Number
/-!
# JSON values

An object keeps its members as they are written, repeated names included. Its `canonical` form has
ascending names, and of a repeated name the last member; two texts of one value have one canonical
form.
-/

namespace ThreeAddress

inductive Json where
  | null
  | bool (b : Bool)
  | number (n : Json.Number)
  | string (s : String)
  | array (items : List Json)
  | object (members : List (String × Json))
deriving Repr, Inhabited

namespace Json

/-- An integer. -/
def int (n : Int) : Json := .number (.integer n)

def string? : Json → Option String
  | string s => some s
  | _ => none

def array? : Json → Option (List Json)
  | array items => some items
  | _ => none

def int64? : Json → Option Int64
  | number n => n.int64?
  | _ => none

/-! ## Members -/

/-- Where a name occurs among the members of an object. -/
inductive Field where
  | absent
  | once (value : Json)
  | repeated

/-- The field of a name. -/
def field (name : String) (members : List (String × Json)) : Field :=
  match members.filter (·.1 == name) with
  | [] => .absent
  | [(_, value)] => .once value
  | _ => .repeated

/-- The value of a name that occurs once. -/
def Field.value? : Field → Option Json
  | once value => some value
  | absent | repeated => none

/-! ## Canonical form -/

/-- Puts a member in its place, over the one of the same name. -/
def insertMember (name : String) (value : Json) : List (String × Json) → List (String × Json)
  | [] => [(name, value)]
  | m :: ms =>
    if name < m.1 then (name, value) :: m :: ms
    else if m.1 < name then m :: insertMember name value ms
    else (name, value) :: ms

/-- The members by ascending name, the last one of each. -/
def sortMembers (members : List (String × Json)) : List (String × Json) :=
  members.foldl (fun sorted m => insertMember m.1 m.2 sorted) []

mutual

/-- The value with every object in canonical order. -/
def canonical : Json → Json
  | array items => array (canonicalItems items)
  | object members => object (sortMembers (canonicalMembers members))
  | v => v

def canonicalItems : List Json → List Json
  | [] => []
  | v :: vs => v.canonical :: canonicalItems vs

def canonicalMembers : List (String × Json) → List (String × Json)
  | [] => []
  | (name, v) :: ms => (name, v.canonical) :: canonicalMembers ms

end

end Json

end ThreeAddress
