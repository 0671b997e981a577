import ThreeAddress.Pipeline
/-!
# Command line options

Arguments are read one by one. An option with a value takes what is attached to it, or else the
next argument, unless that looks like an option. Short options may be joined. No option may be
given twice, and after two dashes every argument is a file name. The first thing that is wrong, or
asks for help or for the version, ends the reading.
-/

namespace ThreeAddress.CommandLine

/-- Options without a value. -/
inductive Flag where
  | print | noMinimize | noSccp | noCse | noCopyProp | sequential | json | verbose
deriving DecidableEq, Repr

/-- Options with a value. -/
inductive Setting where
  | output | entry | maxRounds
deriving DecidableEq, Repr

/-- What a name on the command line stands for. -/
inductive Meaning where
  | flag (f : Flag)
  | setting (s : Setting)
  | help
  | version
deriving DecidableEq, Repr

/-- The options by their long names. -/
def longNames : List (String × Meaning) := [
  ("output", .setting .output), ("print", .flag .print), ("entry", .setting .entry),
  ("no-minimize", .flag .noMinimize), ("no-sccp", .flag .noSccp), ("no-cse", .flag .noCse),
  ("no-copy-prop", .flag .noCopyProp), ("sequential", .flag .sequential),
  ("max-rounds", .setting .maxRounds), ("json", .flag .json), ("verbose", .flag .verbose),
  ("help", .help), ("version", .version)]

/-- The options by their short names. -/
def shortNames : List (Char × Meaning) := [
  ('o', .setting .output), ('p', .flag .print), ('v', .flag .verbose), ('h', .help),
  ('V', .version)]

/-- The options that have been given. -/
structure Given where
  file? : Option String
  output? : Option String
  entry? : Option String
  maxRounds? : Option Nat
  flags : List Flag
deriving DecidableEq, Repr

/-- What ends the reading of a command line before its end. -/
inductive Stop where
  /-- The command line is wrong. -/
  | usage
  | help
  | version
deriving DecidableEq, Repr

/-! ## Values -/

/-- A number in decimal, with or without a plus sign, of at most 64 bits. -/
def readCount? (s : String) : Option Nat :=
  let digits := match s.toList with
    | '+' :: cs => cs
    | cs => cs
  let n := digits.foldl (fun n c => 10 * n + (c.toNat - '0'.toNat)) 0
  if !digits.isEmpty && digits.all Char.isDigit && n < UInt64.size then some n else none

/-- A first value for an option; a second one is refused. -/
def once {α : Type} (old? : Option α) (new : α) : Except Stop (Option α) :=
  match old? with
  | none => .ok (some new)
  | some _ => .error .usage

/-- A file name; it may not be empty. -/
def fileName (s : String) : Except Stop String :=
  if s.isEmpty then .error .usage else .ok s

namespace Given

def setFlag (g : Given) (f : Flag) : Except Stop Given :=
  if g.flags.contains f then .error .usage else .ok { g with flags := f :: g.flags }

def setFile (g : Given) (value : String) : Except Stop Given := do
  let name ← fileName value
  let file? ← once g.file? name
  return { g with file? := file? }

def setValue (g : Given) (s : Setting) (value : String) : Except Stop Given :=
  match s with
  | .output => do
    let name ← fileName value
    let output? ← once g.output? name
    return { g with output? := output? }
  | .entry => do
    let entry? ← once g.entry? value
    return { g with entry? := entry? }
  | .maxRounds =>
    match readCount? value with
    | none => throw .usage
    | some n => do
      let maxRounds? ← once g.maxRounds? n
      return { g with maxRounds? := maxRounds? }

end Given

/-! ## Arguments -/

/-- A command line that has been read up to some argument. -/
structure Reading where
  given : Given
  /-- The option whose value comes next. -/
  awaits? : Option Setting
  /-- Whether two dashes have been passed. -/
  namesOnly : Bool
deriving DecidableEq, Repr

namespace Reading

def start : Reading := ⟨⟨none, none, none, none, []⟩, none, false⟩

/-- Whether an argument has the form of an option. -/
def isOption (cs : List Char) : Bool :=
  match cs with
  | '-' :: _ :: _ => true
  | _ => false

/-- Reads a long option, without its dashes. -/
def long (r : Reading) (cs : List Char) : Except Stop Reading := do
  let name := String.ofList (cs.takeWhile (· != '='))
  let value? : Option String := match cs.dropWhile (· != '=') with
    | [] => none
    | _ :: value => some (String.ofList value)
  match longNames.lookup name, value? with
  | some (.flag f), none => do
    let given ← r.given.setFlag f
    return { r with given := given }
  | some (.setting s), none => return { r with awaits? := some s }
  | some (.setting s), some value => do
    let given ← r.given.setValue s value
    return { r with given := given }
  | some .help, none => throw .help
  | some .version, none => throw .version
  | _, _ => throw .usage

/-- Reads short options that are joined, without their dash; an option with a value takes the
rest. -/
def short (r : Reading) : List Char → Except Stop Reading
  | [] => return r
  | c :: cs =>
    match shortNames.lookup c with
    | some (.flag f) => do
      let given ← r.given.setFlag f
      short { r with given := given } cs
    | some (.setting s) =>
      match cs with
      | [] => return { r with awaits? := some s }
      | cs => do
        let value := match cs with
          | '=' :: value => value
          | value => value
        let given ← r.given.setValue s (String.ofList value)
        return { r with given := given }
    | some .help => throw .help
    | some .version => throw .version
    | none => throw .usage

/-- Reads an argument. -/
def step (r : Reading) (arg : String) : Except Stop Reading :=
  let cs := arg.toList
  if r.namesOnly || (r.awaits?.isNone && !isOption cs) then do
    let given ← r.given.setFile arg
    return { r with given := given }
  else match r.awaits? with
    | some s =>
      if isOption cs then throw .usage
      else do
        let given ← r.given.setValue s arg
        return { r with given := given, awaits? := none }
    | none =>
      match cs with
      | ['-', '-'] => return { r with namesOnly := true }
      | '-' :: '-' :: name => r.long name
      | cs => r.short (cs.drop 1)

end Reading

/-- A complete command line. -/
structure Options where
  file : String
  output? : Option String
  entry : String
  config : Config
  print : Bool
  json : Bool
deriving DecidableEq, Repr

/-- The entry where no other is given. -/
def defaultEntry : String := "@main"

/-- The configuration that the options ask for. -/
def Given.config (g : Given) : Config :=
  let without (f : Flag) : Bool := !g.flags.contains f
  ⟨without .noMinimize, without .noSccp, without .noCse, without .noCopyProp,
    g.maxRounds?.getD PhiMinimization.defaultRounds⟩

/-- Reads a command line. -/
def parse (args : List String) : Except Stop Options := do
  let r ← args.foldlM Reading.step Reading.start
  match r.awaits?, r.given.file? with
  | none, some file =>
    return ⟨file, r.given.output?, r.given.entry?.getD defaultEntry, r.given.config,
      r.given.flags.contains .print, r.given.flags.contains .json⟩
  | _, _ => throw .usage

end ThreeAddress.CommandLine
