import ThreeAddress.CommandLine.Options
import ThreeAddress.Format.Reader
import ThreeAddress.Format.Writer
import ThreeAddress.Machine.Step
/-!
# What the command does

The command reads a program, optimizes it, and writes it to a file, prints it or runs it. Its whole
answer is a function of the options and of the text of the file: a file to write, the text for the
standard output, and the exit status.
-/

namespace ThreeAddress.CommandLine

/-- An answer of the command. -/
structure Response where
  status : UInt32
  stdout : String
  /-- A file to write before anything is printed, by name and text. If it cannot be written, the
  answer is `failure` instead. -/
  file? : Option (String × String)
deriving DecidableEq, Repr

/-- The answer to work that fails. -/
def failure : Response := ⟨1, "", none⟩

/-- The answer to a command line that is wrong. -/
def misuse : Response := ⟨2, "", none⟩

def versionText : String := "tacopt 0.1.0\n"

def helpText : String := "\n".intercalate [
  "Command-line driver for the tacopt TAC optimizer",
  "",
  "Usage: tacopt [OPTIONS] <FILE>",
  "",
  "Arguments:",
  "  <FILE>  Path to the TAC JSON file",
  "",
  "Options:",
  "  -o, --output <OUT>    Write the optimized program as TAC JSON to this file",
  "  -p, --print           Print the optimized program as textual TAC instead of running it",
  "      --entry <ENTRY>   Procedure to run after optimization [default: @main]",
  "      --no-minimize     Skip SSA minimization",
  "      --no-sccp         Skip sparse conditional constant propagation",
  "      --no-cse          Skip common subexpression elimination",
  "      --no-copy-prop    Skip global copy propagation",
  "      --sequential      Optimize procedures one after another instead of in parallel",
  "      --max-rounds <N>  Maximum number of SSA minimization rounds",
  "      --json            Emit output as JSON instead of human-readable text",
  "  -v, --verbose         Enable verbose (debug-level) logging output and the event summary",
  "  -h, --help            Print help",
  "  -V, --version         Print version",
  ""]

/-- The answer to a command line that ends early. -/
def Stop.response : Stop → Response
  | .usage => misuse
  | .help => ⟨0, helpText, none⟩
  | .version => ⟨0, versionText, none⟩

/-! ## Reports -/

/-- The number of instructions of a program, labels included. -/
def instructionCount (p : Program) : Nat :=
  (p.procedures.flatMap Procedure.body).length

/-- The number of events of each kind, by the texts of the kinds. -/
def countsJson (log : EventLog) : Json :=
  let counts := log.counts.map fun c => (c.1.text, Json.int c.2)
  .object (counts.mergeSort fun a b => !(b.1 < a.1))

/-- An account of what was done; without a run there is neither output nor result. -/
def report (options : Options) (source : Program) (optimized : OptimizedProgram)
    (outcome? : Option Outcome) : Json :=
  let log := optimized.events
  .object [
    ("file", .string options.file),
    ("procedures", .int source.procedures.length),
    ("procedures_changed", .int log.affected.length),
    ("passes", .array (options.config.passes.map fun p => .string p.name)),
    ("instructions_before", .int (instructionCount source)),
    ("instructions_after", .int (instructionCount optimized.program)),
    ("events", countsJson log),
    ("output", match outcome? with
      | some o => .array (o.output.map Json.string)
      | none => .null),
    ("result", match outcome?.bind (·.result?) with
      | some n => .int n.toInt
      | none => .null)]

/-! ## Answers -/

/-- The program as it is printed. -/
def printed (options : Options) (p : Program) : String :=
  if options.json then p.toJson.pretty ++ "\n" else p.text

/-- The report, or the lines that the run printed. -/
def summarized (options : Options) (source : Program) (optimized : OptimizedProgram)
    (outcome? : Option Outcome) : String :=
  if options.json then (report options source optimized outcome?).pretty ++ "\n"
  else match outcome? with
    | some o => String.join (o.output.map (· ++ "\n"))
    | none => ""

/-- The answer on an optimized program: it is run unless it is printed or written. -/
def answer (options : Options) (source : Program) (optimized : OptimizedProgram) : Response :=
  let file? := options.output?.map fun name => (name, optimized.program.toJson.compact)
  if options.print then ⟨0, printed options optimized.program, file?⟩
  else if options.output?.isSome then ⟨0, summarized options source optimized none, file?⟩
  else
    match optimized.program.run options.entry [] Program.defaultStepLimit with
    | .error _ => failure
    | .ok outcome => ⟨0, summarized options source optimized (some outcome), none⟩

/-- The answer on the text of the file. -/
def respond (options : Options) (text : String) : Response :=
  match Program.parse text with
  | .error _ => failure
  | .ok source =>
    match source.optimize options.config with
    | .error _ => failure
    | .ok optimized => answer options source optimized

end ThreeAddress.CommandLine
