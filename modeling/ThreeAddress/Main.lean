import ThreeAddress.CommandLine.Response
/-!
# The command

Reads the file, writes and prints what the answer says.
-/

open ThreeAddress.CommandLine

/-- Carries out an answer. -/
def perform (r : Response) : IO UInt32 := do
  try
    if let some (name, text) := r.file? then IO.FS.writeFile name text
    IO.print r.stdout
    return r.status
  catch _ => return failure.status

def main (args : List String) : IO UInt32 := do
  match parse args with
  | .error stop => perform stop.response
  | .ok options =>
    try
      let text ← IO.FS.readFile options.file
      perform (respond options text)
    catch _ => return failure.status
