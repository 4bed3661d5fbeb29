import WireSchema.CommandLine.Run

/-!
# Main

The program: reads the schema's file, runs the command line, and prints.
-/

/-- The text of a file, if there is one; what is no text is no schema either. -/
def readSchemaFile (words : List String) : IO (Option (String × String)) := do
  match WireSchema.CommandLine.Arguments.read words with
  | .error _ => return none
  | .ok a =>
      let path := WireSchema.PathName.normal (a.schema?.getD "")
      try
        let bytes ← IO.FS.readBinFile path
        return some (path, (String.fromUTF8? bytes).getD "\ufffd")
      catch _ => return none

def main (words : List String) : IO UInt32 := do
  let found? ← readSchemaFile words
  let ending := WireSchema.CommandLine.run words fun path =>
    found?.bind fun (name, text) => if name = path then some text else none
  match ending with
  | .error abort =>
      IO.eprintln abort.message.shown
      return 1
  | .ok output =>
      for line in output.stderr do
        IO.eprintln line.shown
      for line in output.stdout do
        IO.println line.shown
      return UInt32.ofNat output.exit
