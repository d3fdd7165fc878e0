import ShaderSplit.Command.Run

namespace ShaderSplit

def usage : String := "Usage: hshgen [OPTIONS] <INPUT> <OUTPUT>\n"

def readText (path : String) : IO (Except String String) := do
  try return .ok (← IO.FS.readFile path)
  catch e => return .error (toString e)

/-- The files that a command can ask for, read beforehand. No other program is ever run. -/
def environment (o : Options) : IO Environment := do
  let config := o.config.getD Settings.defaultPath
  let settings ← readText config
  let input ← readText o.input
  return {
    isFile := fun path => path == config && settings.isOk
    read := fun path => if path == config then settings else input
    run := fun program _ => .error s!"cannot run {program}"
    writeFault := fun _ _ => none }

def perform (o : Options) : IO UInt32 := do
  let outcome := Command.run (← environment o) o
  outcome.notices.forM fun n => IO.eprintln s!"warning: {n}"
  IO.eprint outcome.stderr
  for (path, text) in outcome.files do
    try IO.FS.writeFile path text
    catch e =>
      IO.eprintln s!"error: cannot write '{path}': {e}"
      return 1
  return outcome.exit.toUInt32

end ShaderSplit

def main (args : List String) : IO UInt32 := do
  match ShaderSplit.Options.parse args with
  | .ok o => ShaderSplit.perform o
  | .error refusal =>
    IO.eprint ShaderSplit.usage
    return refusal.exitCode.toUInt32
