import InoBlocks.CommandLine.Outcome
import Std.Time

/-!
# The command line tool

The thin layer between the tool and the system: it gathers what an invocation looks at, asks for
the outcome, and carries it out.
-/

namespace InoBlocks

namespace CommandLine

/-- What stands at a path that can be read; whatever else stands there counts as a folder or as
nothing. -/
def readEntry (path : String) : IO Entry := do
  try
    return .file (← IO.FS.readBinFile path).toList
  catch
    | .inappropriateType _ 21 _ => return .folder
    | .inappropriateType .. => return .beneathFile
    | _ => return .absent

/-- What stands at a path.  What is absent is homeless unless its folder is there. -/
def findEntry (path : String) : IO Entry := do
  match ← readEntry path with
  | .absent =>
      let above := (Path.ofText path).names.dropLast
      let folder : Path := ⟨(Path.ofText path).root, above⟩
      match ← readEntry folder.text with
      | .folder => return .absent
      | _ => return .homeless
  | entry => return entry

def readClock : IO String := do
  let now ← Std.Time.PlainDateTime.now
  return now.format "uuuu-MM-dd'T'HH:mm:ss"

/-- What a request finds around it, given the paths that it looks at. -/
def gather (paths : List String) : IO Surroundings := do
  let entries ← paths.mapM fun path => return (path, ← findEntry path)
  let settings ← Options.settingNames.mapM fun name => return (name, ← IO.getEnv name)
  let now ← readClock
  return {
    look := fun path => (entries.lookup path).getD .absent
    setting? := fun name => (settings.lookup name).join
    now := now
    room := usualRoom }

def Outcome.carryOut (o : Outcome) : IO UInt32 := do
  let written ←
    try
      o.written.forM fun (path, text) => IO.FS.writeFile path text
      pure none
    catch e => pure (some e)
  match written with
  | none =>
      IO.print o.printed
      IO.eprint o.said
      return o.exit.code.toUInt32
  | some e =>
      IO.eprintln ("Error: " ++ toString e)
      return Exit.badInput.code.toUInt32

end CommandLine

end InoBlocks

open InoBlocks.CommandLine in
def main (arguments : List String) : IO UInt32 := do
  match Request.ofArguments arguments with
  | .error refusal => refusal.outcome.carryOut
  | .ok request =>
      let surroundings ← gather request.paths
      ((request.outcome? surroundings).getD Refusal.misuse.outcome).carryOut
