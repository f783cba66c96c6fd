import SchemaLink.CommandLine.Help

/-!
# The program

Reads what the pure part needs from the surroundings (arguments, settings files, environment and the
files below the input directory) and prints the outcome.
-/

namespace SchemaLink.CommandLine

/-- The variables of the environment that are looked at, without their common start. -/
def knownVariables : List String :=
  ["INPUT", "INPUT__DIR", "INPUT__EXTENSION", "INPUT__SKIP_PREFIXES", "RESOLUTION",
   "RESOLUTION__POLICY", "LOGGING", "LOGGING__FILTER"]

/-- The text of a file, if it is there. -/
def textAt? (path : String) : IO (Option String) := do
  try
    return some (← IO.FS.readFile path)
  catch _ =>
    return none

/-- The values of the known variables that are set. -/
def readVariables : IO (List (String × String)) := do
  let found ← knownVariables.mapM fun name ↦ do
    return (← IO.getEnv (Settings.variablePrefix ++ name)).map (name, ·)
  return found.filterMap id

/-- The place of the user's own settings file. -/
def userFile : IO (List String) := do
  match ← IO.getEnv "XDG_CONFIG_HOME", ← IO.getEnv "HOME" with
  | some dir, _ => return [dir ++ "/schema-resolver/resolver.toml"]
  | none, some home => return [home ++ "/.config/schema-resolver/resolver.toml"]
  | none, none => return []

/-- The settings of a call, if they can be read. -/
def readSettings (config : Option String) : IO (Option Settings) := do
  let found ← (Settings.defaultFiles ++ (← userFile)).mapM (Settings.File.find textAt?)
  let vars ← readVariables
  match config with
  | none => return Settings.load (found.filterMap id) vars
  | some path =>
    match ← Settings.File.find textAt? path with
    | none => return none
    | some file => return Settings.load (found.filterMap id ++ [file]) vars

/-- The files below a directory; none if there is no such directory. -/
partial def filesBelow (path : String) (below : List String) (name : String) :
    IO (List SourceFile) := do
  try
    let entries ← (← IO.FS.realPath path).readDir
    let parts ← entries.toList.mapM fun entry ↦
      filesBelow (path ++ "/" ++ entry.fileName) (below ++ [entry.fileName]) entry.fileName
    return parts.flatten
  catch _ =>
    try
      return [{ path := below, name, contents := ← IO.FS.readBinFile path }]
    catch _ =>
      return []

/-- Carries out a call. -/
def carryOut (call : Call) : IO Outcome := do
  match ← readSettings call.config with
  | none => return settingsFailure
  | some settings =>
    let settings := call.adjust settings
    let workingDir := (← IO.currentDir).toString
    let dir := settings.documentDir workingDir
    let name := String.ofList (dir.toList.reverse.takeWhile (· != '/')).reverse
    return call.execute settings workingDir (← filesBelow dir [] name)

end SchemaLink.CommandLine

open SchemaLink.CommandLine in
/-- The program. -/
def main (args : List String) : IO UInt32 := do
  let outcome ← match request args with
    | .run call => carryOut call
    | .help topic => pure (helpOutcome topic)
    | .misuse => pure misuseOutcome
  IO.print outcome.output
  IO.eprint outcome.errors
  return outcome.exitCode.toUInt32
