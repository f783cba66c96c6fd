import SchemaLink.Bundle
import SchemaLink.Session.Basic
import SchemaLink.Settings.File
import SchemaLink.Settings.Toml.Printer

/-!
# Settings of a run

The settings of a run are read from layers: files, and then the environment. What no layer mentions
has its default. Whether the values make sense is checked once, on all layers together.
-/

namespace SchemaLink

/-- The settings of a run. -/
structure Settings where
  /-- The directory with the documents. -/
  dir : String := "."
  /-- The extension of documents. -/
  extension : String := "json"
  /-- Files whose path starts with one of these are left out. -/
  skipped : List String := []
  policy : Policy := .bestEffort
  /-- What is logged. -/
  logFilter : String := "info"

namespace Settings

/-! ### Reading -/

/-- The files in the working directory that are read, in order. -/
def defaultFiles : List String :=
  ["resolver.toml", ".resolver.toml", "config/resolver.toml"]

/-- What the names of the environment variables start with. -/
def variablePrefix : String := "SCHEMA_RESOLVER__"

/-- The key of a variable, given its name without the common start: a doubled underscore stands for
a dot. -/
def variableKey (name : String) : String :=
  let rec dotted : List Char → List Char
    | '_' :: '_' :: cs => '.' :: dotted cs
    | c :: cs => c :: dotted cs
    | [] => []
  String.ofList (dotted (Text.lowerCase name).toList)

/-- The layer of one variable, given its name without the common start. -/
def variableLayer (name value : String) : Value :=
  .table [(variableKey name, .text (scalar value))]

/-- A section of the settings as a table; an absent one is empty. The items of a list are the values
of the keys in their order. -/
def section? (layer : Value) (name : String) (keys : List String) : Option Value :=
  match layer.get? name with
  | none => some (.table [])
  | some (.table es) => some (.table es)
  | some (.list items) => some (.table (keys.zip items))
  | some _ => none

/-- A text in a table, with its default. -/
def text? (table : Value) (key dflt : String) : Option String :=
  match table.get? key with
  | none => some dflt
  | some v => v.text?

/-- A list of texts in a table; an absent one is empty. -/
def list? (table : Value) (key : String) : Option (List String) :=
  match table.get? key with
  | none => some []
  | some (.list items) => items.mapM Value.text?
  | some _ => none

/-- The policy in a table, given as a text or as the only key of a table, without regard to case. -/
def policy? (table : Value) : Option Policy :=
  match table.get? "policy" with
  | none => some .bestEffort
  | some (.text s) => Policy.ofKeyword? (Text.lowerCase s)
  | some (.table [(key, _)]) => Policy.ofKeyword? (Text.lowerCase key)
  | some _ => none

/-- The settings that a layer describes. -/
def ofLayer (layer : Value) : Option Settings := do
  let input ← section? layer "input" ["dir", "extension", "skip_prefixes"]
  let resolution ← section? layer "resolution" ["policy"]
  let logging ← section? layer "logging" ["filter"]
  some
    { dir := ← text? input "dir" "."
      extension := ← text? input "extension" "json"
      skipped := ← list? input "skip_prefixes"
      policy := ← policy? resolution
      logFilter := ← text? logging "filter" "info" }

/-- The settings from files and from variables, later ones first in rank. There are none if a file
cannot be read or a value makes no sense. -/
def load (files : List File) (vars : List (String × String)) : Option Settings := do
  let layers ← files.mapM File.layer?
  let all := layers ++ vars.map fun v ↦ variableLayer v.1 v.2
  ofLayer (all.foldl Value.enterAll (.table []))

/-! ### Use -/

/-- The directory with the documents, as seen from a working directory. -/
def documentDir (s : Settings) (workingDir : String) : String :=
  if s.dir.toList.head? = some '/' then s.dir else workingDir ++ "/" ++ s.dir

/-- Which files count. -/
def intake (s : Settings) : Intake :=
  { extension := s.extension, skipped := s.skipped }

/-- The text of a file with these settings. -/
def render (s : Settings) : String :=
  "[input]\ndir = " ++ writeText s.dir ++ "\nextension = " ++ writeText s.extension
    ++ "\nskip_prefixes = " ++ writeList s.skipped
    ++ "\n\n[resolution]\npolicy = " ++ writeText s.policy.keyword
    ++ "\n\n[logging]\nfilter = " ++ writeText s.logFilter ++ "\n"

end Settings

end SchemaLink
