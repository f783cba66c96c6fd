import SchemaLink.FileName
import SchemaLink.Settings.Address
import SchemaLink.Settings.OfJson
import SchemaLink.Settings.Toml.Reader

/-!
# Finding settings files

A settings file is named by a path, and its extension tells its format. If there is no such file,
the path is tried again with the extension of each format added to it.

**How a file is read is left open**: the search asks for the text at a path, in whatever monad this
is done.
-/

namespace SchemaLink.Settings

/-- The formats of settings files. -/
inductive Format where
  | toml
  | json
deriving DecidableEq

namespace Format

/-- All formats, in the order in which they are tried. -/
def all : List Format :=
  [toml, json]

/-- The extension of files of a format. -/
def extension : Format → String
  | toml => "toml"
  | json => "json"

/-- The format of a file at a path. -/
def ofPath? (path : String) : Option Format :=
  match (FileName.ofPath? path).bind FileName.extension? with
  | some ending => all.find? (·.extension = ending)
  | none => none

/-- Reads a text of a format. -/
def read? : Format → String → Option Value
  | toml, text => readToml text
  | json, text => readJson text

end Format

/-- A settings file. -/
structure File where
  format : Format
  text : String

namespace File

/-- A text without a byte order mark at its front. -/
def withoutMark (text : String) : String :=
  match text.toList with
  | c :: cs => if c.toNat = 0xFEFF then String.ofList cs else text
  | [] => text

/-- The layer that a file holds. -/
def layer? (f : File) : Option Value :=
  f.format.read? (withoutMark f.text)

variable {m : Type → Type} [Monad m] (textAt? : String → m (Option String))

/-- The first of some formats for which there is a file at a path with the extension added. -/
def findExtended (path : String) : List Format → m (Option File)
  | [] => pure none
  | format :: formats =>
    match FileName.extended? path format.extension with
    | none => pure none
    | some extended => do
      match ← textAt? extended with
      | some text => pure (some { format, text })
      | none => findExtended path formats

/-- Finds the settings file at a path. A file whose extension stands for no format does not
count. -/
def find (path : String) : m (Option File) := do
  match ← textAt? path with
  | some text => pure ((Format.ofPath? path).map fun format ↦ { format, text })
  | none => findExtended textAt? path Format.all

end File

end SchemaLink.Settings
