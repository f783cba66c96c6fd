/-!
# Names of files

The parts of a path and of a file name on which the treatment of a file depends.
-/

namespace SchemaLink.FileName

/-- The extension of a file name: what follows its last dot, unless that is at the very front. -/
def extension? (name : String) : Option String :=
  match name.toList.reverse.span (· != '.') with
  | (_, []) | (_, [_]) => none
  | (ending, _ :: _ :: _) => some (String.ofList ending.reverse)

/-- Drops slashes, and slashes with a dot, at the end of a path; the path is read backwards. -/
def dropSlashes : List Char → List Char
  | '/' :: cs => dropSlashes cs
  | '.' :: '/' :: cs => dropSlashes cs
  | cs => cs

/-- A path without what has no meaning at its end, read backwards. -/
def backwards (path : String) : List Char :=
  dropSlashes path.toList.reverse

/-- The last name in a path, unless the path ends with a step that is no name. -/
def ofPath? (path : String) : Option String :=
  match String.ofList ((backwards path).takeWhile (· != '/')).reverse with
  | "" | "." | ".." => none
  | name => some name

/-- The path of the file whose name has one more extension. -/
def extended? (path extension : String) : Option String :=
  (ofPath? path).map fun _ ↦ String.ofList (backwards path).reverse ++ "." ++ extension

end SchemaLink.FileName
