import SchemaLink.Digest.Sha256
import SchemaLink.Document.OfJson
import SchemaLink.FileName
import SchemaLink.Schema.OfDocuments

/-!
# Bundles of documents

A bundle is made of the documents below a directory. **Which files count** is decided by their
extension and by the start of their path; all others are not even read. **The order of files** is
that of a walk through the directory in which the entries of each directory are sorted by name:
files are compared component by component.

The digest of a bundle covers the contents of its files in this order.
-/

namespace SchemaLink

/-- A file below a directory. -/
structure SourceFile where
  /-- The components of the path from the directory; none if the directory is the file itself. -/
  path : List String
  /-- The name of the file. -/
  name : String
  contents : ByteArray

namespace SourceFile

/-- The path as a text. -/
def relative (f : SourceFile) : String :=
  "/".intercalate f.path

/-- The text of the file, if its bytes are UTF-8. -/
def text? (f : SourceFile) : Option String :=
  String.fromUTF8? f.contents

end SourceFile

/-- Which files count. -/
structure Intake where
  /-- The extension of documents. -/
  extension : String := "json"
  /-- Files whose path starts with one of these are left out. -/
  skipped : List String := ["target/", ".git/"]

/-- The file counts. -/
def Intake.takes (intake : Intake) (f : SourceFile) : Bool :=
  FileName.extension? f.name = some intake.extension
    && !intake.skipped.any fun start ↦ start.toList.isPrefixOf f.relative.toList

/-- A directory that has been read. -/
structure Bundle where
  schema : Schema
  /-- The digest of the contents. -/
  hash : String
  /-- The paths of the files, in order. -/
  files : List String

namespace Bundle

/-- One path comes before another, or they are equal. -/
def before : List String → List String → Bool
  | [], _ => true
  | _ :: _, [] => false
  | a :: as, b :: bs => a < b || (a = b && before as bs)

/-- The files that count, in order. -/
def select (intake : Intake) (files : List SourceFile) : List SourceFile :=
  (files.filter intake.takes).mergeSort fun f g ↦ before f.path g.path

/-- Reads the document in a file. -/
def readFile (f : SourceFile) : Except Fault Document :=
  match f.text? with
  | none => .error (.io "stream did not contain valid UTF-8")
  | some text => Document.parse f.relative text

/-- Reads the documents below a directory. -/
def read (intake : Intake) (files : List SourceFile) : Except Fault Bundle :=
  let chosen := select intake files
  match chosen.mapM readFile with
  | .error fault => .error fault
  | .ok docs =>
    match Schema.ofDocuments docs with
    | .error fault => .error fault
    | .ok schema =>
      .ok
        { schema
          hash := Digest.sha256 (chosen.flatMap (·.contents.toList))
          files := chosen.map SourceFile.relative }

end Bundle

end SchemaLink
