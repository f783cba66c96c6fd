import SchemaLink.CommandLine.Arguments
import SchemaLink.Json.Printer
import SchemaLink.Document.ToJson
import SchemaLink.Resolution
import SchemaLink.Settings.Basic

/-!
# What the commands print

A command loads the documents below the input directory, links them and prints a report, as text or
as JSON. Its exit code is 0, or 1 if the report shows errors, or 2 if there is no report because
something failed on the way.
-/

namespace SchemaLink.CommandLine

/-- What a run leaves behind. -/
structure Outcome where
  exitCode : UInt8
  output : String := ""
  errors : String := ""

/-- Lines, each ended by a line break. -/
def lines (ls : List String) : String :=
  String.join (ls.map (· ++ "\n"))

/-- The outcome of a failure. -/
def failed (message : String) (output : String := "") : Outcome :=
  { exitCode := 2, output, errors := "Error: " ++ message ++ "\n" }

/-- The wording of an outcome without an answer. -/
def haltMessage : Halt → String
  | .fault fault => fault.message
  | .unending => "the search for a path does not end"

/-- A JSON report. -/
def jsonReport (exitCode : UInt8) (j : Json) : Outcome :=
  { exitCode, output := j.pretty ++ "\n" }

/-! ### Order -/

/-- A number, with blanks in front up to three characters. -/
def paddedNumber (n : Nat) : String :=
  let digits := Nat.repr n
  String.ofList (List.replicate (3 - digits.length) ' ') ++ digits

/-- The order of the modules. -/
def orderReport (json : Bool) (l : Linked) : Outcome :=
  if json then jsonReport 0 (Json.ofTexts l.processedNames)
  else
    { exitCode := 0
      output := lines (l.processedNames.zipIdx.map fun e ↦ paddedNumber (e.2 + 1) ++ ". " ++ e.1) }

/-! ### Diagnostics -/

/-- The JSON of a diagnostic item. -/
def diagnosticJson (d : Diagnostic) : Json :=
  .object
    ([("operation", .string d.activity.keyword), ("severity", .string d.severity.title),
      ("code", .string d.code), ("module", .string d.module), ("subject", .string d.subject),
      ("message", .string d.message)]
      ++ if d.context.isEmpty then [] else [("context", Json.ofTexts d.context)])

/-- The diagnostics of the run. -/
def checkReport (json : Bool) (l : Linked) : Outcome :=
  let ds := l.session.diagnostics
  let exitCode := if ds.hasErrors then 1 else 0
  if json then jsonReport exitCode (.object [("items", .array (ds.map diagnosticJson))])
  else if ds.isEmpty then
    { exitCode, output := lines ["✅ " ++ Nat.repr l.order.length ++ " module(s) resolved cleanly"] }
  else { exitCode, output := lines [ds.report] }

/-! ### Types -/

/-- A node that holds a value, with its value name or what is wrong with it. -/
structure ValueRow where
  module : String
  node : String
  kind : Kind
  type : Except String String

namespace ValueRow

/-- The row of a node; `table` holds the links of all leaf references. -/
def of (x : Session) (table : Array (Option LeafLink)) (id : NodeId) : ValueRow :=
  { module := x.schema.homeName id
    node := x.schema.scopedLabel id
    kind := x.schema.kind id
    type := (x.valueTypeNameBy (x.linkIn table) id).mapError haltMessage }

/-- The row shows an error. -/
def isError (r : ValueRow) : Bool :=
  match r.type with
  | .ok _ => false
  | .error _ => true

/-- The line of a row. -/
def line (r : ValueRow) : String :=
  r.module ++ "  " ++ r.node ++ "  "
    ++ match r.type with
      | .ok name => name
      | .error message => "❌ " ++ message

/-- The JSON of a row. -/
def toJson (r : ValueRow) : Json :=
  .object
    [("module", .string r.module), ("node", .string r.node), ("kind", .string r.kind.keyword),
      match r.type with
      | .ok name => ("type_name", .string name)
      | .error message => ("error", .string message)]

end ValueRow

/-- The rows of all nodes that hold a value and have a place in the data. -/
def valueRows (x : Session) : Except Halt (List ValueRow) :=
  let holders := x.schema.nodeIds.filter fun id ↦ (x.schema.kind id).holdsValue
  match selectM x.inDataTree holders with
  | .ok placed =>
    let table := x.links
    .ok (placed.map (ValueRow.of x table))
  | .error halt => .error halt

/-- The types of all values. -/
def typesReport (json : Bool) (l : Linked) : Outcome :=
  match valueRows l.session with
  | .error halt => failed (haltMessage halt)
  | .ok rows =>
    let exitCode := if rows.any ValueRow.isError then 1 else 0
    if json then jsonReport exitCode (.array (rows.map ValueRow.toJson))
    else { exitCode, output := lines (rows.map ValueRow.line) }

/-! ### Identities -/

/-- The lines of root identities, as far as they can be named, and the fault that ends them. -/
def rootLines (x : Session) : List (String × String × NodeId) → List String × Option Fault
  | [] => ([], none)
  | (module, name, root) :: rest =>
    match x.registry.familyTypeName x.schema root with
    | .error fault => ([], some fault)
    | .ok typeName =>
      let (ls, fault?) := rootLines x rest
      ((module ++ "  base " ++ name ++ "  -> " ++ typeName) :: ls, fault?)

/-- The root identities of all modules, in order, with their modules. -/
def rootsOf (l : Linked) : List (String × String × NodeId) :=
  l.order.flatMap fun m ↦
    let d := l.session.schema.module m
    d.roots.map fun r ↦ (d.name, r.1, r.2)

/-- The table entries of all modules, in order, with the names of module and submodule. -/
def entriesOf (l : Linked) : List (String × String × IdentityEntry) :=
  l.order.flatMap fun m ↦
    let d := l.session.schema.module m
    d.units.flatMap fun u ↦
      let b := l.session.schema.submodule u
      b.table.map fun e ↦ (d.name, b.name, e)

/-- The JSON of a table entry. -/
def entryJson (s : Schema) : String × String × IdentityEntry → Json
  | (module, submodule, e) =>
    .object
      [("module", .string module), ("submodule", .string submodule),
        ("identity", .string e.identity), ("base", .string (s.node e.base).name),
        ("base_type", .string e.baseType), ("namespace", .string e.space),
        ("prefix", .string e.ownPrefix)]

/-- The line of a table entry. -/
def entryLine : String × String × IdentityEntry → String
  | (module, submodule, e) =>
    module ++ "/" ++ submodule ++ "  " ++ e.identity ++ " in " ++ e.baseType ++ " ("
      ++ e.ownPrefix ++ " " ++ e.space ++ ")"

/-- The root identities and the table entries. -/
def identitiesReport (json : Bool) (l : Linked) : Outcome :=
  let entries := entriesOf l
  if json then jsonReport 0 (.array (entries.map (entryJson l.session.schema)))
  else
    match rootLines l.session (rootsOf l) with
    | (roots, some fault) => failed fault.message (lines roots)
    | (roots, none) => { exitCode := 0, output := lines (roots ++ entries.map entryLine) }

/-! ### Paths -/

/-- The node to which a path leads from the top level of a module. -/
def traverseReport (json : Bool) (home path : String) (l : Linked) : Outcome :=
  let x := l.session
  match x.registry.byName? home with
  | none => failed ("module " ++ home ++ " is not part of the batch")
  | some m =>
    match x.followIn false path m with
    | .error halt => failed (haltMessage halt)
    | .ok id =>
      let label := x.schema.label id
      let owner := x.schema.homeName id
      let fullName := x.schema.scopedLabel id
      if json then
        jsonReport 0
          (.object
            [("full_name", .string fullName), ("module", .string owner), ("node", .string label)])
      else { exitCode := 0, output := lines [label ++ " (" ++ owner ++ ":" ++ fullName ++ ")"] }

/-! ### Runs -/

/-- The report of a command on a linked schema. -/
def report (json : Bool) : Command → Linked → Outcome
  | .order => orderReport json
  | .check => checkReport json
  | .types => typesReport json
  | .identities => identitiesReport json
  | .traverse home path => traverseReport json home path

namespace Call

/-- The settings of a call: its options go before what the files and the environment say. -/
def adjust (call : Call) (s : Settings) : Settings :=
  { s with
    dir := call.input.getD s.dir
    policy := if call.strict then .strict else s.policy }

/-- Carries out a call with settings that have been adjusted, on the files below its input
directory. -/
def execute (call : Call) (s : Settings) (workingDir : String) (files : List SourceFile) :
    Outcome :=
  match Bundle.read s.intake files with
  | .error fault =>
    failed ("loading documents from " ++ s.documentDir workingDir ++ ": " ++ fault.message)
  | .ok bundle =>
    match bundle.schema.resolve s.policy with
    | .error halt => failed ("resolution aborted: " ++ haltMessage halt)
    | .ok linked => report call.json call.command linked

end Call

/-- The outcome if the settings cannot be read. -/
def settingsFailure : Outcome :=
  failed "failed to load configuration"

end SchemaLink.CommandLine
