import SchemaLink.Fault

/-!
# Diagnostics

Faults that do not end a run are noted as diagnostic items. An item says which activity met the
problem, in which module and at which subject. The items of a run are a list in order of occurrence;
counts and reports are functions of that list.
-/

namespace SchemaLink

/-- The activity that met a problem. -/
inductive Activity where
  | traverse | applyAugment | expandUses | locateBase | resolveType
deriving DecidableEq

namespace Activity

/-- All activities. -/
def all : List Activity :=
  [traverse, applyAugment, expandUses, locateBase, resolveType]

/-- The keyword of an activity in reports. -/
def keyword : Activity → String
  | traverse => "traverse"
  | applyAugment => "apply_augment"
  | expandUses => "expand_uses"
  | locateBase => "locate_base"
  | resolveType => "resolve_type"

/-- The activity with a given keyword. -/
def ofKeyword? (s : String) : Option Activity :=
  all.find? (·.keyword = s)

end Activity

/-- How serious a problem is. -/
inductive Severity where
  | warning | error
deriving DecidableEq

/-- The word for a severity in reports. -/
def Severity.word : Severity → String
  | warning => "warning"
  | error => "error"

/-- The name of a severity in exported items. -/
def Severity.title : Severity → String
  | warning => "Warning"
  | error => "Error"

/-- One noted problem. -/
structure Diagnostic where
  activity : Activity
  severity : Severity
  code : String
  module : String
  subject : String
  message : String
  context : List String := []
  /-- The fault behind an item of severity `error`. -/
  cause : Option Fault := none
deriving DecidableEq

namespace Diagnostic

/-- The item for a fault. -/
def ofFault (activity : Activity) (module subject : String) (fault : Fault) : Diagnostic :=
  { activity, severity := .error, code := fault.code, module, subject, message := fault.message
    cause := some fault }

/-- The item for a warning. -/
def ofWarning (activity : Activity) (code module subject message : String) : Diagnostic :=
  { activity, severity := .warning, code, module, subject, message }

/-- Adds a line of context. -/
def addContext (d : Diagnostic) (line : String) : Diagnostic :=
  { d with context := d.context ++ [line] }

/-- The text of an item: one line, and one more for each line of context. -/
def report (d : Diagnostic) : String :=
  "[" ++ d.code ++ "] " ++ d.severity.word ++ ": " ++ d.message ++ " (" ++ d.activity.keyword
    ++ " in " ++ d.module ++ ")" ++ String.join (d.context.map ("\n  - " ++ ·))

/-- The item is an error. -/
def isError (d : Diagnostic) : Bool :=
  d.severity = .error

end Diagnostic

/-- The items of a run, in order. -/
abbrev Diagnostics := List Diagnostic

namespace Diagnostics

/-- The errors among the items. -/
def errors (ds : Diagnostics) : List Diagnostic :=
  ds.filter Diagnostic.isError

/-- The warnings among the items. -/
def warnings (ds : Diagnostics) : List Diagnostic :=
  ds.filter (!·.isError)

/-- Some item is an error. -/
def hasErrors (ds : Diagnostics) : Bool :=
  ds.any Diagnostic.isError

/-- The closing line of a report. -/
def tally (ds : Diagnostics) : String :=
  Nat.repr ds.errors.length ++ " error(s), " ++ Nat.repr ds.warnings.length ++ " warning(s)"

/-- The text of all items, one after the other, and the tally. -/
def report (ds : Diagnostics) : String :=
  String.join (ds.map fun d ↦ d.report ++ "\n") ++ tally ds

end Diagnostics

end SchemaLink
