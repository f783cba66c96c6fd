/-!
# Faults

A fault is a cause for which a schema, or a part of it, cannot be linked. Its wording and its short
code are functions of the cause, so that no other module writes messages.

**Fatal faults** concern the whole batch (its modules cannot be told apart or ordered, or its
documents cannot be read). All others concern one node, and linking may go on without it.
-/

namespace SchemaLink

/-- What two modules of one batch may not share. -/
inductive ModuleKey where
  | name | ownPrefix
deriving DecidableEq

/-- A cause of failure. -/
inductive Fault where
  /-- A module's name or own prefix is taken by the module `existing`. -/
  | duplicateModule (key : ModuleKey) (value existing : String)
  /-- A prefix is not bound in a module. -/
  | unknownPrefix (written module : String)
  /-- A module is mentioned that the batch does not hold. -/
  | unknownModule (name module : String)
  /-- The imports between these modules form cycles. -/
  | cyclicImports (modules : List String)
  /-- A path leads nowhere from segment number `index` on. -/
  | unresolvedPath (path : String) (index : Nat) (segment reached module reason : String)
  /-- An augment's target is of a kind that cannot be augmented. -/
  | invalidAugmentTarget (path kind module : String)
  /-- The chain of bases of an identity runs in a circle. -/
  | cyclicIdentityBase (identity module : String) (chain : List String)
  /-- The base of an identity, or of an identity reference, does not exist. -/
  | unresolvedIdentity (base identity module : String)
  /-- A chain of leaf references runs in a circle. -/
  | cyclicTypeReference (leaf path module : String)
  /-- A used grouping does not exist. -/
  | unresolvedGrouping (grouping module : String)
  /-- A document is not well formed. -/
  | invalidDocument (source text : String)
  /-- A file cannot be read. -/
  | io (text : String)
  /-- A value is not a document. -/
  | json (text : String)
deriving DecidableEq

namespace Fault

/-- How a shared key is called in messages. -/
def keyWord : ModuleKey → String
  | .name => "name"
  | .ownPrefix => "prefix"

/-- The wording of a fault. -/
def message : Fault → String
  | duplicateModule key value existing =>
    "Duplicate module " ++ keyWord key ++ ": " ++ value ++ " (already registered by module "
      ++ existing ++ ")"
  | unknownPrefix written module => "Unknown prefix '" ++ written ++ "' in module " ++ module
  | unknownModule name module =>
    "Module " ++ name ++ " referenced from " ++ module ++ " is not part of the batch"
  | cyclicImports modules => "Cyclic imports between modules: " ++ ", ".intercalate modules
  | unresolvedPath path index segment reached module reason =>
    "Unresolved path " ++ path ++ " at segment " ++ Nat.repr index ++ " '" ++ segment
      ++ "' (reached '" ++ reached ++ "') in module " ++ module ++ ": " ++ reason
  | invalidAugmentTarget path kind module =>
    "Augment " ++ path ++ " in module " ++ module ++ " targets a " ++ kind
      ++ ", which cannot be augmented"
  | cyclicIdentityBase identity module chain =>
    "Identity " ++ identity ++ " in module " ++ module ++ " is its own base (chain: "
      ++ " -> ".intercalate chain ++ ")"
  | unresolvedIdentity base identity module =>
    "Base identity " ++ base ++ " of " ++ identity ++ " not found in module " ++ module
  | cyclicTypeReference leaf path module =>
    "Cyclic leafref chain through " ++ leaf ++ " (path " ++ path ++ ") in module " ++ module
  | unresolvedGrouping grouping module =>
    "Grouping " ++ grouping ++ " used in module " ++ module ++ " could not be located"
  | invalidDocument source text => "Invalid document " ++ source ++ ": " ++ text
  | io text => "IO error: " ++ text
  | json text => "JSON error: " ++ text

/-- The short code of a fault in reports. -/
def code : Fault → String
  | duplicateModule .. => "E001"
  | unknownPrefix .. => "E002"
  | unknownModule .. => "E003"
  | cyclicImports .. => "E004"
  | unresolvedPath .. => "E005"
  | invalidAugmentTarget .. => "E006"
  | cyclicIdentityBase .. => "E007"
  | unresolvedIdentity .. => "E008"
  | cyclicTypeReference .. => "E009"
  | unresolvedGrouping .. => "E010"
  | invalidDocument .. => "E011"
  | io .. => "E012"
  | json .. => "E013"

/-- Whether a fault ends the linking of the whole batch whatever the policy. -/
def fatal : Fault → Bool
  | duplicateModule .. | cyclicImports .. | invalidDocument .. | io .. | json .. => true
  | _ => false

/-- The module a fault is reported under. -/
def module? : Fault → Option String
  | duplicateModule _ value _ => some value
  | unknownPrefix _ module | unknownModule _ module | unresolvedPath _ _ _ _ module _
  | invalidAugmentTarget _ _ module | cyclicIdentityBase _ module _ | unresolvedIdentity _ _ module
  | cyclicTypeReference _ _ module | unresolvedGrouping _ module => some module
  | cyclicImports _ | invalidDocument _ _ | io _ | json _ => none

end Fault

end SchemaLink
