import SchemaLink.Kind

/-!
# Documents

A document describes one module or one submodule: its name and references, and a body of nested
statements. A batch of documents is what a schema is made from.
-/

namespace SchemaLink

/-- The description of a type. -/
structure TypeDescription where
  /-- A built-in type or a possibly qualified reference to a declared one. -/
  name : String
  range : Option String := none
  length : Option String := none
  pattern : Option String := none
  /-- What a leaf reference refers to. -/
  path : Option String := none
  /-- The base of an identity reference. -/
  base : Option String := none
  /-- The members of a union. -/
  members : List TypeDescription := []
  /-- The labels of an enumeration or a bit set. -/
  enums : List String := []

/-- A statement in the body of a module. -/
inductive Statement where
  | block (kind : BlockKind) (name : String) (description : Option String) (body : List Statement)
  | typed (kind : TypedKind) (name : String) (description : Option String) (type : TypeDescription)
  | uses (grouping : String)
  | augment (target : String) (description : Option String) (body : List Statement)
  | identity (name : String) (description : Option String) (bases : List String)

/-- An import binds a prefix to a module. -/
structure Import where
  module : String
  localPrefix : String
deriving DecidableEq

/-- The description of a module. -/
structure ModuleDescription where
  name : String
  ownPrefix : String
  /-- The name space of the module. -/
  space : String
  description : Option String := none
  imports : List Import := []
  includes : List String := []
  body : List Statement := []

/-- The description of a submodule. -/
structure SubmoduleDescription where
  name : String
  /-- The module that the submodule is a part of. -/
  owner : String
  body : List Statement := []

/-- A document. -/
inductive Document where
  | module (doc : ModuleDescription)
  | submodule (doc : SubmoduleDescription)

/-- The name of what a document describes. -/
def Document.name : Document → String
  | module doc => doc.name
  | submodule doc => doc.name

/-- The kinds of statements, in the order of their numbers. -/
inductive StatementKind where
  | block (kind : BlockKind)
  | typed (kind : TypedKind)
  | uses | augment | identity
deriving DecidableEq

namespace StatementKind

/-- The kind of the nodes that a statement declares. -/
def kind : StatementKind → Kind
  | block k => k.kind
  | typed k => k.kind
  | uses => .uses
  | augment => .augment
  | identity => .identity

/-- All kinds of statements; a statement may give its kind by the position in this list. -/
def numbered : List StatementKind :=
  [block .container, block .list, block .choice, block .case, block .grouping,
   block .notification, typed .leaf, typed .leafList, typed .typedef, uses, augment, identity]

/-- The kind with a given keyword. -/
def ofKeyword? (s : String) : Option StatementKind :=
  numbered.find? (·.kind.keyword = s)

end StatementKind

end SchemaLink
