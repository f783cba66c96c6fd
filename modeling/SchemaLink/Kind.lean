/-!
# Kinds of schema nodes

Every node of a schema is of one of thirteen kinds. `BlockKind` and `TypedKind` name the two
families of kinds that share a shape: blocks own children, typed nodes own one type.
-/

namespace SchemaLink

/-- The kind of a schema node. -/
inductive Kind where
  | container | list | leaf | leafList | choice | case | grouping | uses | augment | notification
  | identity | typedef | type
deriving DecidableEq

namespace Kind

/-- All kinds. -/
def all : List Kind :=
  [container, list, leaf, leafList, choice, case, grouping, uses, augment, notification, identity,
   typedef, type]

/-- The keyword of a kind. -/
def keyword : Kind → String
  | container => "container"
  | list => "list"
  | leaf => "leaf"
  | leafList => "leaf-list"
  | choice => "choice"
  | case => "case"
  | grouping => "grouping"
  | uses => "uses"
  | augment => "augment"
  | notification => "notification"
  | identity => "identity"
  | typedef => "typedef"
  | type => "type"

/-- The kind with a given keyword. -/
def ofKeyword? (s : String) : Option Kind :=
  all.find? (·.keyword = s)

theorem mem_all (k : Kind) : k ∈ all := by
  cases k <;> decide

theorem ofKeyword?_keyword (k : Kind) : ofKeyword? k.keyword = some k := by
  cases k <;> decide

/-- Nodes of these kinds may be extended by an augment. -/
def augmentable : Kind → Bool
  | container | list | choice | case | notification => true
  | _ => false

/-- Nodes of these kinds hold a value. -/
def holdsValue : Kind → Bool
  | leaf | leafList => true
  | _ => false

/-- Nodes of these kinds are collected among the children of their parent. Only types are not: they
belong to the node whose values they describe. -/
def collected : Kind → Bool
  | type => false
  | _ => true

/-- The kinds of children that appear in data, in the order in which a child is looked up. -/
def dataKinds : List Kind :=
  [container, leaf, list, leafList, choice, case, notification]

/-- Choices and cases structure the schema but leave no trace in data. -/
def transparent : Kind → Bool
  | choice | case => true
  | _ => false

end Kind

/-- The kinds whose nodes own children and are written with a body. -/
inductive BlockKind where
  | container | list | choice | case | grouping | notification
deriving DecidableEq

/-- The kind of a block. -/
def BlockKind.kind : BlockKind → Kind
  | container => .container
  | list => .list
  | choice => .choice
  | case => .case
  | grouping => .grouping
  | notification => .notification

/-- The kinds whose nodes own a type. -/
inductive TypedKind where
  | leaf | leafList | typedef
deriving DecidableEq

/-- The kind of a typed node. -/
def TypedKind.kind : TypedKind → Kind
  | leaf => .leaf
  | leafList => .leafList
  | typedef => .typedef

end SchemaLink
