import SchemaLink.Path
import SchemaLink.Session.Lookup

/-!
# Following paths

A walk takes a path segment by segment. A name goes to the child of that name, `.` stays, and `..`
goes to any of the anchors of the present position. The walk ends where it does if `..` always keeps
to the first anchor from which the rest of the path leads somewhere.

**All these walks advance together.** A front lists the positions that they have reached, each once
and in the order in which they are tried; what is left of it at the end of the path starts with the
result. Where a walk comes upon a search that never ends, `none` takes its place in the front, since
the walks before it still come first. If nothing is left, the walk that was to be tried last tells
why.

**Prefixes are those of one module**, the home of the path, all along the way. An absolute path
starts at the top level of the module that its first prefix denotes; a relative one at its origin.

**Targets of augments** are themselves found by following paths. `targetOf` asks for the targets
that it needs on the way in the same manner; more than one question for each node on the way can
only mean that the search goes round in a circle.
-/

namespace SchemaLink

namespace Session

variable (x : Session) (target : TargetFinder)

/-- The fault at segment number `index` of a path whose home is the given module. -/
def pathFault (path : Path) (home : ModuleId) (index : Nat) (reason : String) : Halt :=
  .fault (.unresolvedPath path.text index ((path.segments[index]?.map Segment.toString).getD "")
    (path.rendering index) (x.schema.module home).name reason)

/-- How a position is called in reports. -/
def positionLabel : Position → String
  | .top m => "module:" ++ (x.schema.module m).name
  | .node id => x.schema.label id

/-- The positions that `..` tries. -/
def parentsAt (path : Path) (home : ModuleId) (index : Nat) : Position → Except Halt (List Position)
  | .top m =>
    .error (x.pathFault path home index ("cannot move above module " ++ (x.schema.module m).name))
  | .node id =>
    match x.anchors target (x.schema.node id).parent with
    | .error halt => .error halt
    | .ok [] =>
      .error (x.pathFault path home index (x.schema.label id ++ " is not instantiated anywhere"))
    | .ok found => .ok found

/-- The child to which a name leads; its qualifier must denote a module. -/
def stepTo (path : Path) (home : ModuleId) (index : Nat) (q : QName) (c : Position) :
    Except Halt NodeId :=
  match q.qualifier.elim (.ok home) (x.registry.moduleFor x.schema home) with
  | .error fault => .error (.fault fault)
  | .ok _ =>
    match x.childAt target c q.name with
    | .error halt => .error halt
    | .ok (some id) => .ok id
    | .ok none =>
      .error (x.pathFault path home index
        ("no child named '" ++ q.name ++ "' under " ++ x.positionLabel c))

/-- The positions to which one segment, number `index` of a path, leads, in the order in which they
are tried. -/
def moves (path : Path) (home : ModuleId) (index : Nat) (c : Position) :
    Segment → Except Halt (List Position)
  | .current => .ok [c]
  | .parent => x.parentsAt target path home index c
  | .step q => (x.stepTo target path home index q c).map fun id ↦ [.node id]

/-- Takes one segment from every position of a front. A position from which it cannot be taken drops
out. -/
def advance (path : Path) (home : ModuleId) (index : Nat) (segment : Segment)
    (front : List (Option Position)) : List (Option Position) :=
  (front.flatMap fun
    | none => [none]
    | some c =>
      match x.moves target path home index c segment with
      | .ok found => found.map some
      | .error (.fault _) => []
      | .error .unending => [none]).eraseDups

/-- Takes the remaining segments of a path, the first of which has number `index`. -/
def proceed (path : Path) (home : ModuleId) :
    List Segment → Nat → List (Option Position) → List (Option Position)
  | [], _, front => front
  | segment :: rest, index, front =>
    proceed path home rest (index + 1) (x.advance target path home index segment front)

/-- Why the remaining segments lead nowhere: the fault that is met if `..` always moves to the last
of its positions. -/
def obstacle (path : Path) (home : ModuleId) : List Segment → Nat → Position → Halt
  | [], index, _ => x.pathFault path home index ""
  | segment :: rest, index, c =>
    match x.moves target path home index c segment with
    | .error halt => halt
    | .ok found => obstacle path home rest (index + 1) (found.getLastD c)

/-- Where the walk along a path ends that begins at a given position. -/
def walk (path : Path) (home : ModuleId) (start : Position) : Except Halt Position :=
  match x.proceed target path home path.segments 0 [some start] with
  | some c :: _ => .ok c
  | none :: _ => .error .unending
  | [] => .error (x.obstacle target path home path.segments 0 start)

/-- Where a path starts: at the top level of the module of its first qualifier if it is absolute,
and else at its origin. -/
def startOf (path : Path) (home : ModuleId) (origin : Position) : Except Halt Position :=
  if path.absolute then
    match x.registry.moduleFor x.schema home (path.leadingQualifier.getD "") with
    | .ok m => .ok (.top m)
    | .error fault => .error (.fault fault)
  else .ok origin

/-- The node at the end of a path. With `needsValue`, it must hold a value. -/
def arrive (needsValue : Bool) (path : Path) (home : ModuleId) : Position → Except Halt NodeId
  | .top m =>
    .error (x.pathFault path home (path.segments.length - 1)
      ("resolves to module " ++ (x.schema.module m).name ++ ", not a node"))
  | .node id =>
    if needsValue ∧ ¬ (x.schema.kind id).holdsValue then
      .error (x.pathFault path home (path.segments.length - 1)
        ("resolves to a " ++ (x.schema.kind id).keyword ++ ", not a leaf"))
    else .ok id

/-- Follows a path with a given home from a position. -/
def followBy (needsValue : Bool) (path : Path) (home : ModuleId) (origin : Position) :
    Except Halt NodeId :=
  if path.segments = [] then .error (x.pathFault path home 0 "empty path")
  else
    match x.startOf path home origin with
    | .error halt => .error halt
    | .ok start =>
      match x.walk target path home start with
      | .ok c => x.arrive needsValue path home c
      | .error halt => .error halt

/-- Follows a path that is written at a node. A path written in a type starts at the node whose
values the type describes. -/
def followFromBy (needsValue : Bool) (path : String) (origin : NodeId) : Except Halt NodeId :=
  let start := x.schema.carrier origin
  x.followBy target needsValue (Path.ofString path) (x.schema.homeModule start) (.node start)

/-! ### Targets of augments -/

/-- The complaint about a node that is asked for its target and is no augment. -/
def notAugment (id : NodeId) : Fault :=
  .invalidDocument (x.schema.homeName id) (x.schema.label id ++ " is not an augment")

/-- The target of an augment, found with at most `n` questions within each other. -/
def targetWithin : Nat → NodeId → Except Halt NodeId
  | 0, _ => .error .unending
  | n + 1, augment =>
    match x.mergedTarget? augment with
    | some t => .ok t
    | none =>
      match (x.schema.node augment).content with
      | .augment path _ => x.followFromBy (targetWithin n) false path augment
      | _ => .error (.fault (x.notAugment augment))

/-- The target of an augment: the recorded one if it has been merged, else where its path leads. -/
def targetOf (augment : NodeId) : Except Halt NodeId :=
  x.targetWithin (x.schema.nodes.size + 1) augment

/-! ### Questions about a session -/

/-- Follows a path that is written at a node. -/
def followFrom (needsValue : Bool) (path : String) (origin : NodeId) : Except Halt NodeId :=
  x.followFromBy x.targetOf needsValue path origin

/-- Follows a path from the top level of a module. -/
def followIn (needsValue : Bool) (path : String) (m : ModuleId) : Except Halt NodeId :=
  x.followBy x.targetOf needsValue (Path.ofString path) m (.top m)

/-- The node has a place in the data of some module. -/
def inDataTree (id : NodeId) : Except Halt Bool :=
  x.inDataTreeBy x.targetOf id

end Session

end SchemaLink
