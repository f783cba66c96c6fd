import SchemaLink.Session.Place

/-!
# Looking up a child by name

The children that a position has in the data are found in three rounds: its own children, then what
its uses bring in, then what stands inside its choices and cases; and each round goes all the way
down before the next one starts. Each grouping is opened once in a look-up.

**A sweep goes through all of them in this order** until it meets a child of the name. Once augments
have been merged, a choice or case may stand in several places; a sweep that has been through it to
the end will find nothing in it, and passes it by from then on.

Choices and cases may even contain each other in a circle. A sweep that comes to a choice or case
which it is just inside of would never end, and is cut off there.
-/

namespace SchemaLink

/-- How far a sweep has come. -/
structure Sweep where
  /-- The child that has been found. -/
  found : Option NodeId := none
  /-- The groupings opened. -/
  opened : List NodeId := []
  /-- The choices and cases swept to the end. -/
  finished : List NodeId := []
  /-- The sweep has not been cut off. -/
  complete : Bool := true

/-- Nothing has been found so far, and nothing keeps the sweep from going on. -/
def Sweep.goesOn (w : Sweep) : Bool :=
  w.found.isNone && w.complete

namespace Session

variable (x : Session) (target : TargetFinder)

/-- The children of a node as a scope of its own. -/
def scopeOf (id : NodeId) : List Children :=
  [(x.schema.node id).children]

/-- Goes on with a `uses`: opens its grouping unless it has been opened. How deeper scopes are swept
is passed in as `enter`. -/
def sweepUse (enter : List NodeId → List Children → Sweep → Sweep) (w : Sweep) (u : NodeId) :
    Sweep :=
  if w.goesOn then
    match x.registry.groupingOf? x.schema u with
    | none => w
    | some g =>
      if g ∈ w.opened then w else enter [] (x.scopeOf g) { w with opened := g :: w.opened }
  else w

/-- Goes on with a choice or case, which must not be on the trail. -/
def sweepBlock (enter : List NodeId → List Children → Sweep → Sweep) (trail : List NodeId)
    (w : Sweep) (b : NodeId) : Sweep :=
  if !w.goesOn ∨ b ∈ w.finished then w
  else if b ∈ trail then { w with complete := false }
  else
    let inner := enter (b :: trail) (x.scopeOf b) w
    if inner.goesOn then { inner with finished := b :: inner.finished } else inner

/-- Sweeps some scopes together for a name, at most `depth` levels down. The choices and cases that
the sweep is inside of, up to the last grouping it opened, are its `trail`. -/
def sweep (name : String) : Nat → List NodeId → List Children → Sweep → Sweep
  | 0, _, _, w => { w with complete := false }
  | depth + 1, trail, scopes, w =>
    match scopes.findSome? (x.schema.dataNamed? name) with
    | some id => { w with found := some id }
    | none =>
      let used := (scopes.flatMap (·.slot .uses)).foldl (x.sweepUse (sweep name depth)) w
      (scopes.flatMap (·.slots [.choice, .case])).foldl (x.sweepBlock (sweep name depth) trail) used

/-- No sweep goes deeper: on the way down every grouping is opened once, and no choice or case comes
twice between two groupings. -/
def sweepDepth : Nat :=
  (x.schema.nodes.size + 1) * (x.schema.nodes.size + 1)

/-- The first child of a name in some scopes. -/
def childAmong (scopes : List Children) (name : String) : Except Halt (Option NodeId) :=
  let w := x.sweep name x.sweepDepth [] scopes {}
  match w.found with
  | some id => .ok (some id)
  | none => if w.complete then .ok none else .error .unending

/-- The scopes in which the children of a position are looked up. An augment has the children of its
target, and none if that is not found. -/
def scopesAt : Position → Except Halt (List Children)
  | .top m => .ok (x.schema.bodies m)
  | .node id =>
    if x.schema.kind id = .augment then
      match target id with
      | .ok t => .ok (x.scopeOf t)
      | .error (.fault _) => .ok []
      | .error .unending => .error .unending
    else .ok (x.scopeOf id)

/-- The child of a name at a position. -/
def childAt (c : Position) (name : String) : Except Halt (Option NodeId) :=
  match x.scopesAt target c with
  | .ok scopes => x.childAmong scopes name
  | .error halt => .error halt

end Session

end SchemaLink
