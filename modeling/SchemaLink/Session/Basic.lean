import SchemaLink.Diagnostics
import SchemaLink.Grouping

/-!
# Linking sessions

A session is the state of one linking run: the schema as far as it has been completed, the registry
of its modules, where groupings are used, which augments have been merged into which targets, and
the diagnostics so far.

**Three outcomes.** A question about a session has an answer or a fault, or the search for the
answer never ends (two augments whose targets lie inside each other, say). `Halt` keeps the last
outcome apart from faults: it is not a property of one node, and no policy passes over it.
-/

namespace SchemaLink

/-- What to do about a fault that concerns one node. -/
inductive Policy where
  /-- Stop at the first one. -/
  | strict
  /-- Note it and go on without the node. -/
  | bestEffort
deriving DecidableEq

/-- The keyword of a policy. -/
def Policy.keyword : Policy → String
  | strict => "strict"
  | bestEffort => "best_effort"

/-- The policy with a given keyword. -/
def Policy.ofKeyword? (s : String) : Option Policy :=
  [strict, bestEffort].find? (·.keyword = s)

/-- Why there is no answer. -/
inductive Halt where
  /-- Something is wrong. -/
  | fault (cause : Fault)
  /-- The search goes round in a circle. -/
  | unending
deriving DecidableEq

/-- An answer that only a fault can prevent. -/
def Halt.lift {α : Type} : Except Fault α → Except Halt α
  | .ok a => .ok a
  | .error cause => .error (.fault cause)

/-- The state of a linking run. -/
structure Session where
  schema : Schema
  registry : Registry
  policy : Policy
  diagnostics : Diagnostics := []
  /-- Pairs of a grouping and a `uses` that refers to it. -/
  usages : List (NodeId × NodeId)
  /-- Pairs of an augment and the target it was merged into. -/
  targets : List (NodeId × NodeId) := []
  /-- The groupings whose fields an augment has brought into its target. -/
  mergedGroupings : List NodeId := []

namespace Session

/-- The session that starts with a schema, all of whose modules are registered. -/
def start (schema : Schema) (policy : Policy) : Except Fault Session :=
  match Registry.ofSchema schema with
  | .error fault => .error fault
  | .ok registry => .ok { schema, registry, policy, usages := registry.usages schema }

/-- The uses of a grouping, in order. -/
def occurrencesOf (x : Session) (grouping : NodeId) : List NodeId :=
  (x.usages.filter (·.1 = grouping)).map Prod.snd

/-- The target that an augment was merged into. -/
def mergedTarget? (x : Session) (augment : NodeId) : Option NodeId :=
  x.targets.lookup augment

/-- Some augment has brought in the fields of a grouping. -/
def inAugment (x : Session) (grouping : NodeId) : Bool :=
  grouping ∈ x.mergedGroupings

/-- Adds an item to the diagnostics. -/
def note (x : Session) (d : Diagnostic) : Session :=
  { x with diagnostics := x.diagnostics ++ [d] }

/-- Adds the item for a fault that is passed over. -/
def noteFault (x : Session) (activity : Activity) (subject : String) (fault : Fault) : Session :=
  x.note (Diagnostic.ofFault activity (fault.module?.getD "") subject fault)

end Session

/-- A step of a linking run: it changes the session and may stop. The session is kept when it
stops. -/
abbrev Link := EStateM Halt Session

namespace Link

/-- Asks a question about the session. -/
def ask {α : Type} (question : Session → Except Halt α) : Link α := do
  match question (← get) with
  | .ok a => pure a
  | .error halt => throw halt

/-- Passes over a fault if it is not fatal and the policy says so, and else stops with it. -/
def tolerate (activity : Activity) (subject : NodeId) (fault : Fault) : Link Unit := do
  let x ← get
  if fault.fatal ∨ x.policy = .strict then throw (.fault fault)
  else set (x.noteFault activity (x.schema.label subject) fault)

/-- Passes over several faults in turn. -/
def tolerateAll (activity : Activity) : List (NodeId × Fault) → Link Unit
  | [] => pure ()
  | (subject, fault) :: rest => do
    tolerate activity subject fault
    tolerateAll activity rest

/-- Runs a step whose fault, if any, concerns the node `subject`: the result, or nothing if the
fault is passed over. -/
def attempt {α : Type} (activity : Activity) (subject : NodeId) (step : Link α) :
    Link (Option α) :=
  fun x ↦
    match step x with
    | .ok a x' => .ok (some a) x'
    | .error (.fault fault) x' => (do tolerate activity subject fault; pure none : Link _) x'
    | .error .unending x' => .error .unending x'

end Link

end SchemaLink
