import SchemaLink.DepthFirst
import SchemaLink.Registry

/-!
# The order of imports

Modules are processed so that every module comes after the registered modules it imports. Imports of
modules outside the registry do not count, and repeated imports count once.

**The order is that of a queue.** A module waits for as many modules as it imports. Modules that
wait for none enter the queue at the start, in order of registration. When a module leaves the
queue, those that import it wait for one module less, and the ones that now wait for none enter the
queue, again in order of registration.

If some module never leaves, there is a cycle, and the fault names the modules that lie on one:
those that can be reached from themselves along imports.
-/

namespace SchemaLink

namespace ImportOrder

/-- How far the ordering has come. -/
structure State where
  /-- For each module, in order of registration, how many imported modules it still waits for. -/
  waiting : List (ModuleId × Nat)
  /-- The modules that are ready. -/
  queue : List ModuleId
  /-- The modules that have left the queue, in order. -/
  done : List ModuleId

section

variable (imports : ModuleId → List ModuleId)

/-- The counters after `m` has left the queue. -/
def release (m : ModuleId) (waiting : List (ModuleId × Nat)) : List (ModuleId × Nat) :=
  waiting.map fun w ↦ if m ∈ imports w.1 then (w.1, w.2 - 1) else w

/-- The modules that wait for `m` alone. -/
def released (m : ModuleId) (waiting : List (ModuleId × Nat)) : List ModuleId :=
  (waiting.filter fun w ↦ m ∈ imports w.1 ∧ w.2 = 1).map Prod.fst

/-- Before any module has left the queue. -/
def start (ms : List ModuleId) : State :=
  { waiting := ms.map fun m ↦ (m, (imports m).length)
    queue := ms.filter fun m ↦ (imports m).isEmpty
    done := [] }

/-- Lets up to `n` modules leave the queue. -/
def advance : Nat → State → State
  | 0, st => st
  | n + 1, st =>
    match st.queue with
    | [] => st
    | m :: queue =>
      advance n
        { waiting := release imports m st.waiting
          queue := queue ++ released imports m st.waiting
          done := st.done ++ [m] }

/-- The module `m` can be reached from itself; `size` is the number of modules. -/
def onCycle (size : Nat) (m : ModuleId) : Bool :=
  m ∈ DepthFirst.search ModuleId.index size imports (imports m)

end

end ImportOrder

namespace Registry

/-- The registered modules that a module imports, each once. -/
def importsOf (r : Registry) (s : Schema) (m : ModuleId) : List ModuleId :=
  ((s.module m).imports.filterMap fun i ↦ r.byName? i.module).eraseDups

/-- The imports of all modules of a schema, at the index of the module. -/
def importTable (r : Registry) (s : Schema) : Array (List ModuleId) :=
  (s.moduleHandles.map (r.importsOf s)).toArray

/-- The names of the modules that lie on a cycle of imports, sorted. -/
def cyclicNames (r : Registry) (s : Schema) (imports : ModuleId → List ModuleId) : List String :=
  let cyclic := r.modules.filter (ImportOrder.onCycle imports s.modules.size)
  (cyclic.map fun m ↦ (s.module m).name).mergeSort fun a b ↦ decide (a ≤ b)

/-- The registered modules, each after those it imports. -/
def importOrder (r : Registry) (s : Schema) : Except Fault (List ModuleId) :=
  let ms := r.modules
  let table := r.importTable s
  let imports (m : ModuleId) : List ModuleId := table[m.index]?.getD []
  let order := (ImportOrder.advance imports ms.length (ImportOrder.start imports ms)).done
  if order.length < ms.length then .error (.cyclicImports (r.cyclicNames s imports)) else .ok order

end Registry

end SchemaLink
