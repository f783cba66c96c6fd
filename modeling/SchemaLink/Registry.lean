import SchemaLink.Fault
import SchemaLink.Schema.Basic

/-!
# The registry of modules

A registry lists the modules of a batch that take part in linking, and has two indexes of them: by
name and by own prefix. **Names and own prefixes are unique in it**: a module whose name or prefix
is taken is refused, for the name if both are.

Registering a module changes the indexes and the list one after the other, in place. A registration
is refused before the first of these changes, so that nothing of a refused module stays behind.

Inside a module, a prefix denotes the module itself if it is empty or the module's own, and else the
registered module that the first import with that prefix names.
-/

namespace SchemaLink

/-- An index of modules: pairs of a key and the module that has it. -/
abbrev Index := List (String × ModuleId)

/-- Enters a module under a key; a module that the key led to before is replaced. -/
def Index.enter (index : Index) (key : String) (id : ModuleId) : Index :=
  (key, id) :: index.filter (·.1 ≠ key)

/-- The registered modules. -/
structure Registry where
  /-- The modules by name. -/
  names : Index := []
  /-- The modules by own prefix. -/
  prefixes : Index := []
  /-- The modules in order of registration. -/
  modules : List ModuleId := []
deriving DecidableEq

/-- A step that changes a registry and may be refused. What it has changed before it is refused
stays changed. -/
abbrev Registering := EStateM Fault Registry

namespace Registry

/-- The module registered under a name. -/
def byName? (r : Registry) (name : String) : Option ModuleId :=
  r.names.lookup name

/-- The module registered under an own prefix. -/
def byPrefix? (r : Registry) (ownPrefix : String) : Option ModuleId :=
  r.prefixes.lookup ownPrefix

/-- Registers a module unless its name or its prefix is taken. -/
def register (s : Schema) (id : ModuleId) : Registering Unit := do
  let m := s.module id
  match (← get).byName? m.name with
  | some taken => throw (.duplicateModule .name m.name (s.module taken).name)
  | none =>
    match (← get).byPrefix? m.ownPrefix with
    | some taken => throw (.duplicateModule .ownPrefix m.ownPrefix (s.module taken).name)
    | none =>
      modify fun r ↦ { r with names := r.names.enter m.name id }
      modify fun r ↦ { r with prefixes := r.prefixes.enter m.ownPrefix id }
      modify fun r ↦ { r with modules := r.modules ++ [id] }

/-- Registers several modules in turn, up to the first that is refused. -/
def registerAll (s : Schema) : List ModuleId → Registering Unit
  | [] => pure ()
  | id :: ids => do
    register s id
    registerAll s ids

/-- The registry of all modules of a schema. -/
def ofSchema (s : Schema) : Except Fault Registry :=
  match registerAll s s.moduleHandles {} with
  | .ok () r => .ok r
  | .error fault _ => .error fault

/-- The module that a prefix denotes inside a module. -/
def moduleFor (r : Registry) (s : Schema) (home : ModuleId) (written : String) :
    Except Fault ModuleId :=
  let m := s.module home
  if written = "" ∨ written = m.ownPrefix then .ok home
  else
    match m.imports.find? (·.localPrefix = written) with
    | none => .error (.unknownPrefix written m.name)
    | some binding =>
      match r.byName? binding.module with
      | none => .error (.unknownModule binding.module m.name)
      | some id => .ok id

end Registry

end SchemaLink
