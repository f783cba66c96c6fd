import Mathlib.Data.List.Induction
import SchemaLink.Proofs.Registration

/-!
# Registering modules one after the other

Modules are registered by calls, and a call may be refused. What a call has changed before it is
refused would stay changed, and an index with a key of a module that is not in the order would
refuse or resolve later ones wrongly. **A refused call leaves nothing behind**, since both keys are
looked up before the first change (`Registry.eq_of_register_eq_error`). So after any sequence of
calls the indexes are in step with the order (`Registry.keys_afterCalls`): a name or a prefix
denotes a module exactly if that module is registered and has it, and no two registered modules
share one.

A call is refused for a key that a *registered* module has. Two modules of the schema may share a
name without either being refused, as long as one of them has been refused for its prefix.
-/

namespace SchemaLink

namespace Registry

variable {s : Schema} {r : Registry} {id : ModuleId} {calls : List ModuleId}

/-- The registry after several calls, beginning with the empty one. A call that is refused hands on
the registry that it leaves. -/
def afterCalls (s : Schema) (calls : List ModuleId) : Registry :=
  calls.foldl (fun r id ↦ (register s id).after r) {}

theorem afterCalls_concat (s : Schema) (calls : List ModuleId) (id : ModuleId) :
    afterCalls s (calls ++ [id]) = (register s id).after (afterCalls s calls) := by
  rw [afterCalls, List.foldl_append]
  rfl

/-- **Step.** A call keeps a registry faithful, whether it is accepted or not. -/
theorem Faithful.after_register (hr : r.Faithful s) (hid : id.index < s.modules.size) :
    ((Registry.register s id).after r).Faithful s := by
  rcases hcall : Registry.register s id r with ⟨⟨⟩, r'⟩ | ⟨fault, r'⟩
  · rw [Registering.after_of_eq_ok hcall]
    exact hr.register hid hcall
  · rw [Registering.after_of_eq_error hcall, eq_of_register_eq_error hcall]
    exact hr

/-- **Run.** So does every sequence of calls. -/
theorem faithful_afterCalls (hcalls : ∀ id ∈ calls, id.index < s.modules.size) :
    (afterCalls s calls).Faithful s := by
  induction calls using List.reverseRecOn with
  | nil => exact faithful_empty s
  | append_singleton calls id ih =>
    rw [afterCalls_concat]
    exact (ih fun m hm ↦ hcalls m (by simp [hm])).after_register (hcalls id (by simp))

/-- **Indexes and order stay in step.** After any sequence of calls, refused ones included, the
registered modules differ in their names and in their prefixes, a name or a prefix denotes the
registered module that has it and nothing else, and the next call is refused exactly if a registered
module has the name, or else the prefix, of its module. It then leaves both indexes and the order as
they were; an accepted module comes last in the order. -/
theorem keys_afterCalls (hcalls : ∀ id ∈ calls, id.index < s.modules.size) :
    let r := afterCalls s calls
    (r.modules.map fun m ↦ (s.module m).name).Nodup ∧
    (r.modules.map fun m ↦ (s.module m).ownPrefix).Nodup ∧
    (∀ name m, r.byName? name = some m ↔ m ∈ r.modules ∧ (s.module m).name = name) ∧
    (∀ ownPrefix m,
      r.byPrefix? ownPrefix = some m ↔ m ∈ r.modules ∧ (s.module m).ownPrefix = ownPrefix) ∧
    ∀ id,
      (∀ fault, (∃ r', register s id r = .error fault r') ↔
        (∃ m ∈ r.modules, (s.module m).name = (s.module id).name ∧
          fault = .duplicateModule .name (s.module id).name (s.module m).name) ∨
        (∀ m ∈ r.modules, (s.module m).name ≠ (s.module id).name) ∧
          ∃ m ∈ r.modules, (s.module m).ownPrefix = (s.module id).ownPrefix ∧
            fault = .duplicateModule .ownPrefix (s.module id).ownPrefix (s.module m).name) ∧
      (∀ fault r', register s id r = .error fault r' →
        r'.names = r.names ∧ r'.prefixes = r.prefixes ∧ r'.modules = r.modules ∧
          afterCalls s (calls ++ [id]) = r) ∧
      ∀ r', register s id r = .ok () r' →
        r'.modules = r.modules ++ [id] ∧ afterCalls s (calls ++ [id]) = r' := by
  intro r
  have hr : r.Faithful s := faithful_afterCalls hcalls
  refine ⟨hr.nodup_map_name, hr.nodup_map_ownPrefix, fun _ _ ↦ hr.byName?_eq_some_iff,
    fun _ _ ↦ hr.byPrefix?_eq_some_iff, fun id ↦ ⟨fun fault ↦ ?_, fun fault r' hcall ↦ ?_,
      fun r' hcall ↦ ?_⟩⟩
  · simp only [hr.register_eq_error_iff, exists_eq_left']
  · obtain rfl := eq_of_register_eq_error hcall
    refine ⟨rfl, rfl, rfl, ?_⟩
    rw [afterCalls_concat]
    exact Registering.after_of_eq_error hcall
  · obtain ⟨-, -, rfl⟩ := register_eq_ok_iff.1 hcall
    refine ⟨rfl, ?_⟩
    rw [afterCalls_concat]
    exact Registering.after_of_eq_ok hcall

/-- Four modules: the second has the name of the first, the third has the prefix of the first, and
the fourth has the name of the third. -/
def contested : Schema :=
  let entry (name ownPrefix : String) : Module := { name, ownPrefix, space := "", main := ⟨0⟩ }
  { modules := #[entry "m" "p", entry "m" "q", entry "n" "p", entry "n" "r"] }

/-- The fourth module is accepted, since the third one has been refused; called again, the third one
is refused for its name now, and leaves the registry as it was. -/
theorem keys_afterCalls_contested :
    (∀ id ∈ ([⟨0⟩, ⟨1⟩, ⟨2⟩, ⟨3⟩] : List ModuleId), id.index < contested.modules.size) ∧
      let r := afterCalls contested [⟨0⟩, ⟨1⟩, ⟨2⟩, ⟨3⟩]
      r.modules = [⟨0⟩, ⟨3⟩] ∧ r.byName? "n" = some ⟨3⟩ ∧ r.byPrefix? "q" = none ∧
        (∃ r', register contested ⟨2⟩ r = .error (.duplicateModule .name "n" "n") r') ∧
        afterCalls contested [⟨0⟩, ⟨1⟩, ⟨2⟩, ⟨3⟩, ⟨2⟩] = r := by
  have hcalls : ∀ id ∈ ([⟨0⟩, ⟨1⟩, ⟨2⟩, ⟨3⟩] : List ModuleId),
      id.index < contested.modules.size := by decide
  have hmodules : (afterCalls contested [⟨0⟩, ⟨1⟩, ⟨2⟩, ⟨3⟩]).modules = [⟨0⟩, ⟨3⟩] := by
    decide +kernel
  obtain ⟨-, -, hname, hown, hcall⟩ := keys_afterCalls hcalls
  obtain ⟨hfault, hleft, -⟩ := hcall ⟨2⟩
  obtain ⟨r', hrefused⟩ := (hfault _).2 (.inl ⟨⟨3⟩, by rw [hmodules]; decide, rfl, rfl⟩)
  refine ⟨hcalls, hmodules, (hname "n" ⟨3⟩).2 ⟨by rw [hmodules]; decide, rfl⟩, ?_,
    ⟨r', hrefused⟩, (hleft _ r' hrefused).2.2.2⟩
  refine Option.eq_none_iff_forall_ne_some.2 fun m hm ↦ ?_
  obtain ⟨hmem, hq⟩ := (hown "q" m).1 hm
  rw [hmodules] at hmem
  rcases List.mem_pair.1 hmem with rfl | rfl
  · exact absurd hq (by decide)
  · exact absurd hq (by decide)

end Registry

end SchemaLink
