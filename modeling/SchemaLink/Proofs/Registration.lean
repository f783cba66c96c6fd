import Mathlib.Data.List.Nodup
import SchemaLink.Registry

/-!
# Built registries

A registry is *built* over a schema when it comes from the empty one by registering modules of the
schema. A refused registration changes nothing, so only the accepted ones are listed.

**Everything else about registries follows from one invariant.** `Faithful` says that both indexes
are read off the list of registered modules, and that no name and no prefix occurs in it twice.
Looking a name up in a faithful registry is then the same as searching the registered modules for
it (`Faithful.byName?_eq_some_iff`), which is the form that the import graph needs.
-/

namespace SchemaLink

/-! ### Indexes -/

/-- What is bound to one key is not affected by what is bound to another. -/
theorem lookup_filter_ne {κ α : Type} [DecidableEq κ] {k k' : κ} (h : k' ≠ k) (l : List (κ × α)) :
    (l.filter (·.1 ≠ k)).lookup k' = l.lookup k' := by
  induction l with
  | nil => rfl
  | cons e l ih =>
    by_cases he : e.1 = k
    · have hne : (k' == e.1) = false := by simpa [he] using h
      rw [List.filter_cons_of_neg (by simp [he]), ih, List.lookup_cons, hne]
    · rw [List.filter_cons_of_pos (by simpa using he), List.lookup_cons, List.lookup_cons, ih]

/-- In a list without repeated keys a look-up finds what is there. -/
theorem lookup_eq_some_iff_mem {κ α : Type} [DecidableEq κ] {k : κ} {a : α} {l : List (κ × α)}
    (hnodup : (l.map Prod.fst).Nodup) : l.lookup k = some a ↔ (k, a) ∈ l := by
  rw [List.lookup_eq_some_iff]
  constructor
  · rintro ⟨before, after, rfl, -⟩
    simp
  · intro hmem
    obtain ⟨before, after, rfl⟩ := List.append_of_mem hmem
    refine ⟨before, after, rfl, fun e he ↦ ?_⟩
    rw [List.map_append, List.map_cons] at hnodup
    have hne := (List.nodup_append.1 hnodup).2.2 e.1 (List.mem_map_of_mem he) k (by simp)
    simpa using hne.symm

namespace Index

variable {index : Index} {key : String} {id m : ModuleId} {ms : List ModuleId}
  {keyOf : ModuleId → String}

/-- The index of some modules by a key of theirs, the last one first. -/
def of (keyOf : ModuleId → String) (ms : List ModuleId) : Index :=
  (ms.map fun m ↦ (keyOf m, m)).reverse

theorem keys_of : (of keyOf ms).map Prod.fst = (ms.map keyOf).reverse := by
  rw [of, List.map_reverse, List.map_map]
  rfl

/-- A key leads to the module that has it. -/
theorem lookup_of (hnodup : (ms.map keyOf).Nodup) :
    (of keyOf ms).lookup key = some m ↔ m ∈ ms ∧ keyOf m = key := by
  rw [lookup_eq_some_iff_mem (by rwa [keys_of, List.nodup_reverse]), of, List.mem_reverse,
    List.mem_map]
  constructor
  · rintro ⟨m', hm, heq⟩
    obtain ⟨rfl, rfl⟩ := Prod.mk.inj heq
    exact ⟨hm, rfl⟩
  · rintro ⟨hm, rfl⟩
    exact ⟨m, hm, rfl⟩

theorem lookup_of_eq_none_iff (hnodup : (ms.map keyOf).Nodup) :
    (of keyOf ms).lookup key = none ↔ ∀ m ∈ ms, keyOf m ≠ key := by
  simp only [Option.eq_none_iff_forall_ne_some, ne_eq, lookup_of hnodup, not_and]

/-- **Entering a module under a free key.** The index is that of one module more. -/
theorem enter_of (keyOf : ModuleId → String) (hfree : ∀ m ∈ ms, keyOf m ≠ keyOf id) :
    (of keyOf ms).enter (keyOf id) id = of keyOf (ms ++ [id]) := by
  have hkept : (of keyOf ms).filter (·.1 ≠ keyOf id) = of keyOf ms := by
    refine List.filter_eq_self.2 fun e he ↦ ?_
    obtain ⟨m, hm, rfl⟩ := List.mem_map.1 (List.mem_reverse.1 he)
    simpa using hfree m hm
  rw [enter, hkept, of, of, List.map_append, List.reverse_append]
  rfl

end Index

namespace Registering

variable {α β : Type} {step : Registering α} {r r' : Registry}

/-- The registry after a step, whether the step was refused or not. -/
def after (step : Registering α) (r : Registry) : Registry :=
  match step r with
  | .ok _ r' => r'
  | .error _ r' => r'

theorem after_of_eq_ok {a : α} (h : step r = .ok a r') : step.after r = r' := by
  rw [after, h]

theorem after_of_eq_error {fault : Fault} (h : step r = .error fault r') : step.after r = r' := by
  rw [after, h]

theorem bind_of_eq_ok {f : α → Registering β} {a : α} (h : step r = .ok a r') :
    (step >>= f) r = f a r' := by
  show EStateM.bind step f r = _
  rw [EStateM.bind, h]

theorem bind_of_eq_error {f : α → Registering β} {fault : Fault} (h : step r = .error fault r') :
    (step >>= f) r = .error fault r' := by
  show EStateM.bind step f r = _
  rw [EStateM.bind, h]

end Registering

namespace Registry

variable {s : Schema} {r r' : Registry} {id m : ModuleId} {name : String}

/-- The registry comes from the empty one by registering modules of the schema. -/
inductive Built (s : Schema) : Registry → Prop where
  | empty : Built s {}
  | register {r r' : Registry} {id : ModuleId} (built : Built s r)
      (present : id.index < s.modules.size) (accepted : register s id r = .ok () r') : Built s r'

/-- Both indexes are read off the list of registered modules, and no key occurs twice. -/
structure Faithful (r : Registry) (s : Schema) : Prop where
  index_lt_of_mem_modules : ∀ {m}, m ∈ r.modules → m.index < s.modules.size
  names_eq : r.names = .of (fun m ↦ (s.module m).name) r.modules
  prefixes_eq : r.prefixes = .of (fun m ↦ (s.module m).ownPrefix) r.modules
  nodup_map_name : (r.modules.map fun m ↦ (s.module m).name).Nodup
  nodup_map_ownPrefix : (r.modules.map fun m ↦ (s.module m).ownPrefix).Nodup

theorem faithful_empty (s : Schema) : ({} : Registry).Faithful s :=
  ⟨by simp, rfl, rfl, by simp, by simp⟩

/-! ### Looking up keys -/

namespace Faithful

variable (hr : r.Faithful s)
include hr

/-- **Look-up is search.** A name denotes the registered module that has it. -/
theorem byName?_eq_some_iff :
    r.byName? name = some m ↔ m ∈ r.modules ∧ (s.module m).name = name := by
  rw [byName?, hr.names_eq]
  exact Index.lookup_of hr.nodup_map_name

/-- And so does a prefix. -/
theorem byPrefix?_eq_some_iff {ownPrefix : String} :
    r.byPrefix? ownPrefix = some m ↔ m ∈ r.modules ∧ (s.module m).ownPrefix = ownPrefix := by
  rw [byPrefix?, hr.prefixes_eq]
  exact Index.lookup_of hr.nodup_map_ownPrefix

theorem byName?_eq_none_iff :
    r.byName? name = none ↔ ∀ m ∈ r.modules, (s.module m).name ≠ name := by
  rw [byName?, hr.names_eq]
  exact Index.lookup_of_eq_none_iff hr.nodup_map_name

theorem byPrefix?_eq_none_iff {ownPrefix : String} :
    r.byPrefix? ownPrefix = none ↔ ∀ m ∈ r.modules, (s.module m).ownPrefix ≠ ownPrefix := by
  rw [byPrefix?, hr.prefixes_eq]
  exact Index.lookup_of_eq_none_iff hr.nodup_map_ownPrefix

/-- No module is registered twice: it would have registered its name twice. -/
theorem modules_nodup : r.modules.Nodup :=
  List.Nodup.of_map _ hr.nodup_map_name

theorem eq_of_name_eq (hm : m ∈ r.modules) (hid : id ∈ r.modules)
    (h : (s.module m).name = (s.module id).name) : m = id :=
  List.inj_on_of_nodup_map hr.nodup_map_name hm hid h

theorem eq_of_ownPrefix_eq (hm : m ∈ r.modules) (hid : id ∈ r.modules)
    (h : (s.module m).ownPrefix = (s.module id).ownPrefix) : m = id :=
  List.inj_on_of_nodup_map hr.nodup_map_ownPrefix hm hid h

end Faithful

/-! ### One registration -/

/-- A registry in which one more module has been entered. -/
def enter (r : Registry) (s : Schema) (id : ModuleId) : Registry where
  names := r.names.enter (s.module id).name id
  prefixes := r.prefixes.enter (s.module id).ownPrefix id
  modules := r.modules ++ [id]

/-- **What a registration does.** The keys are looked up before anything is changed. -/
theorem register_eq (s : Schema) (id : ModuleId) (r : Registry) :
    register s id r =
      match r.byName? (s.module id).name with
      | some taken =>
        .error (.duplicateModule .name (s.module id).name (s.module taken).name) r
      | none =>
        match r.byPrefix? (s.module id).ownPrefix with
        | some taken =>
          .error (.duplicateModule .ownPrefix (s.module id).ownPrefix (s.module taken).name) r
        | none => .ok () (r.enter s id) := by
  have hget {α : Type} (f : Registry → Registering α) : (get >>= f : Registering α) r = f r r := rfl
  rw [register, hget]
  rcases r.byName? (s.module id).name with - | taken
  · show (get >>= _ : Registering Unit) r = _
    rw [hget]
    rcases r.byPrefix? (s.module id).ownPrefix with - | taken <;> rfl
  · rfl

/-- An accepted registration: both keys were free. -/
theorem register_eq_ok_iff :
    register s id r = .ok () r' ↔ r.byName? (s.module id).name = none ∧
      r.byPrefix? (s.module id).ownPrefix = none ∧ r' = r.enter s id := by
  rw [register_eq]
  rcases hname : r.byName? (s.module id).name with - | taken
  · rcases hown : r.byPrefix? (s.module id).ownPrefix with - | taken
    · simp [eq_comm]
    · simp
  · simp

/-- **A refused registration leaves the registry as it was**: both indexes and the order. -/
theorem eq_of_register_eq_error {fault : Fault} (h : register s id r = .error fault r') :
    r' = r := by
  rw [register_eq] at h
  split at h
  · exact (EStateM.Result.error.inj h).2.symm
  · split at h
    · exact (EStateM.Result.error.inj h).2.symm
    · cases h

theorem exists_duplicate_of_register_eq_error {fault : Fault}
    (h : register s id r = .error fault r') :
    ∃ key value existing, fault = .duplicateModule key value existing := by
  rw [register_eq] at h
  split at h
  · exact ⟨_, _, _, (EStateM.Result.error.inj h).1.symm⟩
  · split at h
    · exact ⟨_, _, _, (EStateM.Result.error.inj h).1.symm⟩
    · cases h

namespace Faithful

variable (hr : r.Faithful s)
include hr

/-- A registration is accepted if no registered module has the name or the prefix. -/
theorem register_eq_ok_iff_free :
    register s id r = .ok () r' ↔
      (∀ m ∈ r.modules, (s.module m).name ≠ (s.module id).name ∧
        (s.module m).ownPrefix ≠ (s.module id).ownPrefix) ∧ r' = r.enter s id := by
  rw [register_eq_ok_iff, hr.byName?_eq_none_iff, hr.byPrefix?_eq_none_iff]
  grind

/-- **When a registration is refused, and for what**: for the name if a registered module has it,
and for the prefix only if none has the name. -/
theorem register_eq_error_iff {fault : Fault} :
    register s id r = .error fault r' ↔ r = r' ∧
      ((∃ m ∈ r.modules, (s.module m).name = (s.module id).name ∧
          fault = .duplicateModule .name (s.module id).name (s.module m).name) ∨
        (∀ m ∈ r.modules, (s.module m).name ≠ (s.module id).name) ∧
          ∃ m ∈ r.modules, (s.module m).ownPrefix = (s.module id).ownPrefix ∧
            fault = .duplicateModule .ownPrefix (s.module id).ownPrefix (s.module m).name) := by
  rw [register_eq]
  rcases hname : r.byName? (s.module id).name with - | taken
  · have hfree := hr.byName?_eq_none_iff.1 hname
    rcases hown : r.byPrefix? (s.module id).ownPrefix with - | taken
    · have hfree' := hr.byPrefix?_eq_none_iff.1 hown
      simp only [reduceCtorEq]
      grind
    · obtain ⟨hmem, heq⟩ := hr.byPrefix?_eq_some_iff.1 hown
      -- the prefix denotes one module, so the index tells whose it is
      have huniq : ∀ m ∈ r.modules, (s.module m).ownPrefix = (s.module id).ownPrefix → m = taken :=
        fun m hm h ↦ hr.eq_of_ownPrefix_eq hm hmem (h.trans heq.symm)
      simp only [EStateM.Result.error.injEq]
      grind
  · obtain ⟨hmem, heq⟩ := hr.byName?_eq_some_iff.1 hname
    have huniq : ∀ m ∈ r.modules, (s.module m).name = (s.module id).name → m = taken :=
      fun m hm h ↦ hr.eq_of_name_eq hm hmem (h.trans heq.symm)
    simp only [EStateM.Result.error.injEq]
    grind

/-- **Step.** An accepted registration keeps a registry faithful: each of the three changes adds the
same module. -/
theorem register (hid : id.index < s.modules.size) (h : register s id r = .ok () r') :
    r'.Faithful s := by
  obtain ⟨hfree, rfl⟩ := hr.register_eq_ok_iff_free.1 h
  refine ⟨?_, ?_, ?_, ?_, ?_⟩
  · intro m hm
    rcases List.mem_append.1 hm with hm | hm
    · exact hr.index_lt_of_mem_modules hm
    · rw [List.mem_singleton.1 hm]
      exact hid
  · rw [enter, hr.names_eq]
    exact Index.enter_of (fun m ↦ (s.module m).name) fun m hm ↦ (hfree m hm).1
  · rw [enter, hr.prefixes_eq]
    exact Index.enter_of (fun m ↦ (s.module m).ownPrefix) fun m hm ↦ (hfree m hm).2
  · rw [enter, List.map_append, List.nodup_append_comm]
    refine List.nodup_cons.2 ⟨fun hmem ↦ ?_, hr.nodup_map_name⟩
    obtain ⟨m, hm, heq⟩ := List.mem_map.1 hmem
    exact (hfree m hm).1 heq
  · rw [enter, List.map_append, List.nodup_append_comm]
    refine List.nodup_cons.2 ⟨fun hmem ↦ ?_, hr.nodup_map_ownPrefix⟩
    obtain ⟨m, hm, heq⟩ := List.mem_map.1 hmem
    exact (hfree m hm).2 heq

end Faithful

/-- **Run.** Built registries are faithful. -/
theorem Built.faithful (h : r.Built s) : r.Faithful s := by
  induction h with
  | empty => exact faithful_empty s
  | register _ hid haccepted ih => exact ih.register hid haccepted

/-! ### Registering several modules -/

theorem Built.registerAll {ids : List ModuleId} (hr : r.Built s)
    (hids : ∀ id ∈ ids, id.index < s.modules.size) (h : registerAll s ids r = .ok () r') :
    r'.Built s := by
  induction ids generalizing r with
  | nil =>
    obtain ⟨-, rfl⟩ := EStateM.Result.ok.inj h
    exact hr
  | cons id ids ih =>
    rw [Registry.registerAll] at h
    rcases hfirst : Registry.register s id r with ⟨⟨⟩, r₁⟩ | ⟨fault, r₁⟩
    · rw [Registering.bind_of_eq_ok hfirst] at h
      exact ih (hr.register (hids id (by simp)) hfirst) (fun i hi ↦ hids i (by simp [hi])) h
    · rw [Registering.bind_of_eq_error hfirst] at h
      cases h

theorem modules_of_registerAll {ids : List ModuleId} (h : registerAll s ids r = .ok () r') :
    r'.modules = r.modules ++ ids := by
  induction ids generalizing r with
  | nil =>
    obtain ⟨-, rfl⟩ := EStateM.Result.ok.inj h
    simp
  | cons id ids ih =>
    rw [registerAll] at h
    rcases hfirst : register s id r with ⟨⟨⟩, r₁⟩ | ⟨fault, r₁⟩
    · rw [Registering.bind_of_eq_ok hfirst] at h
      obtain ⟨-, -, rfl⟩ := register_eq_ok_iff.1 hfirst
      rw [ih h]
      simp [enter]
    · rw [Registering.bind_of_eq_error hfirst] at h
      cases h

/-- **Modules can be registered together exactly if no key occurs twice**, among them or between
them and those that are registered. -/
theorem Faithful.exists_registerAll_eq_ok_iff {ids : List ModuleId} (hr : r.Faithful s)
    (hids : ∀ id ∈ ids, id.index < s.modules.size) :
    (∃ r', registerAll s ids r = .ok () r') ↔
      ((r.modules ++ ids).map fun m ↦ (s.module m).name).Nodup ∧
        ((r.modules ++ ids).map fun m ↦ (s.module m).ownPrefix).Nodup := by
  induction ids generalizing r with
  | nil =>
    rw [List.append_nil]
    exact iff_of_true ⟨r, rfl⟩ ⟨hr.nodup_map_name, hr.nodup_map_ownPrefix⟩
  | cons id ids ih =>
    rw [registerAll]
    rcases hfirst : Registry.register s id r with ⟨⟨⟩, r₁⟩ | ⟨fault, r₁⟩
    · have hrest := ih (hr.register (hids id (by simp)) hfirst) fun i hi ↦ hids i (by simp [hi])
      obtain ⟨-, -, rfl⟩ := register_eq_ok_iff.1 hfirst
      rw [Registering.bind_of_eq_ok hfirst, hrest, enter, List.append_assoc, List.singleton_append]
    · -- the key that is taken stands on both sides
      refine iff_of_false (by simp [Registering.bind_of_eq_error hfirst]) ?_
      rw [List.map_append, List.map_append]
      rintro ⟨hnames, hprefixes⟩
      rcases (hr.register_eq_error_iff.1 hfirst).2 with ⟨m, hm, heq, -⟩ | ⟨-, m, hm, heq, -⟩
      · exact (List.nodup_append.1 hnames).2.2 _ (List.mem_map_of_mem hm) _ (by simp) heq
      · exact (List.nodup_append.1 hprefixes).2.2 _ (List.mem_map_of_mem hm) _ (by simp) heq

theorem exists_duplicate_of_registerAll_eq_error {ids : List ModuleId} {fault : Fault}
    (h : registerAll s ids r = .error fault r') :
    ∃ key value existing, fault = .duplicateModule key value existing := by
  induction ids generalizing r with
  | nil => cases h
  | cons id ids ih =>
    rw [registerAll] at h
    rcases hfirst : register s id r with ⟨⟨⟩, r₁⟩ | ⟨fault₁, r₁⟩
    · rw [Registering.bind_of_eq_ok hfirst] at h
      exact ih h
    · rw [Registering.bind_of_eq_error hfirst] at h
      obtain ⟨rfl, -⟩ := EStateM.Result.error.inj h
      exact exists_duplicate_of_register_eq_error hfirst

theorem index_lt_of_mem_moduleHandles (h : id ∈ s.moduleHandles) : id.index < s.modules.size := by
  obtain ⟨i, hi, rfl⟩ := List.mem_map.1 h
  exact List.mem_range.1 hi

theorem ofSchema_eq_ok_iff :
    ofSchema s = .ok r ↔ registerAll s s.moduleHandles {} = .ok () r := by
  rw [ofSchema]
  rcases registerAll s s.moduleHandles {} with ⟨⟨⟩, r'⟩ | ⟨fault, r'⟩ <;> simp

/-- The registry of a whole schema is built. -/
theorem built_of_ofSchema (h : ofSchema s = .ok r) : r.Built s :=
  Built.empty.registerAll (fun _ ↦ index_lt_of_mem_moduleHandles) (ofSchema_eq_ok_iff.1 h)

theorem modules_of_ofSchema (h : ofSchema s = .ok r) : r.modules = s.moduleHandles :=
  modules_of_registerAll (ofSchema_eq_ok_iff.1 h)

theorem exists_duplicate_of_ofSchema_eq_error {fault : Fault} (h : ofSchema s = .error fault) :
    ∃ key value existing, fault = .duplicateModule key value existing := by
  rw [ofSchema] at h
  rcases hall : registerAll s s.moduleHandles {} with ⟨⟨⟩, r'⟩ | ⟨fault', r'⟩
  · rw [hall] at h
    cases h
  · rw [hall] at h
    obtain rfl := Except.error.inj h
    exact exists_duplicate_of_registerAll_eq_error hall

/-- A schema has a registry exactly if its modules differ in their names and in their prefixes. -/
theorem exists_ofSchema_eq_ok_iff (s : Schema) :
    (∃ r, ofSchema s = .ok r) ↔
      (s.moduleHandles.map fun m ↦ (s.module m).name).Nodup ∧
        (s.moduleHandles.map fun m ↦ (s.module m).ownPrefix).Nodup := by
  simp only [ofSchema_eq_ok_iff]
  exact (faithful_empty s).exists_registerAll_eq_ok_iff fun _ ↦ index_lt_of_mem_moduleHandles

end Registry

end SchemaLink
