import SchemaLink.Proofs.DepthFirst
import SchemaLink.Proofs.ImportOrder

/-!
# Which modules a cycle of imports is reported for

Whether there is an order is decided by counting: some module has not left the queue when the queue
is empty. Which modules are reported is decided by a search, from each module, for a way back to
itself. The two are computed apart from each other. **They agree on every graph**: the count falls
short exactly if some search finds a way back, and then the report lists the modules of all such
ways and no others (`Registry.importOrder_eq_error_iff`).

A module that never leaves the queue need not be on a cycle, it may only wait for one. That is why
the report cannot be read off the counters.
-/

namespace SchemaLink

/-- **A module is on a cycle if it can be reached from itself.** The search starts behind the
module, so the way back has at least one step. -/
theorem ImportOrder.onCycle_iff {imports : ModuleId → List ModuleId} {size : Nat} {m : ModuleId}
    (hsize : ∀ a, ∀ b ∈ imports a, b.index < size) :
    onCycle imports size m = true ↔ Relation.TransGen (DepthFirst.Leads imports) m m := by
  have hinj : Function.Injective ModuleId.index := by
    rintro ⟨a⟩ ⟨b⟩ rfl
    rfl
  rw [onCycle, decide_eq_true_iff, DepthFirst.mem_search_iff hinj (hsize m) hsize,
    Relation.TransGen.head'_iff]
  rfl

namespace Registry

variable {s : Schema} {r : Registry} {m d : ModuleId}

/-- A list of names reports the cycles of imports: it is sorted, each name is there once, and the
registered modules that it names are those that import themselves, directly or through others. -/
structure Reports (r : Registry) (s : Schema) (names : List String) : Prop where
  sorted : names.Pairwise (· < ·)
  registered : ∀ name ∈ names, ∃ m ∈ r.modules, (s.module m).name = name
  mem_iff : ∀ m ∈ r.modules,
    (s.module m).name ∈ names ↔ Relation.TransGen (r.Imports s) m m

/-- A report has the same members as any other, so sorting leaves no choice. -/
theorem Reports.unique {names names' : List String} (h : r.Reports s names)
    (h' : r.Reports s names') : names = names' := by
  have hsubset : ∀ {l l'}, r.Reports s l → r.Reports s l' → l ⊆ l' := by
    intro l l' hl hl' name hname
    obtain ⟨m, hm, rfl⟩ := hl.registered name hname
    exact (hl'.mem_iff m hm).2 ((hl.mem_iff m hm).1 hname)
  have hnodup : ∀ {l}, r.Reports s l → l.Nodup :=
    fun hl ↦ hl.sorted.imp fun hab ↦ by
      rintro rfl
      exact String.lt_irrefl _ hab
  have hperm : names.Perm names' :=
    (List.perm_ext_iff_of_nodup (hnodup h) (hnodup h')).2 fun name ↦
      ⟨fun hname ↦ hsubset h h' hname, fun hname ↦ hsubset h' h hname⟩
  refine hperm.eq_of_pairwise (fun a b _ _ hab hba ↦ ?_) h.sorted h'.sorted
  exact absurd hba (String.lt_asymm hab)

namespace Faithful

variable (hr : r.Faithful s)
include hr

theorem index_lt_of_mem_tabledImports (hd : d ∈ r.tabledImports s m) :
    d.index < s.modules.size := by
  rcases Nat.lt_or_ge m.index s.modules.size with hm | hm
  · rw [tabledImports_eq hm, importsOf, List.mem_eraseDups, List.mem_filterMap] at hd
    obtain ⟨i, -, hd⟩ := hd
    exact hr.index_lt_of_mem_modules (hr.byName?_eq_some_iff.1 hd).1
  · simp [tabledImports, importTable, Schema.moduleHandles, hm] at hd

/-- From a registered module, imports lead to registered modules only, so ways along the table are
ways along imports. -/
theorem transGen_tabledImports_iff (hm : m ∈ r.modules) :
    Relation.TransGen (DepthFirst.Leads (r.tabledImports s)) m d ↔
      Relation.TransGen (r.Imports s) m d := by
  constructor
  · intro h
    suffices hway : d ∈ r.modules ∧ Relation.TransGen (r.Imports s) m d from hway.2
    induction h with
    | single hstep =>
      have himports := (hr.mem_tabledImports_iff hm).1 hstep
      exact ⟨himports.2.1, .single himports⟩
    | tail _ hstep ih =>
      have himports := (hr.mem_tabledImports_iff ih.1).1 hstep
      exact ⟨himports.2.1, ih.2.tail himports⟩
  · exact Relation.TransGen.mono (fun a b h ↦ (hr.mem_tabledImports_iff h.1).2 h) _ _

theorem onCycle_iff (hm : m ∈ r.modules) :
    ImportOrder.onCycle (r.tabledImports s) s.modules.size m = true ↔
      Relation.TransGen (r.Imports s) m m := by
  rw [ImportOrder.onCycle_iff fun _ _ hd ↦ hr.index_lt_of_mem_tabledImports hd,
    hr.transGen_tabledImports_iff hm]

/-- **The names that are listed report the cycles.** -/
theorem reports_cyclicNames : r.Reports s (r.cyclicNames s (r.tabledImports s)) := by
  set cyclic := r.modules.filter (ImportOrder.onCycle (r.tabledImports s) s.modules.size)
  have hcyclic : ∀ m, m ∈ cyclic ↔ m ∈ r.modules ∧ Relation.TransGen (r.Imports s) m m := by
    intro m
    rw [List.mem_filter]
    exact and_congr_right fun hm ↦ hr.onCycle_iff hm
  have hmem : ∀ name, name ∈ r.cyclicNames s (r.tabledImports s) ↔
      ∃ m ∈ cyclic, (s.module m).name = name := by
    intro name
    rw [cyclicNames, List.mem_mergeSort, List.mem_map]
  have hnodup : (r.cyclicNames s (r.tabledImports s)).Nodup := by
    rw [cyclicNames, (List.mergeSort_perm _ _).nodup_iff]
    exact hr.nodup_map_name.sublist (List.filter_sublist.map _)
  have hle : (r.cyclicNames s (r.tabledImports s)).Pairwise (· ≤ ·) := by
    have htrans (a b c : String) (hab : decide (a ≤ b) = true) (hbc : decide (b ≤ c) = true) :
        decide (a ≤ c) = true :=
      decide_eq_true (String.le_trans (of_decide_eq_true hab) (of_decide_eq_true hbc))
    have htotal (a b : String) : (decide (a ≤ b) || decide (b ≤ a)) = true := by
      simpa using String.le_total a b
    have hsorted := List.pairwise_mergeSort htrans htotal (cyclic.map fun m ↦ (s.module m).name)
    exact hsorted.imp fun h ↦ by simpa using h
  refine ⟨?_, ?_, ?_⟩
  · refine (hle.and hnodup).imp fun {a b} h ↦ String.not_le.1 fun hba ↦ ?_
    exact h.2 (String.le_antisymm h.1 hba)
  · intro name hname
    obtain ⟨m, hm, rfl⟩ := (hmem name).1 hname
    exact ⟨m, ((hcyclic m).1 hm).1, rfl⟩
  · intro m hm
    rw [hmem]
    constructor
    · rintro ⟨m', hm', hname⟩
      obtain ⟨hmodule, hcycle⟩ := (hcyclic m').1 hm'
      obtain rfl := hr.eq_of_name_eq hmodule hm hname
      exact hcycle
    · intro hcycle
      exact ⟨m, (hcyclic m).2 ⟨hm, hcycle⟩, rfl⟩

end Faithful

/-- **The import order fails exactly for the cycles of imports, and says which modules are on
them.** A module that only depends on a cycle, or that a cycle depends on, is not named. -/
theorem importOrder_eq_error_iff (hr : r.Built s) (fault : Fault) :
    r.importOrder s = .error fault ↔
      ∃ names, fault = .cyclicImports names ∧ names ≠ [] ∧ r.Reports s names := by
  have hf := hr.faithful
  have hreports := hf.reports_cyclicNames
  constructor
  · intro h
    -- the count falls short, so imports are not acyclic, and some module is on a cycle
    have hcyclic : ¬ r.ImportsAcyclic s := by
      intro hacyclic
      obtain ⟨order, hok⟩ := hf.importOrder_of_acyclic hacyclic
      rw [h] at hok
      cases hok
    obtain ⟨m, hm⟩ : ∃ m, Relation.TransGen (r.Imports s) m m := by
      simpa only [ImportsAcyclic, not_forall, not_not] using hcyclic
    have hmodule : m ∈ r.modules := by
      obtain ⟨d, hstep, -⟩ := Relation.TransGen.head'_iff.1 hm
      exact hstep.1
    rw [importOrder_eq] at h
    split at h
    · refine ⟨_, (Except.error.inj h).symm, ?_, hreports⟩
      exact List.ne_nil_of_mem ((hreports.mem_iff m hmodule).2 hm)
    · cases h
  · rintro ⟨names, rfl, hne, hnames⟩
    obtain ⟨name, hname⟩ := List.exists_mem_of_ne_nil names hne
    obtain ⟨m, hm, rfl⟩ := hnames.registered name hname
    rw [importOrder_eq]
    split
    · rw [hreports.unique hnames]
    · next hlen =>
      -- an order would contradict the cycle that is reported
      have hok : r.importOrder s = .ok (r.orderingAfter s r.modules.length).done := by
        rw [importOrder_eq, if_neg hlen]
      exact absurd ((hnames.mem_iff m hm).1 hname) (hf.acyclic_of_importOrder_eq_ok hok m)

/-- Two modules that import each other, one that imports itself, one that depends on the two, and
one that they depend on. -/
def entangled : Schema where
  modules := #[
    { name := "user", ownPrefix := "u", space := "urn:user", main := ⟨0⟩
      imports := [⟨"right", "r"⟩] },
    { name := "right", ownPrefix := "r", space := "urn:right", main := ⟨1⟩
      imports := [⟨"left", "l"⟩, ⟨"base", "b"⟩] },
    { name := "left", ownPrefix := "l", space := "urn:left", main := ⟨2⟩
      imports := [⟨"right", "r"⟩, ⟨"gone", "g"⟩] },
    { name := "base", ownPrefix := "b", space := "urn:base", main := ⟨3⟩ },
    { name := "alone", ownPrefix := "a", space := "urn:alone", main := ⟨4⟩
      imports := [⟨"alone", "a"⟩] }]

/-- The registry of the five modules. -/
def entangledRegistry : Registry where
  names := [("alone", ⟨4⟩), ("base", ⟨3⟩), ("left", ⟨2⟩), ("right", ⟨1⟩), ("user", ⟨0⟩)]
  prefixes := [("a", ⟨4⟩), ("b", ⟨3⟩), ("l", ⟨2⟩), ("r", ⟨1⟩), ("u", ⟨0⟩)]
  modules := [⟨0⟩, ⟨1⟩, ⟨2⟩, ⟨3⟩, ⟨4⟩]

theorem importOrder_entangled :
    entangledRegistry.Built entangled ∧
      entangledRegistry.importOrder entangled =
        .error (.cyclicImports ["alone", "left", "right"]) ∧
      entangledRegistry.Reports entangled ["alone", "left", "right"] := by
  have hbuilt : entangledRegistry.Built entangled := built_of_ofSchema (by decide)
  have hcyclic : entangledRegistry.modules.filter (ImportOrder.onCycle
      (entangledRegistry.tabledImports entangled) entangled.modules.size) = [⟨1⟩, ⟨2⟩, ⟨4⟩] := by
    decide
  have herror : entangledRegistry.importOrder entangled =
      .error (.cyclicImports ["alone", "left", "right"]) := by
    rw [importOrder_eq, if_pos (by decide), cyclicNames, hcyclic]
    simp [List.mergeSort, entangled, Schema.module]
  obtain ⟨names, hfault, -, hreports⟩ := (importOrder_eq_error_iff hbuilt _).1 herror
  obtain rfl := Fault.cyclicImports.inj hfault
  exact ⟨hbuilt, herror, hreports⟩

end Registry

end SchemaLink
