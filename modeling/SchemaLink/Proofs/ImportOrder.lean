import Mathlib.Data.List.Nodup
import Mathlib.Data.Set.Finite.List
import Mathlib.Order.WellFoundedSet
import SchemaLink.ImportOrder
import SchemaLink.Proofs.Distinct
import SchemaLink.Proofs.Registration

/-!
# The import order is a topological order

The queue of `ImportOrder.advance` is followed state by state. **One invariant carries everything**:
each counter is the number of imports that have not left the queue yet, and a module has entered the
queue exactly when all its imports have left it. From the invariant alone follow

* that a counter which is lowered was positive (`Invariant.pos_of_mem_imports`), so that counting
  down never gets stuck at zero;
* that what has left the queue is in order (`Invariant.sorted`);
* that an empty queue leaves behind only modules that wait for each other, which is a cycle.

The invariant speaks of any graph given by its lists of predecessors; the registry enters in the
last section, where imports are read off the schema.
-/

namespace SchemaLink

namespace ImportOrder

variable (imports : ModuleId → List ModuleId) (ms : List ModuleId)

/-- The imports of a module that are not among the modules done. -/
def outstanding (done : List ModuleId) (m : ModuleId) : List ModuleId :=
  (imports m).filter (· ∉ done)

/-- The modules to be ordered are listed once each, with each of their imports once, and all imports
are among them. -/
structure Graph : Prop where
  modules_nodup : ms.Nodup
  imports_nodup : ∀ m ∈ ms, (imports m).Nodup
  imports_subset : ∀ m ∈ ms, ∀ d ∈ imports m, d ∈ ms

/-- What holds whenever a module is about to leave the queue. -/
structure Invariant (st : State) : Prop where
  /-- Each counter is the number of outstanding imports. -/
  waiting_eq : st.waiting = ms.map fun m ↦ (m, (outstanding imports st.done m).length)
  nodup : (st.done ++ st.queue).Nodup
  subset : ∀ m ∈ st.done ++ st.queue, m ∈ ms
  /-- A module has entered the queue once its imports have left it. -/
  entered_iff : ∀ m ∈ ms, m ∈ st.done ++ st.queue ↔ ∀ d ∈ imports m, d ∈ st.done
  /-- The imports of a module have left the queue before it. -/
  sorted : ∀ as m bs, st.done = as ++ m :: bs → ∀ d ∈ imports m, d ∈ as

variable {imports ms} {st : State} {m w : ModuleId} {done queue : List ModuleId}

/-! ### Outstanding imports -/

theorem mem_outstanding {d : ModuleId} :
    d ∈ outstanding imports done m ↔ d ∈ imports m ∧ d ∉ done := by
  simp [outstanding]

theorem outstanding_nil : outstanding imports [] m = imports m := by
  simp [outstanding]

theorem outstanding_eq_nil_iff :
    outstanding imports done m = [] ↔ ∀ d ∈ imports m, d ∈ done := by
  simp [outstanding]

/-- A module that leaves the queue is no longer outstanding anywhere. -/
theorem outstanding_append_singleton (hw : (imports w).Nodup) :
    outstanding imports (done ++ [m]) w = (outstanding imports done w).erase m := by
  have hnodup : (outstanding imports done w).Nodup := hw.filter _
  rw [hnodup.erase_eq_filter, outstanding, outstanding, List.filter_filter]
  refine List.filter_congr fun d _ ↦ ?_
  by_cases hd : d = m <;> simp [hd]

/-! ### The start -/

theorem Graph.invariant_start (hg : Graph imports ms) :
    Invariant imports ms (start imports ms) where
  waiting_eq := by simp [start, outstanding_nil]
  nodup := by simpa [start] using hg.modules_nodup.filter _
  subset := by
    intro m hm
    simp only [start, List.nil_append, List.mem_filter] at hm
    exact hm.1
  entered_iff := by
    intro m hm
    simp [start, hm, List.eq_nil_iff_forall_not_mem]
  sorted := by
    intro as m bs h
    simp [start] at h

/-! ### One step -/

/-- The state after the module at the head of the queue has left it. -/
def leave (imports : ModuleId → List ModuleId) (st : State) (m : ModuleId) (queue : List ModuleId) :
    State :=
  { waiting := release imports m st.waiting
    queue := queue ++ released imports m st.waiting
    done := st.done ++ [m] }

namespace Invariant

theorem mem_of_queue (h : Invariant imports ms st) (hq : st.queue = m :: queue) : m ∈ ms :=
  h.subset m (by simp [hq])

theorem not_mem_done_of_queue (h : Invariant imports ms st) (hq : st.queue = m :: queue) :
    m ∉ st.done := by
  intro hm
  exact (List.nodup_append.1 h.nodup).2.2 m hm m (by simp [hq]) rfl

/-- **No counter is lowered below zero.** A counter that is lowered counts the module that
leaves. -/
theorem pos_of_mem_imports (h : Invariant imports ms st) (hq : st.queue = m :: queue)
    {w : ModuleId × Nat} (hw : w ∈ st.waiting) (hm : m ∈ imports w.1) : 0 < w.2 := by
  rw [h.waiting_eq] at hw
  obtain ⟨v, -, rfl⟩ := List.mem_map.1 hw
  exact List.length_pos_of_mem (mem_outstanding.2 ⟨hm, h.not_mem_done_of_queue hq⟩)

/-- Lowering the counters is counting again. -/
theorem release_waiting (hg : Graph imports ms) (h : Invariant imports ms st)
    (hq : st.queue = m :: queue) :
    release imports m st.waiting =
      ms.map fun w ↦ (w, (outstanding imports (st.done ++ [m]) w).length) := by
  rw [release, h.waiting_eq, List.map_map]
  refine List.map_congr_left fun w hw ↦ ?_
  rw [outstanding_append_singleton (hg.imports_nodup w hw), List.length_erase]
  by_cases hm : m ∈ imports w
  · simp [hm, mem_outstanding, h.not_mem_done_of_queue hq]
  · simp [hm, mem_outstanding]

theorem released_waiting (h : Invariant imports ms st) :
    released imports m st.waiting =
      ms.filter fun w ↦ m ∈ imports w ∧ (outstanding imports st.done w).length = 1 := by
  rw [released, h.waiting_eq, List.filter_map, List.map_map]
  exact List.map_id _

/-- The modules that enter the queue after `m` are those for which `m` was the last import. -/
theorem mem_released (hg : Graph imports ms) (h : Invariant imports ms st)
    (hq : st.queue = m :: queue) :
    w ∈ released imports m st.waiting ↔
      w ∈ ms ∧ m ∈ imports w ∧ ∀ d ∈ imports w, d ∈ st.done ++ [m] := by
  rw [h.released_waiting, List.mem_filter, decide_eq_true_eq]
  refine and_congr_right fun hw ↦ and_congr_right fun hm ↦ ?_
  have hmem : m ∈ outstanding imports st.done w :=
    mem_outstanding.2 ⟨hm, h.not_mem_done_of_queue hq⟩
  have hpos := List.length_pos_of_mem hmem
  rw [← outstanding_eq_nil_iff, outstanding_append_singleton (hg.imports_nodup w hw),
    ← List.length_eq_zero_iff, List.length_erase_of_mem hmem]
  omega

/-- A module that enters the queue was not in it before: an import of it was outstanding. -/
theorem not_entered_of_mem_released (hg : Graph imports ms) (h : Invariant imports ms st)
    (hq : st.queue = m :: queue) (hw : w ∈ released imports m st.waiting) :
    w ∉ st.done ++ st.queue := by
  obtain ⟨hms, hm, -⟩ := (h.mem_released hg hq).1 hw
  intro hmem
  exact h.not_mem_done_of_queue hq ((h.entered_iff w hms).1 hmem m hm)

/-- **Step.** The invariant survives the departure of a module. -/
theorem leave (hg : Graph imports ms) (h : Invariant imports ms st) (hq : st.queue = m :: queue) :
    Invariant imports ms (leave imports st m queue) where
  waiting_eq := h.release_waiting hg hq
  nodup := by
    have hreleased : (released imports m st.waiting).Nodup := by
      rw [h.released_waiting]
      exact hg.modules_nodup.filter _
    have hold : (st.done ++ m :: queue).Nodup := hq ▸ h.nodup
    show (st.done ++ [m] ++ (queue ++ released imports m st.waiting)).Nodup
    rw [List.append_assoc, List.singleton_append, ← List.cons_append, ← List.append_assoc]
    refine List.Nodup.append hold hreleased fun w hw hr ↦ ?_
    exact h.not_entered_of_mem_released hg hq hr (hq ▸ hw)
  subset := by
    intro w hw
    have hcases : w ∈ st.done ++ m :: queue ∨ w ∈ released imports m st.waiting := by
      simp only [ImportOrder.leave, List.mem_append, List.mem_cons] at hw ⊢
      tauto
    rcases hcases with hw | hw
    · exact h.subset w (hq ▸ hw)
    · exact ((h.mem_released hg hq).1 hw).1
  entered_iff := by
    intro w hms
    have hentered := h.entered_iff w hms
    rw [hq] at hentered
    show w ∈ st.done ++ [m] ++ (queue ++ released imports m st.waiting) ↔
      ∀ d ∈ imports w, d ∈ st.done ++ [m]
    constructor
    · intro hw
      have hcases : w ∈ st.done ++ m :: queue ∨ w ∈ released imports m st.waiting := by
        simp only [List.mem_append, List.mem_cons] at hw ⊢
        tauto
      rcases hcases with hw | hw
      · exact fun d hd ↦ List.mem_append_left _ (hentered.1 hw d hd)
      · exact ((h.mem_released hg hq).1 hw).2.2
    · intro hall
      by_cases hm : m ∈ imports w
      · have hw := (h.mem_released hg hq).2 ⟨hms, hm, hall⟩
        exact List.mem_append_right _ (List.mem_append_right _ hw)
      · -- without `m` among them, the imports had all left before
        have hw : w ∈ st.done ++ m :: queue := hentered.2 fun d hd ↦ by
          rcases List.mem_append.1 (hall d hd) with hd' | hd'
          · exact hd'
          · exact absurd (List.mem_singleton.1 hd' ▸ hd) hm
        simp only [List.mem_append, List.mem_cons] at hw ⊢
        tauto
  sorted := by
    intro as w bs hdone d hd
    have hdone : st.done ++ [m] = as ++ w :: bs := hdone
    -- the module at hand is the one that has just left, or it stands in the order from before
    rcases List.eq_nil_or_concat bs with rfl | ⟨bs, last, rfl⟩
    · obtain ⟨rfl, hmw⟩ := List.append_inj' hdone rfl
      obtain rfl : m = w := by simpa using hmw
      exact (h.entered_iff m (h.mem_of_queue hq)).1 (by simp [hq]) d hd
    · rw [List.concat_eq_append, ← List.cons_append, ← List.append_assoc] at hdone
      exact h.sorted as w bs (List.append_inj' hdone rfl).1 d hd

end Invariant

/-! ### The run -/

theorem advance_of_queue_eq_nil (hq : st.queue = []) (n : Nat) : advance imports n st = st := by
  cases n with
  | zero => rfl
  | succ n => simp [advance, hq]

theorem advance_succ_of_queue_eq_cons (hq : st.queue = m :: queue) (n : Nat) :
    advance imports (n + 1) st = advance imports n (leave imports st m queue) := by
  simp [advance, hq, leave]

/-- **Run.** The invariant holds in every state that the queue goes through. -/
theorem Invariant.advance (hg : Graph imports ms) (h : Invariant imports ms st) (n : Nat) :
    Invariant imports ms (advance imports n st) := by
  induction n generalizing st with
  | zero => exact h
  | succ n ih =>
    rcases hq : st.queue with - | ⟨m, queue⟩
    · rw [advance_of_queue_eq_nil hq]; exact h
    · rw [advance_succ_of_queue_eq_cons hq]; exact ih (h.leave hg hq)

/-- As long as the queue is not empty, every step lets one module leave. -/
theorem queue_advance_eq_nil_or (imports : ModuleId → List ModuleId) (n : Nat) (st : State) :
    (advance imports n st).queue = [] ∨
      (advance imports n st).done.length = st.done.length + n := by
  induction n generalizing st with
  | zero => exact Or.inr rfl
  | succ n ih =>
    rcases hq : st.queue with - | ⟨m, queue⟩
    · rw [advance_of_queue_eq_nil hq]; exact Or.inl hq
    · rw [advance_succ_of_queue_eq_cons hq]
      refine (ih (leave imports st m queue)).imp id fun hlen ↦ ?_
      rw [hlen]
      simp only [leave, List.length_append, List.length_singleton]
      omega

/-- **The steps suffice**: after as many steps as there are modules, the queue is empty. -/
theorem queue_advance_length (hg : Graph imports ms) :
    (advance imports ms.length (start imports ms)).queue = [] := by
  have h := hg.invariant_start.advance hg ms.length
  rcases queue_advance_eq_nil_or imports ms.length (start imports ms) with hq | hlen
  · exact hq
  · -- as many have left as there are modules, and nothing is listed twice
    have hbound := (List.subperm_of_subset h.nodup h.subset).length_le
    rw [List.length_append, hlen] at hbound
    exact List.length_eq_zero_iff.1 (by omega)

/-! ### Cycles -/

/-- A module of the graph imports another. -/
def Edge (imports : ModuleId → List ModuleId) (ms : List ModuleId) (m d : ModuleId) : Prop :=
  m ∈ ms ∧ d ∈ imports m

/-- If everything has left the queue, imports come first. -/
theorem Invariant.idxOf_lt (h : Invariant imports ms st) {d : ModuleId} (hm : m ∈ st.done)
    (hd : d ∈ imports m) : st.done.idxOf d < st.done.idxOf m := by
  obtain ⟨as, bs, hdone⟩ := List.append_of_mem hm
  have hnodup := (List.nodup_append.1 h.nodup).1
  have hmas : m ∉ as := by
    rw [hdone] at hnodup
    exact fun hmem ↦ (List.nodup_append.1 hnodup).2.2 m hmem m (by simp) rfl
  have hdas := h.sorted as m bs hdone d hd
  rw [hdone, List.idxOf_append_of_mem hdas, List.idxOf_append_of_notMem hmas]
  have := List.idxOf_lt_length_of_mem hdas
  omega

/-- **If no module can be reached from itself, every module leaves the queue.** Along imports, which
are well founded on finitely many modules, each module follows its imports. -/
theorem mem_done_of_acyclic (hg : Graph imports ms)
    (hacyclic : ∀ m, ¬ Relation.TransGen (Edge imports ms) m m) (hm : m ∈ ms) :
    m ∈ (ImportOrder.advance imports ms.length (start imports ms)).done := by
  have h := hg.invariant_start.advance hg ms.length
  have hq := queue_advance_length hg
  set st := ImportOrder.advance imports ms.length (start imports ms)
  let below (d m : ModuleId) : Prop := Relation.TransGen (Edge imports ms) m d
  have : IsStrictOrder ModuleId below :=
    { irrefl := hacyclic, trans := fun _ _ _ hab hbc ↦ hbc.trans hab }
  have hwf : {m | m ∈ ms}.WellFoundedOn below := (List.finite_toSet ms).wellFoundedOn
  refine hwf.induction (P := fun m ↦ m ∈ st.done) hm fun m hm ih ↦ ?_
  -- all imports have left, so the module has entered the queue, and the queue is empty now
  have hentered := (h.entered_iff m hm).2 fun d hd ↦
    ih d (hg.imports_subset m hm d hd) (.single ⟨hm, hd⟩)
  simpa [hq] using hentered

end ImportOrder

/-! ### The registered modules -/

namespace Registry

variable {s : Schema} {r : Registry} {m d : ModuleId}

/-- Among the registered modules, `m` imports `d`. Imports of other modules are left out, and a
module may import itself. -/
def Imports (r : Registry) (s : Schema) (m d : ModuleId) : Prop :=
  m ∈ r.modules ∧ d ∈ r.modules ∧ ∃ i ∈ (s.module m).imports, i.module = (s.module d).name

/-- No registered module imports itself, directly or through others. -/
def ImportsAcyclic (r : Registry) (s : Schema) : Prop :=
  ∀ m, ¬ Relation.TransGen (r.Imports s) m m

/-- The imports of a module as they are read off the table. -/
def tabledImports (r : Registry) (s : Schema) (m : ModuleId) : List ModuleId :=
  (r.importTable s)[m.index]?.getD []

/-- The state of the ordering after some steps. -/
def orderingAfter (r : Registry) (s : Schema) (n : Nat) : ImportOrder.State :=
  ImportOrder.advance (r.tabledImports s) n (ImportOrder.start (r.tabledImports s) r.modules)

theorem importOrder_eq (r : Registry) (s : Schema) :
    r.importOrder s =
      if (r.orderingAfter s r.modules.length).done.length < r.modules.length then
        .error (.cyclicImports (r.cyclicNames s (r.tabledImports s)))
      else .ok (r.orderingAfter s r.modules.length).done :=
  rfl

theorem importOrder_eq_error {fault : Fault} (h : r.importOrder s = .error fault) :
    ∃ names, fault = .cyclicImports names := by
  rw [importOrder_eq] at h
  split at h
  · exact ⟨_, (Except.error.inj h).symm⟩
  · simp at h

/-- If places in a list fall along imports, no import leads back. -/
theorem acyclic_of_imports_first {order : List ModuleId}
    (h : ∀ m d, r.Imports s m d → order.idxOf d < order.idxOf m) : r.ImportsAcyclic s := by
  intro m hcycle
  have hfalls : ∀ {a b}, Relation.TransGen (r.Imports s) a b → order.idxOf b < order.idxOf a := by
    intro a b hab
    induction hab with
    | single hab => exact h _ _ hab
    | tail _ hbc ih => exact (h _ _ hbc).trans ih
  exact absurd (hfalls hcycle) (lt_irrefl _)

theorem tabledImports_eq (hm : m.index < s.modules.size) :
    r.tabledImports s m = r.importsOf s m := by
  simp [tabledImports, importTable, Schema.moduleHandles, hm]

namespace Faithful

variable (hr : r.Faithful s)
include hr

/-- The table lists what the schema says. -/
theorem mem_tabledImports_iff (hm : m ∈ r.modules) :
    d ∈ r.tabledImports s m ↔ r.Imports s m d := by
  rw [tabledImports_eq (hr.index_lt_of_mem_modules hm), importsOf, List.mem_eraseDups,
    List.mem_filterMap]
  constructor
  · rintro ⟨i, hi, hd⟩
    obtain ⟨hmem, hname⟩ := hr.byName?_eq_some_iff.1 hd
    exact ⟨hm, hmem, i, hi, hname.symm⟩
  · rintro ⟨-, hmem, i, hi, hname⟩
    exact ⟨i, hi, hr.byName?_eq_some_iff.2 ⟨hmem, hname.symm⟩⟩

theorem graph : ImportOrder.Graph (r.tabledImports s) r.modules where
  modules_nodup := hr.modules_nodup
  imports_nodup := by
    intro m hm
    rw [tabledImports_eq (hr.index_lt_of_mem_modules hm)]
    exact Distinct.nodup_eraseDups _
  imports_subset := fun m hm d hd ↦ ((hr.mem_tabledImports_iff hm).1 hd).2.1

theorem edge_iff : ImportOrder.Edge (r.tabledImports s) r.modules m d ↔ r.Imports s m d :=
  ⟨fun h ↦ (hr.mem_tabledImports_iff h.1).1 h.2, fun h ↦ ⟨h.1, (hr.mem_tabledImports_iff h.1).2 h⟩⟩

theorem invariant_orderingAfter (n : Nat) :
    ImportOrder.Invariant (r.tabledImports s) r.modules (r.orderingAfter s n) :=
  hr.graph.invariant_start.advance hr.graph n

/-- The order, if there is one, lists exactly the registered modules. -/
theorem perm_of_importOrder_eq_ok {order : List ModuleId} (h : r.importOrder s = .ok order) :
    order = (r.orderingAfter s r.modules.length).done ∧ order.Perm r.modules := by
  rw [importOrder_eq] at h
  split at h
  · simp at h
  · next hlen =>
    obtain rfl : _ = order := by simpa using h
    have hinv := hr.invariant_orderingAfter r.modules.length
    have hnodup := (List.nodup_append.1 hinv.nodup).1
    refine ⟨rfl, (List.subperm_of_subset hnodup ?_).perm_of_length_le ?_⟩
    · exact fun m hm ↦ hinv.subset m (List.mem_append_left _ hm)
    · omega

/-- In the order, if there is one, imports come first. -/
theorem idxOf_lt_of_importOrder_eq_ok {order : List ModuleId} (h : r.importOrder s = .ok order)
    (hmd : r.Imports s m d) : order.idxOf d < order.idxOf m := by
  obtain ⟨rfl, hperm⟩ := hr.perm_of_importOrder_eq_ok h
  exact (hr.invariant_orderingAfter _).idxOf_lt (hperm.mem_iff.2 hmd.1)
    ((hr.mem_tabledImports_iff hmd.1).2 hmd)

theorem acyclic_of_importOrder_eq_ok {order : List ModuleId} (h : r.importOrder s = .ok order) :
    r.ImportsAcyclic s :=
  acyclic_of_imports_first fun _ _ ↦ hr.idxOf_lt_of_importOrder_eq_ok h

/-- Without cycles there is an order. -/
theorem importOrder_of_acyclic (hacyclic : r.ImportsAcyclic s) :
    ∃ order, r.importOrder s = .ok order := by
  have hall : ∀ m ∈ r.modules, m ∈ (r.orderingAfter s r.modules.length).done := by
    intro m hm
    refine ImportOrder.mem_done_of_acyclic hr.graph (fun a ha ↦ hacyclic a ?_) hm
    exact Relation.TransGen.mono (fun _ _ ↦ hr.edge_iff.1) _ _ ha
  have hlen := (List.subperm_of_subset hr.modules_nodup hall).length_le
  exact ⟨_, by rw [importOrder_eq, if_neg (by omega)]⟩

end Faithful

/-- **The import order is a topological order, and there is one exactly when imports are acyclic.**
The order lists every registered module once, each after all registered modules it imports. On the
way, whenever a module leaves the queue, every counter that is lowered is positive. -/
theorem importOrder_topological (hr : r.Built s) :
    ((∃ order, r.importOrder s = .ok order) ↔ r.ImportsAcyclic s) ∧
    (∀ order, r.importOrder s = .ok order →
      order.Nodup ∧ (∀ m, m ∈ order ↔ m ∈ r.modules) ∧
      ∀ m d, r.Imports s m d → order.idxOf d < order.idxOf m) ∧
    ∀ n m queue, (r.orderingAfter s n).queue = m :: queue →
      ∀ w ∈ (r.orderingAfter s n).waiting, r.Imports s w.1 m → 0 < w.2 := by
  have hf := hr.faithful
  refine ⟨⟨fun ⟨order, h⟩ ↦ hf.acyclic_of_importOrder_eq_ok h, hf.importOrder_of_acyclic⟩, ?_, ?_⟩
  · intro order h
    have hperm := (hf.perm_of_importOrder_eq_ok h).2
    exact ⟨hperm.nodup_iff.2 hf.modules_nodup, fun m ↦ hperm.mem_iff,
      fun m d ↦ hf.idxOf_lt_of_importOrder_eq_ok h⟩
  · intro n m queue hq w hw hm
    exact (hf.invariant_orderingAfter n).pos_of_mem_imports hq hw
      ((hf.mem_tabledImports_iff hm.1).2 hm)

/-- Three modules in layers; the uppermost imports one module twice and one that is not there. -/
def layered : Schema where
  modules := #[
    { name := "top", ownPrefix := "t", space := "urn:top", main := ⟨0⟩
      imports := [⟨"mid", "m"⟩, ⟨"mid", "n"⟩, ⟨"gone", "g"⟩] },
    { name := "mid", ownPrefix := "m", space := "urn:mid", main := ⟨1⟩
      imports := [⟨"base", "b"⟩] },
    { name := "base", ownPrefix := "b", space := "urn:base", main := ⟨2⟩ }]

/-- The registry of the three modules. -/
def layeredRegistry : Registry where
  names := [("base", ⟨2⟩), ("mid", ⟨1⟩), ("top", ⟨0⟩)]
  prefixes := [("b", ⟨2⟩), ("m", ⟨1⟩), ("t", ⟨0⟩)]
  modules := [⟨0⟩, ⟨1⟩, ⟨2⟩]

theorem importOrder_layered :
    layeredRegistry.Built layered ∧
      layeredRegistry.importOrder layered = .ok [⟨2⟩, ⟨1⟩, ⟨0⟩] ∧
      layeredRegistry.ImportsAcyclic layered := by
  have hbuilt : layeredRegistry.Built layered := built_of_ofSchema (by decide)
  have horder : layeredRegistry.importOrder layered = .ok [⟨2⟩, ⟨1⟩, ⟨0⟩] := by decide
  exact ⟨hbuilt, horder, (importOrder_topological hbuilt).1.1 ⟨_, horder⟩⟩

end Registry

end SchemaLink
