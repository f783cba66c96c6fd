import Mathlib.Data.Prod.Lex
import SchemaLink.Proofs.ImportOrder

/-!
# How ties in the import order are broken

A topological order is rarely the only one. Which of them is computed can be said without a queue:
the *rank* of a module is the place of the last of its imports in the order, or `-1` if there are
none, together with its place among the registered modules. **The import order is the only
topological order in which ranks increase** (`ImportOrder.Sorted.unique`).

A module enters the queue when the last of its imports leaves it, and what enters at the same time
enters in order of registration. So ranks increase along the queue, and they are never touched
again: what comes later in the order does not count for modules that are already in the queue.

Ranks are read off the set of imports of each module. How often, in which order and under which
prefixes the imports are written makes no difference.
-/

namespace SchemaLink

namespace ImportOrder

section

variable (imports : ModuleId → List ModuleId) (ms : List ModuleId)

/-- The place in an order of the last import of a module, or `-1` if it imports nothing. -/
def lastImport (order : List ModuleId) (m : ModuleId) : Int :=
  ((imports m).map fun d ↦ (order.idxOf d : Int)).foldr max (-1)

/-- When a module can come at the earliest, and its place in the list of all modules. -/
def rank (order : List ModuleId) (m : ModuleId) : Int × Nat :=
  (lastImport imports order m, ms.idxOf m)

/-- A topological order of the modules in which ranks increase. -/
structure Sorted (order : List ModuleId) : Prop where
  perm : order.Perm ms
  imports_first : ∀ m ∈ ms, ∀ d ∈ imports m, order.idxOf d < order.idxOf m
  ranks : order.Pairwise fun a b ↦
    Prod.Lex (· < ·) (· < ·) (rank imports ms order a) (rank imports ms order b)

end

variable {imports imports' : ModuleId → List ModuleId} {ms order order' more : List ModuleId}
  {st : State} {m w : ModuleId} {queue : List ModuleId}

/-! ### Last imports -/

theorem lastImport_le_iff {place : Int} (hplace : -1 ≤ place) :
    lastImport imports order m ≤ place ↔ ∀ d ∈ imports m, (order.idxOf d : Int) ≤ place := by
  rw [lastImport]
  induction imports m with
  | nil => simpa using hplace
  | cons d ds ih => simp [ih]

theorem neg_one_le_lastImport : -1 ≤ lastImport imports order m := by
  rw [lastImport]
  induction imports m with
  | nil => simp
  | cons d ds ih => exact le_trans ih (le_max_right _ _)

/-- Only the set of imports counts. -/
theorem lastImport_congr (h : ∀ d, d ∈ imports' m ↔ d ∈ imports m) :
    lastImport imports' order m = lastImport imports order m := by
  refine le_antisymm ?_ ?_
  · rw [lastImport_le_iff neg_one_le_lastImport]
    intro d hd
    exact (lastImport_le_iff neg_one_le_lastImport).1 le_rfl d ((h d).1 hd)
  · rw [lastImport_le_iff neg_one_le_lastImport]
    intro d hd
    exact (lastImport_le_iff neg_one_le_lastImport).1 le_rfl d ((h d).2 hd)

/-- What comes after all imports of a module does not change its rank. -/
theorem rank_append (h : ∀ d ∈ imports m, d ∈ order) :
    rank imports ms (order ++ more) m = rank imports ms order m := by
  have hplaces : (imports m).map (fun d ↦ ((order ++ more).idxOf d : Int)) =
      (imports m).map fun d ↦ (order.idxOf d : Int) :=
    List.map_congr_left fun d hd ↦ by rw [List.idxOf_append_of_mem (h d hd)]
  rw [rank, lastImport, hplaces, rank, lastImport]

theorem lastImport_lt_length (h : ∀ d ∈ imports m, d ∈ order) :
    lastImport imports order m < order.length := by
  have hle : lastImport imports order m ≤ (order.length : Int) - 1 := by
    rw [lastImport_le_iff (by omega)]
    intro d hd
    have := List.idxOf_lt_length_of_mem (h d hd)
    omega
  omega

/-- The last import of a module that waits for one more is that one. -/
theorem lastImport_append_singleton (hd : m ∉ order) (hm : m ∈ imports w)
    (h : ∀ d ∈ imports w, d ∈ order ++ [m]) :
    lastImport imports (order ++ [m]) w = order.length := by
  have hplace : (order ++ [m]).idxOf m = order.length := by
    rw [List.idxOf_append_of_notMem hd]
    simp
  have hle : ((order ++ [m]).idxOf m : Int) ≤ lastImport imports (order ++ [m]) w :=
    (lastImport_le_iff neg_one_le_lastImport).1 le_rfl m hm
  have hlt := lastImport_lt_length h
  rw [hplace] at hle
  rw [List.length_append, List.length_singleton] at hlt
  omega

/-! ### Ranks along the queue -/

/-- Modules that are listed in the same order and wait for the same import keep their order. -/
theorem pairwise_rank_of_sublist {place : Int} (hms : ms.Nodup) {released : List ModuleId}
    (hsub : released.Sublist ms)
    (hplace : ∀ w ∈ released, lastImport imports order w = place) :
    released.Pairwise fun a b ↦
      Prod.Lex (· < ·) (· < ·) (rank imports ms order a) (rank imports ms order b) := by
  have hlisted : ms.Pairwise fun a b ↦ ms.idxOf a < ms.idxOf b := by
    rw [List.pairwise_iff_getElem]
    intro i j hi hj hij
    rwa [hms.idxOf_getElem, hms.idxOf_getElem]
  refine (hlisted.sublist hsub).imp_of_mem fun {a b} ha hb hab ↦ ?_
  rw [rank, rank, hplace a ha, hplace b hb]
  exact .right _ hab

/-- In a state, ranks increase along what has entered the queue. -/
def Ranked (imports : ModuleId → List ModuleId) (ms : List ModuleId) (st : State) : Prop :=
  (st.done ++ st.queue).Pairwise fun a b ↦
    Prod.Lex (· < ·) (· < ·) (rank imports ms st.done a) (rank imports ms st.done b)

theorem Graph.ranked_start (hg : Graph imports ms) : Ranked imports ms (start imports ms) := by
  have hfirst : ∀ w ∈ ms.filter fun m ↦ (imports m).isEmpty, lastImport imports [] w = -1 := by
    intro w hw
    have hnone : imports w = [] := by simpa using (List.mem_filter.1 hw).2
    simp [lastImport, hnone]
  exact pairwise_rank_of_sublist hg.modules_nodup List.filter_sublist hfirst

/-- **Step.** What enters the queue has a greater rank than what has entered before. -/
theorem Ranked.leave (hg : Graph imports ms) (h : Invariant imports ms st)
    (hst : Ranked imports ms st) (hq : st.queue = m :: queue) :
    Ranked imports ms (leave imports st m queue) := by
  have hsplit : st.done ++ [m] ++ (queue ++ released imports m st.waiting) =
      (st.done ++ st.queue) ++ released imports m st.waiting := by
    simp [hq]
  have hentered {a : ModuleId} (ha : a ∈ st.done ++ st.queue) : ∀ d ∈ imports a, d ∈ st.done :=
    (h.entered_iff a (h.subset a ha)).1 ha
  have hreleased {w : ModuleId} (hw : w ∈ released imports m st.waiting) :
      lastImport imports (st.done ++ [m]) w = st.done.length := by
    obtain ⟨-, hm, hall⟩ := (h.mem_released hg hq).1 hw
    exact lastImport_append_singleton (h.not_mem_done_of_queue hq) hm hall
  show List.Pairwise _ (st.done ++ [m] ++ (queue ++ released imports m st.waiting))
  rw [hsplit, List.pairwise_append]
  refine ⟨?_, ?_, fun a ha w hw ↦ ?_⟩
  · -- the ranks of what was there are what they were
    refine List.Pairwise.imp_of_mem (fun {a b} ha hb hab ↦ ?_) hst
    show Prod.Lex _ _ (rank imports ms (st.done ++ [m]) a) (rank imports ms (st.done ++ [m]) b)
    rwa [rank_append (hentered ha), rank_append (hentered hb)]
  · refine pairwise_rank_of_sublist hg.modules_nodup ?_ fun w hw ↦ hreleased hw
    rw [h.released_waiting]
    exact List.filter_sublist
  · show Prod.Lex _ _ (rank imports ms (st.done ++ [m]) a) (rank imports ms (st.done ++ [m]) w)
    rw [rank_append (hentered ha), rank, rank, hreleased hw]
    exact .left _ _ (lastImport_lt_length (hentered ha))

/-- **Run.** Ranks increase in every state that the queue goes through. -/
theorem Ranked.advance (hg : Graph imports ms) (h : Invariant imports ms st)
    (hst : Ranked imports ms st) (n : Nat) : Ranked imports ms (advance imports n st) := by
  induction n generalizing st with
  | zero => exact hst
  | succ n ih =>
    rcases hq : st.queue with - | ⟨m, queue⟩
    · rw [advance_of_queue_eq_nil hq]
      exact hst
    · rw [advance_succ_of_queue_eq_cons hq]
      exact ih (h.leave hg hq) (hst.leave hg h hq)

/-! ### One sorted order -/

/-- The imports of a module stand in front of it. -/
theorem Sorted.mem_of_mem_imports {front back : List ModuleId} {d : ModuleId}
    (h : Sorted imports ms (front ++ m :: back)) (hms : ms.Nodup) (hd : d ∈ imports m) :
    d ∈ front := by
  have hm : m ∈ ms := h.perm.mem_iff.1 (by simp)
  have hfront : m ∉ front := by
    intro hmem
    exact (List.nodup_append.1 (h.perm.nodup_iff.2 hms)).2.2 m hmem m (by simp) rfl
  have hlt := h.imports_first m hm d hd
  have hplace : (front ++ m :: back).idxOf m = front.length := by
    rw [List.idxOf_append_of_notMem hfront]
    simp
  by_contra hmem
  rw [hplace, List.idxOf_append_of_notMem hmem] at hlt
  omega

theorem Sorted.rank_eq {front back : List ModuleId}
    (h : Sorted imports ms (front ++ m :: back)) (hms : ms.Nodup) (more : List ModuleId) :
    rank imports ms (front ++ more) m = rank imports ms front m :=
  rank_append fun _ ↦ h.mem_of_mem_imports hms

/-- Two sorted orders that begin alike go on alike: whichever of the two next modules has the lower
rank would have to come next in both. -/
theorem Sorted.append_inj (hms : ms.Nodup) (front : List ModuleId) {as bs : List ModuleId}
    (ha : Sorted imports ms (front ++ as)) (hb : Sorted imports ms (front ++ bs)) : as = bs := by
  have hperm {front as bs : List ModuleId} (ha : Sorted imports ms (front ++ as))
      (hb : Sorted imports ms (front ++ bs)) : as.Perm bs :=
    (List.perm_append_left_iff front).1 (ha.perm.trans hb.perm.symm)
  induction as generalizing front bs with
  | nil => exact (List.nil_perm.1 (hperm ha hb)).symm
  | cons a as ih =>
    rcases bs with - | ⟨b, bs⟩
    · exact absurd (hperm ha hb) (by simp)
    · have hlt {a b : ModuleId} {as : List ModuleId} (ha : Sorted imports ms (front ++ a :: as))
          (hb : b ∈ as) : Prod.Lex (· < ·) (· < ·) (rank imports ms (front ++ a :: as) a)
            (rank imports ms (front ++ a :: as) b) :=
        (List.pairwise_cons.1 (List.pairwise_append.1 ha.ranks).2.1).1 b hb
      obtain rfl : a = b := by
        by_contra hne
        have hab := hlt ha ((List.mem_cons.1 ((hperm ha hb).mem_iff.2 (by simp))).resolve_left
          (Ne.symm hne))
        have hba := hlt hb ((List.mem_cons.1 ((hperm ha hb).mem_iff.1 (by simp))).resolve_left hne)
        rw [ha.rank_eq hms, hb.rank_eq hms] at hab hba
        rcases Prod.lex_def.1 hab with hab | ⟨heq, hab⟩ <;>
          rcases Prod.lex_def.1 hba with hba | ⟨heq', hba⟩ <;> omega
      have hfront (as : List ModuleId) : front ++ a :: as = (front ++ [a]) ++ as := by simp
      rw [hfront] at ha hb
      rw [ih (front ++ [a]) ha hb]

theorem Sorted.unique (hms : ms.Nodup) (h : Sorted imports ms order)
    (h' : Sorted imports ms order') : order = order' :=
  Sorted.append_inj hms [] h h'

end ImportOrder

/-! ### The registered modules -/

namespace Registry

variable {s s' : Schema} {r : Registry} {m d : ModuleId} {order : List ModuleId}

/-- The rank of a module in an order: the place of the last registered module that it imports, or
`-1` if there is none, and its place in the order of registration. -/
def rank (r : Registry) (s : Schema) (order : List ModuleId) (m : ModuleId) : Int × Nat :=
  ImportOrder.rank (r.importsOf s) r.modules order m

namespace Faithful

variable (hr : r.Faithful s)
include hr

/-- The order, if there is one, is sorted. -/
theorem sorted_of_importOrder_eq_ok (h : r.importOrder s = .ok order) :
    ImportOrder.Sorted (r.tabledImports s) r.modules order := by
  obtain ⟨rfl, hperm⟩ := hr.perm_of_importOrder_eq_ok h
  refine ⟨hperm, fun m hm d hd ↦ ?_, ?_⟩
  · exact hr.idxOf_lt_of_importOrder_eq_ok h ((hr.mem_tabledImports_iff hm).1 hd)
  · have hranked := hr.graph.ranked_start.advance hr.graph hr.graph.invariant_start
      r.modules.length
    have hqueue := ImportOrder.queue_advance_length hr.graph
    rw [ImportOrder.Ranked, hqueue, List.append_nil] at hranked
    exact hranked

/-- **A sorted order is the import order.** -/
theorem importOrder_eq_ok_iff_sorted :
    r.importOrder s = .ok order ↔ ImportOrder.Sorted (r.tabledImports s) r.modules order := by
  refine ⟨hr.sorted_of_importOrder_eq_ok, fun h ↦ ?_⟩
  have hacyclic : r.ImportsAcyclic s := acyclic_of_imports_first fun a b hab ↦
    h.imports_first a hab.1 b ((hr.mem_tabledImports_iff hab.1).2 hab)
  obtain ⟨order', hok⟩ := hr.importOrder_of_acyclic hacyclic
  rw [hok, (hr.sorted_of_importOrder_eq_ok hok).unique hr.modules_nodup h]

theorem sorted_iff :
    ImportOrder.Sorted (r.tabledImports s) r.modules order ↔
      order.Perm r.modules ∧ (∀ m d, r.Imports s m d → order.idxOf d < order.idxOf m) ∧
        order.Pairwise fun a b ↦
          Prod.Lex (· < ·) (· < ·) (r.rank s order a) (r.rank s order b) := by
  have hrank (hperm : order.Perm r.modules) {m : ModuleId} (hm : m ∈ order) :
      ImportOrder.rank (r.tabledImports s) r.modules order m = r.rank s order m := by
    have hlt := hr.index_lt_of_mem_modules (hperm.mem_iff.1 hm)
    rw [rank, ImportOrder.rank, ImportOrder.lastImport, tabledImports_eq hlt]
    rfl
  constructor
  · rintro ⟨hperm, hfirst, hranks⟩
    refine ⟨hperm, fun m d himports ↦ ?_, ?_⟩
    · exact hfirst m himports.1 d ((hr.mem_tabledImports_iff himports.1).2 himports)
    · exact hranks.imp_of_mem fun ha hb hab ↦ by rwa [hrank hperm ha, hrank hperm hb] at hab
  · rintro ⟨hperm, hfirst, hranks⟩
    refine ⟨hperm, fun m hm d hd ↦ hfirst m d ((hr.mem_tabledImports_iff hm).1 hd), ?_⟩
    exact hranks.imp_of_mem fun ha hb hab ↦ by rwa [← hrank hperm ha, ← hrank hperm hb] at hab

/-- Two schemas in which the registered modules import the same modules have the same sorted
orders. -/
theorem sorted_congr (hr' : r.Faithful s') (h : ∀ m d, r.Imports s' m d ↔ r.Imports s m d)
    (hsorted : ImportOrder.Sorted (r.tabledImports s) r.modules order) :
    ImportOrder.Sorted (r.tabledImports s') r.modules order := by
  have hmem {m : ModuleId} (hm : m ∈ r.modules) (d : ModuleId) :
      d ∈ r.tabledImports s' m ↔ d ∈ r.tabledImports s m := by
    rw [hr'.mem_tabledImports_iff hm, hr.mem_tabledImports_iff hm, h]
  refine ⟨hsorted.perm, fun m hm d hd ↦ hsorted.imports_first m hm d ((hmem hm d).1 hd), ?_⟩
  refine hsorted.ranks.imp_of_mem fun {a b} ha hb hab ↦ ?_
  have hrank {m : ModuleId} (hm : m ∈ order) :
      ImportOrder.rank (r.tabledImports s') r.modules order m =
        ImportOrder.rank (r.tabledImports s) r.modules order m := by
    rw [ImportOrder.rank, ImportOrder.lastImport_congr (hmem (hsorted.perm.mem_iff.1 hm)),
      ImportOrder.rank]
  rwa [hrank ha, hrank hb]

end Faithful

/-- **The import order is the only topological order of the registered modules in which ranks
increase**: modules come in the order in which the last of their imports comes, those without
imports first, and ties are broken by registration. So the order is the same for all schemas in
which the registered modules import the same modules, whichever way the imports are written. -/
theorem importOrder_eq_ok_iff (hr : r.Built s) (order : List ModuleId) :
    (r.importOrder s = .ok order ↔
      order.Perm r.modules ∧ (∀ m d, r.Imports s m d → order.idxOf d < order.idxOf m) ∧
        order.Pairwise fun a b ↦
          Prod.Lex (· < ·) (· < ·) (r.rank s order a) (r.rank s order b)) ∧
    ∀ s', r.Built s' → (∀ m d, r.Imports s' m d ↔ r.Imports s m d) →
      (r.importOrder s' = .ok order ↔ r.importOrder s = .ok order) := by
  have hf := hr.faithful
  refine ⟨by rw [hf.importOrder_eq_ok_iff_sorted, hf.sorted_iff], fun s' hr' h ↦ ?_⟩
  have hf' := hr'.faithful
  rw [hf.importOrder_eq_ok_iff_sorted, hf'.importOrder_eq_ok_iff_sorted]
  exact ⟨hf'.sorted_congr hf fun m d ↦ (h m d).symm, hf.sorted_congr hf' h⟩

/-- Three modules import the same base. One of them, which is registered first, also waits for a
module that is ordered after the base. -/
def tied : Schema where
  modules := #[
    { name := "late", ownPrefix := "l", space := "urn:late", main := ⟨0⟩
      imports := [⟨"base", "b"⟩, ⟨"side", "s"⟩] },
    { name := "left", ownPrefix := "e", space := "urn:left", main := ⟨1⟩
      imports := [⟨"base", "b"⟩, ⟨"base", "c"⟩] },
    { name := "right", ownPrefix := "r", space := "urn:right", main := ⟨2⟩
      imports := [⟨"gone", "g"⟩, ⟨"base", "b"⟩] },
    { name := "base", ownPrefix := "b", space := "urn:base", main := ⟨3⟩ },
    { name := "side", ownPrefix := "s", space := "urn:side", main := ⟨4⟩ }]

/-- The registry of the five modules, in another order than theirs. -/
def tiedRegistry : Registry where
  names := [("side", ⟨4⟩), ("base", ⟨3⟩), ("left", ⟨1⟩), ("right", ⟨2⟩), ("late", ⟨0⟩)]
  prefixes := [("s", ⟨4⟩), ("b", ⟨3⟩), ("e", ⟨1⟩), ("r", ⟨2⟩), ("l", ⟨0⟩)]
  modules := [⟨0⟩, ⟨2⟩, ⟨1⟩, ⟨3⟩, ⟨4⟩]

theorem built_tied : tiedRegistry.Built tied := by
  have hall : registerAll tied [⟨0⟩, ⟨2⟩, ⟨1⟩, ⟨3⟩, ⟨4⟩] {} = .ok () tiedRegistry := rfl
  exact Built.empty.registerAll (by decide) hall

theorem importOrder_eq_ok_tied :
    tiedRegistry.Built tied ∧
      tiedRegistry.importOrder tied = .ok [⟨3⟩, ⟨4⟩, ⟨2⟩, ⟨1⟩, ⟨0⟩] ∧
      [⟨3⟩, ⟨4⟩, ⟨2⟩, ⟨1⟩, ⟨0⟩].map (tiedRegistry.rank tied [⟨3⟩, ⟨4⟩, ⟨2⟩, ⟨1⟩, ⟨0⟩]) =
        [(-1, 3), (-1, 4), (0, 1), (0, 2), (1, 0)] ∧
      [⟨3⟩, ⟨4⟩, ⟨2⟩, ⟨1⟩, ⟨0⟩].Pairwise fun a b ↦ Prod.Lex (· < ·) (· < ·)
        (tiedRegistry.rank tied [⟨3⟩, ⟨4⟩, ⟨2⟩, ⟨1⟩, ⟨0⟩] a)
        (tiedRegistry.rank tied [⟨3⟩, ⟨4⟩, ⟨2⟩, ⟨1⟩, ⟨0⟩] b) := by
  have horder : tiedRegistry.importOrder tied = .ok [⟨3⟩, ⟨4⟩, ⟨2⟩, ⟨1⟩, ⟨0⟩] := by decide
  exact ⟨built_tied, horder, by decide, ((importOrder_eq_ok_iff built_tied _).1.1 horder).2.2⟩

end Registry

end SchemaLink
