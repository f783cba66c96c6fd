import Mathlib.Logic.Relation
import SchemaLink.DepthFirst

/-!
# Depth-first search finds what can be reached

`DepthFirst.search` keeps one record of numbers for all branches, so a branch is cut off wherever
another one has been. **Nothing is lost by that**: the elements visited are closed under `next` up
to what had been seen at the start (`mem_visits_of_mem_next`), and at the start nothing has.

**One search can be taken apart** into a search from the first pending elements and one from the
others, which begins with what the first one has seen (`visits_append`). So the search is the same
as a recursion that goes all the way down from each element before it turns to the next.

The statements are about any numbering that tells elements apart. The bound on numbers never cuts
anything off as long as all elements that come up have numbers below it, and neither does the bound
on visits as long as it is not smaller than the count of unseen numbers.
-/

namespace SchemaLink.DepthFirst

variable {α : Type} {number : α → Nat} {size n : Nat} {next : α → List α} {seen : List Nat}
  {pending later rest : List α} {a b p : α}

/-- One element leads to another in one step. -/
def Leads (next : α → List α) (a b : α) : Prop :=
  b ∈ next a

/-- How many numbers below `size` have not been seen. -/
def unseenCount (size : Nat) (seen : List Nat) : Nat :=
  ((List.range size).filter (· ∉ seen)).length

theorem unseenCount_le (size : Nat) (seen : List Nat) : unseenCount size seen ≤ size := by
  simpa [unseenCount] using List.length_filter_le (· ∉ seen) (List.range size)

theorem unseenCount_cons_lt {m : Nat} (hs : m < size) (hm : m ∉ seen) :
    unseenCount size (m :: seen) < unseenCount size seen := by
  have hfilter : (List.range size).filter (· ∉ m :: seen)
      = ((List.range size).filter (· ∉ seen)).filter (· ≠ m) := by
    rw [List.filter_filter]
    exact List.filter_congr fun a _ ↦ by simp
  rw [unseenCount, unseenCount, hfilter]
  exact List.length_filter_lt_length_iff_exists.2 ⟨m, by simp [hs, hm], by simp⟩

theorem unseenCount_append_le (more seen : List Nat) :
    unseenCount size (more ++ seen) ≤ unseenCount size seen := by
  rw [unseenCount, unseenCount, ← List.countP_eq_length_filter, ← List.countP_eq_length_filter]
  refine List.countP_mono_left fun m _ hm ↦ ?_
  have hm : m ∉ more ∧ m ∉ seen := by simpa using hm
  simpa using hm.2

theorem mem_of_unseenCount_eq_zero {m : Nat} (h : unseenCount size seen = 0) (hm : m < size) :
    m ∈ seen := by
  have hnone := List.eq_nil_iff_forall_not_mem.1 (List.length_eq_zero_iff.1 h) m
  simpa [hm] using hnone

/-! ### One visit -/

theorem mem_seen_of_stale (h : stale number size seen b = true) (hbound : number b < size) :
    number b ∈ seen := by
  have h : size ≤ number b ∨ number b ∈ seen := by simpa [stale] using h
  exact h.resolve_left (by omega)

/-- **What the next visit is.** Either all that is pending is stale, or the first element that is
not gets visited. -/
theorem dropWhile_stale_cases (number : α → Nat) (size : Nat) (seen : List Nat)
    (pending : List α) :
    (pending.dropWhile (stale number size seen) = [] ∧
        ∀ b ∈ pending, stale number size seen b = true) ∨
      ∃ p rest, pending.dropWhile (stale number size seen) = p :: rest ∧ number p < size ∧
        number p ∉ seen ∧ p ∈ pending ∧ rest ⊆ pending ∧
        ∀ b ∈ pending, stale number size seen b = true ∨ b = p ∨ b ∈ rest := by
  induction pending with
  | nil => exact .inl ⟨rfl, by simp⟩
  | cons q tail ih =>
    by_cases hq : stale number size seen q = true
    · rw [List.dropWhile_cons_of_pos hq]
      rcases ih with ⟨hdrop, hstale⟩ | ⟨p, rest, hdrop, hsize, hseen, hp, hrest, hall⟩
      · exact .inl ⟨hdrop, by simpa [hq] using hstale⟩
      · refine .inr ⟨p, rest, hdrop, hsize, hseen, by simp [hp],
          fun b hb ↦ List.mem_cons_of_mem _ (hrest hb), ?_⟩
        intro b hb
        rcases List.mem_cons.1 hb with rfl | hb
        · exact .inl hq
        · exact hall b hb
    · have hfresh : number q < size ∧ number q ∉ seen := by simpa [stale] using hq
      refine .inr ⟨q, tail, List.dropWhile_cons_of_neg hq, hfresh.1, hfresh.2, by simp,
        List.subset_cons_self _ _, ?_⟩
      intro b hb
      exact .inr (List.mem_cons.1 hb)

theorem visits_succ_of_eq_nil (h : pending.dropWhile (stale number size seen) = []) :
    visits number size next (n + 1) seen pending = [] := by
  rw [visits, h]

theorem visits_succ_of_eq_cons (h : pending.dropWhile (stale number size seen) = p :: rest) :
    visits number size next (n + 1) seen pending =
      p :: visits number size next n (number p :: seen) (next p ++ rest) := by
  rw [visits, h]

/-! ### All visits -/

/-- **Soundness.** Whatever is visited can be reached from something pending. -/
theorem reachable_of_mem_visits (h : a ∈ visits number size next n seen pending) :
    ∃ p ∈ pending, Relation.ReflTransGen (Leads next) p a := by
  induction n generalizing seen pending with
  | zero => simp [visits] at h
  | succ n ih =>
    rcases dropWhile_stale_cases number size seen pending with
      ⟨hdrop, -⟩ | ⟨p, rest, hdrop, -, -, hp, hrest, -⟩
    · rw [visits_succ_of_eq_nil hdrop] at h
      simp at h
    · rw [visits_succ_of_eq_cons hdrop] at h
      rcases List.mem_cons.1 h with rfl | h
      · exact ⟨a, hp, .refl⟩
      · obtain ⟨q, hq, hqa⟩ := ih h
        rcases List.mem_append.1 hq with hq | hq
        · exact ⟨p, hp, .head hq hqa⟩
        · exact ⟨q, hrest hq, hqa⟩

/-- What counts as seen after a visit to `p` had been seen before or is visited. -/
theorem seen_or_mem_cons (hinj : Function.Injective number) {found : List α}
    (h : number b ∈ number p :: seen ∨ b ∈ found) : number b ∈ seen ∨ b ∈ p :: found := by
  rcases h with hseen | hmem
  · rcases List.mem_cons.1 hseen with heq | hseen
    · exact .inr (by rw [hinj heq]; simp)
    · exact .inl hseen
  · exact .inr (List.mem_cons_of_mem _ hmem)

/-- What is pending is visited, unless its number had been seen. -/
theorem mem_visits_of_mem_pending (hinj : Function.Injective number)
    (hn : unseenCount size seen ≤ n) (hb : b ∈ pending) (hbound : number b < size) :
    number b ∈ seen ∨ b ∈ visits number size next n seen pending := by
  induction n generalizing seen pending with
  | zero => exact .inl (mem_of_unseenCount_eq_zero (by omega) hbound)
  | succ n ih =>
    rcases dropWhile_stale_cases number size seen pending with
      ⟨-, hstale⟩ | ⟨p, rest, hdrop, hsize, hseen, -, -, hall⟩
    · exact .inl (mem_seen_of_stale (hstale b hb) hbound)
    · rw [visits_succ_of_eq_cons hdrop]
      have hlt := unseenCount_cons_lt hsize hseen
      rcases hall b hb with hstale | rfl | hb
      · exact .inl (mem_seen_of_stale hstale hbound)
      · exact .inr (by simp)
      · exact seen_or_mem_cons hinj (ih (by omega) (List.mem_append_right _ hb))

/-- **The visited elements are closed.** From a visited element the search goes on, unless the next
number had been seen at the start. -/
theorem mem_visits_of_mem_next (hinj : Function.Injective number)
    (hn : unseenCount size seen ≤ n) (ha : a ∈ visits number size next n seen pending)
    (hb : b ∈ next a) (hbound : number b < size) :
    number b ∈ seen ∨ b ∈ visits number size next n seen pending := by
  induction n generalizing seen pending with
  | zero => simp [visits] at ha
  | succ n ih =>
    rcases dropWhile_stale_cases number size seen pending with
      ⟨hdrop, -⟩ | ⟨p, rest, hdrop, hsize, hseen, -⟩
    · rw [visits_succ_of_eq_nil hdrop] at ha
      simp at ha
    · rw [visits_succ_of_eq_cons hdrop] at ha ⊢
      have hlt := unseenCount_cons_lt hsize hseen
      have hn' : unseenCount size (number p :: seen) ≤ n := by omega
      refine seen_or_mem_cons hinj ?_
      rcases List.mem_cons.1 ha with rfl | ha
      · -- what comes after `a` is put in front when `a` is visited
        exact mem_visits_of_mem_pending hinj hn' (List.mem_append_left _ hb) hbound
      · exact ih hn' ha

/-- What had been seen is not visited. -/
theorem number_not_mem_of_mem_visits (h : a ∈ visits number size next n seen pending) :
    number a ∉ seen := by
  induction n generalizing seen pending with
  | zero => simp [visits] at h
  | succ n ih =>
    rcases dropWhile_stale_cases number size seen pending with
      ⟨hdrop, -⟩ | ⟨p, rest, hdrop, -, hseen, -⟩
    · rw [visits_succ_of_eq_nil hdrop] at h
      simp at h
    · rw [visits_succ_of_eq_cons hdrop] at h
      rcases List.mem_cons.1 h with rfl | h
      · exact hseen
      · exact fun hmem ↦ ih h (List.mem_cons_of_mem _ hmem)

theorem nodup_visits : (visits number size next n seen pending).Nodup := by
  induction n generalizing seen pending with
  | zero => simp [visits]
  | succ n ih =>
    rcases dropWhile_stale_cases number size seen pending with
      ⟨hdrop, -⟩ | ⟨p, rest, hdrop, -⟩
    · rw [visits_succ_of_eq_nil hdrop]
      exact List.nodup_nil
    · rw [visits_succ_of_eq_cons hdrop]
      exact List.nodup_cons.2 ⟨fun h ↦ number_not_mem_of_mem_visits h (by simp), ih⟩

/-- **Nothing is visited twice.** -/
theorem nodup_search : (search number size next pending).Nodup :=
  nodup_visits

/-- **Soundness and completeness.** A search finds exactly what can be reached from the pending
elements. -/
theorem mem_search_iff (hinj : Function.Injective number)
    (hpending : ∀ p ∈ pending, number p < size) (hnext : ∀ a, ∀ b ∈ next a, number b < size) :
    a ∈ search number size next pending ↔
      ∃ p ∈ pending, Relation.ReflTransGen (Leads next) p a := by
  rw [search]
  refine ⟨reachable_of_mem_visits, ?_⟩
  have hn := unseenCount_le size []
  rintro ⟨p, hp, hpa⟩
  induction hpa with
  | refl =>
    have hfound : number p ∈ [] ∨ p ∈ visits number size next size [] pending :=
      mem_visits_of_mem_pending hinj hn hp (hpending p hp)
    simpa using hfound
  | tail _ hbc ih => simpa using mem_visits_of_mem_next hinj hn ih hbc (hnext _ _ hbc)

/-! ### Part by part -/

/-- One more visit than there are unseen numbers changes nothing. -/
theorem visits_succ_of_unseenCount_le (hn : unseenCount size seen ≤ n) :
    visits number size next (n + 1) seen pending = visits number size next n seen pending := by
  induction n generalizing seen pending with
  | zero =>
    rcases dropWhile_stale_cases number size seen pending with
      ⟨hdrop, -⟩ | ⟨p, rest, -, hsize, hseen, -⟩
    · rw [visits_succ_of_eq_nil hdrop, visits]
    · exact absurd (mem_of_unseenCount_eq_zero (by omega) hsize) hseen
  | succ n ih =>
    rcases dropWhile_stale_cases number size seen pending with
      ⟨hdrop, -⟩ | ⟨p, rest, hdrop, hsize, hseen, -⟩
    · rw [visits_succ_of_eq_nil hdrop, visits_succ_of_eq_nil hdrop]
    · have hlt := unseenCount_cons_lt hsize hseen
      rw [visits_succ_of_eq_cons hdrop, visits_succ_of_eq_cons (n := n) hdrop, ih (by omega)]

/-- What is stale is passed by. -/
theorem visits_cons_of_stale (h : stale number size seen p = true) :
    visits number size next n seen (p :: rest) = visits number size next n seen rest := by
  cases n with
  | zero => rfl
  | succ n => rw [visits, visits, List.dropWhile_cons_of_pos h]

/-- The first pending element is visited if it has not been seen. -/
theorem visits_cons (hn : unseenCount size seen ≤ n) (hsize : number p < size)
    (hseen : number p ∉ seen) :
    visits number size next n seen (p :: rest) =
      p :: visits number size next n (number p :: seen) (next p ++ rest) := by
  have hstale : ¬ stale number size seen p = true := by simp [stale, hsize, hseen]
  rw [← visits_succ_of_unseenCount_le hn,
    visits_succ_of_eq_cons (List.dropWhile_cons_of_neg hstale)]

/-- **What is pending can be visited part by part.** The visits to the second part begin with what
has been seen by the end of the first. -/
theorem visits_append (hn : unseenCount size seen ≤ n) :
    visits number size next n seen (pending ++ later) =
      visits number size next n seen pending ++
        visits number size next n
          (((visits number size next n seen pending).map number).reverse ++ seen) later := by
  induction n generalizing seen pending with
  | zero => simp [visits]
  | succ n ih =>
    rcases dropWhile_stale_cases number size seen pending with
      ⟨hdrop, -⟩ | ⟨p, rest, hdrop, hsize, hseen, -⟩
    · have happend : (pending ++ later).dropWhile (stale number size seen) =
          later.dropWhile (stale number size seen) := by
        rw [List.dropWhile_append, hdrop]
        rfl
      rw [visits_succ_of_eq_nil hdrop, visits, happend]
      rfl
    · have happend : (pending ++ later).dropWhile (stale number size seen) =
          p :: (rest ++ later) := by
        rw [List.dropWhile_append, hdrop]
        rfl
      have hlt := unseenCount_cons_lt hsize hseen
      have hvisits : unseenCount size (((visits number size next n (number p :: seen)
          (next p ++ rest)).map number).reverse ++ number p :: seen) ≤ n :=
        Nat.le_trans (unseenCount_append_le _ _) (by omega)
      rw [visits_succ_of_eq_cons hdrop, visits_succ_of_eq_cons happend, ← List.append_assoc,
        ih (by omega), List.map_cons, List.reverse_cons, List.append_assoc, List.singleton_append,
        visits_succ_of_unseenCount_le hvisits, List.cons_append]

/-- What is visited was pending, or comes next after something visited. -/
theorem pending_or_next_of_mem_visits (h : a ∈ visits number size next n seen pending) :
    a ∈ pending ∨ ∃ b ∈ visits number size next n seen pending, a ∈ next b := by
  induction n generalizing seen pending with
  | zero => simp [visits] at h
  | succ n ih =>
    rcases dropWhile_stale_cases number size seen pending with
      ⟨hdrop, -⟩ | ⟨p, rest, hdrop, -, -, hp, hrest, -⟩
    · rw [visits_succ_of_eq_nil hdrop] at h
      simp at h
    · rw [visits_succ_of_eq_cons hdrop] at h ⊢
      rcases List.mem_cons.1 h with rfl | h
      · exact .inl hp
      · rcases ih h with ha | ⟨b, hb, hab⟩
        · rcases List.mem_append.1 ha with ha | ha
          · exact .inr ⟨p, by simp, ha⟩
          · exact .inl (hrest ha)
        · exact .inr ⟨b, List.mem_cons_of_mem _ hb, hab⟩

end SchemaLink.DepthFirst
