import Mathlib.Data.List.Nodup

/-!
# Lists without repetition

The library removes repetitions with `eraseDups`, which keeps the first of equal entries. The
standard library says which entries stay; here it is added that they come in the order of their
first occurrences, so that none of them comes twice, and that the first entry with an answer to some
question is the same as before.
-/

namespace SchemaLink.Distinct

variable {α β : Type}

theorem findSome?_filter {f : α → Option β} {keep : α → Bool} {as : List α}
    (h : ∀ a ∈ as, keep a = false → f a = none) :
    (as.filter keep).findSome? f = as.findSome? f := by
  induction as with
  | nil => rfl
  | cons a as ih =>
    have ih := ih fun b hb ↦ h b (List.mem_cons_of_mem a hb)
    cases hkeep : keep a with
    | true => simp [hkeep, List.findSome?_cons, ih]
    | false =>
      have hnone := h a List.mem_cons_self hkeep
      simp [hkeep, hnone, ih]

section

variable [DecidableEq α] {as : List α} {u v : α}

/-- What is left when some entries are dropped comes in the same order as before. -/
theorem idxOf_lt_of_filter {keep : α → Bool} (hu : keep u = true) (hv : keep v = true)
    (h : (as.filter keep).idxOf u < (as.filter keep).idxOf v) : as.idxOf u < as.idxOf v := by
  induction as with
  | nil => simp at h
  | cons b as ih => grind

/-- The entries that stay come in the order of their first occurrences. -/
theorem pairwise_idxOf_eraseDups (as : List α) :
    as.eraseDups.Pairwise fun u v ↦ as.idxOf u < as.idxOf v := by
  -- the tail is filtered before the recursion, so the induction is on the length
  induction hn : as.length using Nat.strongRecOn generalizing as with
  | _ n ih =>
    cases as with
    | nil => simp
    | cons a as =>
      have hlength := List.length_filter_le (fun b ↦ !b == a) as
      simp only [List.length_cons] at hn
      have hne {v : α} (hv : v ∈ (as.filter fun b ↦ !b == a).eraseDups) : v ≠ a := by
        simpa using (List.mem_filter.1 (List.mem_eraseDups.1 hv)).2
      rw [List.eraseDups_cons, List.pairwise_cons]
      refine ⟨fun v hv ↦ ?_, (ih _ (by omega) _ rfl).imp_of_mem fun {u v} hu hv hlt ↦ ?_⟩
      · simp [List.idxOf_cons_ne _ (hne hv).symm]
      · have hlt := idxOf_lt_of_filter (by simpa using hne hu) (by simpa using hne hv) hlt
        rw [List.idxOf_cons_ne _ (hne hu).symm, List.idxOf_cons_ne _ (hne hv).symm]
        omega

theorem pairwise_idxOf_eraseDups_filter (keep : α → Bool) (as : List α) :
    (as.filter keep).eraseDups.Pairwise fun u v ↦ as.idxOf u < as.idxOf v := by
  refine (pairwise_idxOf_eraseDups _).imp_of_mem fun {u v} hu hv hlt ↦ ?_
  have hkeep {w : α} (hw : w ∈ (as.filter keep).eraseDups) : keep w = true :=
    (List.mem_filter.1 (List.mem_eraseDups.1 hw)).2
  exact idxOf_lt_of_filter (hkeep hu) (hkeep hv) hlt

theorem nodup_eraseDups (as : List α) : as.eraseDups.Nodup := by
  refine (pairwise_idxOf_eraseDups as).imp fun {u v} hlt ↦ ?_
  rintro rfl
  exact Nat.lt_irrefl _ hlt

end

theorem findSome?_eraseDups [BEq α] [LawfulBEq α] (f : α → Option β) (as : List α) :
    as.eraseDups.findSome? f = as.findSome? f := by
  induction hn : as.length using Nat.strongRecOn generalizing as with
  | _ n ih =>
    cases as with
    | nil => simp
    | cons a as =>
      have hlength := List.length_filter_le (fun b ↦ !b == a) as
      simp only [List.length_cons] at hn
      rw [List.eraseDups_cons, List.findSome?_cons, List.findSome?_cons,
        ih _ (by omega) _ rfl]
      cases ha : f a with
      | some b => rfl
      | none =>
        -- the copies that are dropped have no answer either
        refine findSome?_filter fun b _ hb ↦ ?_
        obtain rfl : b = a := by simpa using hb
        exact ha

end SchemaLink.Distinct
