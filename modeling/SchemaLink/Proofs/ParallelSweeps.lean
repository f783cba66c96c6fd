import SchemaLink.Proofs.Sweeps

/-!
# Sweeps of two sessions side by side

When children have been added to a schema, a sweep for a name that none of them has takes the same
course as before, but goes into the new choices and cases on its way. These may use groupings, so
from then on it passes by groupings that it would have opened later. **That does no harm, since all
that can be come to from there is without the name as well.**

So the parents from which nothing of the name can be come to are set apart: they are *barren*. Two
sweeps agree if they have found the same and have opened and finished the same, barren parents apart
(`AgreeOff`). Going into a barren parent keeps the agreement, on either side
(`Session.Barren.keepsOff_sweep`), and so does going into the same parent on both sides
(`Session.lockStep_sweep`), as long as neither sweep is cut off.
-/

namespace SchemaLink

/-! ### Lists with members put in -/

/-- A list is another one with some members of a sort put in. -/
inductive Padded {α : Type} (Q : α → Prop) : List α → List α → Prop where
  | nil : Padded Q [] []
  | keep (a : α) {l l' : List α} (h : Padded Q l l') : Padded Q (a :: l) (a :: l')
  | pad {a : α} (ha : Q a) {l l' : List α} (h : Padded Q l l') : Padded Q l (a :: l')

namespace Padded

variable {α : Type} {Q : α → Prop} {l l' m m' : List α}

theorem refl (l : List α) : Padded Q l l := by
  induction l with
  | nil => exact .nil
  | cons a l ih => exact .keep a ih

theorem of_forall (h : ∀ a ∈ l, Q a) : Padded Q [] l := by
  induction l with
  | nil => exact .nil
  | cons a l ih => exact .pad (h a (by simp)) (ih fun b hb ↦ h b (by simp [hb]))

theorem append (h : Padded Q l l') (hm : Padded Q m m') : Padded Q (l ++ m) (l' ++ m') := by
  induction h with
  | nil => exact hm
  | keep a _ ih => exact .keep a ih
  | pad ha _ ih => exact .pad ha ih

theorem append_right (l : List α) (h : ∀ a ∈ m, Q a) : Padded Q l (l ++ m) := by
  simpa using (Padded.refl l).append (of_forall h)

theorem flatMap {β : Type} {f f' : β → List α} (bs : List β) (h : ∀ b ∈ bs, Padded Q (f b) (f' b)) :
    Padded Q (bs.flatMap f) (bs.flatMap f') := by
  induction bs with
  | nil => exact .nil
  | cons b bs ih => exact (h b (by simp)).append (ih fun c hc ↦ h c (by simp [hc]))

theorem mem_cases {a : α} (h : Padded Q l l') (ha : a ∈ l') : a ∈ l ∨ Q a := by
  induction h with
  | nil => exact .inl ha
  | keep b _ ih =>
    rcases List.mem_cons.1 ha with rfl | ha
    · exact .inl (by simp)
    · exact (ih ha).imp_left (List.mem_cons_of_mem b)
  | pad hb _ ih =>
    rcases List.mem_cons.1 ha with rfl | ha
    · exact .inr hb
    · exact ih ha

end Padded

/-! ### Sweeps that agree -/

/-- A sweep that has been cut off stays so while a list is gone through. -/
theorem Sweep.complete_of_foldl {f : Sweep → NodeId → Sweep} {us : List NodeId} {w : Sweep}
    (hf : ∀ w u, (f w u).complete = true → w.complete = true)
    (h : (us.foldl f w).complete = true) : w.complete = true := by
  induction us generalizing w with
  | nil => exact h
  | cons u us ih => exact hf w u (ih h)

/-- Two sweeps have come equally far, parents of a sort apart. -/
structure AgreeOff (P : Parent → Prop) (w w' : Sweep) : Prop where
  found_eq : w.found = w'.found
  opened_iff : ∀ g, ¬ P (.node g) → (g ∈ w.opened ↔ g ∈ w'.opened)
  finished_iff : ∀ b, ¬ P (.node b) → (b ∈ w.finished ↔ b ∈ w'.finished)

namespace AgreeOff

variable {P : Parent → Prop} {Q : NodeId → Prop} {w w' w'' : Sweep} {g b : NodeId}
  {us us' : List NodeId}

theorem refl (w : Sweep) : AgreeOff P w w :=
  ⟨rfl, fun _ _ ↦ .rfl, fun _ _ ↦ .rfl⟩

theorem symm (h : AgreeOff P w w') : AgreeOff P w' w :=
  ⟨h.found_eq.symm, fun g hg ↦ (h.opened_iff g hg).symm, fun b hb ↦ (h.finished_iff b hb).symm⟩

theorem trans (h : AgreeOff P w w') (h' : AgreeOff P w' w'') : AgreeOff P w w'' :=
  ⟨h.found_eq.trans h'.found_eq, fun g hg ↦ (h.opened_iff g hg).trans (h'.opened_iff g hg),
    fun b hb ↦ (h.finished_iff b hb).trans (h'.finished_iff b hb)⟩

/-- What is opened, or finished, inside of parents that are set apart does not count. -/
theorem opening (w : Sweep) (hg : P (.node g)) :
    AgreeOff P w { w with opened := g :: w.opened } where
  found_eq := rfl
  opened_iff := by
    intro g' hg'
    have hne : g' ≠ g := by
      rintro rfl
      exact hg' hg
    simp [hne]
  finished_iff := fun _ _ ↦ .rfl

theorem finishing (w : Sweep) (hb : P (.node b)) :
    AgreeOff P w { w with finished := b :: w.finished } where
  found_eq := rfl
  opened_iff := fun _ _ ↦ .rfl
  finished_iff := by
    intro b' hb'
    have hne : b' ≠ b := by
      rintro rfl
      exact hb' hb
    simp [hne]

theorem openBoth (h : AgreeOff P w w') (g : NodeId) :
    AgreeOff P { w with opened := g :: w.opened } { w' with opened := g :: w'.opened } where
  found_eq := h.found_eq
  opened_iff := fun g' hg' ↦ by simp [h.opened_iff g' hg']
  finished_iff := h.finished_iff

theorem finishBoth (h : AgreeOff P w w') (b : NodeId) :
    AgreeOff P { w with finished := b :: w.finished } { w' with finished := b :: w'.finished } where
  found_eq := h.found_eq
  opened_iff := h.opened_iff
  finished_iff := fun b' hb' ↦ by simp [h.finished_iff b' hb']

/-- Sweeps that agree and have not been cut off go on together. -/
theorem goesOn_eq (h : AgreeOff P w w') (hw : w.complete = true) (hw' : w'.complete = true) :
    w.goesOn = w'.goesOn := by
  rw [Sweep.goesOn, Sweep.goesOn, h.found_eq, hw, hw']

/-- Going through a list makes no difference if no member of it does. -/
theorem of_foldl {f : Sweep → NodeId → Sweep} (h : ∀ w, ∀ u ∈ us, AgreeOff P w (f w u)) :
    AgreeOff P w (us.foldl f w) :=
  List.foldlRecOn us f (.refl w) fun w' hw' u hu ↦ hw'.trans (h w' u hu)

/-- Two lists are gone through side by side, where the members that only the second one has make no
difference. -/
theorem foldl {f f' : Sweep → NodeId → Sweep}
    (hcut : ∀ w u, (f w u).complete = true → w.complete = true)
    (hcut' : ∀ w u, (f' w u).complete = true → w.complete = true)
    (hkeep : ∀ w w' u, AgreeOff P w w' → (f w u).complete = true → (f' w' u).complete = true →
      AgreeOff P (f w u) (f' w' u))
    (hpad : ∀ w' u, Q u → AgreeOff P w' (f' w' u)) (hus : Padded Q us us')
    (h : AgreeOff P w w') (hc : (us.foldl f w).complete = true)
    (hc' : (us'.foldl f' w').complete = true) :
    AgreeOff P (us.foldl f w) (us'.foldl f' w') := by
  induction hus generalizing w w' with
  | nil => exact h
  | keep u _ ih =>
    have hu : (f w u).complete = true := Sweep.complete_of_foldl hcut hc
    have hu' : (f' w' u).complete = true := Sweep.complete_of_foldl hcut' hc'
    exact ih (hkeep w w' u h hu hu') hc hc'
  | @pad u hu _ _ _ ih => exact ih (h.trans (hpad w' u hu)) hc hc'

end AgreeOff

/-! ### Sweeps that are cut off -/

namespace Session

variable {x y z : Session} {name : String} {trail trail' : List NodeId} {w w' : Sweep}
  {b u : NodeId} {P : Parent → Prop}

/-- A sweep that has been cut off stays cut off. -/
def KeepsCut (enter : List NodeId → List Children → Sweep → Sweep) : Prop :=
  ∀ trail scopes w, (enter trail scopes w).complete = true → w.complete = true

section

variable {enter : List NodeId → List Children → Sweep → Sweep} (henter : KeepsCut enter)
include henter

theorem KeepsCut.sweepUse (w : Sweep) (u : NodeId)
    (h : (x.sweepUse enter w u).complete = true) : w.complete = true := by
  unfold Session.sweepUse at h
  split at h
  · split at h
    · exact h
    · next g _ =>
      split at h
      · exact h
      · exact henter [] (x.scopeOf g) { w with opened := g :: w.opened } h
  · exact h

theorem KeepsCut.sweepBlock (trail : List NodeId) (w : Sweep) (b : NodeId)
    (h : (x.sweepBlock enter trail w b).complete = true) : w.complete = true := by
  unfold Session.sweepBlock at h
  split at h
  · exact h
  · split at h
    · cases h
    · simp only at h
      split at h
      · exact henter _ _ _ h
      · exact henter _ _ _ h

end

theorem keepsCut_sweep (x : Session) (name : String) (depth : Nat) :
    KeepsCut (x.sweep name depth) := by
  induction depth with
  | zero =>
    intro trail scopes w h
    cases h
  | succ depth ih =>
    intro trail scopes w h
    rw [sweep] at h
    split at h
    · exact h
    · exact Sweep.complete_of_foldl ih.sweepUse (Sweep.complete_of_foldl (ih.sweepBlock trail) h)

/-! ### Barren parents -/

/-- Nothing of a name is to be found in parents of a sort: neither among the children nor, as they
are of the sort as well, in the groupings that are used there and in the choices and cases. -/
structure Barren (x : Session) (name : String) (P : Parent → Prop) : Prop where
  unnamed : ∀ p, P p → x.schema.dataNamed? name (x.schema.childrenOf p) = none
  used : ∀ p, P p → ∀ u ∈ (x.schema.childrenOf p).slot .uses, ∀ g,
    x.registry.groupingOf? x.schema u = some g → P (.node g)
  inside : ∀ p, P p → ∀ b ∈ (x.schema.childrenOf p).slots [.choice, .case], P (.node b)

/-- Sweeping barren parents comes to no others. -/
def KeepsOff (x : Session) (P : Parent → Prop)
    (enter : List NodeId → List Children → Sweep → Sweep) : Prop :=
  ∀ trail (ps : List Parent) w, (∀ p ∈ ps, P p) →
    AgreeOff P w (enter trail (ps.map x.schema.childrenOf) w)

section

variable {enter : List NodeId → List Children → Sweep → Sweep} (henter : x.KeepsOff P enter)
include henter

/-- **Step.** The grouping of a `uses` is barren. -/
theorem KeepsOff.sweepUse
    (hu : ∀ g, x.registry.groupingOf? x.schema u = some g → P (.node g)) :
    AgreeOff P w (x.sweepUse enter w u) := by
  unfold Session.sweepUse
  split
  · split
    · exact .refl w
    · next g hg =>
      split
      · exact .refl w
      · exact (AgreeOff.opening w (hu g hg)).trans (henter [] [.node g] _ (by simpa using hu g hg))
  · exact .refl w

/-- **Step.** A choice or case is barren. -/
theorem KeepsOff.sweepBlock (hb : P (.node b)) : AgreeOff P w (x.sweepBlock enter trail w b) := by
  have hinner := henter (b :: trail) [.node b] w (by simpa using hb)
  unfold Session.sweepBlock
  split
  · exact .refl w
  · split
    · exact ⟨rfl, fun _ _ ↦ .rfl, fun _ _ ↦ .rfl⟩
    · simp only
      split
      · exact hinner.trans (.finishing _ hb)
      · exact hinner

end

/-- **Run.** A sweep of barren parents finds nothing, and opens and finishes barren parents only. -/
theorem Barren.keepsOff_sweep (h : x.Barren name P) (depth : Nat) :
    x.KeepsOff P (x.sweep name depth) := by
  induction depth with
  | zero => exact fun _ _ w _ ↦ ⟨rfl, fun _ _ ↦ .rfl, fun _ _ ↦ .rfl⟩
  | succ depth ih =>
    intro trail ps w hps
    have hnamed : (ps.map x.schema.childrenOf).findSome? (x.schema.dataNamed? name) = none := by
      simpa [List.findSome?_eq_none_iff] using fun p hp ↦ h.unnamed p (hps p hp)
    rw [sweep, hnamed]
    simp only [List.flatMap_map]
    refine (AgreeOff.of_foldl fun w u hu ↦ ?_).trans (AgreeOff.of_foldl fun w b hb ↦ ?_)
    · obtain ⟨p, hp, hu⟩ := List.mem_flatMap.1 hu
      exact ih.sweepUse (h.used p (hps p hp) u hu)
    · obtain ⟨p, hp, hb⟩ := List.mem_flatMap.1 hb
      exact ih.sweepBlock (h.inside p (hps p hp) b hb)

/-! ### Lock step -/

/-- Of two sessions, each has the children of the other for a look-up of a name, except that barren
choices and cases are put in. -/
structure Mirrors (y z : Session) (name : String) (P : Parent → Prop) : Prop where
  barren_left : y.Barren name P
  barren_right : z.Barren name P
  groupingOf?_eq : ∀ u,
    z.registry.groupingOf? z.schema u = y.registry.groupingOf? y.schema u
  dataNamed?_eq : ∀ p, z.schema.dataNamed? name (z.schema.childrenOf p) =
    y.schema.dataNamed? name (y.schema.childrenOf p)
  uses_eq : ∀ p, (z.schema.childrenOf p).slot .uses = (y.schema.childrenOf p).slot .uses
  padded : ∀ p, Padded (fun b ↦ P (.node b)) ((y.schema.childrenOf p).slots [.choice, .case])
    ((z.schema.childrenOf p).slots [.choice, .case])

/-- Sweeping deeper scopes in two sessions: sweeping the same parents keeps sweeps in agreement that
are not cut off, on whatever trails they come. -/
structure LockStep (y z : Session) (P : Parent → Prop)
    (enter enter' : List NodeId → List Children → Sweep → Sweep) : Prop where
  cut_left : KeepsCut enter
  cut_right : KeepsCut enter'
  off_left : y.KeepsOff P enter
  off_right : z.KeepsOff P enter'
  agree : ∀ trail trail' (ps : List Parent) w w', AgreeOff P w w' →
    (enter trail (ps.map y.schema.childrenOf) w).complete = true →
      (enter' trail' (ps.map z.schema.childrenOf) w').complete = true →
        AgreeOff P (enter trail (ps.map y.schema.childrenOf) w)
          (enter' trail' (ps.map z.schema.childrenOf) w')

section

variable {enter enter' : List NodeId → List Children → Sweep → Sweep}
  (henter : LockStep y z P enter enter')
include henter

/-- **Step.** Both sweeps go on with a `uses`. -/
theorem LockStep.sweepUse (hmirrors : Mirrors y z name P) (h : AgreeOff P w w')
    (hc : (y.sweepUse enter w u).complete = true) (hc' : (z.sweepUse enter' w' u).complete = true) :
    AgreeOff P (y.sweepUse enter w u) (z.sweepUse enter' w' u) := by
  have hgoes := h.goesOn_eq (henter.cut_left.sweepUse w u hc) (henter.cut_right.sweepUse w' u hc')
  have hgrouping := hmirrors.groupingOf?_eq u
  by_cases hbarren : ∀ g, y.registry.groupingOf? y.schema u = some g → P (.node g)
  · -- either sweep may open the grouping, and either may have opened it before
    have hleft := henter.off_left.sweepUse (w := w) hbarren
    have hright := henter.off_right.sweepUse (w := w') (hgrouping ▸ hbarren)
    exact hleft.symm.trans (h.trans hright)
  · push Not at hbarren
    obtain ⟨g, hg, hP⟩ := hbarren
    unfold Session.sweepUse at hc hc' ⊢
    rw [hgrouping, hg] at hc' ⊢
    rw [hg] at hc
    simp only [hgoes, h.opened_iff g hP] at hc hc' ⊢
    split
    · next hon =>
      simp only [if_pos hon] at hc hc'
      split
      · exact h
      · next hnew =>
        rw [if_neg hnew] at hc hc'
        exact henter.agree [] [] [.node g] _ _ (h.openBoth g) hc hc'
    · exact h

/-- **Step.** Both sweeps go on with a choice or case. -/
theorem LockStep.sweepBlock (h : AgreeOff P w w')
    (hc : (y.sweepBlock enter trail w b).complete = true)
    (hc' : (z.sweepBlock enter' trail' w' b).complete = true) :
    AgreeOff P (y.sweepBlock enter trail w b) (z.sweepBlock enter' trail' w' b) := by
  have hgoes := h.goesOn_eq (henter.cut_left.sweepBlock trail w b hc)
    (henter.cut_right.sweepBlock trail' w' b hc')
  by_cases hP : P (.node b)
  · exact (henter.off_left.sweepBlock hP).symm.trans (h.trans (henter.off_right.sweepBlock hP))
  · unfold Session.sweepBlock at hc hc' ⊢
    simp only [hgoes, h.finished_iff b hP] at hc hc' ⊢
    split
    · exact h
    · next hon =>
      simp only [if_neg hon] at hc hc'
      -- neither sweep is cut off here
      have htrail : b ∉ trail := by
        intro hmem
        simp [hmem] at hc
      have htrail' : b ∉ trail' := by
        intro hmem
        simp [hmem] at hc'
      simp only [if_neg htrail, if_neg htrail'] at hc hc' ⊢
      have hleft : (enter (b :: trail) (y.scopeOf b) w).complete = true := by
        split at hc <;> exact hc
      have hright : (enter' (b :: trail') (z.scopeOf b) w').complete = true := by
        split at hc' <;> exact hc'
      have hinner : AgreeOff P (enter (b :: trail) (y.scopeOf b) w)
          (enter' (b :: trail') (z.scopeOf b) w') :=
        henter.agree (b :: trail) (b :: trail') [.node b] w w' h hleft hright
      rw [hinner.goesOn_eq hleft hright]
      split
      · exact hinner.finishBoth b
      · exact hinner

end

/-- **Run.** Sweeps of both sessions stay in agreement, unless one of them is cut off. -/
theorem lockStep_sweep (hmirrors : Mirrors y z name P) (depth : Nat) :
    LockStep y z P (y.sweep name depth) (z.sweep name depth) := by
  induction depth with
  | zero =>
    refine ⟨y.keepsCut_sweep name 0, z.keepsCut_sweep name 0, hmirrors.barren_left.keepsOff_sweep 0,
      hmirrors.barren_right.keepsOff_sweep 0, fun trail trail' ps w w' _ hc ↦ ?_⟩
    cases hc
  | succ depth ih =>
    refine ⟨y.keepsCut_sweep name _, z.keepsCut_sweep name _, hmirrors.barren_left.keepsOff_sweep _,
      hmirrors.barren_right.keepsOff_sweep _, fun trail trail' ps w w' h hc hc' ↦ ?_⟩
    have hcut := ih.cut_left.sweepBlock (x := y) trail
    have hcut' := ih.cut_right.sweepBlock (x := z) trail'
    have hnamed : (ps.map z.schema.childrenOf).findSome? (z.schema.dataNamed? name) =
        (ps.map y.schema.childrenOf).findSome? (y.schema.dataNamed? name) := by
      simp only [List.findSome?_map, Function.comp_def, hmirrors.dataNamed?_eq]
    rw [sweep] at hc hc' ⊢
    rw [sweep]
    simp only [hnamed, List.flatMap_map, hmirrors.uses_eq] at hc hc' ⊢
    split
    · exact ⟨rfl, h.opened_iff, h.finished_iff⟩
    · next hnone =>
      simp only [hnone] at hc hc'
      have hused := AgreeOff.foldl ih.cut_left.sweepUse ih.cut_right.sweepUse
        (fun _ _ _ ↦ ih.sweepUse hmirrors) (fun _ _ ↦ False.elim) (.refl _) h
        (Sweep.complete_of_foldl hcut hc) (Sweep.complete_of_foldl hcut' hc')
      exact AgreeOff.foldl hcut hcut' (fun _ _ _ ↦ ih.sweepBlock)
        (fun _ _ ↦ ih.off_right.sweepBlock)
        (.flatMap ps fun p _ ↦ hmirrors.padded p) hused hc hc'

/-- **A look-up finds the same in both sessions.** -/
theorem Mirrors.childAmong_eq (hmirrors : Mirrors y z name P) (ps : List Parent)
    (hsize : z.schema.nodes.size = y.schema.nodes.size)
    (hleft : (y.sweep name y.sweepDepth [] (ps.map y.schema.childrenOf) {}).complete = true)
    (hright : (z.sweep name z.sweepDepth [] (ps.map z.schema.childrenOf) {}).complete = true) :
    z.childAmong (ps.map z.schema.childrenOf) name =
      y.childAmong (ps.map y.schema.childrenOf) name := by
  have hdepth : z.sweepDepth = y.sweepDepth := by rw [sweepDepth, hsize, sweepDepth]
  rw [hdepth] at hright
  have hagree := (lockStep_sweep hmirrors _).agree [] [] ps {} {} (.refl _) hleft hright
  simp only [childAmong, hdepth, hagree.found_eq, hleft, hright]

end Session

end SchemaLink
