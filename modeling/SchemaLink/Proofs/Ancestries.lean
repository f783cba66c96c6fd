import Mathlib.Data.List.Nodup
import Mathlib.Data.List.Perm.Subperm
import SchemaLink.Session.Identity
import SchemaLink.Proofs.Handles
import SchemaLink.Proofs.Meaning

/-!
# Ancestries of identities

From an identity one goes on to its first base, looked up in the module of that identity, from there
to the first base of that one, and so on. Here the line is described without the search
(`Session.Line`), together with the three ways in which it can end (`Session.LineEnd`): at an
identity without bases, at one that has been passed, or at a base that cannot be looked up. **The
search finds the end of the line, whichever it is** (`Session.ancestry_line`).

**The bound of the search is never felt.** All identities of a line but the last name a base, so
they are nodes of the schema, and as long as they differ there are no more of them than nodes
(`Line.length_le`). Lines of every length would have to exist if none came to an end.

An ancestry starts anywhere on its line: what comes behind an ancestor is the ancestor's own line,
and it ends in the same way.
-/

namespace SchemaLink

namespace Session

variable {x : Session} {id base last again root : NodeId} {line rest passed ancestors : List NodeId}
  {fault : Fault} {answer : Except Fault (List NodeId)} {n k : Nat}

/-! ### First bases -/

/-- The first base of an identity, looked up in the module of that identity, is another one. -/
def Derives (x : Session) (id base : NodeId) : Prop :=
  ∃ written, x.schema.firstBase? id = some written ∧
    x.registry.identityNamed? x.schema (x.schema.homeModule id) written = .ok (some base)

/-- The first base of an identity cannot be looked up. -/
inductive Dangles (x : Session) (id : NodeId) : Fault → Prop where
  /-- Its prefix denotes no module. -/
  | unbound {written : String} {fault : Fault} (hbase : x.schema.firstBase? id = some written)
      (hfault : x.registry.identityNamed? x.schema (x.schema.homeModule id) written =
        .error fault) : Dangles x id fault
  /-- There is no identity of its name. -/
  | missing {written : String} (hbase : x.schema.firstBase? id = some written)
      (hnone : x.registry.identityNamed? x.schema (x.schema.homeModule id) written = .ok none) :
      Dangles x id (.unresolvedIdentity written (x.schema.node id).name (x.schema.homeName id))

theorem nextBase_eq_none_iff : x.nextBase id = .ok none ↔ x.schema.firstBase? id = none := by
  rcases hbase : x.schema.firstBase? id with - | written
  · simp [nextBase, hbase]
  · rcases hnext : x.baseOf id written <;> simp [nextBase, hbase, hnext, Except.map]

theorem nextBase_eq_some_iff : x.nextBase id = .ok (some base) ↔ x.Derives id base := by
  rcases hbase : x.schema.firstBase? id with - | written
  · simp [nextBase, Derives, hbase]
  · rcases hnamed : x.registry.identityNamed? x.schema (x.schema.homeModule id) written with
      fault | - | found <;>
      simp [nextBase, Derives, hbase, baseOf, hnamed, Except.map]

theorem nextBase_eq_error_iff : x.nextBase id = .error fault ↔ x.Dangles id fault := by
  rcases hbase : x.schema.firstBase? id with - | written
  · refine ⟨fun h ↦ by simp [nextBase, hbase] at h, fun h ↦ ?_⟩
    cases h <;> simp_all
  · rcases hnamed : x.registry.identityNamed? x.schema (x.schema.homeModule id) written with
      fault' | - | found
    · refine ⟨fun h ↦ ?_, fun h ↦ ?_⟩
      · obtain rfl : fault' = fault := by
          simpa [nextBase, hbase, baseOf, hnamed, Except.map] using h
        exact .unbound hbase hnamed
      · cases h <;> simp_all [nextBase, baseOf, Except.map]
    · refine ⟨fun h ↦ ?_, fun h ↦ ?_⟩
      · obtain rfl : _ = fault := by simpa [nextBase, hbase, baseOf, hnamed, Except.map] using h
        exact .missing hbase hnamed
      · cases h <;> simp_all [nextBase, baseOf, Except.map]
    · refine ⟨fun h ↦ by simp [nextBase, hbase, baseOf, hnamed, Except.map] at h, fun h ↦ ?_⟩
      cases h <;> simp_all

/-- A look-up is never said to be a line that returns. -/
theorem Dangles.ne_cyclic (h : x.Dangles id fault) (identity home : String) (names : List String) :
    fault ≠ .cyclicIdentityBase identity home names := by
  rintro rfl
  rcases h with ⟨-, hfault⟩
  simp only [Registry.identityNamed?, Registry.moduleFor] at hfault
  split at hfault <;> grind

/-- Only nodes of the schema name a base. -/
theorem Derives.index_lt (h : x.Derives id base) : id.index < x.schema.nodes.size := by
  obtain ⟨written, hbase, -⟩ := h
  by_contra hid
  simp [Schema.firstBase?, Schema.node_of_size_le (Nat.le_of_not_lt hid), Schema.blankNode] at hbase

/-! ### Lines -/

/-- Going from base to base leads from an identity over some others in turn, up to `last`. -/
inductive Line (x : Session) : NodeId → List NodeId → NodeId → Prop where
  | here {id : NodeId} : Line x id [] id
  | on {id base last : NodeId} {line : List NodeId} (hbase : x.Derives id base)
      (hrest : Line x base line last) : Line x id (base :: line) last

/-- How a line ends that has come from the identity `id` over the identities `line` to `last`. -/
inductive LineEnd (x : Session) (id : NodeId) (line : List NodeId) (last : NodeId) :
    Except Fault (List NodeId) → Prop where
  /-- The last identity has no bases. -/
  | root (hroot : x.schema.firstBase? last = none) : LineEnd x id line last (.ok line)
  /-- The base of the last identity cannot be looked up. -/
  | dangles {fault : Fault} (hfault : x.Dangles last fault) : LineEnd x id line last (.error fault)
  /-- The base of the last identity has been passed. -/
  | returns {again : NodeId} (hbase : x.Derives last again) (hagain : again ∈ id :: line) :
      LineEnd x id line last (.error (x.cycleFault id (id :: line) again))

theorem Line.concat (h : x.Line id line last) (hbase : x.Derives last base) :
    x.Line id (line ++ [base]) base := by
  induction h with
  | here => exact .on hbase .here
  | on hfirst _ ih => exact .on hfirst (ih hbase)

theorem Line.getLastD_eq (h : x.Line id line last) : line.getLastD id = last := by
  induction h with
  | here => rfl
  | on _ _ ih => rwa [List.getLastD_cons]

/-- What comes behind an ancestor is its own line. -/
theorem Line.drop (h : x.Line id ancestors last) (hk : ancestors[k]? = some base) :
    x.Line base (ancestors.drop (k + 1)) last := by
  induction h generalizing k with
  | here => simp at hk
  | @on _ first _ _ _ hrest ih =>
    cases k with
    | zero =>
      obtain rfl : first = base := by simpa using hk
      exact hrest
    | succ k => exact ih (by simpa using hk)

theorem Line.index_lt (h : x.Line id line last) :
    ∀ a ∈ (id :: line).dropLast, a.index < x.schema.nodes.size := by
  induction h with
  | here => simp
  | on hbase _ ih =>
    rw [List.dropLast_cons_cons]
    exact List.forall_mem_cons.2 ⟨hbase.index_lt, ih⟩

/-- A line that repeats no identity has no more ancestors than there are nodes. -/
theorem Line.length_le (h : x.Line id line last) (hnodup : (id :: line).Nodup) :
    line.length ≤ x.schema.nodes.size := by
  have hsub : (id :: line).dropLast ⊆ x.schema.nodeIds :=
    fun a ha ↦ Schema.mem_nodeIds.2 (h.index_lt a ha)
  have hnodup' := hnodup.sublist (List.dropLast_sublist _)
  simpa [Schema.nodeIds] using (List.subperm_of_subset hnodup' hsub).length_le

/-! ### The search along a line -/

/-- **Run.** The search goes along a line, one step for each ancestor. -/
theorem Line.ancestryFrom_eq (h : x.Line base line last) (hnodup : (passed ++ line).Nodup)
    (n : Nat) :
    x.ancestryFrom id (n + line.length) passed base =
      x.ancestryFrom id n (passed ++ line) last := by
  induction h generalizing passed with
  | here => simp
  | @on _ next _ line hbase _ ih =>
    have hnew : next ∉ passed := fun hmem ↦ List.nodup_append.1 hnodup |>.2.2 _ hmem _ (by simp) rfl
    rw [List.length_cons, ← Nat.add_assoc, ancestryFrom, nextBase_eq_some_iff.2 hbase]
    simp only [hnew, if_false]
    have hnodup' : ((passed ++ [next]) ++ line).Nodup := by simpa using hnodup
    simpa using ih hnodup'

/-- The search sees how a line ends. -/
theorem LineEnd.ancestryFrom_eq (h : x.LineEnd id line last answer) (n : Nat) :
    x.ancestryFrom id (n + 1) (id :: line) last = answer.map (id :: ·) := by
  rw [ancestryFrom]
  cases h with
  | root hroot => rw [nextBase_eq_none_iff.2 hroot]; rfl
  | dangles hfault => rw [nextBase_eq_error_iff.2 hfault]; rfl
  | returns hbase hagain => rw [nextBase_eq_some_iff.2 hbase]; simp only [hagain, if_true]; rfl

theorem Line.ancestry_eq (h : x.Line id line last) (hnodup : (id :: line).Nodup)
    (hend : x.LineEnd id line last answer) : x.ancestry id = answer := by
  have hlength := h.length_le hnodup
  obtain ⟨n, hn⟩ : ∃ n, x.schema.nodes.size + 1 = n + 1 + line.length :=
    ⟨x.schema.nodes.size - line.length, by omega⟩
  have hpassed : ([id] ++ line).Nodup := hnodup
  rw [ancestry, hn, h.ancestryFrom_eq hpassed, List.singleton_append, hend.ancestryFrom_eq]
  cases answer <;> rfl

/-! ### Every line ends -/

/-- A line that repeats no identity so far has come to its end, or goes on to another identity. -/
theorem lineEnd_or_derives (x : Session) (id : NodeId) (line : List NodeId) (last : NodeId) :
    (∃ answer, x.LineEnd id line last answer) ∨
      ∃ base, x.Derives last base ∧ base ∉ id :: line := by
  rcases hnext : x.nextBase last with fault | - | base
  · exact .inl ⟨_, .dangles (nextBase_eq_error_iff.1 hnext)⟩
  · exact .inl ⟨_, .root (nextBase_eq_none_iff.1 hnext)⟩
  · have hbase := nextBase_eq_some_iff.1 hnext
    by_cases hagain : base ∈ id :: line
    · exact .inl ⟨_, .returns hbase hagain⟩
    · exact .inr ⟨base, hbase, hagain⟩

/-- A line that has come some way without repeating an identity comes to its end in the same manner:
there are only so many identities to come. -/
theorem Line.exists_lineEnd (h : x.Line id line last) (hnodup : (id :: line).Nodup)
    (hn : x.schema.nodes.size < n + line.length) :
    ∃ line last answer, x.Line id line last ∧ (id :: line).Nodup ∧
      x.LineEnd id line last answer := by
  induction n generalizing line last with
  | zero =>
    have hlength := h.length_le hnodup
    omega
  | succ n ih =>
    rcases lineEnd_or_derives x id line last with
      ⟨answer, hend⟩ | ⟨base, hbase, hnew⟩
    · exact ⟨line, last, answer, h, hnodup, hend⟩
    · have hnodup' : (id :: (line ++ [base])).Nodup := by
        rw [← List.cons_append, ← List.concat_eq_append]
        exact hnodup.concat hnew
      refine ih (h.concat hbase) hnodup' ?_
      rw [List.length_append, List.length_singleton]
      omega

/-- **The search finds the end of the line**, whatever that is. -/
theorem ancestry_eq_iff :
    x.ancestry id = answer ↔
      ∃ line last, x.Line id line last ∧ (id :: line).Nodup ∧ x.LineEnd id line last answer := by
  constructor
  · rintro rfl
    have hstart : x.Line id [] id := .here
    have hn : x.schema.nodes.size < x.schema.nodes.size + 1 + ([] : List NodeId).length := by
      simp
    obtain ⟨line, last, answer, hline, hnodup, hend⟩ :=
      hstart.exists_lineEnd (List.nodup_singleton id) hn
    rw [hline.ancestry_eq hnodup hend]
    exact ⟨line, last, hline, hnodup, hend⟩
  · rintro ⟨line, last, hline, hnodup, hend⟩
    exact hline.ancestry_eq hnodup hend

theorem ancestry_eq_ok_iff :
    x.ancestry id = .ok line ↔
      ∃ root, x.Line id line root ∧ (id :: line).Nodup ∧ x.schema.firstBase? root = none := by
  rw [ancestry_eq_iff]
  constructor
  · rintro ⟨line, root, hline, hnodup, ⟨hroot⟩⟩
    exact ⟨root, hline, hnodup, hroot⟩
  · rintro ⟨root, hline, hnodup, hroot⟩
    exact ⟨line, root, hline, hnodup, .root hroot⟩

/-! ### Along the line -/

/-- The ancestry of an ancestor is what comes behind it. -/
theorem ancestry_drop (h : x.ancestry id = .ok ancestors) (hk : ancestors[k]? = some base) :
    x.ancestry base = .ok (ancestors.drop (k + 1)) := by
  obtain ⟨root, hline, hnodup, hroot⟩ := ancestry_eq_ok_iff.1 h
  refine ancestry_eq_ok_iff.2 ⟨root, hline.drop hk, ?_, hroot⟩
  have hcons : base :: ancestors.drop (k + 1) = ancestors.drop k := by
    obtain ⟨hlt, rfl⟩ := List.getElem?_eq_some_iff.1 hk
    exact (List.drop_eq_getElem_cons hlt).symm
  rw [hcons]
  exact hnodup.of_cons.sublist (List.drop_sublist _ _)

theorem rootOf_eq (h : x.ancestry id = .ok line) : x.rootOf id = .ok (line.getLastD id) := by
  rw [rootOf, h]

/-- An identity without bases is its own root. -/
theorem rootOf_of_firstBase?_eq_none (h : x.schema.firstBase? root = none) :
    x.rootOf root = .ok root :=
  rootOf_eq (ancestry_eq_ok_iff.2 ⟨root, .here, List.nodup_singleton root, h⟩)

/-- **The ancestry of an identity.** The search answers exactly if the line from the identity
reaches one without bases before an identity comes twice, and then with the line. It says that the
line returns exactly if it comes first to an identity that has been passed, the start included, and
names what has been passed. Any other fault is the first one met in looking up a base. Behind each
ancestor stands its own ancestry, so that all of them have the same root, which is its own. -/
theorem ancestry_line (x : Session) (id : NodeId) :
    (∀ line, x.ancestry id = .ok line ↔
      ∃ root, x.Line id line root ∧ (id :: line).Nodup ∧ x.schema.firstBase? root = none) ∧
    (∀ identity home names,
      x.ancestry id = .error (.cyclicIdentityBase identity home names) ↔
        ∃ line last again, x.Line id line last ∧ (id :: line).Nodup ∧ x.Derives last again ∧
          again ∈ id :: line ∧ identity = (x.schema.node id).name ∧ home = x.schema.homeName id ∧
          names = (id :: line ++ [again]).map fun a ↦ (x.schema.node a).name) ∧
    (∀ fault,
      (x.ancestry id = .error fault ∧
        ∀ identity home names, fault ≠ .cyclicIdentityBase identity home names) ↔
        ∃ line last, x.Line id line last ∧ (id :: line).Nodup ∧ x.Dangles last fault) ∧
    (∀ ancestors, x.ancestry id = .ok ancestors →
      x.rootOf id = .ok (ancestors.getLastD id) ∧
      x.rootOf (ancestors.getLastD id) = .ok (ancestors.getLastD id) ∧
      ∀ k base, ancestors[k]? = some base →
        x.ancestry base = .ok (ancestors.drop (k + 1)) ∧ x.rootOf base = x.rootOf id) := by
  refine ⟨fun line ↦ ancestry_eq_ok_iff, fun identity home names ↦ ?_, fun fault ↦ ?_,
    fun ancestors hline ↦ ?_⟩
  · rw [ancestry_eq_iff]
    constructor
    · rintro ⟨line, last, hline, hnodup, hend⟩
      generalize hfault :
        Except.error (Fault.cyclicIdentityBase identity home names) = answer at hend
      cases hend with
      | root hroot => simp at hfault
      | dangles hdangles =>
        rw [← Except.error.inj hfault] at hdangles
        exact absurd rfl (hdangles.ne_cyclic identity home names)
      | @returns again hbase hagain =>
        obtain ⟨rfl, rfl, rfl⟩ := Fault.cyclicIdentityBase.inj (Except.error.inj hfault)
        exact ⟨line, last, again, hline, hnodup, hbase, hagain, rfl, rfl, rfl⟩
    · rintro ⟨line, last, again, hline, hnodup, hbase, hagain, rfl, rfl, rfl⟩
      exact ⟨line, last, hline, hnodup, .returns hbase hagain⟩
  · rw [ancestry_eq_iff]
    constructor
    · rintro ⟨⟨line, last, hline, hnodup, hend⟩, hother⟩
      cases hend with
      | dangles hdangles => exact ⟨line, last, hline, hnodup, hdangles⟩
      | returns hbase hagain => exact absurd rfl (hother _ _ _)
    · rintro ⟨line, last, hline, hnodup, hdangles⟩
      exact ⟨⟨line, last, hline, hnodup, .dangles hdangles⟩, hdangles.ne_cyclic⟩
  · obtain ⟨root, hroot, -, hnone⟩ := ancestry_eq_ok_iff.1 hline
    refine ⟨rootOf_eq hline, ?_, fun k base hk ↦ ?_⟩
    · rw [hroot.getLastD_eq]
      exact rootOf_of_firstBase?_eq_none hnone
    · have hdrop := ancestry_drop hline hk
      refine ⟨hdrop, ?_⟩
      rw [rootOf_eq hdrop, rootOf_eq hline, (hroot.drop hk).getLastD_eq, hroot.getLastD_eq]

/-- Two modules use one prefix for each other. A line goes through both, another one enters a
circle, and a third one leads nowhere. -/
def grafted : List Document :=
  [.module
    { name := "m", ownPrefix := "m", space := "urn:m"
      imports := [{ module := "n", localPrefix := "far" }]
      body := [
        .identity "twig" none ["far:bough"],
        .identity "trunk" none [],
        .identity "vine" none ["far:hoop"],
        .identity "stump" none ["far:trunk"]] },
   .module
    { name := "n", ownPrefix := "n", space := "urn:n"
      imports := [{ module := "m", localPrefix := "far" }]
      body := [
        .identity "bough" none ["far:trunk", "hoop"],
        .identity "hoop" none ["hoop"]] }]

example : (start (Schema.ofBatch grafted) .strict).toOption.map
      (fun x ↦ [0, 2, 3].map fun i ↦ x.ancestry ⟨i⟩) =
    some [.ok [⟨4⟩, ⟨1⟩], .error (.cyclicIdentityBase "vine" "m" ["vine", "hoop", "hoop"]),
      .error (.unresolvedIdentity "far:trunk" "stump" "m")] := by
  decide +kernel

end Session

end SchemaLink
