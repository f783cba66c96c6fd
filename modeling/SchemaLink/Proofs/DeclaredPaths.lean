import Mathlib.Data.List.Infix
import SchemaLink.Proofs.Closures
import SchemaLink.Proofs.Renderings
import SchemaLink.Proofs.SharedNames
import SchemaLink.Proofs.Stages

/-!
# Paths along declared names

Names can be looked up in two ways. Following declared names, from the top level of a module
downward, asks one collection after the other for a child of any kind. Following a path asks for
children that appear in data, and looks into groupings, choices and cases too. **Where declared
names lead through data only, the path that they spell leads to the same node**
(`Session.followIn_of_declared`).

The two look-ups go through collections in different orders. Declared names try all kinds in one
body before the next body; a path tries the kinds of data in all bodies, and then everything else.
**The first declared match is the first match among data if it is of a kind of data**
(`Session.findSome?_dataNamed?_of_declaredIn?`): the kinds of data come first in either order, and a
body without a declared match has no match among data. So the path finds the node in the first round
of its sweep, before any grouping, choice or case is opened.
-/

namespace SchemaLink

open Text

/-! ### Names in paths -/

namespace Path

/-- A name that may be written in a path as it is: a word without opening brackets and colons, and
none of the words with a meaning of their own. -/
structure Writable (name : String) : Prop extends IsWord name.toList where
  opening_not_mem : '[' ∉ name.toList
  colon_not_mem : ':' ∉ name.toList
  ne_current : name ≠ "."
  ne_parent : name ≠ ".."

instance (name : String) : Decidable (Writable name) :=
  decidable_of_iff
    ((name.toList ≠ [] ∧ trim name.toList = name.toList ∧ '/' ∉ name.toList) ∧
      '[' ∉ name.toList ∧ ':' ∉ name.toList ∧ name ≠ "." ∧ name ≠ "..")
    ⟨fun ⟨⟨hne, htrim, hslash⟩, hopening, hcolon, hcurrent, hparent⟩ ↦
      ⟨⟨hne, htrim, hslash⟩, hopening, hcolon, hcurrent, hparent⟩,
    fun h ↦ ⟨⟨h.ne_nil, h.trim_eq, h.slash_not_mem⟩, h.opening_not_mem, h.colon_not_mem,
      h.ne_current, h.ne_parent⟩⟩

variable {name : String} {names : List String}

/-- A name that may be written in a path is read as a step without a prefix. -/
theorem Writable.segment_eq (h : Writable name) :
    Segment.ofChars name.toList = .step ⟨none, name⟩ := by
  have hparent : name.toList ≠ ['.', '.'] := fun hdots ↦
    h.ne_parent (String.toList_inj.1 hdots)
  have hcurrent : name.toList ≠ ['.'] := fun hdot ↦ h.ne_current (String.toList_inj.1 hdot)
  rw [Segment.ofChars, if_neg hparent, if_neg hcurrent]
  exact congrArg Segment.step (QName.ofString_of_not_mem h.colon_not_mem)

/-- **Names with slashes in front are read as steps from the top level.** -/
theorem ofString_names (h : ∀ name ∈ names, Writable name) :
    (ofString ("/" ++ "/".intercalate names)).absolute = true ∧
      (ofString ("/" ++ "/".intercalate names)).segments =
        names.map fun name ↦ .step ⟨none, name⟩ := by
  have htext : ("/" ++ "/".intercalate names).toList =
      canonical true (names.map String.toList) := by
    rw [String.toList_append, String.toList_intercalate, canonical, glue_eq_intercalate]
    rfl
  have hwords : ∀ w ∈ names.map String.toList, IsWord w := by
    intro w hw
    obtain ⟨name, hname, rfl⟩ := List.mem_map.1 hw
    exact (h name hname).toIsWord
  have hplain : ¬ ['[', ']'].Sublist (names.map String.toList).flatten := by
    intro hsub
    obtain ⟨w, hw, hopen⟩ := List.mem_flatten.1 (hsub.subset (List.mem_cons_self ..))
    obtain ⟨name, hname, rfl⟩ := List.mem_map.1 hw
    exact (h name hname).opening_not_mem hopen
  obtain ⟨habsolute, hsegments⟩ := ofChars_canonical true hwords hplain
  rw [absolute_ofString, segments_ofString, htext, habsolute, hsegments, List.map_map]
  exact ⟨rfl, List.map_congr_left fun name hname ↦ (h name hname).segment_eq⟩

end Path

/-! ### Declared children among data -/

namespace Schema

variable {s : Schema} {name : String} {id : NodeId} {p : Parent} {c : Children}

/-- Data children are declared children. -/
theorem dataNamed?_eq_none_of_declaredIn? (h : s.declaredIn? name c = none) :
    s.dataNamed? name c = none := by
  rw [declaredIn?, firstNamed?, declaredKinds, Children.slots, List.flatMap_append,
    List.find?_append, Option.or_eq_none_iff] at h
  rw [dataNamed?_eq]
  exact h.1

/-- **The first declared child of a name is the first among data** if it appears in data. -/
theorem dataNamed?_of_declaredIn? (hs : s.Filed)
    (h : s.declaredIn? name (s.childrenOf p) = some id) (hkind : s.kind id ∈ Kind.dataKinds) :
    s.dataNamed? name (s.childrenOf p) = some id := by
  rw [declaredIn?, firstNamed?, declaredKinds, Children.slots, List.flatMap_append,
    List.find?_append] at h
  rw [dataNamed?_eq, firstNamed?, Children.data, Children.slots]
  rcases Option.or_eq_some_iff.1 h with hdata | ⟨-, hother⟩
  · exact hdata
  · -- what is found among the other kinds is of one of them
    obtain ⟨k, hk, hslot⟩ := List.mem_flatMap.1 (List.mem_of_find?_eq_some hother)
    rw [hs p k id hslot] at hkind
    simp only [Kind.dataKinds, List.mem_cons, List.not_mem_nil, or_false] at hk hkind
    rcases hk with rfl | rfl | rfl | rfl | rfl <;> simp at hkind

/-- All nodes that a look-up of names comes by appear in data, and so does the one it leads to. -/
def ThroughData (s : Schema) (find : List String → Option NodeId) (names : List String) : Prop :=
  ∀ way, way <+: names → ∀ n, find way = some n → s.kind n ∈ Kind.dataKinds

theorem ThroughData.kind_mem {find : List String → Option NodeId} {names : List String}
    (h : s.ThroughData find names) (hid : find [] = some id) : s.kind id ∈ Kind.dataKinds :=
  h [] List.nil_prefix id hid

/-- Behind the first name the look-up goes on through data. -/
theorem ThroughData.tail {find below : List String → Option NodeId} {names : List String}
    (h : s.ThroughData find (name :: names)) (hbelow : ∀ way, find (name :: way) = below way) :
    s.ThroughData below names := fun way hprefix n hn ↦
  h (name :: way) (List.cons_prefix_cons.2 ⟨rfl, hprefix⟩) n ((hbelow way).trans hn)

end Schema

namespace Session

variable {x : Session} {target : TargetFinder} {path : Path} {home m : ModuleId} {index : Nat}
  {c : Position} {id found : NodeId} {name : String} {names : List String}

/-- The scopes of a position are children of something. -/
theorem exists_childrenOf_of_mem_ownScopes {scope : Children} (h : scope ∈ x.ownScopes c) :
    ∃ p, x.schema.childrenOf p = scope := by
  cases c with
  | top m =>
    obtain ⟨u, -, rfl⟩ := List.mem_map.1 h
    exact ⟨.submodule u, rfl⟩
  | node id => exact ⟨.node id, (List.mem_singleton.1 h).symm⟩

/-- The first declared child in some scopes is the first among data if it appears in data. -/
theorem findSome?_dataNamed?_of_declaredIn? {scopes : List Children} (hx : x.schema.Filed)
    (hscopes : ∀ c ∈ scopes, ∃ p, x.schema.childrenOf p = c)
    (h : scopes.findSome? (x.schema.declaredIn? name) = some id)
    (hkind : x.schema.kind id ∈ Kind.dataKinds) :
    scopes.findSome? (x.schema.dataNamed? name) = some id := by
  induction scopes with
  | nil => simp at h
  | cons c scopes ih =>
    obtain ⟨⟨p, rfl⟩, hrest⟩ := List.forall_mem_cons.1 hscopes
    rw [List.findSome?_cons] at h ⊢
    rcases hdeclared : x.schema.declaredIn? name (x.schema.childrenOf p) with - | first
    · rw [hdeclared] at h
      rw [Schema.dataNamed?_eq_none_of_declaredIn? hdeclared]
      exact ih hrest h
    · obtain rfl : first = id := by simpa [hdeclared] using h
      rw [Schema.dataNamed?_of_declaredIn? hx hdeclared hkind]

/-- What a look-up finds in its own scopes it answers with, whatever it could open. -/
theorem childAmong_of_findSome? {scopes : List Children}
    (h : scopes.findSome? (x.schema.dataNamed? name) = some id) :
    x.childAmong scopes name = .ok (some id) := by
  obtain ⟨depth, hdepth⟩ : ∃ depth, x.sweepDepth = depth + 1 :=
    Nat.exists_eq_add_one_of_ne_zero (by simp [sweepDepth])
  rw [childAmong, hdepth, sweep, h]

/-- **Step.** A name leads to the declared child of a position if that appears in data. -/
theorem moves_of_declared (hx : x.schema.Filed)
    (hc : ∀ id, c = .node id → x.schema.kind id ∈ Kind.dataKinds)
    (h : (x.ownScopes c).findSome? (x.schema.declaredIn? name) = some id)
    (hkind : x.schema.kind id ∈ Kind.dataKinds) :
    x.moves target path home index c (.step ⟨none, name⟩) = .ok [.node id] := by
  have hscopes : x.scopesAt target c = .ok (x.ownScopes c) := by
    refine scopesAt_eq_ok target fun id hid haugment ↦ ?_
    simpa [haugment, Kind.dataKinds] using hc id hid
  have hchild : x.childAt target c name = .ok (some id) := by
    rw [childAt, hscopes]
    exact childAmong_of_findSome? (findSome?_dataNamed?_of_declaredIn? hx
      (fun _ ↦ exists_childrenOf_of_mem_ownScopes) h hkind)
  rw [moves, (stepTo_eq_ok_iff path index).2 ⟨by simp, hchild⟩]
  rfl

/-- A node that has no children declares none. -/
theorem findSome?_declaredIn?_ownScopes (id : NodeId) (name : String) :
    (x.ownScopes (.node id)).findSome? (x.schema.declaredIn? name) =
      (x.schema.node id).children?.bind (x.schema.declaredIn? name) := by
  rw [ownScopes, scopeOf, Node.children]
  rcases (x.schema.node id).children? with - | children
  · rfl
  · simp

/-- **Run.** Where declared names lead down from a node, through data only, the walk along them
leads too. -/
theorem walkAlong_of_declaredBelow? (hx : x.schema.Filed)
    (h : x.schema.declaredBelow? id names = some found)
    (hway : x.schema.ThroughData (x.schema.declaredBelow? id) names) :
    x.walkAlong target path home (names.map fun name ↦ .step ⟨none, name⟩) index (.node id) =
      .ok (.node found) := by
  induction names generalizing id index with
  | nil =>
    obtain rfl : id = found := by simpa [Schema.declaredBelow?] using h
    rfl
  | cons name names ih =>
    rw [Schema.declaredBelow?] at h
    rcases hchild : (x.schema.node id).children?.bind (x.schema.declaredIn? name) with - | child
    · simp [hchild] at h
    · rw [hchild] at h
      have hbelow : x.schema.ThroughData (x.schema.declaredBelow? child) names :=
        hway.tail fun way ↦ by rw [Schema.declaredBelow?, hchild]
      have hmoves : x.moves target path home index (.node id) (.step ⟨none, name⟩) =
          .ok [.node child] :=
        moves_of_declared hx (by simpa using hway.kind_mem rfl)
          ((findSome?_declaredIn?_ownScopes id name).trans hchild) (hbelow.kind_mem rfl)
      rw [List.map_cons, walkAlong_cons_of_ok hmoves]
      exact ih h hbelow

/-- An absolute path whose steps are names leads where the declared names lead, if that is through
data only. -/
theorem followBy_of_declared (hx : x.schema.Filed) (habsolute : path.absolute = true)
    (hsegments : path.segments = names.map fun name ↦ .step ⟨none, name⟩)
    (h : x.schema.findDeclared? m names = some found)
    (hway : x.schema.ThroughData (x.schema.findDeclared? m) names) :
    x.followBy target false path m (.top m) = .ok found := by
  cases names with
  | nil => simp [Schema.findDeclared?] at h
  | cons name names =>
    rw [Schema.findDeclared?] at h
    rcases hfirst : (x.schema.bodies m).findSome? (x.schema.declaredIn? name) with - | first
    · simp [hfirst] at h
    · rw [hfirst] at h
      have hbelow : x.schema.ThroughData (x.schema.declaredBelow? first) names :=
        hway.tail fun way ↦ by rw [Schema.findDeclared?, hfirst]
      have hne : path.segments ≠ [] := by simp [hsegments]
      have hstart : x.startOf path m (.top m) = .ok (.top m) := by
        simp [startOf, habsolute, Path.leadingQualifier, hsegments, Registry.moduleFor]
      have hwalk : x.walk target path m (.top m) = .ok (.node found) := by
        rw [walk_eq_walkAlong, hsegments, List.map_cons, walkAlong_cons_of_ok
          (moves_of_declared hx (by simp) hfirst (hbelow.kind_mem rfl))]
        exact walkAlong_of_declaredBelow? hx h hbelow
      rw [followBy_eq hne, hstart]
      simp only [Except.bind, hwalk]
      exact arrive_eq_ok_iff.2 ⟨rfl, fun hneeds ↦ absurd hneeds (by decide)⟩

/-- **A path leads where declared names lead.** In every session that documents and requests lead
to: take names that may be written in a path, and follow them from the top level of a module through
declared children. If that comes to a node, and all nodes on the way and the last one appear in
data, the path that consists of these names leads from the module to the same node. -/
theorem followIn_of_declared {s : Schema} {docs : List Document}
    (hdocs : Schema.ofDocuments docs = .ok s) {policy : Policy} (hx : start s policy = .ok x)
    (requests : List Request) (hnames : ∀ name ∈ names, Path.Writable name)
    (h : (x.performAll requests).schema.findDeclared? m names = some found)
    (hway : (x.performAll requests).schema.ThroughData
      ((x.performAll requests).schema.findDeclared? m) names) :
    (x.performAll requests).followIn false ("/" ++ "/".intercalate names) m = .ok found := by
  obtain ⟨habsolute, hsegments⟩ := Path.ofString_names hnames
  exact followBy_of_declared (filed_performAll hdocs hx requests) habsolute hsegments h hway

/-- A container with a choice in it, beside a grouping of its name and, in a submodule, a list of
its name; an augment brings a leaf into the choice, and the grouping has a leaf of the same name. -/
def boxed : List Document :=
  [.module
    { name := "m", ownPrefix := "m", space := "urn:m", includes := ["more"]
      body := [.block .grouping "box" none [.typed .leaf "depth" none { name := "int8" }],
        .block .container "box" none [.uses "m:box",
          .block .choice "form" none [.typed .leaf "size" none { name := "int8" }]],
        .augment "/m:box/m:form" none [.typed .leaf "depth" none { name := "int8" }]] },
   .submodule
    { name := "more", owner := "m"
      body := [.block .list "box" none [.typed .leaf "form" none { name := "int8" }]] }]

/-- Through the choice to the leaf that the augment has brought. -/
theorem followIn_of_declared_boxed :
    ∃ s x, Schema.ofDocuments boxed = .ok s ∧ start s .strict = .ok x ∧
      (x.performAll [.augments ⟨0⟩]).schema.findDeclared? ⟨0⟩ ["box", "form", "depth"] = some ⟨9⟩ ∧
      (x.performAll [.augments ⟨0⟩]).followIn false "/box/form/depth" ⟨0⟩ = .ok ⟨9⟩ := by
  obtain ⟨x, hx, hfound, hway⟩ : ∃ x, start (Schema.ofBatch boxed) .strict = .ok x ∧
      (x.performAll [.augments ⟨0⟩]).schema.findDeclared? ⟨0⟩ ["box", "form", "depth"] =
        some ⟨9⟩ ∧
      ∀ way ∈ ["box", "form", "depth"].inits,
        ∀ n ∈ (x.performAll [.augments ⟨0⟩]).schema.findDeclared? ⟨0⟩ way,
          (x.performAll [.augments ⟨0⟩]).schema.kind n ∈ Kind.dataKinds :=
    exists_ok_of_any (by decide +kernel)
  have hdocs : Schema.ofDocuments boxed = .ok (Schema.ofBatch boxed) :=
    Schema.ofDocuments_of_offences_eq_nil rfl
  have htext : "/" ++ "/".intercalate ["box", "form", "depth"] = "/box/form/depth" := by
    decide +kernel
  have hleads := followIn_of_declared hdocs hx [.augments ⟨0⟩] (by decide +kernel) hfound
    fun way hprefix n hn ↦ hway way ((List.mem_inits _ _).2 hprefix) n hn
  rw [htext] at hleads
  exact ⟨_, x, hdocs, hx, hfound, hleads⟩

end Session

end SchemaLink
