import SchemaLink.Proofs.AlikeWalks
import SchemaLink.Proofs.Origins

/-!
# Prefixes only select where a path starts

The same node can be written down in many ways: every module binds prefixes of its own to the
modules that it imports. A walk asks of the prefix of a step only whether it denotes a module, and
looks up the plain name; where it starts is decided by the first prefix. So **two absolute paths
that differ in their prefixes only lead to the same node or both lead nowhere**, each read in a
module in which all its prefixes denote something, if they start at the same module
(`Session.followIn_alike`). What the faults say differs, since they quote the path and name the
module that it was read in.
-/

namespace SchemaLink

namespace Session

variable {x : Session}

/-- An absolute path starts where its first prefix says, wherever it is followed from. -/
theorem startOf_of_absolute {path : Path} {home start : ModuleId} (h : path.absolute = true)
    (hstart : x.registry.moduleFor x.schema home (path.leadingQualifier.getD "") = .ok start)
    (origin : Position) : x.startOf path home origin = .ok (.top start) := by
  simp [startOf, h, hstart]

/-- An absolute path that is written at a node is followed from the module of the node. -/
theorem followFrom_eq_followIn
    (hlt : ∀ id q, (x.schema.node id).parent = .node q → q.index < id.index) {path : String}
    (h : (Path.ofString path).absolute = true) (needsValue : Bool) (origin : NodeId) :
    x.followFrom needsValue path origin
      = x.followIn needsValue path (x.schema.homeModule origin) := by
  rw [followFrom, followFromBy, Schema.homeModule_carrier hlt, followIn]
  simp only [followBy, startOf, h, if_true]

/-- **Prefixes only select where a path starts.** Take two absolute paths with the same segments up
to prefixes, and for each a module in which all its prefixes denote something; let the first
prefixes denote the same module. Then both paths lead to the same node, or both lead nowhere, or
both searches never end, with or without a value being needed at the end; and the first leads from
any node of its module where it leads from the module. A parent comes before its children, as in
every schema that is read from documents. -/
theorem followIn_alike
    (hlt : ∀ id q, (x.schema.node id).parent = .node q → q.index < id.index)
    (p₁ p₂ : String) (m₁ m₂ : ModuleId) {start : ModuleId}
    (habs₁ : (Path.ofString p₁).absolute = true) (habs₂ : (Path.ofString p₂).absolute = true)
    (hbare : (Path.ofString p₁).segments.map Segment.bare
      = (Path.ofString p₂).segments.map Segment.bare)
    (hreads₁ : ∀ a ∈ (Path.ofString p₁).segments, x.Reads m₁ a)
    (hreads₂ : ∀ a ∈ (Path.ofString p₂).segments, x.Reads m₂ a)
    (hstart₁ : x.registry.moduleFor x.schema m₁ ((Path.ofString p₁).leadingQualifier.getD "")
      = .ok start)
    (hstart₂ : x.registry.moduleFor x.schema m₂ ((Path.ofString p₂).leadingQualifier.getD "")
      = .ok start)
    (needsValue : Bool) :
    Alike (x.followIn needsValue p₁ m₁) (x.followIn needsValue p₂ m₂) ∧
      ∀ origin, x.schema.homeModule origin = m₁ →
        x.followFrom needsValue p₁ origin = x.followIn needsValue p₁ m₁ := by
  constructor
  · refine followBy_alike (forall₂_sameStep_of_reads hreads₁ hreads₂ hbare) ?_ needsValue
    rw [startOf_of_absolute habs₁ hstart₁, startOf_of_absolute habs₂ hstart₂]
    exact .refl _
  · rintro origin rfl
    exact followFrom_eq_followIn hlt habs₁ needsValue origin

/-- One module augments a container of another, and a third knows both under prefixes of its own. -/
def shared : List Document :=
  [.module
    { name := "base", ownPrefix := "b", space := "urn:base"
      body := [.block .container "box" none []] },
   .module
    { name := "left", ownPrefix := "l", space := "urn:left", imports := [⟨"base", "x"⟩]
      body := [.augment "/x:box" none [.typed .leaf "size" none { name := "string" }]] },
   .module
    { name := "right", ownPrefix := "r", space := "urn:right"
      imports := [⟨"base", "y"⟩, ⟨"left", "z"⟩] }]

/-- The merged leaf is reached from both modules, and from the augment that brought it. -/
theorem followIn_alike_shared :
    ∃ s l, Schema.ofDocuments shared = .ok s ∧ s.resolve .strict = .ok l ∧
      l.session.followIn true "/x:box/l:size" ⟨1⟩ = .ok ⟨2⟩ ∧
      l.session.followIn true "/y:box/z:size" ⟨2⟩ = .ok ⟨2⟩ ∧
      l.session.followFrom true "/x:box/l:size" ⟨1⟩ = .ok ⟨2⟩ := by
  obtain ⟨l, hrun, hleft, hhome, ⟨hx, hown⟩, hy, hz⟩ :
      ∃ l, (Schema.ofBatch shared).resolve .strict = .ok l ∧
        l.session.followIn true "/x:box/l:size" ⟨1⟩ = .ok ⟨2⟩ ∧
        l.session.schema.homeModule ⟨1⟩ = ⟨1⟩ ∧
        (l.session.registry.moduleFor l.session.schema ⟨1⟩ "x" = .ok ⟨0⟩ ∧
          l.session.registry.moduleFor l.session.schema ⟨1⟩ "l" = .ok ⟨1⟩) ∧
        l.session.registry.moduleFor l.session.schema ⟨2⟩ "y" = .ok ⟨0⟩ ∧
        l.session.registry.moduleFor l.session.schema ⟨2⟩ "z" = .ok ⟨1⟩ :=
    exists_ok_of_any (by decide +kernel)
  have hdocs : Schema.ofDocuments shared = .ok (Schema.ofBatch shared) :=
    Schema.ofDocuments_of_offences_eq_nil rfl
  have hlt := (Schema.settled_of_resolve hdocs hrun).framed.parent_lt
  have hp₁ : Path.ofString "/x:box/l:size"
      = ⟨"/x:box/l:size", true, [.step ⟨some "x", "box"⟩, .step ⟨some "l", "size"⟩]⟩ := by
    decide +kernel
  have hp₂ : Path.ofString "/y:box/z:size"
      = ⟨"/y:box/z:size", true, [.step ⟨some "y", "box"⟩, .step ⟨some "z", "size"⟩]⟩ := by
    decide +kernel
  obtain ⟨halike, hfrom⟩ := followIn_alike hlt "/x:box/l:size" "/y:box/z:size" ⟨1⟩ ⟨2⟩
    (by rw [hp₁]) (by rw [hp₂]) (by rw [hp₁, hp₂]; rfl) (by simp [hp₁, Reads, hx, hown])
    (by simp [hp₂, Reads, hy, hz]) (by rw [hp₁]; exact hx) (by rw [hp₂]; exact hy) true
  refine ⟨_, l, hdocs, hrun, hleft, ?_, (hfrom ⟨1⟩ hhome).trans hleft⟩
  rw [hleft] at halike
  rcases (alike_iff _ _).1 halike with ⟨id, hok, hright⟩ | ⟨_, _, h, -⟩ | ⟨h, -⟩
  · obtain rfl : ⟨2⟩ = id := by simpa using hok
    exact hright
  · simp at h
  · simp at h

end Session

end SchemaLink
