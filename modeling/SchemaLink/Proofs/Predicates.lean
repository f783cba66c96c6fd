import SchemaLink.Proofs.AlikeWalks
import SchemaLink.Proofs.Batches
import SchemaLink.Proofs.PathTexts
import SchemaLink.Session.Reference

/-!
# Predicates change nothing

A predicate selects list entries in data, which makes no difference in a schema. **Predicates may be
inserted into a text anywhere behind its first character that is no blank**: the path that is read
has the same segments and is absolute or not as before (`Path.ofString_predicated`), so it leads to
the same node from everywhere. Predicates may stand inside a name, side by side or around slashes,
dots, colons and opening brackets; only a closing bracket ends one.

In front of all other characters a predicate is different. It keeps the blanks behind it from being
trimmed before the text is asked for a leading slash, so that it may turn an absolute path into a
relative one.

Removing predicates gives back the text into which they were inserted, character by character
(`Path.Predicated.bare_eq`). That holds of the untrimmed text; that nothing changes when blanks are
trimmed first is known of every text.
-/

namespace SchemaLink

open Text

variable {started : Bool} {cs ds w : List Char}

namespace Path

/-- The second text is the first one with predicates inserted into it, each behind some character
that is no blank. With `started` set, such a character has come before. -/
inductive Predicated : Bool → List Char → List Char → Prop where
  | nil (started : Bool) : Predicated started [] []
  | char {started : Bool} {cs ds : List Char} (c : Char)
      (rest : Predicated (started || !isBlank c) cs ds) : Predicated started (c :: cs) (c :: ds)
  | predicate {cs ds w : List Char} (hw : ']' ∉ w) (rest : Predicated true cs ds) :
      Predicated true cs ('[' :: (w ++ ']' :: ds))

namespace Predicated

/-- Behind some characters, one of which is no blank, predicates may be inserted. -/
theorem append (h : Predicated (started || w.any (!isBlank ·)) cs ds) :
    Predicated started (w ++ cs) (w ++ ds) := by
  induction w generalizing started with
  | nil => simpa using h
  | cons c w ih => exact .char c (ih (by simpa [Bool.or_assoc] using h))

/-- **What is inserted is removed**, and nothing else, if there were no predicates before. -/
theorem bare_eq (h : Predicated started cs ds) (hcs : '[' ∉ cs) : bare ds = cs := by
  induction h with
  | nil => rfl
  | char c _ ih =>
    obtain ⟨hc, hcs⟩ : c ≠ '[' ∧ '[' ∉ _ := by simpa [eq_comm] using hcs
    rw [bare_cons hc, ih hcs]
  | predicate hw _ ih => rw [bare_predicate hw, ih hcs]

/-- The blanks in front are the same in both texts. -/
theorem bare_trimStart_eq (h : Predicated false cs ds) (hcs : '[' ∉ cs) :
    bare (trimStart ds) = trimStart cs := by
  generalize hfalse : false = started at h
  induction h with
  | nil => rfl
  | @char _ cs ds c hrest ih =>
    subst hfalse
    obtain ⟨hc, hrestcs⟩ : c ≠ '[' ∧ '[' ∉ cs := by simpa [eq_comm] using hcs
    by_cases hblank : isBlank c = true
    · simpa [trimStart, hblank] using ih hrestcs (by simp [hblank])
    · simp only [trimStart, List.dropWhile_cons, if_neg hblank]
      rw [bare_cons hc, hrest.bare_eq hrestcs]
  | predicate => simp at hfalse

theorem segments_eq (h : Predicated started cs ds) (hcs : '[' ∉ cs) :
    (ofChars ds).segments = (ofChars cs).segments := by
  rw [segments_ofChars, segments_ofChars, h.bare_eq hcs, bare_of_opening_not_mem hcs]

theorem absolute_eq (h : Predicated false cs ds) (hcs : '[' ∉ cs) :
    (ofChars ds).absolute = (ofChars cs).absolute := by
  have hstart : '[' ∉ trimStart cs := fun hmem ↦ hcs ((List.dropWhile_sublist _).subset hmem)
  rw [Bool.eq_iff_iff, absolute_ofChars_iff, absolute_ofChars_iff, h.bare_trimStart_eq hcs,
    bare_of_opening_not_mem hstart]

end Predicated

end Path

namespace Session

variable {x : Session} {s t : String}

/-! ### Paths that are read alike -/

section

variable (habsolute : (Path.ofString t).absolute = (Path.ofString s).absolute)
  (hsegments : (Path.ofString t).segments = (Path.ofString s).segments)
include habsolute hsegments

/-- Two texts that are read as the same segments lead to the same node. -/
theorem followBy_alike_of_segments_eq (target : TargetFinder) (needsValue : Bool) (home : ModuleId)
    (origin : Position) :
    Alike (x.followBy target needsValue (Path.ofString t) home origin)
      (x.followBy target needsValue (Path.ofString s) home origin) := by
  have hstart : x.startOf (Path.ofString t) home origin =
      x.startOf (Path.ofString s) home origin := by
    rw [startOf, startOf, Path.leadingQualifier, Path.leadingQualifier, habsolute, hsegments]
  refine followBy_alike ?_ ?_ needsValue
  · rw [hsegments]
    exact List.forall₂_same.2 fun a _ ↦ SameStep.refl home a
  · rw [hstart]
    exact Alike.refl _

theorem followFrom_alike_of_segments_eq (needsValue : Bool) (origin : NodeId) :
    Alike (x.followFrom needsValue t origin) (x.followFrom needsValue s origin) := by
  rw [followFrom_eq, followFrom_eq]
  exact followBy_alike_of_segments_eq habsolute hsegments _ needsValue _ _

/-- A chain of references that starts with one or the other comes to the same leaf. -/
theorem referent_alike_of_segments_eq (origin : NodeId) :
    Alike (x.referent t origin) (x.referent s origin) := by
  have hlink : Alike (x.followLink (x.schema.carrier origin) t)
      (x.followLink (x.schema.carrier origin) s) :=
    followFrom_alike_of_segments_eq habsolute hsegments true (x.schema.carrier origin)
  rw [referent, referent, referentBy, referentBy, chase, chase]
  rcases (alike_iff _ _).1 hlink with ⟨leaf, ht, hs⟩ | ⟨f, g, ht, hs⟩ | ⟨ht, hs⟩ <;>
    simp only [ht, hs]
  · split
    · exact .fault _ _
    · exact .refl _
  · exact .fault f g
  · exact .unending

end

/-- A list with a key and another leaf. -/
def keyed : List Document :=
  [.module
    { name := "m", ownPrefix := "m", space := "urn:m"
      body := [.block .list "entry" none [.typed .leaf "key" none { name := "string" },
        .typed .leaf "size" none { name := "int8" }]] }]

end Session

namespace Path

open Session

/-- **Predicates change nothing.** Take a text without opening brackets and insert predicates into
it, anywhere behind its first character that is no blank. Then the same segments are read, and the
path is absolute if it was before; and in every session, followed from the top level of a module,
from a node or along a chain of references, it leads to the same node, or nowhere in both cases. -/
theorem ofString_predicated {s t : String} (hs : '[' ∉ s.toList)
    (h : Predicated false s.toList t.toList) :
    (ofString t).absolute = (ofString s).absolute ∧
      (ofString t).segments = (ofString s).segments ∧
      ∀ x : Session,
        (∀ needsValue m, Alike (x.followIn needsValue t m) (x.followIn needsValue s m)) ∧
        (∀ needsValue origin,
          Alike (x.followFrom needsValue t origin) (x.followFrom needsValue s origin)) ∧
        ∀ origin, Alike (x.referent t origin) (x.referent s origin) := by
  have habsolute : (ofString t).absolute = (ofString s).absolute := by
    rw [absolute_ofString, absolute_ofString, h.absolute_eq hs]
  have hsegments : (ofString t).segments = (ofString s).segments := by
    rw [segments_ofString, segments_ofString, h.segments_eq hs]
  refine ⟨habsolute, hsegments, fun x ↦ ⟨fun needsValue m ↦ ?_, fun needsValue origin ↦ ?_,
    fun origin ↦ ?_⟩⟩
  · exact followBy_alike_of_segments_eq habsolute hsegments _ needsValue m _
  · exact followFrom_alike_of_segments_eq habsolute hsegments needsValue origin
  · exact referent_alike_of_segments_eq habsolute hsegments origin

/-- Two predicates side by side, the first with slashes, dots, a colon and a bracket in it, and one
inside a name. -/
theorem ofString_predicated_keyed :
    ∃ s x, Schema.ofDocuments keyed = .ok s ∧ start s .strict = .ok x ∧
      (ofString " /m:entry[m:key=current()/../[x][1]/m:si[2]ze").segments =
        [.step ⟨some "m", "entry"⟩, .step ⟨some "m", "size"⟩] ∧
      x.followIn true " /m:entry[m:key=current()/../[x][1]/m:si[2]ze" ⟨0⟩ = .ok ⟨3⟩ := by
  obtain ⟨x, hx, hplain⟩ : ∃ x, start (Schema.ofBatch keyed) .strict = .ok x ∧
      x.followIn true " /m:entry/m:size" ⟨0⟩ = .ok ⟨3⟩ :=
    exists_ok_of_any (by decide +kernel)
  have hinserted : Predicated false
      (" /m:entry".toList ++ ("/m:si".toList ++ ("ze".toList ++ [])))
      (" /m:entry".toList ++ '[' :: ("m:key=current()/../[x".toList ++ ']' :: '[' ::
        ("1".toList ++ ']' :: ("/m:si".toList ++ '[' :: ("2".toList ++ ']' ::
          ("ze".toList ++ [])))))) :=
    .append (.predicate (by decide) (.predicate (by decide) (.append (.predicate (by decide)
      (.append (.nil _))))))
  obtain ⟨-, hsegments, hleads⟩ :=
    ofString_predicated (s := " /m:entry/m:size")
      (t := " /m:entry[m:key=current()/../[x][1]/m:si[2]ze") (by decide) hinserted
  exact ⟨_, x, Schema.ofDocuments_of_offences_eq_nil rfl, hx, hsegments.trans (by decide +kernel),
    ((hleads x).1 true ⟨0⟩).eq_ok_iff.2 hplain⟩

/-- A predicate in front of everything keeps a blank in front of the slash. -/
example : (ofString " /m:entry").absolute = true ∧ (ofString "[1] /m:entry").absolute = false := by
  decide +kernel

end Path

end SchemaLink
