import Mathlib.Data.List.Flatten
import Mathlib.Data.List.TakeDrop
import SchemaLink.Proofs.PathTexts

/-!
# The rendering of a path is its canonical text

Reading forgets how a path was written: blanks, empty segments and predicates are gone, and a colon
is only remembered by the parts on its two sides. Rendering writes down what is left. **Reading a
rendering gives back just the segments that were rendered** (`Path.ofString_rendering`), so a path
and its rendering are the same to everything but reports.

A canonical text is made of words, with a slash in front if it is absolute. It reads as it was made
because nothing in it can be read differently: a word has no slash in it and no blank around it, a
segment is written as the word that it was read from, and brackets that were left over do not
become a predicate by what was left out between them.
-/

namespace SchemaLink

open Text

variable {ws : List (List Char)}

/-- **A qualified name is written as it was read**: the first colon divides it, and stands between
the parts. -/
theorem QName.toString_ofChars (cs : List Char) :
    (QName.ofChars cs).toString = String.ofList cs := by
  have hsplit := cs.takeWhile_append_dropWhile (p := (· != ':'))
  rw [ofChars, List.span_eq_takeWhile_dropWhile]
  rcases hrest : cs.dropWhile (· != ':') with - | ⟨c, name⟩
  · rfl
  · have hcolon : c = ':' := by
      have hhead := List.head?_dropWhile_not (· != ':') cs
      simpa [hrest] using hhead
    rw [hrest, hcolon] at hsplit
    show String.ofList _ ++ ":" ++ String.ofList name = String.ofList cs
    rw [← String.toList_inj]
    simpa using hsplit

/-- A segment is written as the word that it was read from. -/
theorem Segment.toString_ofChars (cs : List Char) :
    (Segment.ofChars cs).toString = String.ofList cs := by
  rw [ofChars]
  split
  · next h => rw [h]; rfl
  · split
    · next h => rw [h]; rfl
    · exact QName.toString_ofChars cs

namespace Path

/-! ### Canonical texts -/

/-- The canonical text of a path with the given words. -/
def canonical (absolute : Bool) (ws : List (List Char)) : List Char :=
  (if absolute then ['/'] else []) ++ glue '/' ws

theorem words_canonical (absolute : Bool) (h : ∀ w ∈ ws, IsWord w) :
    words (canonical absolute ws) = ws := by
  cases absolute with
  | true => exact (words_cons_slash _).trans (words_glue h)
  | false => exact words_glue h

/-- Brackets are where they are in the words. -/
theorem bare_canonical (absolute : Bool) (h : ∀ w ∈ ws, IsWord w)
    (hplain : ¬ ['[', ']'].Sublist ws.flatten) :
    bare (canonical absolute ws) = canonical absolute ws := by
  refine bare_of_not_sublist fun hsub ↦ hplain ?_
  have hfilter : (canonical absolute ws).filter (· ≠ '/') = ws.flatten := by
    rw [canonical, List.filter_append, filter_glue fun w hw ↦ (h w hw).slash_not_mem]
    cases absolute <;> rfl
  rw [← hfilter]
  exact hsub.filter (· ≠ '/')

/-- A canonical text starts with a slash or with the first word. -/
theorem trimStart_canonical (absolute : Bool) (h : ∀ w ∈ ws, IsWord w) :
    trimStart (canonical absolute ws) = canonical absolute ws ∧
      ((canonical absolute ws).head? = some '/' ↔ absolute = true) := by
  cases absolute with
  | true => exact ⟨rfl, by simp [canonical]⟩
  | false =>
    match ws with
    | [] => exact ⟨rfl, by simp [canonical, glue]⟩
    | w :: ws =>
      have hw := h w (by simp)
      obtain ⟨c, w, rfl⟩ := List.exists_cons_of_ne_nil hw.ne_nil
      have hblank := isBlank_eq_false_of_trim_eq hw.trim_eq
      have hslash : c ≠ '/' := fun hc ↦ hw.slash_not_mem (by simp [hc])
      obtain ⟨rest, hrest⟩ : ∃ rest, canonical false ((c :: w) :: ws) = c :: rest := by
        cases ws with
        | nil => exact ⟨w, rfl⟩
        | cons v ws => exact ⟨_, rfl⟩
      rw [hrest]
      exact ⟨by simp [trimStart, hblank], by simp [hslash]⟩

/-- **A canonical text is read as it was made.** -/
theorem ofChars_canonical (absolute : Bool) (h : ∀ w ∈ ws, IsWord w)
    (hplain : ¬ ['[', ']'].Sublist ws.flatten) :
    (ofChars (canonical absolute ws)).absolute = absolute ∧
      (ofChars (canonical absolute ws)).segments = ws.map Segment.ofChars := by
  have hbare := bare_canonical absolute h hplain
  obtain ⟨hstart, hhead⟩ := trimStart_canonical absolute h
  refine ⟨?_, ?_⟩
  · rw [Bool.eq_iff_iff, absolute_ofChars_iff, hstart, hbare, hhead]
  · rw [segments_ofChars, hbare, segmentsOf_eq, words_canonical absolute h]

/-! ### Renderings -/

theorem flatten_map_trim_sublist (ps : List (List Char)) :
    (ps.map trim).flatten.Sublist ps.flatten := by
  induction ps with
  | nil => simp
  | cons p ps ih => exact (trim_sublist p).append ih

/-- Words leave out some characters of a text and keep the others in their order. -/
theorem flatten_words_sublist (cs : List Char) : (words cs).flatten.Sublist cs := by
  have hpieces : (pieces '/' cs).flatten = cs.filter (· ≠ '/') := by
    rw [← filter_glue fun p ↦ not_mem_of_mem_pieces, glue_pieces]
  have hwords : (words cs).flatten.Sublist ((pieces '/' cs).map trim).flatten :=
    List.filter_sublist.flatten
  refine (hwords.trans (flatten_map_trim_sublist _)).trans ?_
  rw [hpieces]
  exact List.filter_sublist

/-- The rendering of a path is the canonical text of its first words. -/
theorem toList_rendering (raw : String) (n : Nat) :
    ((ofString raw).rendering n).toList =
      canonical (ofString raw).absolute ((words (bare raw.toList)).take n) := by
  have hwritten : (((ofString raw).segments.take n).map Segment.toString).map String.toList =
      (words (bare raw.toList)).take n := by
    rw [segments_ofString, segments_ofChars, segmentsOf_eq, ← List.map_take, List.map_map,
      List.map_map]
    refine (List.map_congr_left fun w _ ↦ ?_).trans (List.map_id _)
    simp [Segment.toString_ofChars]
  have hbody : (String.intercalate "/" (((ofString raw).segments.take n).map
      Segment.toString)).toList = glue '/' ((words (bare raw.toList)).take n) := by
    rw [String.toList_intercalate, hwritten, glue_eq_intercalate]
    rfl
  rw [rendering, canonical, ← hbody]
  cases (ofString raw).absolute <;> simp

/-- **Reading the rendering of a path gives the path back**: it is absolute if the path is, and has
the segments that were rendered. Any text may be read, and any number of segments may be rendered;
beyond the number that there are, it is all of them. -/
theorem ofString_rendering (raw : String) (n : Nat) :
    (ofString ((ofString raw).rendering n)).absolute = (ofString raw).absolute ∧
      (ofString ((ofString raw).rendering n)).segments = (ofString raw).segments.take n ∧
      ∀ more, (ofString ((ofString raw).rendering ((ofString raw).segments.length + more))).segments
        = (ofString raw).segments := by
  have hread (n : Nat) :
      (ofString ((ofString raw).rendering n)).absolute = (ofString raw).absolute ∧
        (ofString ((ofString raw).rendering n)).segments = (ofString raw).segments.take n := by
    have hwords : ∀ w ∈ (words (bare raw.toList)).take n, IsWord w := fun w hw ↦
      isWord_of_mem_words (List.mem_of_mem_take hw)
    have hplain : ¬ ['[', ']'].Sublist ((words (bare raw.toList)).take n).flatten := fun hsub ↦
      not_sublist_bare raw.toList ((hsub.trans (List.take_sublist n _).flatten).trans
        (flatten_words_sublist _))
    obtain ⟨habsolute, hsegments⟩ :=
      ofChars_canonical (ofString raw).absolute hwords hplain
    rw [absolute_ofString, segments_ofString, toList_rendering]
    refine ⟨habsolute, hsegments.trans ?_⟩
    rw [segments_ofString, segments_ofChars, segmentsOf_eq, List.map_take]
  refine ⟨(hread n).1, (hread n).2, fun more ↦ ?_⟩
  rw [(hread _).2]
  exact List.take_of_length_le (Nat.le_add_right _ more)

/-- Blanks, empty segments and predicates go; the brackets that are left are no predicate. -/
example : (ofString " /m: a//[b[c] ]d:e:f [ /.").rendering 4 = "/m: a/]d:e:f [/." := by
  decide +kernel

end Path

end SchemaLink
