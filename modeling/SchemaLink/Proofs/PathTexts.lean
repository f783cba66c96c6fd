import Mathlib.Data.List.DropRight
import SchemaLink.Path

/-!
# What is read off the text of a path

Reading a path trims the text, removes the predicates, divides the rest at its slashes, trims the
pieces and drops those that are empty. What remains are the *words* of the text
(`Path.words`), one for each segment.

**Trimming the whole changes no word** (`Path.words_bare_trim`): a blank at either end of the text
is a blank at the end of a piece, which is trimmed anyhow. So the segments of a path are those of
its text without predicates, and only whether it is absolute depends on the trimming in front.

**One pass removes all predicates.** A text has a predicate if and only if a closing bracket comes
after an opening one, that is if `['[', ']']` is a sublist of it. `Path.bare_induction` is induction
along the pass: at each place stands a character that opens nothing, or a bracket that nothing
closes, or a predicate.
-/

namespace SchemaLink

namespace Text

variable {sep c : Char} {cs p : List Char} {ps : List (List Char)}

/-! ### Trimming -/

theorem trim_cons_of_isBlank (h : isBlank c = true) : trim (c :: cs) = trim cs := by
  simp [trim, trimStart, h]

theorem trimEnd_append_singleton_of_isBlank (h : isBlank c = true) (cs : List Char) :
    trimEnd (cs ++ [c]) = trimEnd cs :=
  List.rdropWhile_concat_pos isBlank cs c h

theorem trim_append_singleton_of_isBlank (h : isBlank c = true) : trim (cs ++ [c]) = trim cs := by
  induction cs with
  | nil => simp [trim, trimStart, h]
  | cons d cs ih =>
    by_cases hd : isBlank d = true
    -- as long as there are only blanks, trimming is still at the front
    · rw [List.cons_append, trim_cons_of_isBlank hd, trim_cons_of_isBlank hd, ih]
    · simp only [trim, trimStart, List.cons_append, List.dropWhile_cons, if_neg hd]
      exact trimEnd_append_singleton_of_isBlank h (d :: cs)

theorem trim_sublist (cs : List Char) : (trim cs).Sublist cs :=
  (List.rdropWhile_prefix isBlank _).sublist.trans (List.dropWhile_sublist isBlank)

theorem isBlank_eq_false_of_trim_eq (h : trim (c :: cs) = c :: cs) : isBlank c = false := by
  by_contra hc
  rw [Bool.not_eq_false] at hc
  have hlength := (trim_sublist cs).length_le
  rw [← trim_cons_of_isBlank hc, h, List.length_cons] at hlength
  omega

theorem trimStart_trimEnd (h : trimStart cs = cs) : trimStart (trimEnd cs) = trimEnd cs := by
  cases hend : trimEnd cs with
  | nil => rfl
  | cons c ds =>
    -- the first character that is left is the first one that was there
    obtain ⟨rest, hrest⟩ : trimEnd cs <+: cs := List.rdropWhile_prefix isBlank cs
    rw [hend] at hrest
    subst hrest
    by_cases hc : isBlank c = true
    · have hlength := (List.dropWhile_sublist isBlank (l := ds ++ rest)).length_le
      rw [trimStart, List.cons_append, List.dropWhile_cons, if_pos hc] at h
      rw [h, List.length_cons] at hlength
      omega
    · simp [trimStart, hc]

theorem trim_trim (cs : List Char) : trim (trim cs) = trim cs := by
  have hstart : trimStart (trimStart cs) = trimStart cs := List.dropWhile_idempotent _ _
  rw [trim, trim, trimStart_trimEnd hstart]
  exact List.rdropWhile_idempotent _ _

/-! ### Pieces -/

theorem pieces_of_not_mem (h : sep ∉ p) : pieces sep p = [p] := by
  induction p with
  | nil => rfl
  | cons c p ih =>
    obtain ⟨hc, hp⟩ : c ≠ sep ∧ sep ∉ p := by simpa [eq_comm] using h
    rw [pieces, if_neg hc, ih hp, pushFirst]

/-- Cutting at one separator and on both sides of it is cutting everywhere. -/
theorem pieces_append_sep (sep : Char) (cs ds : List Char) :
    pieces sep (cs ++ sep :: ds) = pieces sep cs ++ pieces sep ds := by
  induction cs with
  | nil => simp [pieces]
  | cons c cs ih =>
    rw [List.cons_append, pieces, pieces]
    split
    · rw [ih, List.cons_append]
    · obtain ⟨q, qs, hq⟩ := List.exists_cons_of_ne_nil (pieces_ne_nil sep cs)
      rw [ih, hq, List.cons_append, pushFirst, pushFirst, List.cons_append]

/-- A character at the end goes to the last piece. -/
theorem exists_pieces_append_singleton (h : c ≠ sep) (cs : List Char) :
    ∃ front last, pieces sep cs = front ++ [last] ∧
      pieces sep (cs ++ [c]) = front ++ [last ++ [c]] := by
  induction cs with
  | nil => exact ⟨[], [], rfl, pieces_of_not_mem (by simpa using h.symm)⟩
  | cons d cs ih =>
    obtain ⟨front, last, hcs, hsnoc⟩ := ih
    rw [List.cons_append, pieces, pieces, hcs, hsnoc]
    split
    · exact ⟨[] :: front, last, rfl, rfl⟩
    · cases front with
      | nil => exact ⟨[], d :: last, rfl, rfl⟩
      | cons q front => exact ⟨(d :: q) :: front, last, rfl, rfl⟩

/-- **Gluing is undone by cutting.** -/
theorem pieces_glue (hne : ps ≠ []) (h : ∀ p ∈ ps, sep ∉ p) : pieces sep (glue sep ps) = ps := by
  induction ps with
  | nil => exact absurd rfl hne
  | cons p ps ih =>
    rw [List.forall_mem_cons] at h
    cases ps with
    | nil => exact pieces_of_not_mem h.1
    | cons q ps => rw [glue, pieces_append_sep, pieces_of_not_mem h.1, ih (by simp) h.2]; rfl

/-- Apart from separators, what is glued are the pieces. -/
theorem filter_glue (h : ∀ p ∈ ps, sep ∉ p) : (glue sep ps).filter (· ≠ sep) = ps.flatten := by
  have hfilter {p : List Char} (hp : sep ∉ p) : p.filter (· ≠ sep) = p := by
    refine List.filter_eq_self.2 fun c hc ↦ ?_
    simpa using fun heq : c = sep ↦ hp (heq ▸ hc)
  induction ps with
  | nil => rfl
  | cons p ps ih =>
    rw [List.forall_mem_cons] at h
    cases ps with
    | nil => simpa [glue] using hfilter h.1
    | cons q ps =>
      rw [glue, List.filter_append, hfilter h.1, List.filter_cons_of_neg (by simp), ih h.2]
      rfl

theorem glue_eq_intercalate (sep : Char) (ps : List (List Char)) :
    glue sep ps = [sep].intercalate ps := by
  match ps with
  | [] => rfl
  | [p] => simp [glue]
  | p :: q :: ps =>
    rw [glue, List.intercalate_cons_cons, glue_eq_intercalate sep (q :: ps), List.append_assoc,
      List.singleton_append]

end Text

namespace Path

open Text

variable {c : Char} {cs w : List Char} {ws : List (List Char)}

/-! ### Predicates -/

/-- A text without its predicates. -/
def bare (cs : List Char) : List Char :=
  dropPredicates false (cs.count ']') cs

/-- What does not open a predicate stays. -/
theorem bare_cons (h : c ≠ '[') (cs : List Char) : bare (c :: cs) = c :: bare cs := by
  by_cases hc : c = ']'
  · simp [bare, dropPredicates, hc]
  · simp [bare, dropPredicates, h, hc]

/-- Inside a predicate everything is dropped up to the closing bracket. -/
theorem dropPredicates_inside (hw : ']' ∉ w) (cs : List Char) :
    dropPredicates true ((w ++ ']' :: cs).count ']') (w ++ ']' :: cs) = bare cs := by
  induction w with
  | nil => simp [dropPredicates, bare]
  | cons c w ih =>
    obtain ⟨hc, hw⟩ : c ≠ ']' ∧ ']' ∉ w := by simpa [eq_comm] using hw
    have hopen : (c != ']') = true := by simpa using hc
    rw [← ih hw, List.cons_append, dropPredicates, if_pos rfl, if_neg hc, hopen,
      List.count_cons_of_ne hc]

/-- A predicate is removed. -/
theorem bare_predicate (hw : ']' ∉ w) (cs : List Char) :
    bare ('[' :: (w ++ ']' :: cs)) = bare cs := by
  rw [bare, dropPredicates_cons_open (by simp), dropPredicates_inside hw]

/-- Without a closing bracket nothing is removed. -/
theorem bare_of_not_mem (h : ']' ∉ cs) : bare cs = cs := by
  induction cs with
  | nil => rfl
  | cons c cs ih =>
    have hcs : ']' ∉ cs := fun hmem ↦ h (List.mem_cons_of_mem c hmem)
    by_cases hc : c = '['
    · subst hc
      rw [bare, dropPredicates_cons_unclosed hcs]
      exact congrArg _ (ih hcs)
    · rw [bare_cons hc, ih hcs]

/-- Induction along the removal of predicates. -/
@[elab_as_elim]
theorem bare_induction {motive : List Char → Prop} (nil : motive [])
    (plain : ∀ c cs, c ≠ '[' → motive cs → motive (c :: cs))
    (unclosed : ∀ cs, ']' ∉ cs → motive ('[' :: cs))
    (predicate : ∀ w cs, ']' ∉ w → motive cs → motive ('[' :: (w ++ ']' :: cs)))
    (cs : List Char) : motive cs := by
  -- by length, as a predicate is more than one character
  induction hn : cs.length using Nat.strongRecOn generalizing cs with
  | _ n ih =>
    match cs with
    | [] => exact nil
    | c :: cs =>
      by_cases hc : c = '['
      · subst hc
        by_cases hclosed : ']' ∈ cs
        · obtain ⟨w, rest, rfl, hw⟩ := List.eq_append_cons_of_mem hclosed
          refine predicate w rest hw (ih rest.length ?_ rest rfl)
          simp only [List.length_cons, List.length_append] at hn
          omega
        · exact unclosed cs hclosed
      · exact plain c cs hc (ih cs.length (by simp [← hn]) cs rfl)

/-- **No predicate is left.** -/
theorem not_sublist_bare (cs : List Char) : ¬ ['[', ']'].Sublist (bare cs) := by
  induction cs using bare_induction with
  | nil => simp [bare, dropPredicates]
  | plain c cs hc ih =>
    rw [bare_cons hc]
    exact fun h ↦ ih (h.of_cons_of_ne hc.symm)
  | unclosed cs hcs =>
    have hmem : ']' ∉ '[' :: cs := by simpa using hcs
    rw [bare_of_not_mem hmem]
    exact fun h ↦ hmem (h.subset (by simp))
  | predicate w cs hw ih => rwa [bare_predicate hw]

/-- **Where there is no predicate nothing is removed.** -/
theorem bare_of_not_sublist (h : ¬ ['[', ']'].Sublist cs) : bare cs = cs := by
  induction cs using bare_induction with
  | nil => rfl
  | plain c cs hc ih => rw [bare_cons hc, ih fun hcs ↦ h (hcs.cons c)]
  | unclosed cs hcs => exact bare_of_not_mem (by simpa using hcs)
  | predicate w cs hw ih => exact absurd (by simp) h

theorem bare_of_opening_not_mem (h : '[' ∉ cs) : bare cs = cs :=
  bare_of_not_sublist fun hsub ↦ h (hsub.subset (by simp))

theorem bare_append_singleton (hopen : c ≠ '[') (hclose : c ≠ ']') (cs : List Char) :
    bare (cs ++ [c]) = bare cs ++ [c] := by
  induction cs using bare_induction with
  | nil => exact bare_cons hopen []
  | plain d cs hd ih => rw [List.cons_append, bare_cons hd, bare_cons hd, ih, List.cons_append]
  | unclosed cs hcs =>
    have hfront : ']' ∉ '[' :: cs := by simpa using hcs
    have hall : ']' ∉ ('[' :: cs) ++ [c] := by simpa [hcs] using hclose.symm
    rw [bare_of_not_mem hfront, bare_of_not_mem hall]
  | predicate w cs hw ih =>
    rw [bare_predicate hw, ← ih, List.cons_append, List.append_assoc, List.cons_append,
      bare_predicate hw]

/-! ### Words -/

/-- The texts from which the segments are read. -/
def words (cs : List Char) : List (List Char) :=
  ((pieces '/' cs).map trim).filter (· ≠ [])

theorem segmentsOf_eq (cs : List Char) : segmentsOf cs = (words cs).map Segment.ofChars :=
  rfl

/-- What a segment is read from: it is there, without blanks around it, and within one piece. -/
structure IsWord (w : List Char) : Prop where
  ne_nil : w ≠ []
  trim_eq : trim w = w
  slash_not_mem : '/' ∉ w

theorem isWord_of_mem_words (h : w ∈ words cs) : IsWord w := by
  obtain ⟨hw, hne⟩ := List.mem_filter.1 h
  obtain ⟨p, hp, rfl⟩ := List.mem_map.1 hw
  exact
    { ne_nil := by simpa using hne
      trim_eq := trim_trim p
      slash_not_mem := fun hmem ↦ not_mem_of_mem_pieces hp ((trim_sublist p).subset hmem) }

/-- **Words that are glued are read again.** -/
theorem words_glue (h : ∀ w ∈ ws, IsWord w) : words (glue '/' ws) = ws := by
  rcases eq_or_ne ws [] with rfl | hne
  · rfl
  · have htrim : ws.map trim = ws :=
      (List.map_congr_left fun w hw ↦ (h w hw).trim_eq).trans ws.map_id'
    rw [words, pieces_glue hne fun w hw ↦ (h w hw).slash_not_mem, htrim]
    exact List.filter_eq_self.2 fun w hw ↦ by simpa using (h w hw).ne_nil

/-- A slash ends a word. -/
theorem words_append_slash (cs ds : List Char) :
    words (cs ++ '/' :: ds) = words cs ++ words ds := by
  rw [words, pieces_append_sep, List.map_append, List.filter_append, words, words]

theorem words_cons_slash (cs : List Char) : words ('/' :: cs) = words cs :=
  words_append_slash [] cs

theorem ne_of_isBlank {d : Char} (h : isBlank c = true) (hd : isBlank d = false) : c ≠ d := by
  rintro rfl
  simp [h] at hd

theorem words_cons_of_isBlank (h : isBlank c = true) (cs : List Char) :
    words (c :: cs) = words cs := by
  obtain ⟨p, ps, hp⟩ := List.exists_cons_of_ne_nil (pieces_ne_nil '/' cs)
  rw [words, words, pieces, if_neg (ne_of_isBlank h (by decide)), hp, pushFirst, List.map_cons,
    List.map_cons, trim_cons_of_isBlank h]

theorem words_append_singleton_of_isBlank (h : isBlank c = true) (cs : List Char) :
    words (cs ++ [c]) = words cs := by
  obtain ⟨front, last, hcs, hsnoc⟩ :=
    exists_pieces_append_singleton (ne_of_isBlank h (d := '/') (by decide)) cs
  simp only [words, hcs, hsnoc, List.map_append, List.map_cons, trim_append_singleton_of_isBlank h]

/-! ### Reading -/

theorem words_bare_trimStart (cs : List Char) : words (bare (trimStart cs)) = words (bare cs) := by
  induction cs with
  | nil => rfl
  | cons c cs ih =>
    by_cases hc : isBlank c = true
    · rw [bare_cons (ne_of_isBlank hc (by decide)), words_cons_of_isBlank hc, ← ih, trimStart,
        List.dropWhile_cons, if_pos hc, trimStart]
    · rw [trimStart, List.dropWhile_cons, if_neg hc]

/-- Trimming the end cuts off blanks only, inside and outside of predicates. -/
theorem exists_bare_eq_trimEnd (cs : List Char) :
    ∃ blanks, (∀ c ∈ blanks, isBlank c = true) ∧ bare cs = bare (trimEnd cs) ++ blanks := by
  induction cs using List.reverseRecOn with
  | nil => exact ⟨[], by simp, rfl⟩
  | append_singleton cs c ih =>
    by_cases hc : isBlank c = true
    · obtain ⟨blanks, hblanks, hbare⟩ := ih
      refine ⟨blanks ++ [c], ?_, ?_⟩
      · simpa [or_imp, forall_and, hc] using hblanks
      · rw [bare_append_singleton (ne_of_isBlank hc (by decide)) (ne_of_isBlank hc (by decide)),
          trimEnd_append_singleton_of_isBlank hc, hbare, List.append_assoc]
    · refine ⟨[], by simp, ?_⟩
      have hkept : trimEnd (cs ++ [c]) = cs ++ [c] := List.rdropWhile_concat_neg isBlank cs c hc
      rw [hkept, List.append_nil]

theorem words_append_of_isBlank {blanks : List Char} (h : ∀ c ∈ blanks, isBlank c = true)
    (cs : List Char) : words (cs ++ blanks) = words cs := by
  induction blanks generalizing cs with
  | nil => rw [List.append_nil]
  | cons c blanks ih =>
    rw [List.forall_mem_cons] at h
    rw [List.append_cons, ih h.2, words_append_singleton_of_isBlank h.1]

/-- **Trimming the whole changes no word.** -/
theorem words_bare_trim (cs : List Char) : words (bare (trim cs)) = words (bare cs) := by
  obtain ⟨blanks, hblanks, hbare⟩ := exists_bare_eq_trimEnd (trimStart cs)
  rw [← words_bare_trimStart cs, hbare, words_append_of_isBlank hblanks, trim]

theorem segments_ofChars (cs : List Char) : (ofChars cs).segments = segmentsOf (bare cs) := by
  rw [segmentsOf_eq, ← words_bare_trim, ← segmentsOf_eq]
  rfl

/-- A path is absolute if a slash comes first after the blanks in front, not counting predicates. -/
theorem absolute_ofChars_iff (cs : List Char) :
    (ofChars cs).absolute = true ↔ (bare (trimStart cs)).head? = some '/' := by
  obtain ⟨blanks, hblanks, hbare⟩ := exists_bare_eq_trimEnd (trimStart cs)
  have habsolute : (ofChars cs).absolute = decide ((bare (trim cs)).head? = some '/') := rfl
  rw [habsolute, decide_eq_true_eq, hbare, trim]
  rcases hrest : bare (trimEnd (trimStart cs)) with - | ⟨d, ds⟩
  · -- nothing but blanks comes first
    have hhead : blanks.head? ≠ some '/' := fun h ↦
      ne_of_isBlank (hblanks '/' (List.mem_of_mem_head? h)) (by decide) rfl
    simpa using hhead
  · simp

theorem segments_ofString (s : String) :
    (ofString s).segments = (ofChars s.toList).segments :=
  rfl

theorem absolute_ofString (s : String) :
    (ofString s).absolute = (ofChars s.toList).absolute :=
  rfl

end Path

end SchemaLink
