/-!
# Cutting text at a separator

`pieces sep` cuts a text at every occurrence of `sep` and `glue sep` puts it together again. Cutting
never loses a character: `glue_pieces` says that gluing the pieces gives the text back. And it cuts
everywhere: `not_mem_of_mem_pieces` says that no separator is left inside a piece.
-/

namespace SchemaLink.Text

/-- Puts `c` in front of the first piece. -/
def pushFirst (c : Char) : List (List Char) → List (List Char)
  | [] => [[c]]
  | p :: ps => (c :: p) :: ps

/-- Cuts a text at every `sep`. There is always at least one piece, and pieces may be empty. -/
def pieces (sep : Char) : List Char → List (List Char)
  | [] => [[]]
  | c :: cs => if c = sep then [] :: pieces sep cs else pushFirst c (pieces sep cs)

/-- Joins pieces with `sep` between them. -/
def glue (sep : Char) : List (List Char) → List Char
  | [] => []
  | [p] => p
  | p :: q :: ps => p ++ sep :: glue sep (q :: ps)

theorem pieces_ne_nil (sep : Char) (cs : List Char) : pieces sep cs ≠ [] := by
  cases cs with
  | nil => simp [pieces]
  | cons c cs =>
    rw [pieces]
    split
    · simp
    · cases pieces sep cs <;> simp [pushFirst]

/-- Cutting leaves no separator behind. -/
theorem not_mem_of_mem_pieces {sep : Char} {cs p : List Char} (h : p ∈ pieces sep cs) :
    sep ∉ p := by
  induction cs generalizing p with
  | nil => simp_all [pieces]
  | cons c cs ih =>
    rw [pieces] at h
    split at h
    · rcases List.mem_cons.1 h with rfl | h
      · simp
      · exact ih h
    · next hc =>
      obtain ⟨q, qs, hq⟩ := List.exists_cons_of_ne_nil (pieces_ne_nil sep cs)
      rw [hq, pushFirst] at h
      rcases List.mem_cons.1 h with rfl | h
      · simpa [Ne.symm hc] using ih (hq ▸ List.mem_cons_self)
      · exact ih (hq ▸ List.mem_cons_of_mem q h)

theorem glue_pushFirst (sep c : Char) {ps : List (List Char)} (h : ps ≠ []) :
    glue sep (pushFirst c ps) = c :: glue sep ps := by
  match ps, h with
  | [p], _ => rfl
  | p :: q :: ps, _ => simp [pushFirst, glue]

/-- Cutting loses nothing. -/
theorem glue_pieces (sep : Char) (cs : List Char) : glue sep (pieces sep cs) = cs := by
  induction cs with
  | nil => rfl
  | cons c cs ih =>
    rw [pieces]
    split
    · next h =>
      obtain ⟨p, ps, hp⟩ := List.exists_cons_of_ne_nil (pieces_ne_nil sep cs)
      rw [hp] at ih ⊢
      simp [glue, h, ih]
    · rw [glue_pushFirst sep c (pieces_ne_nil sep cs), ih]

end SchemaLink.Text
