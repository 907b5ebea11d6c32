import Literate.Text

namespace Literate.Path

def isAbsolute (p : Text) : Bool := p.head? == some '/'

def join (a b : Text) : Text :=
  if isAbsolute b || a.isEmpty then b
  else if a.getLast? == some '/' then a ++ b
  else a ++ '/' :: b

/-- A piece between slashes that names no component. -/
def isSilent (piece : Text) : Bool := piece.isEmpty || piece == ['.']

def dropSilentEnd (pieces : List Text) : List Text := (pieces.reverse.dropWhile isSilent).reverse

def unsplit : List Text → Text
  | [] => []
  | [piece] => piece
  | piece :: rest => piece ++ '/' :: unsplit rest

/-- The path less its last component. The root and the empty path have none; a dot counts as a
component only at the very start. -/
def parent? : Text → Option Text
  | '/' :: body =>
    match dropSilentEnd (Text.splitOn '/' body) with
    | [] => none
    | pieces => some ('/' :: unsplit (dropSilentEnd pieces.dropLast))
  | p =>
    match Text.splitOn '/' p with
    | [] => none
    | first :: body =>
      match dropSilentEnd body with
      | [] => if first.isEmpty then none else some []
      | pieces => some (unsplit (first :: dropSilentEnd pieces.dropLast))

theorem splitOn_ne_nil (sep : Char) (t : Text) : Text.splitOn sep t ≠ [] := by
  cases t with
  | nil => simp [Text.splitOn]
  | cons c rest =>
    simp only [Text.splitOn]
    split
    · simp
    · split <;> simp

theorem unsplit_splitOn (t : Text) : unsplit (Text.splitOn '/' t) = t := by
  induction t with
  | nil => rfl
  | cons c rest ih =>
    simp only [Text.splitOn]
    split
    · exact absurd ‹_› (splitOn_ne_nil '/' rest)
    · rename_i piece pieces h
      rw [h] at ih
      split
      · simp_all [unsplit]
      · cases pieces <;> simp_all [unsplit]

theorem unsplit_append {a b : List Text} (ha : a ≠ []) (hb : b ≠ []) :
    unsplit (a ++ b) = unsplit a ++ '/' :: unsplit b := by
  induction a with
  | nil => exact absurd rfl ha
  | cons x a ih =>
    cases a with
    | nil => cases b with
      | nil => exact absurd rfl hb
      | cons y b => rfl
    | cons y a =>
      have := ih (by simp)
      simp only [List.cons_append] at this ⊢
      simp [unsplit, this]

theorem dropSilentEnd_prefix (pieces : List Text) : dropSilentEnd pieces <+: pieces := by
  have h := List.dropWhile_suffix isSilent (l := pieces.reverse)
  rw [← List.reverse_prefix] at h
  simpa [dropSilentEnd] using h

/-- What is left of the pieces without their last component is a proper part of them. -/
theorem exists_append_of_dropLast {pieces : List Text} (h : dropSilentEnd pieces ≠ []) :
    ∃ extra, extra ≠ [] ∧ pieces = dropSilentEnd (dropSilentEnd pieces).dropLast ++ extra := by
  obtain ⟨tail, ht⟩ := dropSilentEnd_prefix pieces
  obtain ⟨mid, hm⟩ := dropSilentEnd_prefix (dropSilentEnd pieces).dropLast
  refine ⟨mid ++ [(dropSilentEnd pieces).getLast h] ++ tail, by simp, ?_⟩
  rw [← List.append_assoc, ← List.append_assoc, hm, List.dropLast_concat_getLast, ht]

theorem length_pos_of_mem_not_silent {pieces : List Text} (h : dropSilentEnd pieces ≠ []) :
    0 < (unsplit pieces).length := by
  match pieces with
  | [] => simp [dropSilentEnd] at h
  | [piece] =>
    cases piece with
    | nil => simp [dropSilentEnd, isSilent] at h
    | cons c rest => simp [unsplit]
  | x :: y :: rest => simp only [unsplit, List.length_append, List.length_cons]; omega

/-- Going up always ends. -/
theorem length_lt_of_parent? {p q : Text} (h : parent? p = some q) : q.length < p.length := by
  unfold parent? at h
  split at h
  · rename_i body
    have whole := unsplit_splitOn body
    split at h
    · simp at h
    · rename_i hne
      simp only [Option.some.injEq] at h
      obtain ⟨extra, nonempty, parts⟩ := exists_append_of_dropLast hne
      subst h
      simp only [List.length_cons]
      by_cases empty : dropSilentEnd (dropSilentEnd (Text.splitOn '/' body)).dropLast = []
      · have := length_pos_of_mem_not_silent hne
        rw [whole] at this
        rw [empty]
        simp only [unsplit, List.length_nil]
        omega
      · rw [parts, unsplit_append empty nonempty] at whole
        rw [← whole]
        simp only [List.length_append, List.length_cons]
        rw [whole]
        omega
  · have whole := unsplit_splitOn p
    split at h
    · simp at h
    · rename_i first body hs
      rw [hs] at whole
      split at h
      · split at h
        · simp at h
        · rename_i hf
          simp only [Option.some.injEq] at h
          rw [← h, ← whole]
          have : 0 < first.length := List.length_pos_iff.2 (by simpa using hf)
          cases body with
          | nil => exact this
          | cons piece body => simp only [unsplit, List.length_append, List.length_nil]; omega
      · rename_i hne
        simp only [Option.some.injEq] at h
        obtain ⟨extra, nonempty, parts⟩ := exists_append_of_dropLast hne
        rw [parts, ← List.cons_append, unsplit_append (by simp) nonempty] at whole
        rw [← h, ← whole]
        simp only [List.length_append, List.length_cons]
        omega

end Literate.Path
