import Literate.Proofs.Sections

namespace Literate.Token

open Text
open Lexeme hiding token source rest

theorem tokens_eq_nil_of_scans {lineStart : Bool} {ts : List Token} (h : Scans lineStart [] ts) :
    ts = [] := by
  generalize none : ([] : Text) = t at h
  cases h with
  | nil => rfl
  | cons reads _ =>
    obtain ⟨x, hx, _, _⟩ := first?_of_reads reads
    obtain ⟨whole, nonempty⟩ := first?_source hx
    rw [← none] at whole
    exact absurd (List.append_eq_nil_iff.1 whole).1 nonempty

/-- A text that begins with a line break begins with a token of line breaks. -/
theorem startsBreak_of_scans {lineStart : Bool} {u : Text} {ts : List Token}
    (h : Scans lineStart ('\n' :: u) ts) : startsBreak ts = true := by
  generalize whole : '\n' :: u = t at h
  cases h with
  | nil => simp at whole
  | cons reads _ =>
    subst whole
    obtain ⟨x, hx, rfl, _⟩ := first?_of_reads reads
    obtain rfl := Option.some.inj ((first?_break u).symm.trans hx)
    rfl

/-- What may stand behind a token and is not told by it: nothing, or blanks behind a reference that
ends its line. -/
def Silent (token : Token) (blanks : Text) (later : List Token) : Prop :=
  blanks = [] ∨ (∃ indent name, token = .reference indent name) ∧
    (∀ c ∈ blanks, isBlank c = true) ∧ (later = [] ∨ startsBreak later = true)

/-- A text is its tokens in order, each with what it leaves out behind it. -/
theorem exists_parts_of_scans {lineStart : Bool} {t : Text} {ts : List Token}
    (h : Scans lineStart t ts) :
    ∃ parts : List (Token × Text), parts.map Prod.fst = ts ∧
      t = parts.flatMap (fun p => p.1.spell ++ p.2) ∧
      ∀ before token blanks after, parts = before ++ (token, blanks) :: after →
        Silent token blanks (after.map Prod.fst) := by
  induction ts generalizing lineStart t with
  | nil => exact ⟨[], rfl, eq_nil_of_scans_nil h rfl, by simp⟩
  | cons token later ih =>
    obtain ⟨blanks, rest, rfl, blank, only, ends, scans⟩ := uncons_of_scans h
    obtain ⟨parts, rfl, rfl, silent⟩ := ih scans
    refine ⟨(token, blanks) :: parts, rfl, rfl, ?_⟩
    intro before token' blanks' after split
    cases before with
    | cons part before => exact silent before token' blanks' after (List.cons.inj split).2
    | nil =>
      obtain ⟨same, rfl⟩ := List.cons.inj split
      obtain ⟨rfl, rfl⟩ := Prod.mk.inj same
      by_cases none : blanks = []
      · exact Or.inl none
      · refine Or.inr ⟨?_, blank, ?_⟩
        · exact Classical.byContradiction fun other =>
            none (only fun indent name same => other ⟨indent, name, same⟩)
        · rcases ends none with atEnd | ⟨tail, goesOn⟩
          · rw [atEnd] at scans
            exact Or.inl (tokens_eq_nil_of_scans scans)
          · rw [goesOn] at scans
            exact Or.inr (startsBreak_of_scans scans)

/-- Each of the tokens fits in its place. -/
theorem fits_of_settled {lineStart : Bool} {before after : List Token} {token : Token}
    (h : Settled lineStart (before ++ token :: after)) :
    Fits (before.getLast?.elim lineStart isBreak) token after := by
  induction before generalizing lineStart with
  | nil => exact h.1
  | cons first before ih =>
    have fits := ih h.2
    cases before with
    | nil => exact fits
    | cons second before => rwa [List.getLast?_cons_cons]

theorem exists_breaks_of_isBreak {token : Token} (h : token.isBreak = true) :
    ∃ n, token = .breaks n := by
  cases token with
  | breaks n => exact ⟨n, rfl⟩
  | _ => simp [isBreak] at h

/-- A text is made of the spellings of its tokens, with nothing between them but blanks behind a
reference that a line break or nothing follows. Only a reference that starts a line has an indent,
no text is empty, and neither texts nor line breaks are adjacent. The same tokens are found again in
their spellings alone. -/
theorem scan_lossless (path : Option Text) (t : Text) (ps : List Placed)
    (h : (scan path t).outcome = .ok ps) :
    (∃ parts : List (Token × Text), parts.map Prod.fst = ps.map (·.token) ∧
      t = parts.flatMap (fun p => p.1.spell ++ p.2) ∧
      ∀ before token blanks after, parts = before ++ (token, blanks) :: after →
        Silent token blanks (after.map Prod.fst)) ∧
    (∀ before token after, ps.map (·.token) = before ++ token :: after →
      (∀ indent name, token = .reference indent name → indent ≠ [] →
        before = [] ∨ ∃ front n, before = front ++ [.breaks n]) ∧
      (∀ u, token = .text u → u ≠ [] ∧ startsText after = false) ∧
      ∀ n, token = .breaks n → startsBreak after = false) ∧
    ∃ qs, (scan path (spelling (ps.map (·.token)))).outcome = .ok qs ∧
      qs.map (·.token) = ps.map (·.token) := by
  have scans := scans_of_scanFrom (Document.scanFrom_of_scan h)
  have settled := settled_of_scans scans
  refine ⟨exists_parts_of_scans scans, ?_, ?_⟩
  · intro before token after split
    rw [split] at settled
    have fits := fits_of_settled settled
    refine ⟨?_, ?_, ?_⟩
    · rintro indent name rfl indented
      have starts := fits.2.1 indented
      rcases List.eq_nil_or_concat before with none | ⟨front, last, rfl⟩
      · exact Or.inl none
      · rw [List.concat_eq_append, List.getLast?_concat] at starts
        obtain ⟨n, rfl⟩ := exists_breaks_of_isBreak starts
        exact Or.inr ⟨front, n, List.concat_eq_append⟩
    · rintro u rfl
      exact ⟨fits.1, fits.2.2.1⟩
    · rintro n rfl
      exact fits.2
  · obtain ⟨qs, scanned, same⟩ := scanFrom_of_scans (scans_spelling settled) (.start path)
    refine ⟨qs, ?_, same⟩
    rw [scan, scanned]
    rfl

/-- Blanks that are an indent, that are text in front of a reference and behind one, and that two
references at the ends of their lines leave out. -/
theorem scan_lossless_line_ends :
    let source : Text := "  @<a>\t\n\nx @<b> y@@\n@<c>  ".toList
    let ps : List Placed := [⟨.reference [' ', ' '] ['a'], {}⟩, ⟨.breaks 2, { column := 8 }⟩,
      ⟨.text ['x', ' '], { line := 3 }⟩, ⟨.reference [] ['b'], { line := 3, column := 3 }⟩,
      ⟨.text [' ', 'y'], { line := 3, column := 7 }⟩, ⟨.escapedAt, { line := 3, column := 9 }⟩,
      ⟨.breaks 1, { line := 3, column := 11 }⟩, ⟨.reference [] ['c'], { line := 4 }⟩]
    (scan none source).outcome = .ok ps ∧
    (∃ parts : List (Token × Text), parts.map Prod.fst = ps.map (·.token) ∧
      source = parts.flatMap (fun p => p.1.spell ++ p.2) ∧
      ∀ before token blanks after, parts = before ++ (token, blanks) :: after →
        Silent token blanks (after.map Prod.fst)) ∧
    spelling (ps.map (·.token)) = "  @<a>\n\nx @<b> y@@\n@<c>".toList ∧
    ∃ qs, (scan none (spelling (ps.map (·.token)))).outcome = .ok qs ∧
      qs.map (·.token) = ps.map (·.token) := by
  intro source ps
  have scanned : (scan none source).outcome = .ok ps := by
    unfold source ps
    cbv
  obtain ⟨parts, _, again⟩ := scan_lossless none source ps scanned
  exact ⟨scanned, parts, by cbv, again⟩

end Literate.Token
