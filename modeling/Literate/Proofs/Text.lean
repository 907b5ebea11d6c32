import Mathlib.Data.List.Chain
import Mathlib.Data.List.DropRight
import Literate.Proofs.Scanning

namespace Literate.Text

theorem trimEnd_isPrefix (t : Text) : t.trimEnd <+: t := List.rdropWhile_prefix isSpace t

theorem mem_of_mem_trim {c : Char} {t : Text} (h : c ∈ t.trim) : c ∈ t := by
  have inStart : c ∈ t.trimStart := (trimEnd_isPrefix t.trimStart).subset h
  exact (List.dropWhile_suffix isSpace).subset inStart

theorem stops_trim (t : Text) : Stops isSpace t.trim := by
  intro c hc
  obtain ⟨tail, whole⟩ := trimEnd_isPrefix t.trimStart
  apply stops_dropWhile isSpace t
  show t.trimStart.head? = some c
  rw [← whole, List.head?_append]
  exact Option.or_eq_some_iff.2 (Or.inl hc)

/-- A trimmed text has no space at its end. -/
theorem isSpace_getLast_trim {c : Char} {t : Text} (h : t.trim.getLast? = some c) :
    isSpace c = false := by
  have nonempty : t.trimStart.rdropWhile isSpace ≠ [] := by
    intro none
    have empty : t.trim = [] := none
    simp [empty] at h
  have last := List.rdropWhile_last_not isSpace t.trimStart nonempty
  obtain rfl : _ = c := Option.some.inj ((List.getLast?_eq_some_getLast nonempty).symm.trans h)
  simpa using last

theorem trim_eq_nil_iff {t : Text} : t.trim = [] ↔ ∀ c ∈ t, isSpace c = true := by
  show t.trimStart.rdropWhile isSpace = [] ↔ _
  rw [List.rdropWhile_eq_nil_iff]
  constructor
  · intro all
    -- What begins with no space is empty if it is all spaces.
    have stop := stops_dropWhile isSpace t
    cases hd : t.dropWhile isSpace with
    | nil => exact List.dropWhile_eq_nil_iff.1 hd
    | cons c rest =>
      have space := all c (by rw [trimStart, hd]; exact List.mem_cons_self)
      rw [hd, stops_cons, space] at stop
      simp at stop
  · intro all c hc
    exact all c ((List.dropWhile_suffix isSpace).subset hc)

theorem trim_trim (t : Text) : t.trim.trim = t.trim := by
  have start : t.trim.trimStart = t.trim := dropWhile_of_stops (stops_trim t)
  show t.trim.trimStart.trimEnd = _
  rw [start]
  exact List.rdropWhile_idempotent isSpace t.trimStart

theorem trim_space_cons (t : Text) : trim (' ' :: t) = t.trim := rfl

/-- A space behind a trimmed text is trimmed off again. -/
theorem trim_append_space {t : Text} (h : t.trim = t) : trim (t ++ [' ']) = t := by
  cases t with
  | nil => rfl
  | cons c t =>
    have hc : isSpace c = false := stops_cons.1 (h ▸ stops_trim (c :: t))
    have start (u : Text) : trimStart (c :: u) = c :: u := dropWhile_of_stops (stops_cons.2 hc)
    calc trim (c :: (t ++ [' ']))
        = List.rdropWhile isSpace (c :: t ++ [' ']) := congrArg trimEnd (start _)
      _ = List.rdropWhile isSpace (c :: t) := List.rdropWhile_concat_pos isSpace _ _ rfl
      _ = trim (c :: t) := (congrArg trimEnd (start t)).symm
      _ = c :: t := h

/-- No line break has a carriage return in front of it. -/
def Clean (t : Text) : Prop := t.IsChain fun a b => ¬(a = '\r' ∧ b = '\n')

theorem unifyBreaks_of_clean {t : Text} (h : Clean t) : t.unifyBreaks = t := by
  fun_induction unifyBreaks t with
  | case1 rest => exact absurd ⟨rfl, rfl⟩ (List.isChain_cons_cons.1 h).1
  | case2 c rest _ ih => rw [ih (List.isChain_cons.1 h).2]
  | case3 => rfl

theorem head?_unifyBreaks {t : Text} (h : t.unifyBreaks.head? = some '\n') :
    t.head? = some '\n' ∨ ∃ rest, t = '\r' :: '\n' :: rest := by
  fun_cases unifyBreaks t with
  | case1 rest => exact Or.inr ⟨rest, rfl⟩
  | case2 c rest other =>
    left
    rw [unifyBreaks.eq_2 _ _ other] at h
    simpa using h
  | case3 => simp [unifyBreaks] at h

/-- Only two carriage returns in front of a line break leave one there. -/
theorem clean_unifyBreaks {t : Text} (h : ¬['\r', '\r', '\n'] <:+: t) : Clean t.unifyBreaks := by
  fun_induction unifyBreaks t with
  | case1 rest ih =>
    have later := ih fun found => h (found.trans ⟨['\r', '\n'], [], by simp⟩)
    exact List.isChain_cons.2 ⟨fun c _ => by simp, later⟩
  | case2 c rest other ih =>
    have later := ih fun found => h (found.trans ⟨[c], [], by simp⟩)
    refine List.isChain_cons.2 ⟨?_, later⟩
    rintro d hd ⟨rfl, rfl⟩
    rcases head?_unifyBreaks hd with first | ⟨tail, rfl⟩
    · obtain ⟨tail, rfl⟩ := List.head?_eq_some_iff.1 first
      exact other tail rfl rfl
    · exact h ⟨[], tail, rfl⟩
  | case3 => exact .nil

theorem clean_of_noBreak {t : Text} (h : '\n' ∉ t) : Clean t := by
  induction t with
  | nil => exact .nil
  | cons c t ih =>
    refine List.isChain_cons.2 ⟨?_, ih fun later => h (List.mem_cons_of_mem _ later)⟩
    rintro d hd ⟨_, rfl⟩
    exact h (List.mem_cons_of_mem _ (List.mem_of_mem_head? hd))

end Literate.Text
