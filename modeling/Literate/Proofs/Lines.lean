import Literate.Proofs.Stray

namespace Literate

namespace Lexeme

theorem isPrefix_of_append_break {p v w : Text} (noBreak : '\n' ∉ p) (h : p <+: v ++ '\n' :: w) :
    p <+: v := by
  induction v generalizing p with
  | nil =>
    cases p with
    | nil => exact List.nil_prefix
    | cons c p =>
      have same : c = '\n' := (List.cons_prefix_cons.1 h).1
      exact absurd (same ▸ List.mem_cons_self) noBreak
  | cons d v ih =>
    cases p with
    | nil => exact List.nil_prefix
    | cons c p =>
      obtain ⟨same, behind⟩ := List.cons_prefix_cons.1 h
      have inner : '\n' ∉ p := fun hc => noBreak (List.mem_cons_of_mem _ hc)
      exact List.cons_prefix_cons.2 ⟨same, ih inner behind⟩

/-- An `@` that begins nothing in its line begins nothing with more lines behind it. -/
theorem Astray.append_break {v : Text} (h : Astray v) (w : Text) : Astray (v ++ '\n' :: w) where
  escape := fun begins => h.escape (isPrefix_of_append_break (by decide) begins)
  code := fun begins => h.code (isPrefix_of_append_break (by decide) begins)
  doc := fun begins => h.doc (isPrefix_of_append_break (by decide) begins)
  closing := fun begins => h.closing (isPrefix_of_append_break (by decide) begins)
  reference := by
    intro name rest whole
    by_cases noBreak : '\n' ∈ name
    · exact Or.inr (Or.inr noBreak)
    · -- The reference is closed in its line, so that the line alone has it.
      have closed : '<' :: name ++ ['>'] <+: v := by
        apply isPrefix_of_append_break (w := w)
        · simp [noBreak]
        · rw [whole]
          exact ⟨rest, by simp⟩
      obtain ⟨more, split⟩ := closed
      apply h.reference name more
      rw [← split]
      simp

end Lexeme

namespace Token

open Text Lexeme

theorem scan_ok_iff {path : Option Text} {t : Text} {ps : List Placed} :
    (scan path t).outcome = .ok ps ↔ scanFrom (.start path) true t = .ok ps := by
  rw [scan_outcome]
  cases scanFrom (.start path) true t <;> simp [Except.mapError]

theorem exists_error_append_break {loc : Location} {lineStart : Bool} {t : Text} {f : SyntaxFault}
    (h : scanFrom loc lineStart t = .error f) (u : Text) :
    ∃ f', scanFrom loc lineStart (t ++ '\n' :: u) = .error f' := by
  obtain ⟨front, v, rfl, ⟨ts, scans⟩, astray, _⟩ := exists_stray_of_error h
  have stopped := scanFrom_append_astray scans (astray.append_break u) loc
  rw [List.append_assoc, List.cons_append]
  exact ⟨_, stopped⟩

/-- A run of breaks is one token, and behind it a line starts. -/
theorem scanFrom_breaks_append {k : Nat} (hk : 0 < k) {b : Text} (stop : Stops (· == '\n') b)
    (loc : Location) (lineStart : Bool) :
    scanFrom loc lineStart (List.replicate k '\n' ++ b) =
      (scanFrom (loc.advance (List.replicate k '\n')) true b).map (⟨.breaks k, loc⟩ :: ·) := by
  obtain ⟨source, split, scanned⟩ := scanFrom_of_reads (.breaks hk stop) loc lineStart
  have taken : source = List.replicate k '\n' := List.append_cancel_right split
  rw [scanned, taken]
  rfl

/-- Behind the breaks the first line of the rest stands as many lines further down. -/
theorem start_advance_breaks {k : Nat} (hk : 0 < k) (a : Text) (path : Option Text) :
    ((Location.start path).advance a).advance (List.replicate k '\n') =
      (Location.start path).shift (k + a.count '\n') := by
  have last : (a ++ List.replicate k '\n').getLast? = some '\n' := by
    have more : List.replicate k '\n' ≠ [] := by simpa using hk.ne'
    rw [List.getLast?_append_of_ne_nil _ more, List.getLast?_replicate, if_neg hk.ne']
  rw [← Location.advance_append, Document.start_advance_of_break last, List.count_append,
    List.count_replicate_self, Nat.add_comm]

/-- Behind a text that can be scanned, the rest is scanned as if it stood alone, further up. -/
theorem scanFrom_append_breaks {path : Option Text} {a b : Text} {k : Nat} {ps : List Placed}
    (hk : 0 < k) (last : a.getLast? ≠ some '\n') (stop : Stops (· == '\n') b)
    (h : scanFrom (.start path) true a = .ok ps) :
    scanFrom (.start path) true (a ++ List.replicate k '\n' ++ b) =
      (mapBoth (SyntaxFault.shift (k + a.count '\n')) (List.map (Placed.shift (k + a.count '\n')))
        (scanFrom (.start path) true b)).map
          fun later => ps ++ ⟨.breaks k, (Location.start path).advance a⟩ :: later := by
  obtain ⟨n, rfl⟩ : ∃ n, k = n + 1 := ⟨k - 1, by omega⟩
  have front := scanFrom_append_break h last (List.replicate n '\n' ++ b)
  rw [← List.cons_append, ← List.replicate_succ, scanFrom_breaks_append hk stop,
    start_advance_breaks hk, scanFrom_shift] at front
  rw [List.append_assoc, front]
  cases scanFrom (.start path) true b <;> rfl

/-- Scanning is local to lines. A text that is cut at a run of breaks can be scanned if and only if
both parts can. Its tokens are then those of the first part, the run, and those of the second part,
each of them down by the lines in front of it and otherwise the same. -/
theorem scan_append_breaks (path : Option Text) {a b : Text} {k : Nat} (hk : 1 ≤ k)
    (ha : a.getLast? ≠ some '\n') (hb : b.head? ≠ some '\n') :
    ((∃ ps, (scan path (a ++ List.replicate k '\n' ++ b)).outcome = .ok ps) ↔
      (∃ as, (scan path a).outcome = .ok as) ∧ ∃ bs, (scan path b).outcome = .ok bs) ∧
    ∀ as bs, (scan path a).outcome = .ok as → (scan path b).outcome = .ok bs →
      (scan path (a ++ List.replicate k '\n' ++ b)).outcome =
        .ok (as ++ ⟨.breaks k, (Location.start path).advance a⟩ ::
          bs.map (Placed.shift (k + a.count '\n'))) := by
  have stop : Stops (· == '\n') b := by
    cases b with
    | nil => exact stops_nil
    | cons c b =>
      have other : c ≠ '\n' := fun same => hb (by rw [same]; rfl)
      exact stops_cons.2 (beq_false_of_ne other)
  have whole (as bs : List Placed) (sa : scanFrom (.start path) true a = .ok as)
      (sb : scanFrom (.start path) true b = .ok bs) :
      scanFrom (.start path) true (a ++ List.replicate k '\n' ++ b) =
        .ok (as ++ ⟨.breaks k, (Location.start path).advance a⟩ ::
          bs.map (Placed.shift (k + a.count '\n'))) := by
    rw [scanFrom_append_breaks hk ha stop sa, sb]
    rfl
  simp only [scan_ok_iff]
  refine ⟨⟨?_, ?_⟩, whole⟩
  · rintro ⟨ps, scanned⟩
    cases sa : scanFrom (.start path) true a with
    | error f =>
      obtain ⟨n, rfl⟩ : ∃ n, k = n + 1 := ⟨k - 1, by omega⟩
      obtain ⟨f', stopped⟩ := exists_error_append_break sa (List.replicate n '\n' ++ b)
      rw [← List.cons_append, ← List.replicate_succ, ← List.append_assoc, scanned] at stopped
      simp at stopped
    | ok as =>
      rw [scanFrom_append_breaks hk ha stop sa] at scanned
      cases sb : scanFrom (.start path) true b with
      | error f =>
        rw [sb] at scanned
        simp [mapBoth, Except.map] at scanned
      | ok bs => exact ⟨⟨as, rfl⟩, bs, rfl⟩
  · rintro ⟨⟨as, sa⟩, bs, sb⟩
    exact ⟨_, whole as bs sa sb⟩

/-- Blanks behind a reference end the line, and blanks in front of one start it, on either side of
two breaks. -/
theorem scan_append_breaks_blanks :
    (scan none "x\n @<a>  \n\n  @<b> y".toList).outcome =
      .ok [⟨.text ['x'], { line := 1, column := 1 }⟩, ⟨.breaks 1, { line := 1, column := 2 }⟩,
        ⟨.reference [' '] ['a'], { line := 2, column := 1 }⟩,
        ⟨.breaks 2, { line := 2, column := 8 }⟩,
        ⟨.reference [' ', ' '] ['b'], { line := 4, column := 1 }⟩,
        ⟨.text [' ', 'y'], { line := 4, column := 7 }⟩] := by
  have first : (scan none "x\n @<a>  ".toList).outcome =
      .ok [⟨.text ['x'], { line := 1, column := 1 }⟩, ⟨.breaks 1, { line := 1, column := 2 }⟩,
        ⟨.reference [' '] ['a'], { line := 2, column := 1 }⟩] := by cbv
  have second : (scan none "  @<b> y".toList).outcome =
      .ok [⟨.reference [' ', ' '] ['b'], { line := 1, column := 1 }⟩,
        ⟨.text [' ', 'y'], { line := 1, column := 7 }⟩] := by cbv
  have law := scan_append_breaks none (a := "x\n @<a>  ".toList) (b := "  @<b> y".toList)
    (k := 2) (by decide) (by decide) (by decide)
  exact law.2 _ _ first second

end Token

end Literate
