import Literate.Proofs.Shifting
import Literate.Proofs.Steady

namespace Literate

namespace Text

theorem unifyBreaks_append {t : Text} (h : t.getLast? ≠ some '\r') (u : Text) :
    (t ++ u).unifyBreaks = t.unifyBreaks ++ u.unifyBreaks := by
  fun_induction unifyBreaks t with
  | case1 rest ih =>
    have last : rest.getLast? ≠ some '\r' := fun hl =>
      h (by rw [List.getLast?_cons, List.getLast?_cons, hl]; rfl)
    show '\n' :: unifyBreaks (rest ++ u) = _
    rw [ih last, List.cons_append]
  | case2 c rest other ih =>
    have last : rest.getLast? ≠ some '\r' := fun hl => h (by rw [List.getLast?_cons, hl]; rfl)
    -- The break that a carriage return at the end could lose is in the other text.
    have other' : ∀ tail, c = '\r' → rest ++ u = '\n' :: tail → False := by
      intro tail hc same
      cases rest with
      | nil => simp [hc] at h
      | cons d rest => exact other rest hc (by rw [(List.cons.inj same).1])
    rw [List.cons_append, unifyBreaks.eq_2 _ _ other', ih last, List.cons_append]
  | case3 => rfl

theorem getLast?_unifyBreaks (t : Text) : t.unifyBreaks.getLast? = t.getLast? := by
  fun_induction unifyBreaks t with
  | case1 rest ih => rw [List.getLast?_cons_cons, List.getLast?_cons, List.getLast?_cons, ih]
  | case2 c rest other ih => rw [List.getLast?_cons, List.getLast?_cons, ih]
  | case3 => rfl

theorem count_unifyBreaks (t : Text) : t.unifyBreaks.count '\n' = t.count '\n' := by
  fun_induction unifyBreaks t with
  | case1 rest ih => simp [ih]
  | case2 c rest other ih => rw [List.count_cons, List.count_cons, ih]
  | case3 => rfl

/-- Whether a line starts behind a text, if one starts in front of it as the flag says. -/
def endsLine (lineStart : Bool) (t : Text) : Bool := t.getLast?.elim lineStart (· == '\n')

theorem getLast?_of_endsLine {lineStart : Bool} {t : Text} (nonempty : t ≠ [])
    (h : endsLine lineStart t = true) : t.getLast? = some '\n' := by
  rw [endsLine, List.getLast?_eq_some_getLast nonempty] at h
  rw [List.getLast?_eq_some_getLast nonempty, eq_of_beq h]

end Text

namespace Token

open Text Lexeme

theorem noSpace_sign {token : Token} (h : token.isSign = true) :
    ∀ c ∈ token.spell, isSpace c = false := by
  have none : token.spell.any isSpace = false := by
    cases token with
    | opening kind => cases kind <;> rfl
    | reference | text | breaks => simp [isSign] at h
    | _ => rfl
  intro c hc
  simpa using List.any_eq_false.1 none c hc

theorem noBreak_sign {token : Token} (h : token.isSign = true) : '\n' ∉ token.spell :=
  fun hb => absurd (noSpace_sign h _ hb) (by decide)

theorem noBreak_reference {indent name : Text} (blank : ∀ c ∈ indent, isBlank c = true)
    (inside : ∀ c ∈ name, inName c = true) : '\n' ∉ indent ++ '@' :: '<' :: name ++ ['>'] := by
  have noBlank : '\n' ∉ indent := fun hi => absurd (blank _ hi) (by decide)
  have noName : '\n' ∉ name := fun hi => absurd (inside _ hi) (by decide)
  simp [noBlank, noName]

end Token

namespace Lexeme

open Text

theorem isBlank_of_mem_lineEndBlanks {t : Text} {c : Char} (h : c ∈ lineEndBlanks t) :
    isBlank c = true := by
  unfold lineEndBlanks at h
  split at h
  · rename_i all
    have whole := List.takeWhile_append_dropWhile (p := isBlank) (l := t)
    rw [all, List.append_nil] at whole
    rw [← whole] at h
    exact List.mem_takeWhile_imp h
  · exact List.mem_takeWhile_imp h
  · simp at h

/-- Behind the blanks that end a line there is nothing, or the line break. -/
theorem drop_lineEndBlanks {t : Text} (h : lineEndBlanks t ≠ []) :
    t.drop (lineEndBlanks t).length = [] ∨ ∃ u, t.drop (lineEndBlanks t).length = '\n' :: u := by
  by_cases all : ∀ c ∈ t, isBlank c = true
  · have whole := lineEndBlanks_run_end all (Or.inl rfl)
    rw [List.append_nil] at whole
    rw [whole]
    exact Or.inl List.drop_length
  · obtain ⟨run, c, rest, rfl, hr, hb⟩ := exists_first_other all
    by_cases hn : c = '\n'
    · rw [hn, lineEndBlanks_run_end hr (Or.inr ⟨rest, rfl⟩), List.drop_left]
      exact Or.inr ⟨rest, rfl⟩
    · exact absurd (lineEndBlanks_run hr hb hn) h

/-- Blanks do not go on behind another character. -/
theorem lineEndBlanks_append_of_mixed {t : Text} (h : ¬∀ c ∈ t, isBlank c = true) (u : Text) :
    lineEndBlanks (t ++ u) = lineEndBlanks t := by
  obtain ⟨run, c, rest, rfl, hr, hb⟩ := exists_first_other h
  rw [List.append_assoc, List.cons_append]
  by_cases hn : c = '\n'
  · subst hn
    rw [lineEndBlanks_run_end hr (Or.inr ⟨_, rfl⟩), lineEndBlanks_run_end hr (Or.inr ⟨_, rfl⟩)]
  · rw [lineEndBlanks_run hr hb hn, lineEndBlanks_run hr hb hn]

theorem length_lineEndBlanks_le (t : Text) : (lineEndBlanks t).length ≤ t.length := by
  have length := congrArg List.length (lineEndBlanks_append t)
  rw [List.length_append] at length
  omega

/-- A reference does not go on behind a line break. -/
theorem reference?_append_eq_none {t : Text} (h : '\n' ∈ t) (hr : reference? t = none) (u : Text) :
    reference? (t ++ u) = none := by
  cases found : reference? (t ++ u) with
  | none => rfl
  | some x =>
    obtain ⟨indent, name, tail, blank, inside, whole, _⟩ := of_reference? found
    have split : t ++ u = (indent ++ '@' :: '<' :: name ++ ['>']) ++ tail := by simp [whole]
    rcases List.append_eq_append_iff.1 split with ⟨more, front, _⟩ | ⟨more, rfl, _⟩
    · have mem : '\n' ∈ indent ++ '@' :: '<' :: name ++ ['>'] := front ▸ List.mem_append_left _ h
      exact absurd mem (Token.noBreak_reference blank inside)
    · have refound := @reference?_eq indent name more blank inside
      rw [List.append_assoc, List.singleton_append, refound] at hr
      simp at hr

end Lexeme

namespace Token

open Text Lexeme

theorem getLast?_of_suffix {t rest : Text} {c : Char} (h : rest <:+ t) (hr : rest ≠ [])
    (last : t.getLast? = some c) : rest.getLast? = some c := by
  obtain ⟨before, rfl⟩ := h
  rwa [List.getLast?_append_of_ne_nil _ hr] at last

theorem stops_append {p : Char → Bool} {t : Text} (h : Stops p t) (nonempty : t ≠ []) (u : Text) :
    Stops p (t ++ u) := by
  obtain ⟨c, t, rfl⟩ := List.exists_cons_of_ne_nil nonempty
  exact stops_cons.2 (stops_cons.1 h)

/-- A reference is read the same if more text follows, unless blanks behind it go on there. -/
theorem reads_reference_append {indent name tail u : Text} (blank : ∀ c ∈ indent, isBlank c = true)
    (inside : ∀ c ∈ name, inName c = true) (same : lineEndBlanks (tail ++ u) = lineEndBlanks tail) :
    Reads (indent ++ '@' :: '<' :: name ++ '>' :: tail ++ u) (.reference indent name)
      (tail.drop (lineEndBlanks tail).length ++ u) := by
  have reads := @Reads.reference indent name (tail ++ u) blank inside
  rw [same, List.drop_append_of_le_length (length_lineEndBlanks_le tail)] at reads
  simpa using reads

/-- A token of a text that ends its line is read the same if more text follows. -/
theorem reads_append {t rest : Text} {token : Token} (h : Reads t token rest)
    (last : t.getLast? = some '\n') {u : Text} (hu : Stops (· == '\n') u) :
    Reads (t ++ u) token (rest ++ u) := by
  cases h with
  | sign sign =>
    rw [List.append_assoc]
    exact .sign sign
  | @reference indent name tail blank inside =>
    have mem : '\n' ∈ tail := by
      cases tail with
      | nil =>
        rw [List.getLast?_concat] at last
        exact absurd last (by decide)
      | cons c tail =>
        rw [List.getLast?_append_of_ne_nil _ (by simp), List.getLast?_cons_cons] at last
        exact List.mem_of_getLast? last
    have mixed : ¬∀ c ∈ tail, isBlank c = true := fun all => absurd (all _ mem) (by decide)
    exact reads_reference_append blank inside (lineEndBlanks_append_of_mixed mixed u)
  | @text run rest nonempty plain stop noReference =>
    have more : rest ≠ [] := by
      rintro rfl
      rw [List.append_nil] at last
      exact absurd (plain _ (List.mem_of_getLast? last)) (by decide)
    have noReference' := reference?_append_eq_none (List.mem_of_getLast? last) noReference u
    rw [List.append_assoc] at noReference' ⊢
    exact .text nonempty plain (stops_append stop more u) noReference'
  | @breaks n rest hn stop =>
    rw [List.append_assoc]
    refine .breaks hn ?_
    by_cases empty : rest = []
    · rwa [empty]
    · exact stops_append stop empty u

/-- Line breaks are taken by tokens of their own. -/
theorem isBreak_or_of_reads {t rest : Text} {token : Token} (h : Reads t token rest) :
    token.isBreak = true ∨ ∃ front, t = front ++ rest ∧ '\n' ∉ front := by
  cases h with
  | breaks => exact Or.inl rfl
  | sign sign => exact Or.inr ⟨token.spell, rfl, noBreak_sign sign⟩
  | @reference indent name tail blank inside =>
    have noEnd : '\n' ∉ lineEndBlanks tail :=
      fun hi => absurd (isBlank_of_mem_lineEndBlanks hi) (by decide)
    refine Or.inr ⟨indent ++ '@' :: '<' :: name ++ ['>'] ++ lineEndBlanks tail, ?_, ?_⟩
    · simp [lineEndBlanks_append]
    · rw [List.mem_append, not_or]
      exact ⟨noBreak_reference blank inside, noEnd⟩
  | @text run rest _ plain =>
    exact Or.inr ⟨run, rfl, fun hi => absurd (plain _ hi) (by decide)⟩

/-- If nothing follows the token that ends the line, it is a line break. -/
theorem endsLine_of_reads {t rest : Text} {token : Token} (h : Reads t token rest)
    (last : t.getLast? = some '\n') : endsLine token.isBreak rest = true := by
  by_cases empty : rest = []
  · rcases isBreak_or_of_reads h with isBreak | ⟨front, rfl, noBreak⟩
    · rw [empty, isBreak]
      rfl
    · rw [empty, List.append_nil] at last
      exact absurd (List.mem_of_getLast? last) noBreak
  · simp [endsLine, getLast?_of_suffix (suffix_of_reads h) empty last]

theorem first?_append_of_reads {t u : Text} {x : Lexeme} (h : first? t = some x)
    (reads : Reads (t ++ u) x.token (x.rest ++ u)) :
    first? (t ++ u) = some { x with rest := x.rest ++ u } := by
  obtain ⟨y, hy, token, rest⟩ := first?_of_reads reads
  have source : y.source ++ y.rest = x.source ++ x.rest ++ u := by
    rw [(first?_source hy).1, (first?_source h).1]
  rw [rest, List.append_assoc] at source
  rw [hy, ← token, ← rest, ← List.append_cancel_right source]

theorem first?_append {t : Text} {x : Lexeme} (h : first? t = some x)
    (last : t.getLast? = some '\n') {u : Text} (hu : Stops (· == '\n') u) :
    first? (t ++ u) = some { x with rest := x.rest ++ u } :=
  first?_append_of_reads h (reads_append (reads_of_first? h) last hu)

/-- The tokens of the second text stand behind those of the first, at the place it ends. -/
theorem scanFrom_append {loc : Location} {lineStart : Bool} {t u : Text} {ps : List Placed}
    (h : scanFrom loc lineStart t = .ok ps) (last : endsLine lineStart t = true)
    (hu : Stops (· == '\n') u) :
    scanFrom loc lineStart (t ++ u) = (scanFrom (loc.advance t) true u).map (ps ++ ·) := by
  -- The flag says that a line starts behind the first text, if all of it has been scanned.
  fun_induction scanFrom loc lineStart t generalizing ps with
  | case1 loc lineStart t empty =>
    obtain rfl : t = [] := by simpa using empty
    obtain rfl : lineStart = true := last
    obtain rfl := Except.ok.inj h
    show scanFrom loc true u = (scanFrom loc true u).map _
    cases scanFrom loc true u <;> rfl
  | case2 => simp at h
  | case3 => simp at h
  | case4 loc lineStart t nonempty x hx later hl ih =>
    obtain rfl := Except.ok.inj h
    have last' := getLast?_of_endsLine (by simpa using nonempty) last
    have read := ih hl (endsLine_of_reads (reads_of_first? hx) last')
    rw [scanFrom_of_first? (first?_append hx last' hu), read, ← Location.advance_append,
      (first?_source hx).1]
    cases scanFrom (loc.advance t) true u with
    | error e => rfl
    | ok ps => simp [Except.map]

end Token

namespace Read

open Grammar

theorem startsAfter_append (lineStart : Bool) (ts us : List Placed) :
    startsAfter lineStart (ts ++ us) = startsAfter (startsAfter lineStart ts) us := by
  induction ts generalizing lineStart with
  | nil => rfl
  | cons p ts ih => rw [List.cons_append, startsAfter_cons, startsAfter_cons, ih]

theorem startsAfter_lineBreak {ts rest : List Placed} (h : LineBreak ts rest) (lineStart : Bool) :
    startsAfter lineStart ts = startsAfter true rest := by
  cases h with
  | single => exact startsAfter_cons _ _ _
  | run =>
    rw [startsAfter_cons, startsAfter_cons]
    rfl

theorem lineBreak_append {ts rest : List Placed} (h : LineBreak ts rest) (us : List Placed) :
    LineBreak (ts ++ us) (rest ++ us) := by
  cases h with
  | single => exact .single
  | run hn => exact .run hn

/-- A chunk whose tokens end the line does not run into what follows, and leaves a line that
starts. -/
theorem named_append {ts rest : List Placed} {c : Chunk} (h : Named ts c rest) {lineStart : Bool}
    (last : startsAfter lineStart ts = true) (us : List Placed) :
    Named (ts ++ us) c (rest ++ us) ∧ startsAfter true rest = true := by
  cases h with
  | @mk kind t options as content list gap line body gap' foot rest loc l₁ l₂
      blank nonempty hlist hg hl hb starts hg' he hc =>
    have noBreak : startsAfter false gap' = false := by cases hg' <;> rfl
    simp only [startsAfter_cons, startsAfter_append, startsAfter_lineBreak hl] at last
    replace last : startsAfter (startsAfter false gap') foot = true := last
    rw [noBreak] at last
    cases he with
    | finish => simp at last
    | lineBreak he =>
      have line := lineBreak_append hl us
      simp only [List.append_assoc, List.cons_append] at line ⊢
      have foot := LineEnd.lineBreak (lineBreak_append he us)
      rw [startsAfter_lineBreak he] at last
      exact ⟨.mk blank nonempty hlist hg line hb starts hg' foot hc, last⟩

theorem chunks_append {lineStart : Bool} {ts us : List Placed} {cs : List Chunk}
    (h : Derives lineStart ts cs) (last : startsAfter lineStart ts = true)
    (solid : Solid (ts ++ us)) (finish : Location) :
    (chunks finish lineStart (ts ++ us)).outcome =
      (chunks finish true us).outcome >>= fun later => .ok (cs ++ later) := by
  induction h with
  | nil =>
    obtain rfl := last
    show (chunks finish true us).outcome = _
    cases (chunks finish true us).outcome <;> rfl
  | @loose lineStart p ts c cs hl _ ih =>
    have later := ih (by rwa [startsAfter_cons] at last) solid.tail
    rw [List.cons_append]
    cases hl with
    | literal literal =>
      rw [chunks_literal_outcome literal, later]
      cases (chunks finish true us).outcome <;> rfl
    | reference nonempty =>
      rw [chunks_reference_outcome nonempty]
      refine (congrArg (· >>= _) later).trans ?_
      cases (chunks finish true us).outcome <;> rfl
  | @chunk ts rest c cs named _ ih =>
    obtain ⟨named', last'⟩ := named_append named last us
    have later := ih last' (solid.named named')
    obtain ⟨tail, front, read⟩ := chunk_ok named' solid finish
    rw [front, chunks_opening_outcome read, later]
    cases (chunks finish true us).outcome <;> rfl

theorem startsAfter_place (lineStart : Bool) (loc : Location) (token : Token) :
    startsAfter lineStart (Lexeme.place lineStart loc token) = token.isBreak := by
  cases token with
  | reference indent name =>
    by_cases whole : (indent.isEmpty || lineStart) = true
    · simp only [Lexeme.place, if_pos whole, startsAfter_cons, startsAfter_nil]
    · simp only [Lexeme.place, if_neg whole, startsAfter_cons, startsAfter_nil]
      rfl
  | _ => rfl

theorem startsAfter_scanFrom {loc : Location} {lineStart : Bool} {t : Text} {ps : List Placed}
    (h : Token.scanFrom loc lineStart t = .ok ps) (last : t.endsLine lineStart = true) :
    startsAfter lineStart ps = true := by
  fun_induction Token.scanFrom loc lineStart t generalizing ps with
  | case1 loc lineStart t empty =>
    obtain rfl : t = [] := by simpa using empty
    obtain rfl := Except.ok.inj h
    exact last
  | case2 => simp at h
  | case3 => simp at h
  | case4 loc lineStart t nonempty x hx later hl ih =>
    obtain rfl := Except.ok.inj h
    have last' := Text.getLast?_of_endsLine (by simpa using nonempty) last
    rw [startsAfter_append, startsAfter_place]
    exact ih hl (Token.endsLine_of_reads (Token.reads_of_first? hx) last')

end Read

namespace Document

open Text
open Read (startsAfter_scanFrom chunks_append chunks_shift)

/-- Reading a document is scanning it and reading its chunks off the tokens. -/
theorem read_outcome_eq (path : Option Text) (source : Text) :
    (read path source).outcome =
      (Token.scanFrom (.start path) true source.unifyBreaks).mapError Fault.source >>= fun ts =>
        (Read.chunks ((Location.start path).advance source.unifyBreaks) true ts).outcome >>=
          fun cs => .ok { chunks := cs, path } := by
  unfold read Token.scan
  simp only [Traced.outcome_bind, Traced.outcome_report, Traced.outcome_pure]
  cases Token.scanFrom (.start path) true source.unifyBreaks <;> rfl

theorem start_advance_of_break {t : Text} (h : t.getLast? = some '\n') (path : Option Text) :
    (Location.start path).advance t = (Location.start path).shift (t.count '\n') :=
  Location.advance_of_break _ h

theorem read_append_outcome {path : Option Text} {first second : Text} {d : Document}
    (last : first.getLast? = some '\n') (stop : Stops (· == '\n') second.unifyBreaks)
    (h : (read path first).outcome = .ok d) :
    (read path (first ++ second)).outcome =
      mapBoth (Fault.shift (first.count '\n')) (fun later =>
        { later with chunks := d.chunks ++ later.chunks.map (Chunk.shift (first.count '\n')) })
        (read path second).outcome := by
  obtain ⟨ts, scanned, derives⟩ := exists_derives_of_read h
  have scanned' := scanFrom_of_scan scanned
  have last' : first.unifyBreaks.getLast? = some '\n' := (getLast?_unifyBreaks first).trans last
  have ends : endsLine true first.unifyBreaks = true := by simp [endsLine, last']
  have tokens := Token.scanFrom_append scanned' ends stop
  rw [start_advance_of_break last', count_unifyBreaks, Token.scanFrom_shift] at tokens
  rw [read_outcome_eq, read_outcome_eq, unifyBreaks_append (by simp [last]), tokens,
    Location.advance_append, start_advance_of_break last', count_unifyBreaks,
    Location.advance_shift]
  cases hs : Token.scanFrom (.start path) true second.unifyBreaks with
  | error e => rfl
  | ok us =>
    rw [hs] at tokens
    have solid := Read.solid_of_settled (Token.settled_of_scans (Token.scans_of_scanFrom tokens))
    have chunks := chunks_append derives (startsAfter_scanFrom scanned' ends) solid
      (((Location.start path).advance second.unifyBreaks).shift (first.count '\n'))
    rw [chunks_shift] at chunks
    show (Read.chunks _ true (ts ++ us.map (Placed.shift _))).outcome >>= _ =
      mapBoth _ _ ((Read.chunks _ true us).outcome >>= _)
    rw [chunks]
    cases (Read.chunks ((Location.start path).advance second.unifyBreaks) true us).outcome <;> rfl

/-- What stands behind a source that ends its line and can be read is read as if it stood alone, as
many lines further down as the first source has: its chunks, or what is wrong with it. -/
theorem read_append (path : Option Text) (first second : Text) (d : Document)
    (last : first.getLast? = some '\n')
    (apart : second.head? ≠ some '\n' ∧ ¬['\r', '\n'] <+: second)
    (h : (read path first).outcome = .ok d) :
    (∀ later, (read path second).outcome = .ok later →
      (read path (first ++ second)).outcome = .ok
        { later with chunks := d.chunks ++ later.chunks.map (Chunk.shift (first.count '\n')) }) ∧
    (∀ fault, (read path second).outcome = .error (.source fault) →
      (read path (first ++ second)).outcome = .error (.source
        { loc := { fault.loc with line := fault.loc.line + first.count '\n' }
          cause := fault.cause })) := by
  have stop : Stops (· == '\n') second.unifyBreaks := by
    intro c hc
    by_contra isBreak
    obtain rfl : c = '\n' := by simpa using isBreak
    rcases head?_unifyBreaks hc with same | ⟨rest, rfl⟩
    · exact apart.1 same
    · exact apart.2 ⟨rest, rfl⟩
  have whole := read_append_outcome last stop h
  constructor
  · intro later hl
    rw [whole, hl]
    rfl
  · intro fault hf
    rw [whole, hf]
    rfl

/-- Behind three lines: a chunk with a reference, and a closing that closes nothing. -/
theorem read_append_two_openings :
    (read none "one\r\n@code a\r\n@end\n".toList).outcome = .ok { chunks := [
      .wrapper (.text "one".toList) {}, .wrapper (.text ['\n']) { column := 4 },
      { kind := .code, name := ['a'], content := [], loc := { line := 2 } }] } ∧
    (read none "@code b\n @<a>\n@end\n".toList).outcome = .ok { chunks := [
      { kind := .code, name := ['b'], content := [.reference ['a'] [' '] { line := 2 }] }] } ∧
    (read none ("one\r\n@code a\r\n@end\n".toList ++ "@code b\n @<a>\n@end\n".toList)).outcome =
      .ok { chunks := [
        .wrapper (.text "one".toList) {}, .wrapper (.text ['\n']) { column := 4 },
        { kind := .code, name := ['a'], content := [], loc := { line := 2 } },
        { kind := .code, name := ['b'], content := [.reference ['a'] [' '] { line := 5 }]
          loc := { line := 4 } }] } ∧
    (read none "two\n x @end".toList).outcome =
      .error (.source ⟨{ line := 2, column := 4 }, .nothingOpen⟩) ∧
    (read none ("one\r\n@code a\r\n@end\n".toList ++ "two\n x @end".toList)).outcome =
      .error (.source ⟨{ line := 5, column := 4 }, .nothingOpen⟩) := by
  have first : (read none "one\r\n@code a\r\n@end\n".toList).outcome = .ok { chunks := [
      .wrapper (.text "one".toList) {}, .wrapper (.text ['\n']) { column := 4 },
      { kind := .code, name := ['a'], content := [], loc := { line := 2 } }] } := by cbv
  have good : (read none "@code b\n @<a>\n@end\n".toList).outcome = .ok { chunks := [
      { kind := .code, name := ['b'], content := [.reference ['a'] [' '] { line := 2 }] }] } := by
    cbv
  have bad : (read none "two\n x @end".toList).outcome =
      .error (.source ⟨{ line := 2, column := 4 }, .nothingOpen⟩) := by cbv
  exact ⟨first, good, (read_append none _ _ _ (by decide) (by decide) first).1 _ good, bad,
    (read_append none _ _ _ (by decide) (by decide) first).2 _ bad⟩

end Document

end Literate
