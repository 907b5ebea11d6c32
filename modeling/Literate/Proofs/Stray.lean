import Literate.Proofs.Ending

namespace Literate

namespace Lexeme

/-- What stands behind an `@` that begins neither a sign nor a reference. -/
structure Astray (v : Text) : Prop where
  escape : ¬['@'] <+: v
  code : ¬['c', 'o', 'd', 'e'] <+: v
  doc : ¬['d', 'o', 'c'] <+: v
  closing : ¬['e', 'n', 'd'] <+: v
  reference : ∀ name rest, v = '<' :: name ++ '>' :: rest → '>' ∈ name ∨ ']' ∈ name ∨ '\n' ∈ name

theorem inName_iff {name : Text} :
    (∀ c ∈ name, inName c = true) ↔ '>' ∉ name ∧ ']' ∉ name ∧ '\n' ∉ name := by
  constructor
  · intro inside
    refine ⟨?_, ?_, ?_⟩ <;> exact fun hc => absurd (inside _ hc) (by decide)
  · rintro ⟨angle, bracket, noBreak⟩ c hc
    have other (d : Char) (hd : d ∉ name) : c ≠ d := fun same => hd (same ▸ hc)
    simp [inName, other _ angle, other _ bracket, other _ noBreak]

/-- If an `@` begins nothing, it does so as well where the text ends earlier. -/
theorem Astray.of_append {v w : Text} (h : Astray (v ++ w)) : Astray v where
  escape := fun begins => h.escape (begins.trans (List.prefix_append v w))
  code := fun begins => h.code (begins.trans (List.prefix_append v w))
  doc := fun begins => h.doc (begins.trans (List.prefix_append v w))
  closing := fun begins => h.closing (begins.trans (List.prefix_append v w))
  reference := by
    intro name rest whole
    apply h.reference name (rest ++ w)
    rw [whole, List.append_assoc, List.cons_append]
    rfl

theorem Astray.directive? {v : Text} (h : Astray v) : directive? ('@' :: v) = none := by
  unfold Lexeme.directive?
  split
  · rename_i rest same
    exact absurd ⟨rest, (List.cons.inj same).2.symm⟩ h.escape
  · rename_i rest same
    exact absurd ⟨rest, (List.cons.inj same).2.symm⟩ h.code
  · rename_i rest same
    exact absurd ⟨rest, (List.cons.inj same).2.symm⟩ h.doc
  · rename_i rest same
    exact absurd ⟨rest, (List.cons.inj same).2.symm⟩ h.closing
  · rfl

/-- Blanks in front of it do not make the `@` a reference. -/
theorem Astray.reference? {v blanks : Text} (h : Astray v)
    (blank : ∀ c ∈ blanks, Text.isBlank c = true) : reference? (blanks ++ '@' :: v) = none := by
  cases found : Lexeme.reference? (blanks ++ '@' :: v) with
  | none => rfl
  | some x =>
    obtain ⟨indent, name, tail, blank', inside, whole, _⟩ := of_reference? found
    have stop (w : Text) : Text.Stops Text.isBlank ('@' :: w) := Text.stops_cons.2 rfl
    have behind := congrArg (List.dropWhile Text.isBlank) whole
    rw [List.append_assoc, List.cons_append, Text.dropWhile_run blank (stop _),
      Text.dropWhile_run blank' (stop _)] at behind
    obtain ⟨angle, bracket, noBreak⟩ := inName_iff.1 inside
    rcases h.reference name tail (List.cons.inj behind).2 with hc | hc | hc
    · exact absurd hc angle
    · exact absurd hc bracket
    · exact absurd hc noBreak

theorem Astray.first? {v : Text} (h : Astray v) : first? ('@' :: v) = none := by
  have noBlanks : ∀ c ∈ ([] : Text), Text.isBlank c = true := by simp
  have noReference : Lexeme.reference? ('@' :: v) = none := h.reference? noBlanks
  rw [Lexeme.first?, h.directive?, noReference]
  rfl

/-- Where no token begins there is an `@` that begins none. -/
theorem exists_astray_of_first? {t : Text} (h : first? t = none) (nonempty : t ≠ []) :
    ∃ v, t = '@' :: v ∧ Astray v := by
  simp only [first?, Option.orElse_eq_orElse, Option.orElse_eq_or, Option.or_eq_none_iff] at h
  obtain ⟨noDirective, noReference, noMark, noBreaks, noPlain⟩ := h
  obtain ⟨c, v, rfl⟩ := List.exists_cons_of_ne_nil nonempty
  have special : isPlain c = false := by
    cases hp : isPlain c with
    | false => rfl
    | true => simp [plain?, hp] at noPlain
  obtain rfl : c = '@' := by
    simp only [isPlain, Bool.and_eq_false_iff, bne_eq_false_iff_eq] at special
    rcases special with ((((rfl | rfl) | rfl) | rfl) | rfl) | rfl
    · rfl
    · simp [mark?] at noMark
    · simp [mark?] at noMark
    · simp [mark?] at noMark
    · simp [mark?] at noMark
    · simp [breaks?] at noBreaks
  refine ⟨v, rfl, ?_, ?_, ?_, ?_, ?_⟩
  · rintro ⟨rest, rfl⟩
    simp [directive?] at noDirective
  · rintro ⟨rest, rfl⟩
    simp [directive?] at noDirective
  · rintro ⟨rest, rfl⟩
    simp [directive?] at noDirective
  · rintro ⟨rest, rfl⟩
    simp [directive?] at noDirective
  · rintro name rest rfl
    by_contra none
    simp only [not_or] at none
    have found := @reference?_eq [] name rest (by simp) (inName_iff.2 none)
    exact absurd (noReference.symm.trans found) (by simp)

theorem astray_iff {v : Text} : Astray v ↔ (first? ('@' :: v)).isNone = true := by
  rw [Option.isNone_iff_eq_none]
  constructor
  · exact fun astray => astray.first?
  · intro none
    obtain ⟨w, same, astray⟩ := exists_astray_of_first? none (by simp)
    rwa [(List.cons.inj same).2]

instance (v : Text) : Decidable (Astray v) := decidable_of_iff _ astray_iff.symm

/-- What is wrong with an `@` that begins nothing. -/
theorem stray_eq (v : Text) : stray ('@' :: v) =
    if v.head? = some '<' then .malformedReference (Text.firstLine ('@' :: v)) else .strayAt := by
  by_cases angle : v.head? = some '<'
  · obtain ⟨rest, rfl⟩ := List.head?_eq_some_iff.1 angle
    rfl
  · rw [if_neg angle]
    unfold stray
    split
    · rename_i rest same
      exact absurd (by rw [(List.cons.inj same).2]; rfl) angle
    · rfl

end Lexeme

namespace Token

open Text Lexeme

theorem scan_outcome (path : Option Text) (t : Text) :
    (scan path t).outcome = (scanFrom (.start path) true t).mapError Fault.source := by
  unfold scan
  cases scanFrom (.start path) true t <;> rfl

theorem stops_of_append {p : Char → Bool} {t u : Text} (h : Stops p (t ++ u)) : Stops p t := by
  cases t with
  | nil => exact stops_nil
  | cons c t => exact stops_cons.2 (stops_cons.1 h)

theorem stops_append_cons {p : Char → Bool} {t u : Text} {c : Char} (h : Stops p t)
    (hc : p c = false) : Stops p (t ++ c :: u) := by
  cases t with
  | nil => exact stops_cons.2 hc
  | cons d t => exact stops_cons.2 (stops_cons.1 h)

/-- A text that is cut off in front of an `@` can be scanned if it can be behind its first token. -/
theorem exists_scans_of_reads {t u v : Text} {token : Token} (h : Reads t token (u ++ '@' :: v))
    (behind : ∃ ts, Scans token.isBreak u ts) (lineStart : Bool) :
    ∃ front, t = front ++ '@' :: v ∧ ∃ ts, Scans lineStart front ts := by
  obtain ⟨ts, scans⟩ := behind
  generalize whole : u ++ '@' :: v = rest at h
  cases h with
  | sign sign =>
    subst whole
    exact ⟨token.spell ++ u, by rw [List.append_assoc], _, .cons (.sign sign) scans⟩
  | @reference indent name tail blank inside =>
    have split := lineEndBlanks_append tail
    rw [← whole, ← List.append_assoc] at split
    have reads := @Reads.reference indent name (lineEndBlanks tail ++ u) blank inside
    refine ⟨indent ++ '@' :: '<' :: name ++ '>' :: (lineEndBlanks tail ++ u), ?_, ?_⟩
    · simp only [List.append_assoc, List.cons_append] at split ⊢
      rw [split]
    · by_cases all : ∀ c ∈ lineEndBlanks tail ++ u, isBlank c = true
      · -- Where the text is cut off, the blanks behind the reference end the line.
        have taken := lineEndBlanks_run_end all (Or.inl rfl)
        rw [List.append_nil] at taken
        rw [taken, List.drop_length] at reads
        exact ⟨_, .cons reads .nil⟩
      · have same := lineEndBlanks_append_of_mixed all ('@' :: v)
        rw [split] at same
        rw [← same, List.drop_left] at reads
        exact ⟨_, .cons reads scans⟩
  | @text run _ nonempty plain stop noReference =>
    subst whole
    rw [← List.append_assoc] at noReference
    have reads := Reads.text nonempty plain (stops_of_append stop)
      (reference?_eq_none_of_append noReference)
    exact ⟨run ++ u, by rw [List.append_assoc], _, .cons reads scans⟩
  | @breaks n _ hn stop =>
    subst whole
    exact ⟨List.replicate n '\n' ++ u, by rw [List.append_assoc], _,
      .cons (.breaks hn (stops_of_append stop)) scans⟩

/-- Scanning stops at an `@` that begins nothing, and what stands in front of it can be scanned. -/
theorem exists_stray_of_error {loc : Location} {lineStart : Bool} {t : Text} {f : SyntaxFault}
    (h : scanFrom loc lineStart t = .error f) :
    ∃ u v, t = u ++ '@' :: v ∧ (∃ ts, Scans lineStart u ts) ∧ Astray v ∧
      f = ⟨loc.advance u, stray ('@' :: v)⟩ := by
  fun_induction scanFrom loc lineStart t with
  | case1 => simp at h
  | case2 loc lineStart t nonempty hx =>
    obtain ⟨v, rfl, astray⟩ := exists_astray_of_first? hx (by simpa using nonempty)
    exact ⟨[], v, rfl, ⟨[], .nil⟩, astray, (Except.error.inj h).symm⟩
  | case3 loc lineStart t nonempty x hx e he ih =>
    obtain rfl := Except.error.inj h
    obtain ⟨u, v, split, scans, astray, rfl⟩ := ih he
    have reads := reads_of_first? hx
    rw [split] at reads
    obtain ⟨front, whole, scans'⟩ := exists_scans_of_reads reads scans lineStart
    have source := (first?_source hx).1
    rw [split, ← List.append_assoc] at source
    obtain rfl : x.source ++ u = front := List.append_cancel_right (source.trans whole)
    refine ⟨x.source ++ u, v, whole, scans', astray, ?_⟩
    rw [Location.advance_append]
  | case4 => simp at h

/-- A text that can be scanned and begins as a reference begins with one. -/
theorem exists_reference_of_scans {lineStart : Bool} {t : Text} {ts : List Token}
    (h : Scans lineStart ('@' :: '<' :: t) ts) :
    ∃ name rest, t = name ++ '>' :: rest ∧ ∀ c ∈ name, inName c = true := by
  generalize whole : '@' :: '<' :: t = w at h
  cases h with
  | nil => simp at whole
  | cons reads _ =>
    cases reads with
    | sign sign =>
      obtain ⟨_, _, _, _, _, other⟩ := spell_of_isSign sign
      exact absurd whole.symm (other _ _)
    | @reference indent name tail blank inside =>
      cases indent with
      | nil =>
        refine ⟨name, tail, ?_, inside⟩
        exact (List.cons.inj (List.cons.inj whole).2).2
      | cons c indent =>
        obtain rfl : '@' = c := (List.cons.inj whole).1
        exact absurd (blank _ List.mem_cons_self) (by decide)
    | @text run rest nonempty plain =>
      obtain ⟨c, run, rfl⟩ := List.exists_cons_of_ne_nil nonempty
      obtain rfl : '@' = c := (List.cons.inj whole).1
      exact absurd (plain _ List.mem_cons_self) (by decide)
    | @breaks n rest hn =>
      obtain ⟨m, rfl⟩ : ∃ m, n = m + 1 := ⟨n - 1, by omega⟩
      rw [List.replicate_succ] at whole
      exact absurd (List.cons.inj whole).1 (by decide)

/-- Plain text is no part of a reference because an `@` that begins nothing follows later on. -/
theorem reference?_append_astray {run rest v : Text} {lineStart : Bool} {later : List Token}
    (plain : ∀ c ∈ run, isPlain c = true) (stop : Stops isPlain rest)
    (noReference : reference? (run ++ rest) = none) (scans : Scans lineStart rest later)
    (astray : Astray v) : reference? (run ++ (rest ++ '@' :: v)) = none := by
  by_cases blank : ∀ c ∈ run, isBlank c = true
  · cases rest with
    | nil => exact astray.reference? blank
    | cons c rest =>
      apply reference?_eq_none blank
      · exact stops_cons.2 (stops_cons.1 (stops_blank_of_stops_plain stop))
      · -- If a reference began here, it would have been found before.
        intro tail same
        cases rest with
        | nil => simp at same
        | cons d rest =>
          simp only [List.cons_append, List.cons.injEq] at same
          obtain ⟨rfl, rfl, _⟩ := same
          obtain ⟨name, behind, rfl, inside⟩ := exists_reference_of_scans scans
          have found := @reference?_eq run name behind blank inside
          rw [List.append_assoc, List.cons_append] at found
          exact absurd (noReference.symm.trans found) (by simp)
  · obtain ⟨front, c, tail, rfl, blanks, other⟩ := exists_first_other blank
    have hc := plain c (by simp)
    rw [List.append_assoc, List.cons_append]
    apply reference?_eq_none blanks (stops_cons.2 other)
    intro _ same
    obtain ⟨rfl, _⟩ := List.cons.inj same
    exact absurd hc (by decide)

/-- A token is read the same if an `@` that begins nothing follows later on, except that blanks at
the end of the text do not end a line any more. -/
theorem reads_append_astray {t rest v : Text} {token : Token} {later : List Token}
    (h : Reads t token rest) (scans : Scans token.isBreak rest later) (astray : Astray v) :
    ∃ blanks, (∀ c ∈ blanks, isBlank c = true) ∧ (blanks = [] ∨ rest = []) ∧
      Reads (t ++ '@' :: v) token (blanks ++ (rest ++ '@' :: v)) := by
  cases h with
  | sign sign =>
    refine ⟨[], by simp, Or.inl rfl, ?_⟩
    rw [List.append_assoc]
    exact .sign sign
  | @reference indent name tail blank inside =>
    by_cases all : ∀ c ∈ tail, isBlank c = true
    · have taken := lineEndBlanks_run_end all (Or.inl rfl)
      rw [List.append_nil] at taken
      have left : lineEndBlanks (tail ++ '@' :: v) = [] := lineEndBlanks_run all rfl (by decide)
      have reads := @Reads.reference indent name (tail ++ '@' :: v) blank inside
      rw [left, List.length_nil, List.drop_zero] at reads
      rw [taken, List.drop_length]
      refine ⟨tail, all, Or.inr rfl, ?_⟩
      simpa using reads
    · have same := lineEndBlanks_append_of_mixed all ('@' :: v)
      exact ⟨[], by simp, Or.inl rfl, reads_reference_append blank inside same⟩
  | @text run rest nonempty plain stop noReference =>
    have noReference' := reference?_append_astray plain stop noReference scans astray
    refine ⟨[], by simp, Or.inl rfl, ?_⟩
    rw [List.append_assoc]
    exact .text nonempty plain (stops_append_cons stop rfl) noReference'
  | @breaks n rest hn stop =>
    refine ⟨[], by simp, Or.inl rfl, ?_⟩
    rw [List.append_assoc]
    exact .breaks hn (stops_append_cons stop rfl)

theorem scanFrom_astray {v : Text} (h : Astray v) (loc : Location) (lineStart : Bool) :
    scanFrom loc lineStart ('@' :: v) = .error ⟨loc, stray ('@' :: v)⟩ := by
  rw [scanFrom]
  split
  · simp at *
  · split
    · rfl
    · rename_i x found
      rw [h.first?] at found
      simp at found

theorem scanFrom_blanks_astray {blanks v : Text} (blank : ∀ c ∈ blanks, isBlank c = true)
    (h : Astray v) (loc : Location) (lineStart : Bool) :
    scanFrom loc lineStart (blanks ++ '@' :: v) =
      .error ⟨loc.advance blanks, stray ('@' :: v)⟩ := by
  by_cases empty : blanks = []
  · rw [empty]
    exact scanFrom_astray h loc lineStart
  · have plain : ∀ c ∈ blanks, isPlain c = true := fun c hc => isPlain_of_isBlank (blank c hc)
    have reads : Reads (blanks ++ '@' :: v) (.text blanks) ('@' :: v) :=
      .text empty plain (stops_cons.2 rfl) (h.reference? blank)
    obtain ⟨source, split, scanned⟩ := scanFrom_of_reads reads loc lineStart
    rw [scanned, List.append_cancel_right split, scanFrom_astray h]
    rfl

/-- Behind a text that can be scanned, an `@` that begins nothing stops the scan. -/
theorem scanFrom_append_astray {lineStart : Bool} {u v : Text} {ts : List Token}
    (h : Scans lineStart u ts) (astray : Astray v) (loc : Location) :
    scanFrom loc lineStart (u ++ '@' :: v) = .error ⟨loc.advance u, stray ('@' :: v)⟩ := by
  induction h generalizing loc with
  | nil => exact scanFrom_astray astray loc _
  | @cons lineStart t rest token later reads scans ih =>
    obtain ⟨blanks, blank, either, reads'⟩ := reads_append_astray reads scans astray
    obtain ⟨source, split, scanned⟩ := scanFrom_of_reads reads' loc lineStart
    have whole : source ++ (blanks ++ rest) = t := by
      rw [← List.append_assoc, ← List.append_assoc, List.append_assoc source] at split
      exact List.append_cancel_right split
    have stopped (l : Location) : scanFrom l token.isBreak (blanks ++ (rest ++ '@' :: v)) =
        .error ⟨l.advance (blanks ++ rest), stray ('@' :: v)⟩ := by
      rcases either with rfl | rfl
      · exact ih l
      · rw [List.append_nil]
        exact scanFrom_blanks_astray blank astray l token.isBreak
    rw [scanned, stopped, ← Location.advance_append, whole]
    rfl

/-- An `@` of the text that begins nothing, behind a text that can be scanned. -/
structure Stray (path : Option Text) (t u v : Text) : Prop where
  split : t = u ++ '@' :: v
  front : ∃ ps, (scan path u).outcome = .ok ps
  astray : Astray v

theorem Stray.exists_scans {path : Option Text} {t u v : Text} (h : Stray path t u v) :
    ∃ ts, Scans true u ts := by
  obtain ⟨ps, scanned⟩ := h.front
  exact ⟨_, scans_of_scanFrom (Document.scanFrom_of_scan scanned)⟩

theorem Stray.outcome {path : Option Text} {t u v : Text} (h : Stray path t u v) :
    (scan path t).outcome =
      .error (.source ⟨(Location.start path).advance u, stray ('@' :: v)⟩) := by
  obtain ⟨ts, scans⟩ := h.exists_scans
  rw [scan_outcome, h.split, scanFrom_append_astray scans h.astray]
  rfl

theorem exists_stray_of_scan {path : Option Text} {t : Text} {f : Fault}
    (h : (scan path t).outcome = .error f) : ∃ u v, Stray path t u v := by
  rw [scan_outcome] at h
  cases stopped : scanFrom (.start path) true t with
  | ok ps =>
    rw [stopped] at h
    exact absurd h (by simp [Except.mapError])
  | error e =>
    obtain ⟨u, v, split, ⟨ts, scans⟩, astray, _⟩ := exists_stray_of_error stopped
    obtain ⟨ps, scanned, _⟩ := scanFrom_of_scans scans (.start path)
    refine ⟨u, v, split, ⟨ps, ?_⟩, astray⟩
    rw [scan_outcome, scanned]
    rfl

/-- Of two such places the first one would stop the scan of the text in front of the second. -/
theorem Stray.not_shorter {path : Option Text} {t u v w v' : Text} (h : Stray path t u v)
    (h' : Stray path t (u ++ '@' :: w) v') : False := by
  have behind : v = w ++ '@' :: v' := by
    have both := h.split.symm.trans h'.split
    rw [List.append_assoc] at both
    exact (List.cons.inj (List.append_cancel_left both)).2
  have astray := h.astray
  rw [behind] at astray
  have stopped := Stray.outcome ⟨rfl, h.front, astray.of_append⟩
  obtain ⟨ps, scanned⟩ := h'.front
  rw [scanned] at stopped
  simp at stopped

theorem Stray.unique {path : Option Text} {t u v u' v' : Text} (h : Stray path t u v)
    (h' : Stray path t u' v') : u = u' ∧ v = v' := by
  have both := h.split.symm.trans h'.split
  rcases List.append_eq_append_iff.1 both with ⟨more, front, behind⟩ | ⟨more, front, behind⟩
  · cases more with
    | nil =>
      rw [List.append_nil] at front
      exact ⟨front.symm, (List.cons.inj behind).2⟩
    | cons c more =>
      obtain rfl : '@' = c := (List.cons.inj behind).1
      subst front
      exact (h.not_shorter h').elim
  · cases more with
    | nil =>
      rw [List.append_nil] at front
      exact ⟨front, (List.cons.inj behind).2.symm⟩
    | cons c more =>
      obtain rfl : '@' = c := (List.cons.inj behind).1
      subst front
      exact (h'.not_shorter h).elim

/-- A text cannot be scanned exactly if some `@` behind a text that can be scanned begins nothing.
There is one such place at most, it is the place of the fault, and the fault is that of a reference
exactly if `<` follows. -/
theorem scan_error_iff_stray (path : Option Text) (t : Text) :
    ((∃ f, (scan path t).outcome = .error f) ↔ ∃ u v, Stray path t u v) ∧
    (∀ u v u' v', Stray path t u v → Stray path t u' v' → u = u' ∧ v = v') ∧
    ∀ u v, Stray path t u v →
      (scan path t).outcome = .error (.source ⟨(Location.start path).advance u,
        if v.head? = some '<' then .malformedReference (firstLine ('@' :: v)) else .strayAt⟩) := by
  refine ⟨⟨?_, ?_⟩, ?_, ?_⟩
  · rintro ⟨f, stopped⟩
    exact exists_stray_of_scan stopped
  · rintro ⟨u, v, stray⟩
    exact ⟨_, stray.outcome⟩
  · intro u v u' v' stray stray'
    exact stray.unique stray'
  · intro u v stray
    rw [stray.outcome, stray_eq]

/-- An escape, a reference with an `@` in its name and blanks behind it, and then a reference that
is not closed in front of a bracket. -/
theorem scan_error_iff_stray_bracket :
    Stray none "@@ @<a@>  @<b]>\n".toList "@@ @<a@>  ".toList "<b]>\n".toList ∧
    (∃ f, (scan none "@@ @<a@>  @<b]>\n".toList).outcome = .error f) ∧
    (scan none "@@ @<a@>  @<b]>\n".toList).outcome =
      .error (.source ⟨{ column := 11 }, .malformedReference "@<b]>".toList⟩) := by
  have stray : Stray none "@@ @<a@>  @<b]>\n".toList "@@ @<a@>  ".toList "<b]>\n".toList :=
    ⟨rfl, ⟨_, by cbv⟩, by decide⟩
  obtain ⟨stops, _, outcome⟩ := scan_error_iff_stray none "@@ @<a@>  @<b]>\n".toList
  exact ⟨stray, stops.2 ⟨_, _, stray⟩, outcome _ _ stray⟩

end Token

end Literate
