import Literate.Proofs.Concatenation

namespace Literate

namespace Text

/-- The text with its last line ended. -/
def endLine (t : Text) : Text := if endsLine true t then t else t ++ ['\n']

theorem getLast?_endLine {t : Text} (h : t.endLine ≠ []) : t.endLine.getLast? = some '\n' := by
  unfold endLine at h ⊢
  split
  · rename_i ended
    rw [if_pos ended] at h
    exact getLast?_of_endsLine h ended
  · exact List.getLast?_concat

/-- A text cut in two, if its last character is known. -/
theorem append_eq_concat {front rest t : Text} {c : Char} (h : front ++ rest = t ++ [c]) :
    rest = [] ∧ front = t ++ [c] ∨ ∃ r, rest = r ++ [c] ∧ t = front ++ r := by
  rcases List.eq_nil_or_concat rest with rfl | ⟨r, d, rfl⟩
  · exact Or.inl ⟨rfl, by rwa [List.append_nil] at h⟩
  · rw [List.concat_eq_append, ← List.append_assoc] at h
    obtain ⟨rfl, last⟩ := List.append_inj' h rfl
    exact Or.inr ⟨r, by rw [List.concat_eq_append, last], rfl⟩

/-- A carriage return takes nothing away from what stands in front of it. -/
theorem unifyBreaks_append_return (t u : Text) :
    (t ++ '\r' :: u).unifyBreaks = t.unifyBreaks ++ unifyBreaks ('\r' :: u) := by
  fun_induction unifyBreaks t with
  | case1 rest ih =>
    show '\n' :: unifyBreaks (rest ++ '\r' :: u) = _
    rw [ih, List.cons_append]
  | case2 c rest other ih =>
    have other' : ∀ tail, c = '\r' → rest ++ '\r' :: u = '\n' :: tail → False := by
      intro tail hc same
      cases rest with
      | nil => simp at same
      | cons d rest => exact other rest hc (by rw [(List.cons.inj same).1])
    rw [List.cons_append, unifyBreaks.eq_2 _ _ other', ih, List.cons_append]
  | case3 => rfl

end Text

namespace Lexeme

open Text

/-- The end of the text is the end of a line. -/
theorem lineEndBlanks_append_break (t u : Text) :
    lineEndBlanks (t ++ '\n' :: u) = lineEndBlanks t := by
  by_cases all : ∀ c ∈ t, isBlank c = true
  · have whole : lineEndBlanks t = t := by
      have run := lineEndBlanks_run_end all (Or.inl rfl)
      rwa [List.append_nil] at run
    rw [lineEndBlanks_run_end all (Or.inr ⟨u, rfl⟩), whole]
  · exact lineEndBlanks_append_of_mixed all _

theorem reference?_eq_none_of_append {t u : Text} (h : reference? (t ++ u) = none) :
    reference? t = none := by
  cases found : reference? t with
  | none => rfl
  | some x =>
    obtain ⟨indent, name, tail, blank, inside, rfl, _⟩ := of_reference? found
    have refound := @reference?_eq indent name (tail ++ u) blank inside
    rw [List.append_assoc, List.cons_append, refound] at h
    simp at h

theorem reference?_append_break {t : Text} (h : reference? t = none) (u : Text) :
    reference? (t ++ '\n' :: u) = none := by
  cases found : reference? (t ++ '\n' :: u) with
  | none => rfl
  | some x =>
    obtain ⟨indent, name, tail, blank, inside, whole, _⟩ := of_reference? found
    have noBreak := Token.noBreak_reference blank inside
    have split : t ++ '\n' :: u = (indent ++ '@' :: '<' :: name ++ ['>']) ++ tail := by
      simp [whole]
    -- The reference ends in front of the break, so that it is one of the first text alone.
    have inFront : ∃ more, t = (indent ++ '@' :: '<' :: name ++ ['>']) ++ more := by
      rcases List.append_eq_append_iff.1 split with ⟨more, front, back⟩ | ⟨more, front, _⟩
      · cases more with
        | nil => exact ⟨[], by rw [front, List.append_nil, List.append_nil]⟩
        | cons c more =>
          obtain rfl : '\n' = c := (List.cons.inj back).1
          exact absurd (front ▸ by simp) noBreak
      · exact ⟨more, front⟩
    obtain ⟨more, rfl⟩ := inFront
    rw [List.append_assoc, List.singleton_append, reference?_eq blank inside] at h
    simp at h

end Lexeme

namespace Token

open Text Lexeme

/-- A token of a text whose last line is not ended is read the same if a break follows. -/
theorem reads_append_break {t rest : Text} {token : Token} (h : Reads t token rest)
    (last : t.getLast? ≠ some '\n') (u : Text) :
    Reads (t ++ '\n' :: u) token (rest ++ '\n' :: u) := by
  cases h with
  | sign sign =>
    rw [List.append_assoc]
    exact .sign sign
  | @reference indent name tail blank inside =>
    exact reads_reference_append blank inside (lineEndBlanks_append_break tail u)
  | @text run rest nonempty plain stop noReference =>
    have noReference' := reference?_append_break noReference u
    rw [List.append_assoc] at noReference' ⊢
    refine .text nonempty plain ?_ noReference'
    by_cases empty : rest = []
    · rw [empty]
      exact stops_cons.2 rfl
    · exact stops_append stop empty _
  | @breaks n rest hn stop =>
    rw [List.append_assoc]
    have more : rest ≠ [] := by
      rintro rfl
      rw [List.append_nil, List.getLast?_replicate, if_neg hn.ne'] at last
      exact last rfl
    exact .breaks hn (stops_append stop more _)

theorem first?_append_break {t : Text} {x : Lexeme} (h : first? t = some x)
    (last : t.getLast? ≠ some '\n') (u : Text) :
    first? (t ++ '\n' :: u) = some { x with rest := x.rest ++ '\n' :: u } :=
  first?_append_of_reads h (reads_append_break (reads_of_first? h) last u)

/-- A line break is the same token wherever it stands in its line. -/
theorem scanFrom_break (loc : Location) (lineStart lineStart' : Bool) (u : Text) :
    scanFrom loc lineStart ('\n' :: u) = scanFrom loc lineStart' ('\n' :: u) := by
  rw [scanFrom_of_first? (first?_break u), scanFrom_of_first? (first?_break u)]
  rfl

/-- The tokens of the first line stand in front of those of the rest. -/
theorem scanFrom_append_break {loc : Location} {lineStart : Bool} {t : Text} {ps : List Placed}
    (h : scanFrom loc lineStart t = .ok ps) (last : t.getLast? ≠ some '\n') (u : Text) :
    scanFrom loc lineStart (t ++ '\n' :: u) =
      (scanFrom (loc.advance t) true ('\n' :: u)).map (ps ++ ·) := by
  fun_induction scanFrom loc lineStart t generalizing ps with
  | case1 loc lineStart t empty =>
    obtain rfl : t = [] := by simpa using empty
    obtain rfl := Except.ok.inj h
    rw [List.nil_append, scanFrom_break loc lineStart true]
    show _ = (scanFrom loc true ('\n' :: u)).map _
    cases scanFrom loc true ('\n' :: u) <;> rfl
  | case2 => simp at h
  | case3 => simp at h
  | case4 loc lineStart t nonempty x hx later hl ih =>
    obtain rfl := Except.ok.inj h
    have split := (first?_source hx).1
    have last' : x.rest.getLast? ≠ some '\n' := by
      intro hr
      have more : x.rest ≠ [] := fun none => by simp [none] at hr
      rw [← split, List.getLast?_append_of_ne_nil _ more] at last
      exact last hr
    rw [scanFrom_of_first? (first?_append_break hx last u), ih hl last', ← Location.advance_append,
      split]
    cases scanFrom (loc.advance t) true ('\n' :: u) with
    | error e => rfl
    | ok ps => simp [Except.map]

/-- The tokens of a text, and those of the text with its last line ended. A carriage return at the
end becomes part of the line break: the text in front of it loses it, blanks behind a reference are
gone with it, and breaks in front of it run on. -/
inductive Ended : List Placed → List Placed → Prop where
  | same : Ended [] []
  | more {loc : Location} : Ended [] [⟨.breaks 1, loc⟩]
  | text {t : Text} {l₁ l₂ l₃ : Location} :
      Ended [⟨.text (t ++ ['\r']), l₁⟩] [⟨.text t, l₂⟩, ⟨.breaks 1, l₃⟩]
  | blanks {t : Text} {l₁ l₂ : Location} : Ended [⟨.text (t ++ ['\r']), l₁⟩] [⟨.breaks 1, l₂⟩]
  | run {n : Nat} {l₁ l₂ l₃ : Location} :
      Ended [⟨.breaks n, l₁⟩, ⟨.text ['\r'], l₂⟩] [⟨.breaks (n + 1), l₃⟩]
  | cons {p : Placed} {ts us : List Placed} : Ended ts us → Ended (p :: ts) (p :: us)

theorem Ended.append {ts us : List Placed} (h : Ended ts us) (front : List Placed) :
    Ended (front ++ ts) (front ++ us) := by
  induction front with
  | nil => exact h
  | cons p front ih => exact .cons ih

theorem Ended.refl (ts : List Placed) : Ended ts ts := by
  have kept := Ended.same.append ts
  rwa [List.append_nil] at kept

/-- A token in front of a carriage return that ends the text, if a line break stands in place of
the return. -/
theorem reads_return {t rest : Text} {token : Token} (h : Reads (t ++ ['\r']) token rest) :
    (rest = [] ∧ token = .text (t ++ ['\r']) ∧ ∀ c ∈ t, isPlain c = true) ∨
    (∃ n, 0 < n ∧ token = .breaks n ∧ t = List.replicate n '\n' ∧ rest = ['\r']) ∨
    (∃ blanks, (∀ c ∈ blanks, isBlank c = true) ∧ rest = blanks ++ ['\r'] ∧
      Reads (t ++ ['\n']) token ['\n']) ∨
    ∃ r, rest = r ++ ['\r'] ∧ Reads (t ++ ['\n']) token (r ++ ['\n']) := by
  generalize whole : t ++ ['\r'] = w at h
  cases h with
  | @sign token rest sign =>
    rcases append_eq_concat whole.symm with ⟨_, front⟩ | ⟨r, rfl, rfl⟩
    · have mem : '\r' ∈ token.spell := front ▸ by simp
      exact absurd (noSpace_sign sign _ mem) (by decide)
    · rw [List.append_assoc]
      exact Or.inr (Or.inr (Or.inr ⟨r, rfl, .sign sign⟩))
  | @reference indent name tail blank inside =>
    have split : (indent ++ '@' :: '<' :: name ++ ['>']) ++ tail = t ++ ['\r'] := by
      simp [whole]
    rcases append_eq_concat split with ⟨_, front⟩ | ⟨r, rfl, rfl⟩
    · have last := congrArg List.getLast? front
      rw [List.getLast?_concat, List.getLast?_concat] at last
      exact absurd last (by decide)
    · rw [List.append_assoc _ _ r, List.singleton_append]
      by_cases all : ∀ c ∈ r, isBlank c = true
      · -- In front of the return these blanks are text, in front of a break they end the line.
        have gone := @Reads.reference indent name (r ++ ['\n']) blank inside
        rw [lineEndBlanks_run_end all (Or.inr ⟨[], rfl⟩), List.drop_left, ← List.cons_append,
          ← List.append_assoc] at gone
        rw [lineEndBlanks_run all rfl (by decide)]
        exact Or.inr (Or.inr (Or.inl ⟨r, all, rfl, gone⟩))
      · have kept (c : Char) := lineEndBlanks_append_of_mixed all [c]
        rw [kept, List.drop_append_of_le_length (length_lineEndBlanks_le r)]
        exact Or.inr (Or.inr (Or.inr ⟨_, rfl, reads_reference_append blank inside (kept '\n')⟩))
  | @text run rest nonempty plain stop noReference =>
    rcases append_eq_concat whole.symm with ⟨rfl, rfl⟩ | ⟨r, rfl, rfl⟩
    · rw [List.append_nil]
      exact Or.inl ⟨rfl, rfl, fun c hc => plain c (List.mem_append_left _ hc)⟩
    · have more : r ≠ [] := by
        rintro rfl
        exact absurd (stops_cons.1 stop) (by decide)
      have stop' : Stops isPlain r := by
        obtain ⟨c, r, rfl⟩ := List.exists_cons_of_ne_nil more
        exact stops_cons.2 (stops_cons.1 stop)
      have noReference' : reference? (run ++ r) = none := by
        rw [← List.append_assoc] at noReference
        exact reference?_eq_none_of_append noReference
      have reads := Reads.text nonempty plain (stops_append stop' more ['\n'])
        (List.append_assoc run r _ ▸ reference?_append_break noReference' [])
      rw [← List.append_assoc] at reads
      exact Or.inr (Or.inr (Or.inr ⟨r, rfl, reads⟩))
  | @breaks n rest hn stop =>
    rcases append_eq_concat whole.symm with ⟨rfl, front⟩ | ⟨r, rfl, rfl⟩
    · have mem : '\r' ∈ List.replicate n '\n' := front ▸ by simp
      exact absurd (List.eq_of_mem_replicate mem) (by decide)
    · cases r with
      | nil => exact Or.inr (Or.inl ⟨n, hn, rfl, by rw [List.append_nil], rfl⟩)
      | cons c r =>
        rw [List.append_assoc]
        have stop' := stops_cons.1 stop
        exact Or.inr (Or.inr (Or.inr ⟨c :: r, rfl, .breaks hn (stops_cons.2 stop')⟩))

theorem scanFrom_of_reads {t rest : Text} {token : Token} (h : Reads t token rest) (loc : Location)
    (lineStart : Bool) : ∃ source, source ++ rest = t ∧
      scanFrom loc lineStart t =
        (scanFrom (loc.advance source) token.isBreak rest).map (place lineStart loc token ++ ·) := by
  obtain ⟨x, hx, rfl, rfl⟩ := first?_of_reads h
  exact ⟨x.source, (first?_source hx).1, scanFrom_of_first? hx loc lineStart⟩

theorem scanFrom_nil (loc : Location) (lineStart : Bool) : scanFrom loc lineStart [] = .ok [] := by
  rw [scanFrom]
  rfl

/-- A token that takes the whole text is the only one. -/
theorem scanFrom_of_reads_nil {t : Text} {token : Token} (h : Reads t token []) (loc : Location)
    (lineStart : Bool) : scanFrom loc lineStart t = .ok (place lineStart loc token) := by
  obtain ⟨source, _, scanned⟩ := scanFrom_of_reads h loc lineStart
  rw [scanned, scanFrom_nil, Except.map, List.append_nil]

theorem scanFrom_plain {t : Text} (plain : ∀ c ∈ t, isPlain c = true) (nonempty : t ≠ [])
    (loc : Location) (lineStart : Bool) : scanFrom loc lineStart t = .ok [⟨.text t, loc⟩] := by
  have noReference : reference? (t ++ []) = none := by
    cases found : reference? (t ++ []) with
    | none => rfl
    | some x =>
      obtain ⟨indent, name, tail, _, _, whole, _⟩ := of_reference? found
      have mem : '@' ∈ t := by
        rw [List.append_nil] at whole
        simp [whole]
      exact absurd (plain _ mem) (by decide)
  have reads := Reads.text nonempty plain stops_nil noReference
  rw [List.append_nil] at reads
  exact scanFrom_of_reads_nil reads loc lineStart

theorem scanFrom_blanks_return {blanks : Text} (h : ∀ c ∈ blanks, isBlank c = true) (loc : Location)
    (lineStart : Bool) :
    scanFrom loc lineStart (blanks ++ ['\r']) = .ok [⟨.text (blanks ++ ['\r']), loc⟩] := by
  have plain : ∀ c ∈ blanks ++ ['\r'], isPlain c = true := by
    intro c hc
    rcases List.mem_append.1 hc with hc | hc
    · exact isPlain_of_isBlank (h c hc)
    · rw [List.mem_singleton.1 hc]
      rfl
  exact scanFrom_plain plain (by simp) loc lineStart

theorem scanFrom_breaks {n : Nat} (h : 0 < n) (loc : Location) (lineStart : Bool) :
    scanFrom loc lineStart (List.replicate n '\n') = .ok [⟨.breaks n, loc⟩] := by
  have reads := Reads.breaks h (stops_nil (p := (· == '\n')))
  rw [List.append_nil] at reads
  exact scanFrom_of_reads_nil reads loc lineStart

theorem scanFrom_oneBreak (loc : Location) (lineStart : Bool) :
    scanFrom loc lineStart ['\n'] = .ok [⟨.breaks 1, loc⟩] :=
  scanFrom_breaks Nat.one_pos loc lineStart

/-- The line break behind a text that does not end its line is a token of its own. -/
theorem scanFrom_concat_break {loc : Location} {lineStart : Bool} {t : Text} {ps : List Placed}
    (h : scanFrom loc lineStart t = .ok ps) (last : t.getLast? ≠ some '\n') :
    scanFrom loc lineStart (t ++ ['\n']) = .ok (ps ++ [⟨.breaks 1, loc.advance t⟩]) := by
  rw [scanFrom_append_break h last, scanFrom_oneBreak]
  rfl

theorem scanFrom_return {loc : Location} {lineStart : Bool} {t : Text} {ps : List Placed}
    (h : scanFrom loc lineStart (t ++ ['\r']) = .ok ps) :
    ∃ us, scanFrom loc lineStart (t ++ ['\n']) = .ok us ∧ Ended ps us := by
  -- The induction goes on as long as a token leaves more than blanks in front of the return.
  generalize whole : t ++ ['\r'] = w at h
  fun_induction scanFrom loc lineStart w generalizing t ps with
  | case1 loc lineStart w empty => simp [← whole] at empty
  | case2 => simp at h
  | case3 => simp at h
  | case4 loc lineStart w nonempty x hx later hl ih =>
    obtain rfl := Except.ok.inj h
    subst whole
    rcases reads_return (reads_of_first? hx) with ⟨rest, token, plain⟩ | ⟨n, hn, token, rfl, rest⟩ |
      ⟨blanks, all, rest, reads⟩ | ⟨r, rest, reads⟩
    · rw [rest, scanFrom_nil] at hl
      obtain rfl := Except.ok.inj hl
      rw [token]
      by_cases empty : t = []
      · subst empty
        exact ⟨_, scanFrom_oneBreak loc lineStart, @Ended.blanks [] _ _⟩
      · have last : t.getLast? ≠ some '\n' := fun hb =>
          absurd (plain _ (List.mem_of_getLast? hb)) (by decide)
        exact ⟨_, scanFrom_concat_break (scanFrom_plain plain empty loc lineStart) last, .text⟩
    · rw [rest] at hl
      have alone := @scanFrom_blanks_return [] (by simp) (loc.advance x.source) x.token.isBreak
      obtain rfl := Except.ok.inj (hl.symm.trans alone)
      rw [token, ← List.replicate_succ']
      exact ⟨_, scanFrom_breaks (Nat.succ_pos n) loc lineStart, .run⟩
    · rw [rest, scanFrom_blanks_return all] at hl
      obtain rfl := Except.ok.inj hl
      obtain ⟨source, _, scanned⟩ := scanFrom_of_reads reads loc lineStart
      rw [scanFrom_oneBreak] at scanned
      exact ⟨_, scanned, Ended.blanks.append _⟩
    · obtain ⟨us, scanned, ended⟩ := ih rest.symm hl
      obtain ⟨source, split, scanned'⟩ := scanFrom_of_reads reads loc lineStart
      have same : x.source = source := by
        have split' := (first?_source hx).1
        rw [rest, ← List.append_assoc] at split'
        rw [← List.append_assoc] at split
        exact List.append_cancel_right ((List.append_cancel_right split').trans
          (List.append_cancel_right split).symm)
      rw [← same, scanned] at scanned'
      exact ⟨_, scanned', ended.append _⟩

end Token

namespace Grammar

open Token (Ended)

/-- What stands in front of a closing is the same. -/
theorem exists_of_ended_closing {front rest us : List Placed} {loc : Location}
    (h : Ended (front ++ ⟨.closing, loc⟩ :: rest) us) :
    ∃ later, us = front ++ ⟨.closing, loc⟩ :: later ∧ Ended rest later := by
  induction front generalizing us with
  | nil =>
    cases h with
    | cons h => exact ⟨_, rfl, h⟩
  | cons p front ih =>
    generalize tail : front ++ ⟨.closing, loc⟩ :: rest = ts at h ih
    rw [List.cons_append, tail] at h
    cases h with
    | cons h =>
      obtain ⟨later, rfl, ended⟩ := ih h
      exact ⟨later, rfl, ended⟩
    | text | blanks => simp at tail
    | run => cases front <;> simp at tail

/-- The break that ends a header stands in front of the closing, whatever stands behind that. -/
theorem exists_front_of_lineBreak {line body rest : List Placed} {loc : Location}
    (h : LineBreak line (body ++ ⟨.closing, loc⟩ :: rest)) :
    ∃ front, line = front ++ ⟨.closing, loc⟩ :: rest ∧
      ∀ later, LineBreak (front ++ ⟨.closing, loc⟩ :: later) (body ++ ⟨.closing, loc⟩ :: later) := by
  generalize tail : body ++ ⟨.closing, loc⟩ :: rest = ts at h
  cases h with
  | @single rest' l =>
    subst tail
    exact ⟨⟨.breaks 1, l⟩ :: body, rfl, fun later => .single⟩
  | @run n rest' l hn =>
    cases body with
    | nil => simp at tail
    | cons p body =>
      obtain ⟨rfl, rfl⟩ := List.cons.inj tail
      exact ⟨⟨.breaks (n + 1), l⟩ :: body, rfl, fun later => .run hn⟩

theorem exists_lineEnd_of_ended {foot rest us : List Placed} (h : LineEnd foot rest)
    (ended : Ended foot us) : ∃ rest', LineEnd us rest' ∧ Ended rest rest' := by
  cases h with
  | finish =>
    cases ended with
    | same => exact ⟨[], .finish, .same⟩
    | more => exact ⟨[], .lineBreak .single, .same⟩
  | lineBreak h =>
    cases h with
    | single =>
      cases ended with
      | run => exact ⟨_, .lineBreak (.run Nat.one_pos), @Ended.blanks [] _ _⟩
      | cons ended => exact ⟨_, .lineBreak .single, ended⟩
    | run hn =>
      cases ended with
      | run => exact ⟨_, .lineBreak (.run (Nat.succ_pos _)), .run⟩
      | cons ended => exact ⟨_, .lineBreak (.run hn), .cons ended⟩

theorem eq_nil_of_lineEnd_nil {rest : List Placed} (h : LineEnd [] rest) : rest = [] := by
  cases h with
  | finish => rfl
  | lineBreak h => cases h

/-- The footer of a chunk is ended if it was not. -/
theorem exists_footer_of_ended {gap foot rest us : List Placed} (hg : Gap gap)
    (he : LineEnd foot rest) (ended : Ended (gap ++ foot) us) :
    ∃ gap' foot' rest', us = gap' ++ foot' ∧ Gap gap' ∧ LineEnd foot' rest' ∧ Ended rest rest' := by
  cases hg with
  | none =>
    obtain ⟨rest', foot', ended'⟩ := exists_lineEnd_of_ended he ended
    exact ⟨[], us, rest', rfl, .none, foot', ended'⟩
  | @blank t loc blank =>
    cases ended with
    | @text t =>
      obtain rfl := eq_nil_of_lineEnd_nil he
      have blank' : t.trim = [] := Text.trim_eq_nil_iff.2 fun c hc =>
        Text.trim_eq_nil_iff.1 blank c (List.mem_append_left _ hc)
      exact ⟨[_], [_], [], rfl, .blank blank', .lineBreak .single, .same⟩
    | blanks =>
      obtain rfl := eq_nil_of_lineEnd_nil he
      exact ⟨[], [_], [], rfl, .none, .lineBreak .single, .same⟩
    | @cons _ _ us ended =>
      obtain ⟨rest', foot', ended'⟩ := exists_lineEnd_of_ended he ended
      exact ⟨[_], us, rest', rfl, .blank blank, foot', ended'⟩

theorem named_of_ended {ts rest us : List Placed} {c : Chunk} (h : Named ts c rest)
    (ended : Ended ts us) : ∃ rest', Named us c rest' ∧ Ended rest rest' := by
  cases h with
  | @mk kind t options as content list gap line body gap' foot rest loc l₁ l₂
      blank nonempty hlist hg hl hb starts hg' he hc =>
    obtain ⟨front, rfl, line⟩ := exists_front_of_lineBreak hl
    have shape (tail : List Placed) : ⟨.opening kind, loc⟩ :: ⟨.text t, l₁⟩ ::
        (list ++ (gap ++ (front ++ ⟨.closing, l₂⟩ :: tail))) =
        (⟨.opening kind, loc⟩ :: ⟨.text t, l₁⟩ :: (list ++ (gap ++ front))) ++
          ⟨.closing, l₂⟩ :: tail := by simp
    rw [shape] at ended
    obtain ⟨later, rfl, behind⟩ := exists_of_ended_closing ended
    obtain ⟨gap'', foot', rest', rfl, hg'', he', ended'⟩ := exists_footer_of_ended hg' he behind
    rw [← shape]
    exact ⟨rest', .mk blank nonempty hlist hg (line _) hb starts hg'' he' hc, ended'⟩

/-- If the last line is ended, the same named chunks derive. -/
theorem derives_of_ended {lineStart : Bool} {ts us : List Placed} {cs : List Chunk}
    (h : Derives lineStart ts cs) (ended : Ended ts us) :
    ∃ cs', Derives lineStart us cs' ∧
      cs'.filter (!·.isAnonymous) = cs.filter (!·.isAnonymous) := by
  induction h generalizing us with
  | nil =>
    cases ended with
    | same => exact ⟨[], .nil, rfl⟩
    | more => exact ⟨_, .loose (.literal rfl) .nil, rfl⟩
  | @loose lineStart p ts c cs hl later ih =>
    cases ended with
    | text =>
      cases hl
      cases later
      exact ⟨_, .loose (.literal rfl) (.loose (.literal rfl) .nil), rfl⟩
    | blanks =>
      cases hl
      cases later
      exact ⟨_, .loose (.literal rfl) .nil, rfl⟩
    | run =>
      cases hl
      cases later with
      | loose hl' later' =>
        cases hl'
        cases later'
        exact ⟨_, .loose (.literal rfl) .nil, rfl⟩
      | chunk named _ => cases named
    | cons ended =>
      obtain ⟨cs', derives, same⟩ := ih ended
      refine ⟨c :: cs', .loose hl derives, ?_⟩
      rw [List.filter_cons, List.filter_cons, same]
  | @chunk ts rest c cs named later ih =>
    obtain ⟨rest', named', ended'⟩ := named_of_ended named ended
    obtain ⟨cs', derives, same⟩ := ih ended'
    refine ⟨c :: cs', .chunk named' derives, ?_⟩
    rw [List.filter_cons, List.filter_cons, same]

end Grammar

namespace Document

open Text Grammar

/-- A source can be scanned with its last line ended if it can be scanned as it is. -/
theorem exists_scanFrom_endLine {path : Option Text} {source : Text} {ts : List Placed}
    (h : Token.scanFrom (.start path) true source.unifyBreaks = .ok ts) :
    ∃ us, Token.scanFrom (.start path) true source.endLine.unifyBreaks = .ok us ∧
      Token.Ended ts us := by
  unfold endLine
  split
  · exact ⟨ts, h, .refl ts⟩
  · rename_i unended
    have last : source.getLast? ≠ some '\n' := fun hb => unended (by simp [endsLine, hb])
    by_cases hr : source.getLast? = some '\r'
    · obtain ⟨front, rfl⟩ := List.getLast?_eq_some_iff.1 hr
      rw [List.append_assoc, List.singleton_append, unifyBreaks_append_return]
      rw [unifyBreaks_append_return] at h
      exact Token.scanFrom_return h
    · rw [unifyBreaks_append hr]
      have ended := (@Token.Ended.more ((Location.start path).advance source.unifyBreaks)).append ts
      rw [List.append_nil] at ended
      exact ⟨_, Token.scanFrom_concat_break h (by rwa [getLast?_unifyBreaks]), ended⟩

theorem read_nil (path : Option Text) : (read path []).outcome = .ok { chunks := [], path } := by
  have none : (Token.scan path (unifyBreaks [])).outcome = .ok [] := by
    rw [Token.scan, unifyBreaks, Token.scanFrom_nil]
    rfl
  exact read_of_derives none .nil

/-- A source that can be read can be read with its last line ended, and has the same named
chunks. -/
theorem exists_read_endLine {path : Option Text} {source : Text} {d : Document}
    (h : (read path source).outcome = .ok d) :
    ∃ cs, (read path source.endLine).outcome = .ok { chunks := cs, path } ∧
      cs.filter (!·.isAnonymous) = d.chunks.filter (!·.isAnonymous) := by
  obtain ⟨ts, scanned, derives⟩ := exists_derives_of_read h
  obtain ⟨us, scanned', ended⟩ := exists_scanFrom_endLine (scanFrom_of_scan scanned)
  obtain ⟨cs, derives', same⟩ := derives_of_ended derives ended
  have found : (Token.scan path source.endLine.unifyBreaks).outcome = .ok us := by
    rw [Token.scan, scanned']
    rfl
  exact ⟨cs, read_of_derives found derives', same⟩

end Document

end Literate
