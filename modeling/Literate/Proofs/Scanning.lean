import Mathlib.Data.List.TakeWhile
import Literate.Token.Scan

namespace Literate

namespace Text

/-- The text does not begin with a character of the given kind. -/
def Stops (p : Char → Bool) (t : Text) : Prop := ∀ c, t.head? = some c → p c = false

variable {p : Char → Bool}

@[simp] theorem stops_nil : Stops p [] := by simp [Stops]

@[simp] theorem stops_cons {c : Char} {t : Text} : Stops p (c :: t) ↔ p c = false := by
  simp [Stops]

theorem stops_dropWhile (p : Char → Bool) (t : Text) : Stops p (t.dropWhile p) := by
  intro c hc
  have := List.head?_dropWhile_not p t
  simpa [hc] using this

theorem takeWhile_of_stops {t : Text} (h : Stops p t) : t.takeWhile p = [] := by
  cases t with
  | nil => rfl
  | cons c t => simp [stops_cons.1 h]

theorem dropWhile_of_stops {t : Text} (h : Stops p t) : t.dropWhile p = t := by
  cases t with
  | nil => rfl
  | cons c t => simp [stops_cons.1 h]

theorem takeWhile_run {run rest : Text} (hr : ∀ c ∈ run, p c = true) (hs : Stops p rest) :
    (run ++ rest).takeWhile p = run := by
  rw [List.takeWhile_append_of_pos hr, takeWhile_of_stops hs, List.append_nil]

theorem dropWhile_run {run rest : Text} (hr : ∀ c ∈ run, p c = true) (hs : Stops p rest) :
    (run ++ rest).dropWhile p = rest := by
  rw [List.dropWhile_append_of_pos hr, dropWhile_of_stops hs]

/-- A text that is not all of one kind has a first character that is not. -/
theorem exists_first_other {t : Text} (h : ¬∀ c ∈ t, p c = true) :
    ∃ run c rest, t = run ++ c :: rest ∧ (∀ x ∈ run, p x = true) ∧ p c = false := by
  have whole := List.takeWhile_append_dropWhile (p := p) (l := t)
  cases hd : t.dropWhile p with
  | nil =>
    rw [hd, List.append_nil] at whole
    exact absurd (fun c hc => List.mem_takeWhile_imp (whole ▸ hc)) h
  | cons c rest =>
    have stop := stops_dropWhile p t
    rw [hd] at stop whole
    exact ⟨_, c, rest, whole.symm, fun x hx => List.mem_takeWhile_imp hx, stops_cons.1 stop⟩

theorem isBlank_iff {c : Char} : isBlank c = true ↔ c = ' ' ∨ c = '\t' := by simp [isBlank]

end Text

namespace Lexeme

open Text

theorem isPlain_of_isBlank {c : Char} (h : isBlank c = true) : isPlain c = true := by
  rcases isBlank_iff.1 h with rfl | rfl <;> rfl

theorem stops_blank_of_stops_plain {t : Text} (h : Stops isPlain t) : Stops isBlank t := by
  intro c hc
  have plain := h c hc
  cases hb : isBlank c with
  | false => rfl
  | true => simp [isPlain_of_isBlank hb] at plain

theorem lineEndBlanks_of_stops {t : Text} (h : Stops isBlank t) : lineEndBlanks t = [] := by
  unfold lineEndBlanks
  rw [dropWhile_of_stops h, takeWhile_of_stops h]
  split <;> rfl

theorem lineEndBlanks_run {run rest : Text} {c : Char} (hr : ∀ x ∈ run, isBlank x = true)
    (hb : isBlank c = false) (hn : c ≠ '\n') : lineEndBlanks (run ++ c :: rest) = [] := by
  unfold lineEndBlanks
  rw [dropWhile_run hr (stops_cons.2 hb)]
  split
  · simp at *
  · rename_i same
    simp_all
  · rfl

theorem lineEndBlanks_run_end {run rest : Text} (hr : ∀ x ∈ run, isBlank x = true)
    (he : rest = [] ∨ ∃ tail, rest = '\n' :: tail) : lineEndBlanks (run ++ rest) = run := by
  unfold lineEndBlanks
  rcases he with rfl | ⟨tail, rfl⟩
  · rw [dropWhile_run hr stops_nil]
    simp
  · rw [dropWhile_run hr (stops_cons.2 rfl), takeWhile_run hr (stops_cons.2 rfl)]
    rfl

/-- Once the blanks that end the line are gone, there are none left. -/
theorem lineEndBlanks_drop (t : Text) : lineEndBlanks (t.drop (lineEndBlanks t).length) = [] := by
  have whole := List.takeWhile_append_dropWhile (p := isBlank) (l := t)
  cases hd : t.dropWhile isBlank with
  | nil =>
    rw [hd, List.append_nil] at whole
    have all : lineEndBlanks t = t := by simp [lineEndBlanks, hd]
    rw [all, List.drop_length]
    rfl
  | cons c rest =>
    have stop := stops_cons.1 (hd ▸ stops_dropWhile isBlank t)
    rw [hd] at whole
    rw [← whole]
    by_cases hn : c = '\n'
    · subst hn
      rw [lineEndBlanks_run_end (fun x hx => List.mem_takeWhile_imp hx) (Or.inr ⟨rest, rfl⟩),
        List.drop_left]
      exact lineEndBlanks_of_stops (stops_cons.2 rfl)
    · have run : ∀ x ∈ t.takeWhile isBlank, isBlank x = true := fun x hx => List.mem_takeWhile_imp hx
      have none : lineEndBlanks (t.takeWhile isBlank ++ c :: rest) = [] := lineEndBlanks_run run stop hn
      rw [none, List.length_nil, List.drop_zero, none]

theorem reference?_eq {indent name tail : Text} (hi : ∀ c ∈ indent, isBlank c = true)
    (hn : ∀ c ∈ name, inName c = true) :
    reference? (indent ++ '@' :: '<' :: name ++ '>' :: tail) =
      some ⟨.reference indent name, indent ++ '@' :: '<' :: name ++ '>' :: lineEndBlanks tail,
        tail.drop (lineEndBlanks tail).length⟩ := by
  have stop : Stops isBlank ('@' :: '<' :: (name ++ '>' :: tail)) := stops_cons.2 rfl
  have stop' : Stops inName ('>' :: tail) := stops_cons.2 rfl
  unfold reference?
  simp only [List.append_assoc, List.cons_append]
  rw [takeWhile_run hi stop, dropWhile_run hi stop]
  simp only
  rw [takeWhile_run hn stop', dropWhile_run hn stop']
  rfl

/-- A text has a reference at its front only in the one form. -/
theorem of_reference? {t : Text} {x : Lexeme} (h : reference? t = some x) :
    ∃ indent name tail, (∀ c ∈ indent, isBlank c = true) ∧ (∀ c ∈ name, inName c = true) ∧
      t = indent ++ '@' :: '<' :: name ++ '>' :: tail ∧ x.token = .reference indent name ∧
      x.rest = tail.drop (lineEndBlanks tail).length := by
  unfold reference? at h
  simp only at h
  split at h
  · rename_i rest hrest
    split at h
    · rename_i tail htail
      have outer := List.takeWhile_append_dropWhile (p := isBlank) (l := t)
      have inner := List.takeWhile_append_dropWhile (p := inName) (l := rest)
      rw [hrest] at outer
      rw [htail] at inner
      simp only [Option.some.injEq] at h
      subst h
      refine ⟨t.takeWhile isBlank, rest.takeWhile inName, tail, fun c hc => List.mem_takeWhile_imp hc,
        fun c hc => List.mem_takeWhile_imp hc, ?_, rfl, rfl⟩
      rw [List.append_assoc, List.cons_append, List.cons_append, inner, outer]
    · simp at h
  · simp at h

end Lexeme

namespace Token

open Text Lexeme

/-- Tokens with one spelling, which is read the same whatever follows. -/
def isSign : Token → Bool
  | .reference .. | .text _ | .breaks _ => false
  | _ => true

/-- The token at the front of a text, and the text behind it. -/
inductive Reads : Text → Token → Text → Prop where
  | sign {token : Token} {rest : Text} : token.isSign = true → Reads (token.spell ++ rest) token rest
  | reference {indent name tail : Text} : (∀ c ∈ indent, isBlank c = true) →
      (∀ c ∈ name, inName c = true) →
      Reads (indent ++ '@' :: '<' :: name ++ '>' :: tail) (.reference indent name)
        (tail.drop (lineEndBlanks tail).length)
  | text {run rest : Text} : run ≠ [] → (∀ c ∈ run, isPlain c = true) → Stops isPlain rest →
      reference? (run ++ rest) = none → Reads (run ++ rest) (.text run) rest
  | breaks {n : Nat} {rest : Text} : 0 < n → Stops (· == '\n') rest →
      Reads (List.replicate n '\n' ++ rest) (.breaks n) rest

theorem reads_of_directive? {t : Text} {x : Lexeme} (h : directive? t = some x) :
    Reads t x.token x.rest := by
  unfold directive? at h
  split at h <;> simp at h <;> subst h
  · exact @Reads.sign .escapedAt _ rfl
  · exact @Reads.sign (.opening .code) _ rfl
  · exact @Reads.sign (.opening .doc) _ rfl
  · exact @Reads.sign .closing _ rfl

theorem reads_of_mark? {t : Text} {x : Lexeme} (h : mark? t = some x) : Reads t x.token x.rest := by
  unfold mark? at h
  split at h <;> simp at h <;> subst h
  · exact @Reads.sign .leftBracket _ rfl
  · exact @Reads.sign .rightBracket _ rfl
  · exact @Reads.sign .equals _ rfl
  · exact @Reads.sign .comma _ rfl

theorem reads_of_breaks? {t : Text} {x : Lexeme} (h : breaks? t = some x) :
    Reads t x.token x.rest := by
  unfold breaks? at h
  simp only at h
  split at h
  · simp at h
  · rename_i nonempty
    simp only [Option.some.injEq] at h
    subst h
    have run : t.takeWhile (· == '\n') = List.replicate (t.takeWhile (· == '\n')).length '\n' :=
      List.eq_replicate_iff.2 ⟨rfl, fun c hc => by simpa using List.mem_takeWhile_imp hc⟩
    have whole := List.takeWhile_append_dropWhile (p := (· == '\n')) (l := t)
    have reads := Reads.breaks (n := (t.takeWhile (· == '\n')).length)
      (List.length_pos_iff.2 (by simpa using nonempty)) (stops_dropWhile (· == '\n') t)
    rwa [← run, whole] at reads

theorem reads_of_plain? {t : Text} {x : Lexeme} (hr : reference? t = none) (h : plain? t = some x) :
    Reads t x.token x.rest := by
  unfold plain? at h
  simp only at h
  split at h
  · simp at h
  · rename_i nonempty
    simp only [Option.some.injEq] at h
    subst h
    have whole := List.takeWhile_append_dropWhile (p := isPlain) (l := t)
    have reads := @Reads.text (t.takeWhile isPlain) _ (by simpa using nonempty)
      (fun c hc => List.mem_takeWhile_imp hc) (stops_dropWhile isPlain t) (by rwa [whole])
    rwa [whole] at reads

theorem reads_of_first? {t : Text} {x : Lexeme} (h : first? t = some x) :
    Reads t x.token x.rest := by
  simp only [first?, Option.orElse_eq_orElse, Option.orElse_eq_or, Option.or_eq_some_iff] at h
  rcases h with h | ⟨_, h | ⟨hr, h | ⟨_, h | ⟨_, h⟩⟩⟩⟩
  · exact reads_of_directive? h
  · obtain ⟨indent, name, tail, hi, hn, rfl, token, rest⟩ := of_reference? h
    rw [token, rest]
    exact .reference hi hn
  · exact reads_of_mark? h
  · exact reads_of_breaks? h
  · exact reads_of_plain? hr h

theorem first?_of_sign {token : Token} (h : token.isSign = true) (rest : Text) :
    first? (token.spell ++ rest) = some ⟨token, token.spell, rest⟩ := by
  cases token with
  | opening kind => cases kind <;> rfl
  | reference | text | breaks => simp [isSign] at h
  | _ => rfl

theorem first?_break (u : Text) :
    first? ('\n' :: u) = some ⟨.breaks ((u.takeWhile (· == '\n')).length + 1),
      '\n' :: u.takeWhile (· == '\n'), u.dropWhile (· == '\n')⟩ := rfl

theorem directive?_eq_none {t : Text} (h : Stops (· == '@') t) : directive? t = none := by
  unfold directive?
  split <;> simp_all [Stops]

theorem mark?_eq_none {t : Text} (h : Stops (fun c => c == '[' || c == ']' || c == '=' || c == ',') t) :
    mark? t = none := by
  unfold mark?
  split <;> simp_all [Stops]

theorem first?_of_reads {t rest : Text} {token : Token} (h : Reads t token rest) :
    ∃ x, first? t = some x ∧ x.token = token ∧ x.rest = rest := by
  cases h with
  | sign h => exact ⟨_, first?_of_sign h rest, rfl, rfl⟩
  | @reference indent name tail hi hn =>
    have noDirective : directive? (indent ++ '@' :: '<' :: name ++ '>' :: tail) = none := by
      cases indent with
      | nil => rfl
      | cons c indent =>
        apply directive?_eq_none
        rcases isBlank_iff.1 (hi c List.mem_cons_self) with rfl | rfl <;> simp
    have found : first? (indent ++ '@' :: '<' :: name ++ '>' :: tail) =
        reference? (indent ++ '@' :: '<' :: name ++ '>' :: tail) := by
      rw [first?, noDirective, reference?_eq hi hn]
      rfl
    exact ⟨_, found.trans (reference?_eq hi hn), rfl, rfl⟩
  | @text run rest hne hp hs hr =>
    obtain ⟨c, run', rfl⟩ := List.exists_cons_of_ne_nil hne
    have plain := hp c List.mem_cons_self
    simp only [isPlain, Bool.and_eq_true, bne_iff_ne, ne_eq] at plain
    have noDirective : directive? (c :: run' ++ rest) = none := directive?_eq_none (by simp [plain])
    have noMark : mark? (c :: run' ++ rest) = none := mark?_eq_none (by simp [plain])
    have noBreaks : breaks? (c :: run' ++ rest) = none := by simp [breaks?, plain]
    refine ⟨⟨.text (c :: run'), c :: run', rest⟩, ?_, rfl, rfl⟩
    simp only [first?, noDirective, hr, noMark, noBreaks, plain?, takeWhile_run hp hs,
      dropWhile_run hp hs]
    rfl
  | @breaks n rest hn hs =>
    obtain ⟨m, rfl⟩ : ∃ m, n = m + 1 := ⟨n - 1, by omega⟩
    have run : ∀ c ∈ List.replicate (m + 1) '\n', (c == '\n') = true := by simp
    have noDirective : directive? (List.replicate (m + 1) '\n' ++ rest) = none := rfl
    have noReference : reference? (List.replicate (m + 1) '\n' ++ rest) = none := rfl
    have noMark : mark? (List.replicate (m + 1) '\n' ++ rest) = none := rfl
    refine ⟨⟨.breaks (m + 1), List.replicate (m + 1) '\n', rest⟩, ?_, rfl, rfl⟩
    simp only [first?, noDirective, noReference, noMark, breaks?, takeWhile_run run hs,
      dropWhile_run run hs, List.length_replicate]
    rfl

/-- The tokens that one reading stands for: the blanks in front of a reference are text of their own
unless they start a line. -/
def split (lineStart : Bool) : Token → List Token
  | .reference indent name =>
    if indent.isEmpty || lineStart then [.reference indent name]
    else [.text indent, .reference [] name]
  | token => [token]

theorem place_tokens (lineStart : Bool) (loc : Location) (token : Token) :
    (Lexeme.place lineStart loc token).map (·.token) = split lineStart token := by
  cases token with
  | reference indent name =>
    by_cases whole : (indent.isEmpty || lineStart) = true
    · simp only [Lexeme.place, split, if_pos whole, List.map_cons, List.map_nil]
    · simp only [Lexeme.place, split, if_neg whole, List.map_cons, List.map_nil]
  | _ => rfl

/-- The tokens of a text, one reading after the other. -/
inductive Scans : Bool → Text → List Token → Prop where
  | nil {lineStart : Bool} : Scans lineStart [] []
  | cons {lineStart : Bool} {t rest : Text} {token : Token} {later : List Token} :
      Reads t token rest → Scans token.isBreak rest later →
        Scans lineStart t (split lineStart token ++ later)

theorem scanFrom_of_first? {t : Text} {x : Lexeme} (h : first? t = some x) (loc : Location)
    (lineStart : Bool) :
    scanFrom loc lineStart t =
      (scanFrom (loc.advance x.source) x.token.isBreak x.rest).map
        (Lexeme.place lineStart loc x.token ++ ·) := by
  have nonempty : t.isEmpty = false := by
    cases t with
    | nil => simp [first?, directive?, reference?, mark?, breaks?, plain?] at h
    | cons => rfl
  rw [scanFrom, nonempty]
  simp only [Bool.false_eq_true, if_false]
  split
  · simp_all
  · rename_i y hy
    obtain rfl : x = y := Option.some.inj (h.symm.trans hy)
    cases scanFrom (loc.advance x.source) x.token.isBreak x.rest <;> rfl

theorem scans_of_scanFrom {loc : Location} {lineStart : Bool} {t : Text} {ps : List Placed}
    (h : scanFrom loc lineStart t = .ok ps) : Scans lineStart t (ps.map (·.token)) := by
  fun_induction scanFrom loc lineStart t generalizing ps with
  | case1 loc lineStart t empty =>
    obtain rfl : t = [] := by simpa using empty
    simp only [Except.ok.injEq] at h
    subst h
    exact .nil
  | case2 => simp at h
  | case3 => simp at h
  | case4 loc lineStart t nonempty x hx later hl ih =>
    simp only [Except.ok.injEq] at h
    subst h
    rw [List.map_append, place_tokens]
    exact .cons (reads_of_first? hx) (ih hl)

theorem scanFrom_of_scans {lineStart : Bool} {t : Text} {ts : List Token}
    (h : Scans lineStart t ts) (loc : Location) :
    ∃ ps, scanFrom loc lineStart t = .ok ps ∧ ps.map (·.token) = ts := by
  induction h generalizing loc with
  | nil => exact ⟨[], by rw [scanFrom]; rfl, rfl⟩
  | @cons lineStart t rest token later reads _ ih =>
    obtain ⟨x, hx, rfl, rfl⟩ := first?_of_reads reads
    obtain ⟨ps, hps, rfl⟩ := ih (loc.advance x.source)
    refine ⟨Lexeme.place lineStart loc x.token ++ ps, ?_, by rw [List.map_append, place_tokens]⟩
    rw [scanFrom_of_first? hx, hps]
    rfl

end Token

end Literate
