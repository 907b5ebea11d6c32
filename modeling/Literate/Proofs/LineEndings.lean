import Mathlib.Data.List.Infix
import Literate.Proofs.Literal
import Literate.Proofs.Lossless

namespace Literate

namespace Text

/-- The second text is the first with carriage returns put in front of some of its line breaks. -/
inductive ReturnsAdded : Text → Text → Prop where
  | nil : ReturnsAdded [] []
  | keep {t u : Text} (c : Char) : ReturnsAdded t u → ReturnsAdded (c :: t) (c :: u)
  | add {t u : Text} : ReturnsAdded t u → ReturnsAdded ('\n' :: t) ('\r' :: '\n' :: u)

theorem unifyBreaks_cons {c : Char} {t : Text} (h : c = '\r' → t.head? ≠ some '\n') :
    unifyBreaks (c :: t) = c :: unifyBreaks t := by
  rw [unifyBreaks]
  rintro rest hc rfl
  exact h hc rfl

/-- Only a carriage return comes in front of what was first. -/
theorem ReturnsAdded.head? {t u : Text} (h : ReturnsAdded t u) (hu : u.head? = some '\n') :
    t.head? = some '\n' := by
  cases h with
  | nil => exact hu
  | keep c _ => exact hu
  | add _ => rfl

/-- Carriage returns that are added are taken off again. -/
theorem unifyBreaks_of_returnsAdded {t u : Text} (clean : Clean t) (h : ReturnsAdded t u) :
    u.unifyBreaks = t := by
  induction h with
  | nil => rfl
  | @keep t u c added ih =>
    obtain ⟨apart, clean⟩ := List.isChain_cons.1 clean
    have noBreak : c = '\r' → u.head? ≠ some '\n' := by
      intro hc hu
      exact apart '\n' (added.head? hu) ⟨hc, rfl⟩
    rw [unifyBreaks_cons noBreak, ih clean]
  | add _ ih => exact congrArg _ (ih (List.isChain_cons.1 clean).2)

end Text

namespace Section

instance : DecidablePred Ordinary := fun line =>
  inferInstanceAs (Decidable (heading? line = none ∧ isEnding line = false))

theorem filter_ordinary {lines : List Text} (h : ∀ line ∈ lines, Ordinary line) :
    lines.filter (Ordinary ·) = lines :=
  List.filter_eq_self.2 fun line mem => decide_eq_true (h line mem)

theorem filter_heading_of_ordinary {lines : List Text} (h : ∀ line ∈ lines, Ordinary line) :
    lines.filter (fun line => (heading? line).isSome) = [] := by
  rw [List.filter_eq_nil_iff]
  intro line mem
  simp [(h line mem).1]

theorem heading?_of_isEnding {line : Text} (h : isEnding line = true) : heading? line = none := by
  unfold isEnding at h
  split at h
  · rfl
  · simp at h

/-- The ordinary lines of a text, with the rest of a line that began in front of it. -/
def ordinaryFrom (lineStart : Bool) (t : Text) : Text :=
  (if lineStart then [] else t.lines.head?.getD []) ++
    ((t.linesFrom lineStart).filter (Ordinary ·)).flatten

/-- What is in front of the lines that begin later is ordinary if the lines that begin there are. -/
theorem ordinaryFrom_append {lineStart lineStart' : Bool} {front rest : Text} {begun : List Text}
    (split : (front ++ rest).linesFrom lineStart = begun ++ rest.linesFrom lineStart')
    (ordinary : ∀ line ∈ begun, Ordinary line) :
    ordinaryFrom lineStart (front ++ rest) = front ++ ordinaryFrom lineStart' rest := by
  have whole (lineStart : Bool) (t : Text) :
      (if lineStart then [] else t.lines.head?.getD []) ++ (t.linesFrom lineStart).flatten = t := by
    have lines := t.flatten_lines
    cases lineStart with
    | true => exact lines
    | false =>
      unfold Text.linesFrom
      cases ht : t.lines with
      | nil => simpa [ht] using lines
      | cons line later => simpa [ht] using lines
  have front_eq : (if lineStart then [] else (front ++ rest).lines.head?.getD []) ++ begun.flatten =
      front ++ if lineStart' then [] else rest.lines.head?.getD [] := by
    apply @List.append_cancel_right _ _ (rest.linesFrom lineStart').flatten
    rw [List.append_assoc, List.append_assoc, ← List.flatten_append, ← split, whole, whole]
  unfold ordinaryFrom
  rw [split, List.filter_append, filter_ordinary ordinary, List.flatten_append, ← List.append_assoc, front_eq,
    List.append_assoc]

end Section

/-- The options of a header as they are written: nothing, or pairs between brackets. -/
def Options.WrittenAs (o : Options) (t : Text) : Prop :=
  t = [] ∧ o = {} ∨
    ∃ pairs : List (Text × Text),
      (∀ e ∈ pairs, (∀ c ∈ e.1, Lexeme.isPlain c = true) ∧ ∀ c ∈ e.2, Lexeme.isPlain c = true) ∧
      t = '[' :: [','].intercalate (pairs.map fun e => e.1 ++ '=' :: e.2) ++ [']'] ∧
      o = .ofList (pairs.map fun e => (e.1.trim, e.2.trim))

namespace Chunk

/-- The line opens the chunk: its name and its options are trimmed, and spaces stand behind. -/
def OpenedBy (c : Chunk) (line : Text) : Prop :=
  ∃ name options gap, line = (Token.opening c.kind).spell ++ name ++ options ++ gap ++ ['\n'] ∧
    (∀ x ∈ name, Lexeme.isPlain x = true) ∧ c.name = name.trim ∧ c.options.WrittenAs options ∧
    ∀ x ∈ gap, Text.isSpace x = true

/-- The text stands for the content, but perhaps for a line break at its end. -/
def FilledBy (c : Chunk) (t : Text) : Prop :=
  ∃ as, t.StandsFor as ∧
    (as = Segment.atomsOf c.content ∨ as = Segment.atomsOf c.content ++ [.char '\n'])

end Chunk

/-- What becomes of the characters of a source: those in ordinary lines are shared out among the
chunks, those in the other lines make up the headers, and nothing but spaces stands behind an
ending. -/
structure Text.FoundIn (source : Text) (cs : List Chunk) : Prop where
  ordinary : ∃ parts, (source.lines.filter (Section.Ordinary ·)).flatten = parts.flatten ∧
    List.Forall₂ Chunk.FilledBy cs parts
  headings : List.Forall₂ Chunk.OpenedBy (cs.filter fun c => !c.isAnonymous)
    (source.lines.filter fun line => (Section.heading? line).isSome)
  endings : ∀ line ∈ source.lines, Section.isEnding line = true →
    ∀ c ∈ line.drop 4, Text.isSpace c = true

namespace Grammar

open Text Token Section Read

variable {t : Text} {lineStart : Bool}

/-- A pair is written with its key in front of the sign, and what is left of it is trimmed. -/
theorem exists_written_of_pair {ts : List Placed} {e : Text × Text} (h : Pair ts e)
    (plain : ∀ u, Token.text u ∈ ts.map (·.token) → ∀ c ∈ u, Lexeme.isPlain c = true) :
    ∃ p : Text × Text,
      ((∀ c ∈ p.1, Lexeme.isPlain c = true) ∧ ∀ c ∈ p.2, Lexeme.isPlain c = true) ∧
      spelling (ts.map (·.token)) = p.1 ++ '=' :: p.2 ∧ e = (p.1.trim, p.2.trim) := by
  cases h with
  | @bare key l₁ l₂ => exact ⟨(key, []), ⟨plain key (by simp), by simp⟩, by simp [spell], rfl⟩
  | @valued key value l₁ l₂ l₃ =>
    exact ⟨(key, value), ⟨plain key (by simp), plain value (by simp)⟩, by simp [spell], rfl⟩

theorem exists_written_of_pairs {ts : List Placed} {es : List (Text × Text)} (h : Pairs ts es)
    (plain : ∀ u, Token.text u ∈ ts.map (·.token) → ∀ c ∈ u, Lexeme.isPlain c = true) :
    ∃ pairs : List (Text × Text), pairs ≠ [] ∧
      (∀ e ∈ pairs, (∀ c ∈ e.1, Lexeme.isPlain c = true) ∧ ∀ c ∈ e.2, Lexeme.isPlain c = true) ∧
      spelling (ts.map (·.token)) = [','].intercalate (pairs.map fun e => e.1 ++ '=' :: e.2) ∧
      es = pairs.map fun e => (e.1.trim, e.2.trim) := by
  induction h with
  | @last ts e pair =>
    obtain ⟨p, chars, spelled, rfl⟩ := exists_written_of_pair pair plain
    exact ⟨[p], by simp, by simpa using chars, by simpa [List.intercalate] using spelled, rfl⟩
  | @more ts us e es loc pair _ ih =>
    obtain ⟨p, chars, spelled, rfl⟩ := exists_written_of_pair pair fun u hu =>
      plain u (by simp [hu])
    obtain ⟨pairs, nonempty, chars', spelled', rfl⟩ := ih fun u hu => plain u (by simp [hu])
    refine ⟨p :: pairs, by simp, List.forall_mem_cons.2 ⟨chars, chars'⟩, ?_, rfl⟩
    obtain ⟨q, pairs, rfl⟩ := List.exists_cons_of_ne_nil nonempty
    simp [spelled, spelled', spell, List.intercalate]

theorem writtenAs_of_optionList {list : List Placed} {o : Options} (h : OptionList list o)
    (plain : ∀ u, Token.text u ∈ list.map (·.token) → ∀ c ∈ u, Lexeme.isPlain c = true) :
    o.WrittenAs (spelling (list.map (·.token))) := by
  cases h with
  | absent => exact Or.inl ⟨rfl, rfl⟩
  | empty => exact Or.inr ⟨[], by simp, rfl, rfl⟩
  | items pairs =>
    obtain ⟨written, _, chars, spelled, rfl⟩ := exists_written_of_pairs pairs fun u hu =>
      plain u (by simp [hu])
    exact Or.inr ⟨written, chars, by simp [spelled, spell], rfl⟩

theorem filledBy_of_contents {front : Text} {as : List Atom} {c : Chunk}
    (stands : front.StandsFor as) (h : Contents as c.content) : c.FilledBy front := by
  refine ⟨as, stands, ?_⟩
  obtain ⟨_, ⟨rfl, empty⟩ | same⟩ := h
  · exact Or.inl (by rw [empty]; rfl)
  · exact Or.inr same

theorem standsFor_of_loose {p : Placed} {c : Chunk} (h : Loose p c) {blanks : Text}
    (blank : ∀ x ∈ blanks, isBlank x = true) (only : p.token.literal? ≠ none → blanks = [])
    {later : List Token} (fits : Fits lineStart p.token later) :
    StandsFor (p.token.spell ++ blanks) (Segment.atomsOf c.content) := by
  cases h with
  | @literal token loc u literal =>
    obtain rfl := only (by simp [literal])
    have stands := StandsFor.nil.doubleAt u
    rw [doubleAt_literal fits literal] at stands
    exact stands
  | @reference indent name loc nonempty =>
    have stands := @StandsFor.reference indent name blanks [] loc [] fits.1 fits.2.2.1 nonempty blank
      .nil
    rwa [List.append_nil] at stands

/-- A chunk is the line that opens it, the lines of its content and the line that ends it. -/
theorem lines_of_named {ts rest : List Placed} {c : Chunk} (hn : Named ts c rest)
    (h : Scans true t (ts.map (·.token))) :
    ∃ head begun last t', t.lines = head :: (begun ++ last :: t'.lines) ∧
      (heading? head).isSome = true ∧ c.OpenedBy head ∧
      (∀ line ∈ begun, Ordinary line) ∧ c.FilledBy begun.flatten ∧
      isEnding last = true ∧ (∀ x ∈ last.drop 4, isSpace x = true) ∧
      Scans true t' (rest.map (·.token)) := by
  cases hn with
  | @mk kind u options as content list gap line body gap' foot rest loc l₁ l₂
      _ _ hlist hg hl hb starts hg' he hc =>
    have plain := plain_of_settled (settled_of_scans h)
    obtain ⟨head, t₁, split, heading, written, scans⟩ := heading_of_scans hlist hg hl h
    obtain ⟨front, t₂, begun, rfl, stands, behind, split', ordinary⟩ := standsFor_of_body hb scans
    rw [← startsAfter_true] at starts
    rw [starts] at behind split'
    obtain ⟨last, t₃, split'', ending, spaces, after⟩ := ending_of_scans hg' he behind
    replace split' : (front ++ t₂).lines = begun ++ t₂.lines := split'
    have front_eq : begun.flatten = front := by
      have whole := congrArg List.flatten split'
      rw [List.flatten_append, flatten_lines, flatten_lines] at whole
      exact (List.append_cancel_right whole).symm
    refine ⟨head, begun, last, t₃, ?_, by rw [heading]; rfl, ?_, ordinary, ?_, ending, spaces, after⟩
    · rw [split, split', split'']
    · refine ⟨u, spelling (list.map (·.token)), spelling (gap.map (·.token)), ?_, ?_, rfl, ?_,
        isSpace_of_gap hg⟩
      · rw [written]
        simp
      · exact plain u (by simp)
      · exact writtenAs_of_optionList hlist fun u hu => plain u (by simp [hu])
    · rw [front_eq]
      exact filledBy_of_contents stands hc

theorem found_of_derives {ts : List Placed} {cs : List Chunk} (hd : Derives lineStart ts cs)
    (h : Scans lineStart t (ts.map (·.token))) :
    (∃ parts, ordinaryFrom lineStart t = parts.flatten ∧ List.Forall₂ Chunk.FilledBy cs parts) ∧
    List.Forall₂ Chunk.OpenedBy (cs.filter fun c => !c.isAnonymous)
      ((t.linesFrom lineStart).filter fun line => (heading? line).isSome) ∧
    ∀ line ∈ t.linesFrom lineStart, isEnding line = true → ∀ c ∈ line.drop 4, isSpace c = true := by
  induction hd generalizing t with
  | @nil lineStart =>
    obtain rfl := eq_nil_of_scans_nil h rfl
    cases lineStart <;> exact ⟨⟨[], rfl, .nil⟩, .nil, by simp [linesFrom, lines]⟩
  | @loose lineStart p ts c cs hl _ ih =>
    have anonymous : c.isAnonymous = true := by cases hl <;> rfl
    obtain ⟨blanks, rest, begun, rfl, blank, only, scans, split, ordinary⟩ :=
      linesFrom_of_token h (isDirective_of_loose hl)
    obtain ⟨⟨parts, shared, filled⟩, opened, ended⟩ := ih scans
    have stands := standsFor_of_loose hl blank only (settled_of_scans h).1
    refine ⟨⟨(p.token.spell ++ blanks) :: parts, ?_, .cons ⟨_, stands, Or.inl rfl⟩ filled⟩, ?_, ?_⟩
    · rw [ordinaryFrom_append split ordinary, shared, List.flatten_cons]
    · rw [split, List.filter_append, filter_heading_of_ordinary ordinary,
        List.filter_cons_of_neg (by simp [anonymous])]
      exact opened
    · intro line mem ending
      rw [split] at mem
      rcases List.mem_append.1 mem with here | later
      · simp [(ordinary line here).2] at ending
      · exact ended line later ending
  | @chunk ts rest c cs named _ ih =>
    have proper : c.isAnonymous = false := by
      cases named
      simpa [Chunk.isAnonymous]
    obtain ⟨head, begun, last, t', split, heading, openedBy, ordinary, filledBy, ending, spaces,
      scans⟩ := lines_of_named named h
    obtain ⟨⟨parts, shared, filled⟩, opened, ended⟩ := ih scans
    have noHead : ¬Ordinary head := by
      rintro ⟨none, _⟩
      simp [none] at heading
    have noLast : ¬Ordinary last := by
      rintro ⟨_, none⟩
      simp [none] at ending
    have first : isEnding head = false := by
      rw [← Bool.not_eq_true]
      intro isEnd
      simp [heading?_of_isEnding isEnd] at heading
    have all : t.linesFrom true = head :: (begun ++ last :: t'.linesFrom true) := split
    refine ⟨⟨begun.flatten :: parts, ?_, .cons filledBy filled⟩, ?_, ?_⟩
    · unfold ordinaryFrom at shared ⊢
      rw [all]
      simpa [noHead, noLast, filter_ordinary ordinary] using shared
    · rw [all]
      simpa [proper, heading, heading?_of_isEnding ending, filter_heading_of_ordinary ordinary]
        using ⟨openedBy, opened⟩
    · intro line mem isEnd
      rw [all, List.mem_cons, List.mem_append, List.mem_cons] at mem
      rcases mem with rfl | here | rfl | later
      · simp [first] at isEnd
      · simp [(ordinary line here).2] at isEnd
      · exact spaces
      · exact ended line later isEnd

end Grammar

namespace Document

theorem read_of_returnsAdded {t u : Text} (clean : Text.Clean t) (h : Text.ReturnsAdded t u)
    (path : Option Text) : read path u = read path t := by
  unfold read
  rw [Text.unifyBreaks_of_returnsAdded clean h, Text.unifyBreaks_of_clean clean]

/-- A source without a carriage return in front of a line break is read, with all that is reported,
as it is with carriage returns put in front of some of them, and it is tangled alike. The carriage
returns that it has itself are spaces like others. In a line that neither opens nor ends a chunk each
of them is kept at its place, in the content of a chunk or in the name of a reference, which is
trimmed. In a line that opens a chunk they belong to the name, to a key or to a value, which are
trimmed, or stand behind them and are dropped. Behind the end of a chunk they are dropped. -/
theorem read_line_endings (source source' : Text) (clean : ¬['\r', '\n'] <:+: source)
    (h : Text.ReturnsAdded source source') (path : Option Text) :
    read path source' = read path source ∧
    (∀ (x : Context) (requested : List Text),
      x.planSource path source' requested = x.planSource path source requested) ∧
    ∀ d, (read path source).outcome = .ok d → source.FoundIn d.chunks := by
  have clean := Text.clean_of_noReturn clean
  have same := read_of_returnsAdded clean h path
  refine ⟨same, ?_, ?_⟩
  · intro x requested
    rw [Context.planSource, Context.planSource, same]
  · intro d hd
    obtain ⟨ts, scan, derives⟩ := exists_derives_of_read hd
    rw [Text.unifyBreaks_of_clean clean] at scan
    have scans := Token.scans_of_scanFrom (scanFrom_of_scan scan)
    obtain ⟨ordinary, headings, endings⟩ := Grammar.found_of_derives derives scans
    exact ⟨ordinary, headings, endings⟩

/-- A carriage return is added to two of four line breaks. Of those that were there, one is in a name
and one behind it, one in front of a value and one in it, one behind the header, one in the content,
one in the name of a reference and one behind it, one behind an ending and one in loose text. -/
theorem read_line_endings_mixed :
    let source : Text := "@doc k\rl\r[v=\ra\rb] \r \n\r@<m\rn\r> \n@end\r \nx\ry".toList
    let source' : Text :=
      "@doc k\rl\r[v=\ra\rb] \r \r\n\r@<m\rn\r> \n@end\r \r\nx\ry".toList
    let c : Chunk := ⟨.doc, ['k', '\r', 'l'], .ofList [(['v'], ['a', '\r', 'b'])],
      [.text ['\r'], .reference ['m', '\r', 'n'] [] { line := 2, column := 2 }], {}⟩
    let d : Document := ⟨[c, .wrapper (.text ['x', '\r', 'y']) { line := 4 }], none⟩
    ¬['\r', '\n'] <:+: source ∧ Text.ReturnsAdded source source' ∧
    read none source' = read none source ∧
    (∀ (x : Context) (requested : List Text),
      x.planSource none source' requested = x.planSource none source requested) ∧
    (read none source).outcome = .ok d ∧ source.FoundIn d.chunks := by
  intro source source' c d
  have clean : ¬['\r', '\n'] <:+: source := by decide
  have added : Text.ReturnsAdded source source' := by repeat constructor
  let header : List Placed := [⟨.text [' ', 'k', '\r', 'l', '\r'], { column := 5 }⟩,
    ⟨.leftBracket, { column := 10 }⟩, ⟨.text ['v'], { column := 11 }⟩, ⟨.equals, { column := 12 }⟩,
    ⟨.text ['\r', 'a', '\r', 'b'], { column := 13 }⟩, ⟨.rightBracket, { column := 17 }⟩,
    ⟨.text [' ', '\r', ' '], { column := 18 }⟩, ⟨.breaks 1, { column := 21 }⟩]
  let body : List Placed := [⟨.text ['\r'], { line := 2 }⟩,
    ⟨.reference [] ['m', '\r', 'n', '\r'], { line := 2, column := 2 }⟩,
    ⟨.breaks 1, { line := 2, column := 10 }⟩, ⟨.closing, { line := 3 }⟩,
    ⟨.text ['\r', ' '], { line := 3, column := 5 }⟩, ⟨.breaks 1, { line := 3, column := 7 }⟩]
  let loose : List Placed := [⟨.text ['x', '\r', 'y'], { line := 4 }⟩]
  have scanned : (Token.scan none source.unifyBreaks).outcome =
      .ok (⟨.opening .doc, {}⟩ :: (header ++ (body ++ loose))) := by
    unfold source header body loose
    cbv
  have chunk (finish : Location) :
      Read.chunk finish .doc {} (header ++ (body ++ loose)) = .ok (c, loose) := by
    unfold header body loose c
    cbv
  have hd : (read none source).outcome = .ok d := by
    rw [read_outcome scanned, Read.chunks_opening_outcome (chunk _),
      Read.chunks_literal_outcome rfl, Read.chunks]
    rfl
  obtain ⟨same, plan, found⟩ := read_line_endings source source' clean added none
  exact ⟨clean, added, same, plan, hd, found d hd⟩

/-- A carriage return behind the end of a chunk is not found in any content. -/
theorem read_drops_return :
    let source : Text := "@code a\nx\n@end\r".toList
    let d : Document := ⟨[⟨.code, ['a'], {}, [.text ['x']], {}⟩], none⟩
    ¬['\r', '\n'] <:+: source ∧ '\r' ∈ source ∧ (read none source).outcome = .ok d ∧
      ∀ c ∈ d.chunks, Atom.char '\r' ∉ Segment.atomsOf c.content := by
  intro source d
  have hd : (read none source).outcome = .ok d := by
    unfold source d
    cbv
  exact ⟨by decide, by decide, hd, by simp [d, Segment.atoms]⟩

end Document

end Literate
