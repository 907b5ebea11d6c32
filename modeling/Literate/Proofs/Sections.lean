import Mathlib.Data.List.Forall2
import Literate.Proofs.Concatenation
import Literate.Proofs.Printing

namespace Literate

namespace Text

/-- The lines of a text, each with its break. The last line may have none. -/
def lines : Text → List Text
  | [] => []
  | c :: rest =>
    if c = '\n' then ['\n'] :: lines rest
    else
      match lines rest with
      | [] => [[c]]
      | line :: later => (c :: line) :: later

@[simp] theorem lines_break (t : Text) : lines ('\n' :: t) = ['\n'] :: lines t := by
  rw [lines, if_pos rfl]

theorem flatten_lines (t : Text) : (lines t).flatten = t := by
  induction t with
  | nil => rfl
  | cons c t ih =>
    rw [lines]
    split
    · rename_i isBreak
      rw [List.flatten_cons, ih, isBreak]
      rfl
    · split
      · rename_i empty
        rw [empty] at ih
        rw [← ih]
        rfl
      · rename_i line later split
        rw [split] at ih
        rw [← ih]
        rfl

theorem lines_append_break {front : Text} (noBreak : '\n' ∉ front) (t : Text) :
    lines (front ++ '\n' :: t) = (front ++ ['\n']) :: lines t := by
  induction front with
  | nil => exact lines_break t
  | cons c front ih =>
    have hc : c ≠ '\n' := by
      rintro rfl
      exact noBreak List.mem_cons_self
    rw [List.cons_append, lines, if_neg hc, ih fun hf => noBreak (List.mem_cons_of_mem _ hf)]
    rfl

/-- A text without a break stands in front of the first line. -/
theorem lines_append {front : Text} (noBreak : '\n' ∉ front) (nonempty : front ≠ []) (t : Text) :
    ∃ tail, lines (front ++ t) = (front ++ tail) :: (lines t).tail := by
  induction front with
  | nil => exact absurd rfl nonempty
  | cons c front ih =>
    have hc : c ≠ '\n' := by
      rintro rfl
      exact noBreak List.mem_cons_self
    rw [List.cons_append, lines, if_neg hc]
    cases front with
    | nil =>
      cases h : lines t with
      | nil => exact ⟨[], by rw [List.nil_append, h]; rfl⟩
      | cons line later => exact ⟨line, by rw [List.nil_append, h]; rfl⟩
    | cons d front =>
      obtain ⟨tail, split⟩ := ih (fun hd => noBreak (List.mem_cons_of_mem _ hd)) (by simp)
      exact ⟨tail, by rw [split]; rfl⟩

/-- The lines that begin in a text, if one begins at its front as the flag says. -/
def linesFrom (lineStart : Bool) (t : Text) : List Text :=
  if lineStart then lines t else (lines t).tail

theorem linesFrom_append {front : Text} (noBreak : '\n' ∉ front) (nonempty : front ≠ [])
    (lineStart : Bool) (t : Text) :
    ∃ begun, linesFrom lineStart (front ++ t) = begun ++ linesFrom false t ∧
      ∀ line ∈ begun, front <+: line := by
  obtain ⟨tail, split⟩ := lines_append noBreak nonempty t
  cases lineStart with
  | true => exact ⟨[front ++ tail], split, by simp⟩
  | false => exact ⟨[], by simp [linesFrom, split], by simp⟩

theorem linesFrom_breaks (lineStart : Bool) (n : Nat) (t : Text) :
    ∃ begun, linesFrom lineStart (List.replicate (n + 1) '\n' ++ t) = begun ++ linesFrom true t ∧
      ∀ line ∈ begun, line = ['\n'] := by
  have blank : lines (List.replicate n '\n' ++ t) = List.replicate n ['\n'] ++ lines t := by
    induction n with
    | zero => rfl
    | succ n ih => rw [List.replicate_succ, List.cons_append, lines_break, ih]; rfl
  have split : lines (List.replicate (n + 1) '\n' ++ t) =
      ['\n'] :: (List.replicate n ['\n'] ++ lines t) := by
    rw [List.replicate_succ, List.cons_append, lines_break, blank]
  cases lineStart with
  | true =>
    refine ⟨List.replicate (n + 1) ['\n'], split, ?_⟩
    exact fun line hl => List.eq_of_mem_replicate hl
  | false =>
    refine ⟨List.replicate n ['\n'], by simp [linesFrom, split], ?_⟩
    exact fun line hl => List.eq_of_mem_replicate hl

end Text

/-- What stands between a heading line and an ending line. -/
structure Section where
  kind : ChunkKind
  name : Text
  body : Text

namespace Section

/-- The name in a heading: all behind the directive, or up to the options. -/
def headingName (rest : Text) : Text := Text.trim (rest.takeWhile (· != '['))

/-- The section that a line opens. -/
def heading? : Text → Option Section
  | '@' :: 'c' :: 'o' :: 'd' :: 'e' :: rest => some ⟨.code, headingName rest, []⟩
  | '@' :: 'd' :: 'o' :: 'c' :: rest => some ⟨.doc, headingName rest, []⟩
  | _ => none

/-- Whether a line ends a section. -/
def isEnding : Text → Bool
  | '@' :: 'e' :: 'n' :: 'd' :: _ => true
  | _ => false

/-- The sections of a list of lines, if one is open as said. -/
def among : Option Section → List Text → List Section
  | _, [] => []
  | none, line :: rest => among (heading? line) rest
  | some s, line :: rest =>
    if isEnding line then s :: among none rest
    else among (some { s with body := s.body ++ line }) rest

end Section

/-- The sections of a source. -/
def Text.sections (t : Text) : List Section := Section.among none t.lines

namespace Section

/-- A line that neither opens nor ends a section. -/
def Ordinary (line : Text) : Prop := heading? line = none ∧ isEnding line = false

theorem ordinary_of_head {line : Text} (h : line.head? ≠ some '@') : Ordinary line := by
  constructor
  · unfold heading?
    split <;> simp_all
  · unfold isEnding
    split <;> simp_all

theorem among_none {lines : List Text} (h : ∀ line ∈ lines, Ordinary line) (rest : List Text) :
    among none (lines ++ rest) = among none rest := by
  induction lines with
  | nil => rfl
  | cons line lines ih =>
    rw [List.cons_append, among, (h line List.mem_cons_self).1]
    exact ih fun line hl => h line (List.mem_cons_of_mem _ hl)

theorem among_some {lines : List Text} (h : ∀ line ∈ lines, Ordinary line) (s : Section)
    (rest : List Text) :
    among (some s) (lines ++ rest) =
      among (some { s with body := s.body ++ lines.flatten }) rest := by
  induction lines generalizing s with
  | nil => simp
  | cons line lines ih =>
    rw [List.cons_append, among, (h line List.mem_cons_self).2, if_neg Bool.false_ne_true,
      ih fun line hl => h line (List.mem_cons_of_mem _ hl)]
    simp

end Section

namespace Token

open Text Lexeme Section

/-- Whether the token is the directive of a heading or of an ending. -/
def isDirective : Token → Bool
  | .opening _ | .closing => true
  | _ => false

/-- The first token of a text, with blanks behind it if it is a reference, and what is left. -/
theorem uncons_of_scans {lineStart : Bool} {t : Text} {token : Token} {later : List Token}
    (h : Scans lineStart t (token :: later)) :
    ∃ blanks rest, t = token.spell ++ blanks ++ rest ∧ (∀ c ∈ blanks, isBlank c = true) ∧
      ((∀ indent name, token ≠ .reference indent name) → blanks = []) ∧
      (blanks ≠ [] → rest = [] ∨ ∃ tail, rest = '\n' :: tail) ∧
      Scans token.isBreak rest later := by
  generalize all : token :: later = ts at h
  cases h with
  | nil => simp at all
  | @cons _ _ rest first more reads scans =>
    cases reads with
    | sign sign =>
      rw [split_of_isSign sign] at all
      obtain ⟨rfl, rfl⟩ := List.cons.inj all
      exact ⟨[], rest, by simp, by simp, fun _ => rfl, by simp, scans⟩
    | @reference indent name tail blank inside =>
      by_cases whole : (indent.isEmpty || lineStart) = true
      · simp only [split, if_pos whole, List.singleton_append, List.cons.injEq] at all
        obtain ⟨rfl, rfl⟩ := all
        refine ⟨lineEndBlanks tail, _, ?_, ?_, fun other => absurd rfl (other indent name),
          drop_lineEndBlanks, scans⟩
        · simp [spell, lineEndBlanks_append]
        · exact fun c hc => isBlank_of_mem_lineEndBlanks hc
      · simp only [split, if_neg whole, List.cons_append, List.nil_append, List.cons.injEq] at all
        obtain ⟨rfl, rfl⟩ := all
        have reads := @Reads.reference [] name tail (by simp) inside
        refine ⟨[], _, ?_, by simp, fun _ => rfl, by simp, @Scans.cons false _ _ _ _ reads scans⟩
        simp [spell]
    | text =>
      obtain ⟨rfl, rfl⟩ := List.cons.inj all
      exact ⟨[], rest, by simp [spell], by simp, fun _ => rfl, by simp, scans⟩
    | breaks =>
      obtain ⟨rfl, rfl⟩ := List.cons.inj all
      exact ⟨[], rest, by simp [spell], by simp, fun _ => rfl, by simp, scans⟩

theorem breaks_of_scans {lineStart : Bool} {t : Text} {n : Nat} {later : List Token}
    (h : Scans lineStart t (.breaks n :: later)) :
    ∃ rest, t = List.replicate n '\n' ++ rest ∧ Stops (· == '\n') rest ∧ Scans true rest later := by
  generalize all : Token.breaks n :: later = ts at h
  cases h with
  | nil => simp at all
  | @cons _ _ rest first more reads scans =>
    cases reads with
    | sign sign =>
      rw [split_of_isSign sign] at all
      obtain ⟨rfl, _⟩ := List.cons.inj all
      simp [isSign] at sign
    | reference =>
      simp only [split] at all
      split at all <;> simp at all
    | text => simp [split] at all
    | breaks _ stop =>
      obtain ⟨same, rfl⟩ := List.cons.inj all
      obtain rfl := Token.breaks.inj same
      exact ⟨rest, rfl, stop, scans⟩

theorem ordinary_of_spell {lineStart : Bool} {token : Token} {later : List Token}
    (fits : Fits lineStart token later) (inside : token.isDirective = false) {line : Text}
    (h : token.spell <+: line) : Ordinary line := by
  obtain ⟨tail, rfl⟩ := h
  cases token with
  | opening | closing => simp [isDirective] at inside
  | escapedAt => exact ⟨rfl, rfl⟩
  | reference indent name =>
    cases indent with
    | nil => exact ⟨rfl, rfl⟩
    | cons c indent =>
      apply ordinary_of_head
      have blank := fits.1 c List.mem_cons_self
      rcases isBlank_iff.1 blank with rfl | rfl <;> simp [spell]
  | text u =>
    obtain ⟨nonempty, plain, _⟩ := fits
    obtain ⟨c, u, rfl⟩ := List.exists_cons_of_ne_nil nonempty
    apply ordinary_of_head
    intro at_
    obtain rfl : c = '@' := by simpa [spell] using at_
    exact absurd (plain _ List.mem_cons_self) (by decide)
  | breaks n =>
    obtain ⟨m, rfl⟩ : ∃ m, n = m + 1 := ⟨n - 1, by have := fits.1; omega⟩
    exact ordinary_of_head (by simp [spell, List.replicate_succ])
  | _ => exact ordinary_of_head (by simp [spell])

theorem noBreak_spell {lineStart : Bool} {token : Token} {later : List Token}
    (fits : Fits lineStart token later) (h : token.isBreak = false) : '\n' ∉ token.spell := by
  rcases sign_or token with sign | ⟨indent, name, rfl⟩ | ⟨u, rfl⟩ | ⟨n, rfl⟩
  · exact noBreak_sign sign
  · exact noBreak_reference fits.1 fits.2.2.1
  · exact fun hu => absurd (fits.2.1 _ hu) (by decide)
  · simp [isBreak] at h

/-- The lines that begin in a token which is no directive are ordinary. -/
theorem linesFrom_of_token {lineStart : Bool} {t : Text} {token : Token} {later : List Token}
    (h : Scans lineStart t (token :: later)) (inside : token.isDirective = false) :
    ∃ blanks rest begun, t = token.spell ++ blanks ++ rest ∧ (∀ c ∈ blanks, isBlank c = true) ∧
      (token.literal? ≠ none → blanks = []) ∧ Scans token.isBreak rest later ∧
      linesFrom lineStart t = begun ++ linesFrom token.isBreak rest ∧
      ∀ line ∈ begun, Ordinary line := by
  obtain ⟨blanks, rest, rfl, blank, only, _, scans⟩ := uncons_of_scans h
  have fits := (settled_of_scans h).1
  have literal (hl : token.literal? ≠ none) : blanks = [] := by
    apply only
    rintro indent name rfl
    exact hl rfl
  refine ⟨blanks, rest, ?_⟩
  cases hb : token.isBreak with
  | true =>
    obtain ⟨n, rfl⟩ : ∃ n, token = .breaks (n + 1) := by
      cases token with
      | breaks n => exact ⟨n - 1, by rw [Nat.sub_add_cancel fits.1]⟩
      | _ => simp [isBreak] at hb
    obtain rfl := literal (by simp [literal?])
    obtain ⟨begun, split, empty⟩ := linesFrom_breaks lineStart n rest
    refine ⟨begun, rfl, blank, literal, scans, ?_, ?_⟩
    · rw [← split, List.append_nil]
      rfl
    · intro line hl
      rw [empty line hl]
      exact ⟨rfl, rfl⟩
  | false =>
    have noBlank : '\n' ∉ blanks := fun hi => absurd (blank _ hi) (by decide)
    have noBreak : '\n' ∉ token.spell ++ blanks := by simp [noBreak_spell fits hb, noBlank]
    have nonempty : token.spell ++ blanks ≠ [] := by simp [spell_ne_nil fits]
    obtain ⟨begun, split, starts⟩ := linesFrom_append noBreak nonempty lineStart rest
    refine ⟨begun, rfl, blank, literal, hb ▸ scans, split, ?_⟩
    intro line hl
    exact ordinary_of_spell fits inside ((List.prefix_append _ _).trans (starts line hl))

end Token

namespace Grammar

open Text Token Section Read

variable {lineStart : Bool} {t : Text}

/-- One line break off the tokens is one off the text. -/
theorem scans_of_lineBreak {ts rest : List Placed} (hl : LineBreak ts rest)
    (h : Scans lineStart t (ts.map (·.token))) :
    ∃ t', t = '\n' :: t' ∧ Scans true t' (rest.map (·.token)) := by
  cases hl with
  | single =>
    obtain ⟨t', rfl, _, scans⟩ := breaks_of_scans h
    exact ⟨t', rfl, scans⟩
  | @run n rest loc hn =>
    obtain ⟨t', rfl, stop, scans⟩ := breaks_of_scans h
    exact ⟨List.replicate n '\n' ++ t', rfl, .cons (.breaks hn stop) scans⟩

/-- Tokens that stand for themselves and hold no line break. -/
def Inline (ts : List Placed) : Prop :=
  ∀ p ∈ ts, p.token.literal? ≠ none ∧ p.token.isBreak = false

theorem inline_of_gap {gap : List Placed} (h : Gap gap) : Inline gap := by
  cases h <;> simp [Inline, literal?, isBreak]

theorem inline_of_pair {ts : List Placed} {e : Text × Text} (h : Pair ts e) : Inline ts := by
  cases h <;> simp [Inline, literal?, isBreak]

theorem inline_of_pairs {ts : List Placed} {es : List (Text × Text)} (h : Pairs ts es) :
    Inline ts := by
  induction h with
  | last pair => exact inline_of_pair pair
  | more pair _ ih =>
    intro p hp
    rcases List.mem_append.1 hp with hp | hp
    · exact inline_of_pair pair p hp
    · rcases List.mem_cons.1 hp with rfl | hp
      · simp [literal?, isBreak]
      · exact ih p hp

theorem inline_of_optionList {list : List Placed} {o : Options} (h : OptionList list o) :
    Inline list := by
  cases h with
  | absent => simp [Inline]
  | empty => simp [Inline, literal?, isBreak]
  | items pairs =>
    intro p hp
    rcases List.mem_cons.1 hp with rfl | hp
    · simp [literal?, isBreak]
    · rcases List.mem_append.1 hp with hp | hp
      · exact inline_of_pairs pairs p hp
      · obtain rfl := List.mem_singleton.1 hp
        simp [literal?, isBreak]

theorem isDirective_of_literal? {token : Token} (h : token.literal? ≠ none) :
    token.isDirective = false := by
  cases token <;> simp_all [literal?, isDirective]

theorem scans_of_inline {inner ts : List Placed}
    (h : Scans lineStart t ((inner ++ ts).map (·.token))) (inline : Inline inner) :
    ∃ starts rest, t = spelling (inner.map (·.token)) ++ rest ∧
      '\n' ∉ spelling (inner.map (·.token)) ∧ Scans starts rest (ts.map (·.token)) := by
  induction inner generalizing lineStart t with
  | nil => exact ⟨lineStart, t, rfl, by simp, h⟩
  | cons p inner ih =>
    obtain ⟨⟨literal, noBreak⟩, inline⟩ := List.forall_mem_cons.1 inline
    obtain ⟨blanks, rest, rfl, _, only, _, scans⟩ := uncons_of_scans h
    obtain rfl := only (by rintro indent name same; simp [same, literal?] at literal)
    obtain ⟨starts, rest', rfl, noBreak', scans'⟩ := ih scans inline
    refine ⟨starts, rest', by simp, ?_, scans'⟩
    rw [List.map_cons, spelling_cons, List.mem_append, not_or]
    exact ⟨noBreak_spell (settled_of_scans h).1 noBreak, noBreak'⟩

end Grammar

namespace Text

theorem trimEnd_append {t spaces : Text} (h : ∀ c ∈ spaces, isSpace c = true) :
    trimEnd (t ++ spaces) = trimEnd t := by
  unfold trimEnd
  rw [List.reverse_append, List.dropWhile_append_of_pos fun c hc => h c (List.mem_reverse.1 hc)]

theorem trim_append {t spaces : Text} (h : ∀ c ∈ spaces, isSpace c = true) :
    trim (t ++ spaces) = t.trim := by
  unfold trim trimStart
  rw [List.dropWhile_append]
  split
  · rename_i empty
    have none : spaces.dropWhile isSpace = [] := List.dropWhile_eq_nil_iff.2 h
    rw [none, List.isEmpty_iff.1 empty]
  · exact trimEnd_append h

/-- Reads two `@` as one. -/
def undoubleAt : Text → Text
  | '@' :: '@' :: rest => '@' :: undoubleAt rest
  | c :: rest => c :: undoubleAt rest
  | [] => []

/-- What a text stands for outside of the lines that open and end chunks. -/
inductive StandsFor : Text → List Atom → Prop where
  | nil : StandsFor [] []
  | char {c : Char} {t : Text} {as : List Atom} : c ≠ '@' → StandsFor t as →
      StandsFor (c :: t) (.char c :: as)
  | doubled {t : Text} {as : List Atom} : StandsFor t as →
      StandsFor ('@' :: '@' :: t) (.char '@' :: as)
  | reference {indent name blanks t : Text} {loc : Location} {as : List Atom} :
      (∀ c ∈ indent, isBlank c = true) → (∀ c ∈ name, Lexeme.inName c = true) →
      name.trim ≠ [] → (∀ c ∈ blanks, isBlank c = true) → StandsFor t as →
      StandsFor (indent ++ '@' :: '<' :: name ++ ['>'] ++ blanks ++ t)
        (.reference name.trim indent loc :: as)

theorem StandsFor.doubleAt {t : Text} {as : List Atom} (h : StandsFor t as) (u : Text) :
    StandsFor (doubleAt u ++ t) (u.map .char ++ as) := by
  induction u with
  | nil => exact h
  | cons c u ih =>
    by_cases hc : c = '@'
    · subst hc
      exact .doubled ih
    · have split : Text.doubleAt (c :: u) ++ t = c :: (Text.doubleAt u ++ t) := by
        simp [Text.doubleAt, hc]
      rw [split]
      exact .char hc ih

/-- Without a reference the characters are those of the text, with every `@` once. -/
theorem StandsFor.eq_undoubleAt {t : Text} {as : List Atom} (h : StandsFor t as)
    (chars : ∀ a ∈ as, ∃ c, a = .char c) : as = t.undoubleAt.map .char := by
  induction h with
  | nil => rfl
  | @char c t as hc _ ih =>
    have once : undoubleAt (c :: t) = c :: undoubleAt t := by
      rw [undoubleAt]
      intro rest same
      exact absurd same hc
    rw [once, List.map_cons, ← ih fun a ha => chars a (List.mem_cons_of_mem _ ha)]
  | @doubled t as _ ih =>
    rw [ih fun a ha => chars a (List.mem_cons_of_mem _ ha)]
    rfl
  | reference =>
    obtain ⟨c, impossible⟩ := chars _ List.mem_cons_self
    simp at impossible

end Text

/-- Behind the name of a heading stand its options, or nothing but spaces. -/
theorem Section.headingName_append {t rest : Text} (ht : '[' ∉ t)
    (h : rest.head? = some '[' ∨ ∀ c ∈ rest, Text.isSpace c = true) :
    headingName (t ++ rest) = t.trim := by
  have plain : ∀ c ∈ t, (c != '[') = true := by
    intro c hc
    have other : c ≠ '[' := by
      rintro rfl
      exact ht hc
    simpa using other
  unfold headingName
  rw [List.takeWhile_append_of_pos plain]
  rcases h with bracket | spaces
  · obtain ⟨tail, rfl⟩ := List.head?_eq_some_iff.1 bracket
    simp
  · have all : rest.takeWhile (· != '[') = rest := by
      rw [List.takeWhile_eq_self_iff]
      intro c hc
      have other : c ≠ '[' := by
        rintro rfl
        exact absurd (spaces _ hc) (by decide)
      simpa using other
    rw [all, Text.trim_append spaces]

namespace Grammar

open Text Token Section Read
open Segment (atomsOf)

variable {t : Text}

theorem head?_of_optionList {list : List Placed} {o : Options} (h : OptionList list o) :
    list = [] ∨ ∃ tail, spelling (list.map (·.token)) = '[' :: tail := by
  cases h with
  | absent => exact Or.inl rfl
  | empty => exact Or.inr ⟨_, rfl⟩
  | items => exact Or.inr ⟨_, rfl⟩

theorem isSpace_of_gap {gap : List Placed} (h : Gap gap) :
    ∀ c ∈ spelling (gap.map (·.token)), isSpace c = true := by
  cases h with
  | none => simp
  | blank empty =>
    intro c hc
    exact trim_eq_nil_iff.1 empty c (by simpa [spell] using hc)

/-- The name of a heading is what stands in front of its options. -/
theorem headingName_of_optionList {u : Text} {o : Options} {list gap : List Placed} (hu : '[' ∉ u)
    (ho : OptionList list o) (hg : Gap gap) :
    headingName (u ++ (spelling (list.map (·.token)) ++ spelling (gap.map (·.token)) ++ ['\n'])) =
      u.trim := by
  apply headingName_append hu
  rcases head?_of_optionList ho with rfl | ⟨tail, bracket⟩
  · right
    simp only [List.map_nil, spelling_nil, List.nil_append, List.mem_append, List.mem_singleton]
    rintro c (hc | rfl)
    · exact isSpace_of_gap hg c hc
    · decide
  · left
    rw [bracket]
    rfl

/-- The header of a chunk is a heading line. -/
theorem heading_of_scans {kind : ChunkKind} {u : Text} {o : Options}
    {list gap line rest : List Placed} {loc l₁ : Location} (ho : OptionList list o) (hg : Gap gap)
    (hl : LineBreak line rest)
    (h : Scans true t
      ((⟨.opening kind, loc⟩ :: ⟨.text u, l₁⟩ :: (list ++ (gap ++ line))).map (·.token))) :
    ∃ head t', lines t = head :: lines t' ∧ heading? head = some ⟨kind, u.trim, []⟩ ∧
      head = (Token.opening kind).spell ++
        (u ++ (spelling (list.map (·.token)) ++ spelling (gap.map (·.token)))) ++ ['\n'] ∧
      Scans true t' (rest.map (·.token)) := by
  obtain ⟨blanks, s₁, rfl, _, only, _, scans⟩ := uncons_of_scans h
  obtain rfl := only (by simp)
  have inline : Inline (⟨.text u, l₁⟩ :: (list ++ gap)) := by
    intro p hp
    rcases List.mem_cons.1 hp with rfl | hp
    · simp [literal?, isBreak]
    · rcases List.mem_append.1 hp with hp | hp
      · exact inline_of_optionList ho p hp
      · exact inline_of_gap hg p hp
  have noBracket : '[' ∉ u := fun hu => absurd ((settled_of_scans scans).1.2.1 _ hu) (by decide)
  obtain ⟨starts, s₂, rfl, noBreak, behind⟩ :=
    @scans_of_inline _ _ (⟨.text u, l₁⟩ :: (list ++ gap)) line (by simpa using scans) inline
  obtain ⟨t', rfl, after⟩ := scans_of_lineBreak hl behind
  have spelled : spelling ((⟨.text u, l₁⟩ :: (list ++ gap)).map (·.token)) =
      u ++ (spelling (list.map (·.token)) ++ spelling (gap.map (·.token))) := by simp [spell]
  have name := headingName_of_optionList noBracket ho hg
  rw [spelled] at noBreak ⊢
  generalize spelling (list.map (·.token)) ++ spelling (gap.map (·.token)) = tail at noBreak name ⊢
  have noBreak' : '\n' ∉ (Token.opening kind).spell ++ (u ++ tail) := by
    rw [List.mem_append, not_or]
    exact ⟨by cases kind <;> decide, noBreak⟩
  have heading : heading? ((Token.opening kind).spell ++ (u ++ tail) ++ ['\n']) =
      some ⟨kind, u.trim, []⟩ := by
    rw [← name]
    cases kind <;> simp [spell, heading?]
  rw [List.append_nil, ← List.append_assoc]
  exact ⟨_, t', lines_append_break noBreak' t', heading, rfl, after⟩

/-- The footer of a chunk is an ending line, which holds nothing else but spaces. -/
theorem ending_of_scans {gap foot rest : List Placed} {loc : Location} (hg : Gap gap)
    (he : LineEnd foot rest)
    (h : Scans true t ((⟨.closing, loc⟩ :: (gap ++ foot)).map (·.token))) :
    ∃ last t', lines t = last :: lines t' ∧ isEnding last = true ∧
      (∀ c ∈ last.drop 4, isSpace c = true) ∧ Scans true t' (rest.map (·.token)) := by
  obtain ⟨blanks, s₁, rfl, _, only, _, scans⟩ := uncons_of_scans h
  obtain rfl := only (by simp)
  obtain ⟨starts, s₂, rfl, noBreak, behind⟩ := scans_of_inline scans (inline_of_gap hg)
  have spaces := isSpace_of_gap hg
  generalize spelling (gap.map (·.token)) = gap at noBreak spaces ⊢
  have noBreak' : '\n' ∉ Token.closing.spell ++ gap := by
    rw [List.mem_append, not_or]
    exact ⟨by decide, noBreak⟩
  rw [List.append_nil, ← List.append_assoc]
  cases he with
  | lineBreak hl =>
    obtain ⟨t', rfl, after⟩ := scans_of_lineBreak hl behind
    refine ⟨_, t', lines_append_break noBreak' t', rfl, ?_, after⟩
    intro c hc
    rcases List.mem_append.1 (show c ∈ gap ++ ['\n'] from hc) with hc | hc
    · exact spaces c hc
    · rw [List.mem_singleton.1 hc]
      decide
  | finish =>
    obtain rfl := eq_nil_of_scans_nil behind rfl
    obtain ⟨tail, split⟩ := lines_append noBreak' (by simp [spell]) []
    have whole := congrArg List.flatten split
    rw [flatten_lines] at whole
    obtain rfl : tail = [] := by simpa [lines] using whole
    exact ⟨_, [], split, rfl, by simpa [spell] using spaces, .nil⟩

theorem char_of_contents {as : List Atom} {content : List Segment} (h : Contents as content)
    (text : ∀ g ∈ content, g.isReference = false) : ∀ a ∈ as, ∃ c, a = .char c := by
  rcases h.2 with ⟨rfl, _⟩ | rfl
  · simp
  · intro a ha
    rcases List.mem_append.1 ha with ha | ha
    · obtain ⟨g, hg, ha⟩ := List.mem_flatMap.1 ha
      have noReference := text g hg
      cases g with
      | text u =>
        obtain ⟨c, _, rfl⟩ := List.mem_map.1 ha
        exact ⟨c, rfl⟩
      | reference => simp [Segment.isReference] at noReference
    · exact ⟨'\n', List.mem_singleton.1 ha⟩

theorem isDirective_of_loose {p : Placed} {c : Chunk} (h : Loose p c) :
    p.token.isDirective = false := by
  cases h with
  | literal literal => exact isDirective_of_literal? (by simp [literal])
  | reference => rfl

/-- The lines that begin in a body are ordinary, and its text stands for its parts. -/
theorem standsFor_of_body {lineStart : Bool} {body ts : List Placed} {as : List Atom}
    (hb : Body body as) (h : Scans lineStart t ((body ++ ts).map (·.token))) :
    ∃ front rest begun, t = front ++ rest ∧ StandsFor front as ∧
      Scans (startsAfter lineStart body) rest (ts.map (·.token)) ∧
      linesFrom lineStart t = begun ++ linesFrom (startsAfter lineStart body) rest ∧
      ∀ line ∈ begun, Ordinary line := by
  induction hb generalizing lineStart t with
  | nil => exact ⟨[], t, [], rfl, .nil, h, rfl, by simp⟩
  | @literal token loc u body as literal _ ih =>
    have itself : token.literal? ≠ none := by simp [literal]
    obtain ⟨blanks, rest, begun, rfl, _, only, scans, split, ordinary⟩ :=
      linesFrom_of_token h (isDirective_of_literal? itself)
    obtain rfl := only itself
    obtain ⟨front, rest', begun', rfl, stands, scans', split', ordinary'⟩ := ih scans
    rw [startsAfter_cons]
    refine ⟨token.spell ++ front, rest', begun ++ begun', by simp, ?_, scans', ?_, ?_⟩
    · rw [← doubleAt_literal (settled_of_scans h).1 literal]
      exact stands.doubleAt u
    · rw [split, split', List.append_assoc]
    · exact List.forall_mem_append.2 ⟨ordinary, ordinary'⟩
  | @reference indent name loc body as nonempty _ ih =>
    obtain ⟨blanks, rest, begun, rfl, blank, _, scans, split, ordinary⟩ := linesFrom_of_token h rfl
    obtain ⟨front, rest', begun', rfl, stands, scans', split', ordinary'⟩ := ih scans
    obtain ⟨indented, _, inName, _⟩ := (settled_of_scans h).1
    rw [startsAfter_cons]
    refine ⟨(Token.reference indent name).spell ++ blanks ++ front, rest', begun ++ begun', by simp,
      .reference indented inName nonempty blank stands, scans', ?_, ?_⟩
    · rw [split, split', List.append_assoc]
    · exact List.forall_mem_append.2 ⟨ordinary, ordinary'⟩

end Grammar

/-- What a section says of the chunk that is read from it. -/
structure Section.Holds (s : Section) (c : Chunk) : Prop where
  kind : c.kind = s.kind
  name : c.name = s.name
  content : (∀ g ∈ c.content, g.isReference = false) →
    Grammar.Contents (s.body.undoubleAt.map .char) c.content

namespace Grammar

open Text Token Section Read

variable {t : Text}

theorem holds_of_named {ts rest : List Placed} {c : Chunk} (hn : Named ts c rest)
    (h : Scans true t (ts.map (·.token))) :
    ∃ s t', among none (lines t) = s :: among none (lines t') ∧ s.Holds c ∧
      Scans true t' (rest.map (·.token)) := by
  cases hn with
  | @mk kind u options as content list gap line body gap' foot rest loc l₁ l₂
      _ _ hlist hg hl hb starts hg' he hc =>
    -- The heading line, the lines of the body and the ending line, each with what is behind it.
    obtain ⟨head, t₁, split, heading, _, scans⟩ := heading_of_scans hlist hg hl h
    obtain ⟨front, t₂, begun, rfl, stands, behind, split', ordinary⟩ := standsFor_of_body hb scans
    rw [← startsAfter_true] at starts
    rw [starts] at behind split'
    obtain ⟨last, t₃, split'', ending, _, after⟩ := ending_of_scans hg' he behind
    replace split' : lines (front ++ t₂) = begun ++ lines t₂ := split'
    have body_eq : begun.flatten = front := by
      have whole := congrArg List.flatten split'
      rw [List.flatten_append, flatten_lines, flatten_lines] at whole
      exact (List.append_cancel_right whole).symm
    refine ⟨⟨kind, u.trim, front⟩, t₃, ?_, ⟨rfl, rfl, ?_⟩, after⟩
    · rw [split, among, heading, split', among_some ordinary, split'', among, if_pos ending,
        body_eq]
      rfl
    · intro text
      rw [← stands.eq_undoubleAt (char_of_contents hc text)]
      exact hc

/-- The sections of a source are its named chunks. -/
theorem holds_of_derives {lineStart : Bool} {ts : List Placed} {cs : List Chunk}
    (hd : Derives lineStart ts cs) (h : Scans lineStart t (ts.map (·.token))) :
    List.Forall₂ Section.Holds (among none (linesFrom lineStart t))
      (cs.filter fun c => !c.isAnonymous) := by
  -- Between chunks no section is open, and the lines that begin there open none.
  induction hd generalizing t with
  | nil =>
    obtain rfl := eq_nil_of_scans_nil h rfl
    rename_i lineStart
    cases lineStart <;> exact .nil
  | @loose lineStart p ts c cs hl _ ih =>
    have anonymous : c.isAnonymous = true := by cases hl <;> rfl
    obtain ⟨_, rest, begun, _, _, _, scans, split, ordinary⟩ :=
      linesFrom_of_token h (isDirective_of_loose hl)
    rw [split, among_none ordinary, List.filter_cons_of_neg (by simp [anonymous])]
    exact ih scans
  | @chunk ts rest c cs named _ ih =>
    obtain ⟨s, t', split, holds, scans⟩ := holds_of_named named h
    have proper : c.isAnonymous = false := by
      cases named
      simpa [Chunk.isAnonymous]
    show List.Forall₂ Section.Holds (among none (lines t)) _
    rw [split, List.filter_cons_of_pos (by simp [proper])]
    exact .cons holds (ih scans)

end Grammar

end Literate
