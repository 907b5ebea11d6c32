import Literate.Proofs.Locality
import Literate.Proofs.Running

namespace Literate

namespace Text

theorem clean_of_noReturn {t : Text} (h : ¬['\r', '\n'] <:+: t) : Clean t := by
  induction t with
  | nil => exact .nil
  | cons c t ih =>
    refine List.isChain_cons.2 ⟨?_, ih fun found => h (found.trans (List.suffix_cons c t).isInfix)⟩
    rintro d hd ⟨rfl, rfl⟩
    obtain ⟨tail, rfl⟩ := List.head?_eq_some_iff.1 hd
    exact h ⟨[], tail, rfl⟩

theorem clean_append_break {t : Text} (h : ¬['\r', '\n'] <:+: t) (last : t.getLast? ≠ some '\r') :
    Clean (t ++ ['\n']) := by
  refine (clean_of_noReturn h).append (List.isChain_singleton _) ?_
  rintro c hc d _ ⟨rfl, _⟩
  exact last hc

end Text

namespace Token

open Text (Clean)
open Lexeme (isPlain)

/-- The sign that stands for a character, if one does. -/
def signFor? : Char → Option Token
  | '@' => some .escapedAt
  | '[' => some .leftBracket
  | ']' => some .rightBracket
  | '=' => some .equals
  | ',' => some .comma
  | _ => none

/-- The tokens with a plain character in front, in one text with those that stand there. -/
def withPlain (c : Char) : List Token → List Token
  | .text t :: ts => .text (c :: t) :: ts
  | ts => .text [c] :: ts

/-- The tokens with one more character in front of what they stand for. -/
def withChar (c : Char) (ts : List Token) : List Token :=
  match signFor? c with
  | some sign => sign :: ts
  | none => if c = '\n' then withBreak ts else withPlain c ts

/-- The tokens of a text in which every `@` is doubled. -/
def literals (t : Text) : List Token := t.foldr withChar []

theorem literals_cons (c : Char) (t : Text) : literals (c :: t) = withChar c (literals t) := rfl

theorem signFor?_spec {c : Char} {t : Token} (h : signFor? c = some t) :
    t.isSign = true ∧ t.literal? = some [c] ∧ t.spell = Text.doubleAt [c] := by
  unfold signFor? at h
  split at h
  case h_6 => simp at h
  all_goals
    obtain rfl := Option.some.inj h
    exact ⟨rfl, rfl, rfl⟩

theorem signFor?_eq_none {c : Char} (h : signFor? c = none) (hn : c ≠ '\n') : isPlain c = true := by
  have all : c ≠ '@' ∧ c ≠ '[' ∧ c ≠ ']' ∧ c ≠ '=' ∧ c ≠ ',' := by
    refine ⟨?_, ?_, ?_, ?_, ?_⟩
    all_goals
      rintro rfl
      simp [signFor?] at h
  simp [isPlain, all, hn]

/-- A character is a sign, a line break, or part of a text. -/
theorem withChar_cases (c : Char) :
    (∃ t : Token, t.isSign = true ∧ t.literal? = some [c] ∧ t.spell = Text.doubleAt [c] ∧
      ∀ ts, withChar c ts = t :: ts) ∨
    (c = '\n' ∧ ∀ ts, withChar c ts = withBreak ts) ∨
    (isPlain c = true ∧ ∀ ts, withChar c ts = withPlain c ts) := by
  cases h : signFor? c with
  | some t =>
    obtain ⟨sign, literal, spell⟩ := signFor?_spec h
    exact Or.inl ⟨t, sign, literal, spell, fun ts => by simp [withChar, h]⟩
  | none =>
    by_cases hn : c = '\n'
    · subst hn
      exact Or.inr (Or.inl ⟨rfl, fun ts => rfl⟩)
    · exact Or.inr (Or.inr ⟨signFor?_eq_none h hn, fun ts => by simp [withChar, h, hn]⟩)

theorem withPlain_of_startsText {ts : List Token} (h : startsText ts = false) (c : Char) :
    withPlain c ts = .text [c] :: ts := by
  unfold withPlain
  split
  · simp [startsText] at h
  · rfl

theorem doubleAt_of_isPlain {c : Char} (h : isPlain c = true) : Text.doubleAt [c] = [c] := by
  apply doubleAt_eq_self
  rw [List.mem_singleton]
  rintro rfl
  simp [isPlain] at h

theorem spelling_withChar (c : Char) (ts : List Token) :
    spelling (withChar c ts) = Text.doubleAt [c] ++ spelling ts := by
  rcases withChar_cases c with ⟨t, _, _, spell, eq⟩ | ⟨rfl, eq⟩ | ⟨plain, eq⟩
  · rw [eq, spelling_cons, spell]
  · rw [eq, spelling_withBreak]
    rfl
  · rw [eq, doubleAt_of_isPlain plain]
    unfold withPlain
    split
    · rfl
    · rfl

theorem spelling_literals (t : Text) : spelling (literals t) = t.doubleAt := by
  induction t with
  | nil => rfl
  | cons c t ih =>
    rw [literals_cons, spelling_withChar, ih]
    exact List.flatMap_append.symm

theorem withChar_append (c : Char) (ts us : List Token) :
    withChar c (ts ++ .closing :: us) = withChar c ts ++ .closing :: us := by
  rcases withChar_cases c with ⟨t, _, _, _, eq⟩ | ⟨_, eq⟩ | ⟨_, eq⟩
  · rw [eq, eq, List.cons_append]
  · rw [eq, eq]
    cases ts with
    | nil => rfl
    | cons t ts => cases t <;> rfl
  · rw [eq, eq]
    cases ts with
    | nil => rfl
    | cons t ts => cases t <;> rfl

theorem foldr_withChar (t : Text) (us : List Token) :
    t.foldr withChar (.closing :: us) = literals t ++ .closing :: us := by
  induction t with
  | nil => rfl
  | cons c t ih => rw [List.foldr_cons, ih, withChar_append, literals_cons]

theorem startsReference_withChar (c : Char) (ts : List Token) :
    startsReference (withChar c ts) = false := by
  rcases withChar_cases c with ⟨t, sign, _, _, eq⟩ | ⟨_, eq⟩ | ⟨_, eq⟩
  · rw [eq]
    exact (starts_of_isSign sign ts).2.1
  · rw [eq]
    unfold withBreak
    split <;> rfl
  · rw [eq]
    unfold withPlain
    split <;> rfl

theorem eq_break_of_startsBreak {c : Char} {ts : List Token}
    (h : startsBreak (withChar c ts) = true) : c = '\n' := by
  rcases withChar_cases c with ⟨t, sign, _, _, eq⟩ | ⟨same, _⟩ | ⟨_, eq⟩
  · rw [eq, (starts_of_isSign sign ts).2.2.1] at h
    simp at h
  · exact same
  · rw [eq] at h
    unfold withPlain at h
    split at h <;> simp [startsBreak] at h

theorem steady_withPlain {c : Char} {ts : List Token} (hc : isPlain c = true)
    (h : ∀ lineStart, Steady lineStart ts) (hr : startsReference ts = false)
    (hb : c = '\r' → startsBreak ts = false) (lineStart : Bool) :
    Steady lineStart (withPlain c ts) := by
  cases ht : startsText ts with
  | false =>
    rw [withPlain_of_startsText ht, steady_cons]
    refine ⟨⟨⟨List.cons_ne_nil _ _, by simpa using hc, ht, fun _ _ => hr⟩, ?_⟩, h false⟩
    intro breaks last
    have same : c = '\r' := by simpa using last
    simp [hb same] at breaks
  | true =>
    match ts, ht with
    | .text u :: ts, _ =>
      obtain ⟨⟨⟨nonempty, plain, noText, lone⟩, keeps⟩, steady⟩ := steady_cons.1 (h lineStart)
      refine steady_cons.2 ⟨⟨⟨List.cons_ne_nil _ _, ?_, noText, ?_⟩, ?_⟩, steady⟩
      · exact List.forall_mem_cons.2 ⟨hc, plain⟩
      · exact fun start blank => lone start (List.forall_mem_cons.1 blank).2
      · intro breaks
        rw [List.getLast?_cons_of_ne_nil nonempty]
        exact keeps breaks

theorem steady_withChar {c : Char} {ts : List Token} (h : ∀ lineStart, Steady lineStart ts)
    (hr : startsReference ts = false) (hb : c = '\r' → startsBreak ts = false) (lineStart : Bool) :
    Steady lineStart (withChar c ts) := by
  rcases withChar_cases c with ⟨t, sign, _, _, eq⟩ | ⟨_, eq⟩ | ⟨plain, eq⟩
  · rw [eq, steady_sign_cons sign]
    exact h false
  · rw [eq]
    exact steady_withBreak (h true)
  · rw [eq]
    exact steady_withPlain plain h hr hb lineStart

/-- No character is read otherwise next to its neighbours, if none is lost to a line break. -/
theorem steady_literals {t : Text} (clean : Clean t) (lineStart : Bool) :
    Steady lineStart (literals t ++ [.closing]) := by
  -- For both flags at once: a line break put in front makes a line start behind it.
  rw [← foldr_withChar]
  induction t generalizing lineStart with
  | nil => exact (steady_sign_cons rfl).2 steady_nil
  | cons c t ih =>
    obtain ⟨apart, clean⟩ := List.isChain_cons.1 clean
    apply steady_withChar (fun lineStart => ih clean lineStart)
    · cases t with
      | nil => rfl
      | cons d t => exact startsReference_withChar d _
    · rintro rfl
      cases t with
      | nil => rfl
      | cons d t =>
        rw [← Bool.not_eq_true]
        intro starts
        have same : d = '\n' := eq_break_of_startsBreak starts
        exact apart d rfl ⟨rfl, same⟩

/-- The last of the tokens is a line break. -/
def EndsBreak (ts : List Token) : Prop := ∃ init n, ts = init ++ [.breaks n]

theorem endsBreak_withChar {ts : List Token} (h : EndsBreak ts) (c : Char) :
    EndsBreak (withChar c ts) := by
  obtain ⟨init, n, rfl⟩ := h
  rcases withChar_cases c with ⟨t, _, _, _, eq⟩ | ⟨_, eq⟩ | ⟨_, eq⟩
  · exact ⟨t :: init, n, eq _⟩
  · rw [eq]
    cases init with
    | nil => exact ⟨[], n + 1, rfl⟩
    | cons t init =>
      cases t with
      | breaks m => exact ⟨.breaks (m + 1) :: init, n, rfl⟩
      | _ => exact ⟨.breaks 1 :: _ :: init, n, rfl⟩
  · rw [eq]
    cases init with
    | nil => exact ⟨[.text [c]], n, rfl⟩
    | cons t init =>
      cases t with
      | text u => exact ⟨.text (c :: u) :: init, n, rfl⟩
      | _ => exact ⟨.text [c] :: _ :: init, n, rfl⟩

theorem endsBreak_literals (t : Text) : EndsBreak (literals (t ++ ['\n'])) := by
  induction t with
  | nil => exact ⟨[], 1, rfl⟩
  | cons c t ih => exact endsBreak_withChar ih c

end Token

open Grammar

/-- A token that stands for one character more. -/
theorem body_of_longer {token token' : Token} {loc : Location} {c : Char} {u : Text}
    {ps : List Placed} {as : List Atom} (h : Body (⟨token, loc⟩ :: ps) as)
    (ht : token.literal? = some u) (ht' : token'.literal? = some (c :: u)) :
    Body (⟨token', loc⟩ :: ps) (.char c :: as) := by
  cases h with
  | literal literal later =>
    obtain rfl := Option.some.inj (ht.symm.trans literal)
    exact .literal ht' later
  | reference => simp [Token.literal?] at ht

theorem body_withChar {ts : List Token} {as : List Atom}
    (h : ∀ ps : List Placed, ps.map (·.token) = ts → Body ps as) (c : Char) {ps : List Placed}
    (same : ps.map (·.token) = Token.withChar c ts) : Body ps (.char c :: as) := by
  rcases Token.withChar_cases c with ⟨t, _, literal, _, eq⟩ | ⟨rfl, eq⟩ | ⟨_, eq⟩
  · rw [eq] at same
    obtain ⟨loc, qs, rfl, later⟩ := exists_placed_cons same
    exact .literal literal (h qs later)
  -- A line break or a plain character is a token of its own, or comes into the one that stands there.
  · rw [eq] at same
    cases hb : Token.startsBreak ts with
    | false =>
      rw [Token.withBreak_of_startsBreak hb] at same
      obtain ⟨loc, qs, rfl, later⟩ := exists_placed_cons same
      exact @Body.literal (.breaks 1) _ _ _ _ rfl (h qs later)
    | true =>
      match ts, hb with
      | .breaks n :: ts, _ =>
        obtain ⟨loc, qs, rfl, rfl⟩ := exists_placed_cons same
        exact body_of_longer (h (⟨.breaks n, loc⟩ :: qs) rfl) rfl rfl
  · rw [eq] at same
    cases ht : Token.startsText ts with
    | false =>
      rw [Token.withPlain_of_startsText ht] at same
      obtain ⟨loc, qs, rfl, later⟩ := exists_placed_cons same
      exact @Body.literal (.text [c]) _ _ _ _ rfl (h qs later)
    | true =>
      match ts, ht with
      | .text u :: ts, _ =>
        obtain ⟨loc, qs, rfl, rfl⟩ := exists_placed_cons same
        exact body_of_longer (h (⟨.text u, loc⟩ :: qs) rfl) rfl rfl

theorem body_literals (t : Text) {ps : List Placed} (same : ps.map (·.token) = Token.literals t) :
    Body ps (t.map .char) := by
  induction t generalizing ps with
  | nil =>
    obtain rfl := List.map_eq_nil_iff.1 same
    exact .nil
  | cons c t ih => exact body_withChar (fun ps => ih) c same

namespace Segment

/-- The content that holds a text and nothing else. -/
def ofText (t : Text) : List Segment := if t = [] then [] else [.text t]

theorem contents_ofText (t : Text) : Contents ((t ++ ['\n']).map .char) (ofText t) := by
  unfold ofText
  split
  · rename_i empty
    subst empty
    exact ⟨trivial, Or.inr rfl⟩
  · rename_i nonempty
    exact ⟨⟨nonempty, fun _ => rfl, trivial⟩, Or.inr (by simp [atoms])⟩

end Segment

/-- A chunk of code that holds a text and nothing else. -/
def Chunk.holding (name t : Text) (loc : Location) : Chunk :=
  { kind := .code, name, content := Segment.ofText t, loc }

/-- The source of a chunk of code with a text for its body. -/
def Text.inChunk (t name : Text) : Text :=
  ['@', 'c', 'o', 'd', 'e', ' '] ++ name ++ '\n' :: t.doubleAt ++ ['\n', '@', 'e', 'n', 'd', '\n']

namespace Token

def chunkOf (name t : Text) : List Token :=
  .opening .code :: .text (' ' :: name) ::
    withBreak (literals (t ++ ['\n']) ++ [.closing, .breaks 1])

theorem spelling_chunkOf (name t : Text) : spelling (chunkOf name t) = t.inChunk name := by
  have double : Text.doubleAt (t ++ ['\n']) = t.doubleAt ++ ['\n'] := List.flatMap_append
  rw [chunkOf, spelling_cons, spelling_cons, spelling_withBreak, spelling_append, spelling_literals,
    double, Text.inChunk]
  simp [spell]

theorem steady_closed {t : Text} (clean : Text.Clean (t ++ ['\n'])) :
    Steady true (literals (t ++ ['\n']) ++ [.closing, .breaks 1]) := by
  have foot : Steady false [.breaks 1] := steady_cons.2 ⟨⟨⟨Nat.one_pos, rfl⟩, trivial⟩, steady_nil⟩
  exact (steady_append_sign rfl _ _).2 ⟨steady_literals clean true, foot⟩

theorem steady_chunkOf {name t : Text} (nonempty : name ≠ []) (trimmed : name.trim = name)
    (plain : ∀ c ∈ name, Lexeme.isPlain c = true) (clean : Text.Clean (t ++ ['\n'])) :
    Steady true (chunkOf name t) := by
  rw [chunkOf, steady_sign_cons rfl, steady_cons]
  refine ⟨⟨⟨List.cons_ne_nil _ _, ?_, ?_, by simp⟩, ?_⟩, steady_withBreak (steady_closed clean)⟩
  · exact List.forall_mem_cons.2 ⟨rfl, plain⟩
  · unfold withBreak
    split <;> rfl
  · intro _ last
    rw [List.getLast?_cons_of_ne_nil nonempty, ← trimmed] at last
    exact absurd (Text.isSpace_getLast_trim last) (by decide)

end Token

theorem named_of_chunkOf {name t : Text} (nonempty : name ≠ []) (trimmed : name.trim = name)
    (clean : Text.Clean (t ++ ['\n'])) {ps : List Placed}
    (same : ps.map (·.token) = Token.chunkOf name t) :
    ∃ loc, Named ps (.holding name t loc) [] := by
  obtain ⟨loc, _, rfl, afterOpening⟩ := exists_placed_cons same
  obtain ⟨l₁, line, rfl, afterName⟩ := exists_placed_cons afterOpening
  obtain ⟨inside, hline, hinside⟩ := exists_lineBreak afterName (Token.steady_closed clean)
  obtain ⟨inner, later, rfl, hinner, hlater⟩ := List.map_eq_append_iff.1 hinside
  obtain ⟨l₂, _, rfl, hfoot⟩ := exists_placed_cons hlater
  obtain ⟨l₃, rest, rfl, none⟩ := exists_placed_cons hfoot
  obtain rfl := List.map_eq_nil_iff.1 none
  have ends : inner.getLast?.all (·.token.isBreak) = true := by
    obtain ⟨init, n, last⟩ := Token.endsBreak_literals t
    rw [last] at hinner
    obtain ⟨_, final, rfl, _, hfinal⟩ := List.map_eq_append_iff.1 hinner
    obtain ⟨l, _, rfl, none⟩ := exists_placed_cons hfinal
    obtain rfl := List.map_eq_nil_iff.1 none
    simp [Token.isBreak]
  have hname : Text.trim (' ' :: name) = name := (Text.trim_space_cons name).trans trimmed
  have named := @Named.mk .code (' ' :: name) {} _ _ [] [] line inner [] [⟨.breaks 1, l₃⟩] []
    loc l₁ l₂ rfl (hname.symm ▸ nonempty) .absent .none hline (body_literals _ hinner) ends .none
    (.lineBreak .single) (Segment.contents_ofText t)
  rw [hname] at named
  exact ⟨loc, named⟩

namespace Document

/-- Steady tokens are found again in their spelling, so a source can be given by its tokens. -/
theorem exists_read_of_steady {us : List Token} (steady : Token.Steady true us)
    (path : Option Text) : ∃ ps : List Placed, ps.map (·.token) = us ∧ ∀ cs, Derives true ps cs →
      (read path (Token.spelling us)).outcome = .ok { chunks := cs, path } := by
  obtain ⟨ps, scan, same⟩ := Token.scanFrom_of_scans (Token.scans_spelling steady.1) (.start path)
  refine ⟨ps, same, ?_⟩
  intro cs derives
  have unchanged := Text.unifyBreaks_of_clean (Token.clean_spelling steady)
  have scanned : (Token.scan path (Token.spelling us).unifyBreaks).outcome = .ok ps := by
    rw [unchanged, Token.scan, scan]
    rfl
  exact read_of_derives scanned derives

theorem read_inChunk {name t : Text} (nonempty : name ≠ []) (trimmed : name.trim = name)
    (plain : ∀ c ∈ name, Lexeme.isPlain c = true) (clean : Text.Clean (t ++ ['\n']))
    (path : Option Text) : ∃ loc, (read path (t.inChunk name)).outcome =
      .ok ⟨[.holding name t loc], path⟩ := by
  have steady := Token.steady_chunkOf nonempty trimmed plain clean
  obtain ⟨ps, same, readBack⟩ := exists_read_of_steady steady path
  obtain ⟨loc, named⟩ := named_of_chunkOf nonempty trimmed clean same
  refine ⟨loc, ?_⟩
  rw [← Token.spelling_chunkOf]
  exact readBack _ (.chunk named .nil)

end Document

theorem Scope.expand_ofText (s : Scope) {c : Chunk} {t : Text} (h : c.content = Segment.ofText t) :
    (s.expand c).outcome = .ok t := by
  obtain ⟨trail, _, run⟩ := s.expand_eq c
  rw [run, h, Segment.ofText]
  split
  · rename_i empty
    rw [expandAll_nil_outcome, empty]
  · rw [expandAll_text_outcome, expandAll_nil_outcome, Text.indentLines_nil]
    exact congrArg Except.ok (List.append_nil t)

theorem Scope.expand_holding (s : Scope) (name t : Text) (loc : Location) :
    (s.expand (.holding name t loc)).outcome = .ok t :=
  s.expand_ofText rfl

section Single

variable {name : Text} (nonempty : name ≠ []) (t : Text) (loc : Location) (path : Option Text)
include nonempty

namespace Document

theorem definitions_holding :
    definitions ⟨[.holding name t loc], path⟩ name = [.holding name t loc] := by
  simp [definitions, nonempty, Chunk.holding, Chunk.defines, Chunk.isCode]

theorem expandName_holding (policy : Policy) :
    ((scope ⟨[.holding name t loc], path⟩ policy).expandName name).outcome = .ok t := by
  have own : named ⟨[.holding name t loc], path⟩ name = [.holding name t loc] := by
    simp [named, Chunk.holding]
  have found : (scope ⟨[.holding name t loc], path⟩ policy).resolve? name =
      some (.holding name t loc) := by
    rw [resolve?_eq_choose? _ policy nonempty, own]
    cases policy with
    | merged => rfl
    | firstDefinition => rfl
  rw [Scope.expandName, found]
  exact Scope.expand_holding _ name t loc

end Document

theorem Context.plan_holding (x : Context) :
    (x.plan ⟨[.holding name t loc], path⟩ [name]).outcome =
      .ok [.print name (x.settings.finish t)] := by
  have own := Document.definitions_holding nonempty t loc path
  have found : (Document.table ⟨[.holding name t loc], path⟩).get? name =
      some (.holding name t loc) := by
    rw [Document.get?_table, own]
    rfl
  have selected : (Document.table ⟨[.holding name t loc], path⟩).select [name] x.settings.root =
      .ok ⟨.requested, [.holding name t loc]⟩ := by
    simp [Table.select, Table.find, found, pure, Except.pure, bind, Except.bind]
  have inside : ∀ c ∈ [Chunk.holding name t loc],
      c ∈ (Document.table ⟨[.holding name t loc], path⟩).chunks := by
    intro c hc
    obtain rfl := List.mem_singleton.1 hc
    exact (Table.name_of_get? found).1
  have expanded : Document.expandDefinitions ⟨[.holding name t loc], path⟩ x.settings.policy name =
      .ok t := by
    rw [Document.expandDefinitions, own]
    exact Scope.expand_holding _ name t loc
  have noPath : Document.outPath? ⟨[.holding name t loc], path⟩ name = none := by
    rw [Document.outPath?, own]
    rfl
  rw [outcome_plan, selected]
  refine (outcome_actions x x.settings.policy inside).trans ?_
  show [name].mapM _ = _
  rw [List.mapM_cons, expanded, noPath]
  rfl

end Single

namespace Context

/-- The run for one chunk without options prints it. -/
theorem after_tangle_print {x : Context} {w : World} {file content name : Text}
    {requested : List Text}
    (h : x.planned w.files file requested = .ok [.print name content]) :
    (w.after (x.tangle file requested false)).1 = .ok () ∧
    (w.after (x.tangle file requested false)).2.files = w.files ∧
    (w.after (x.tangle file requested false)).2.printed = w.printed ++ content := by
  obtain ⟨events, final, performs, files, printed⟩ := after_tangle_real h
  rw [files, printed]
  generalize (w.after (x.tangle file requested false)).1 = r at performs
  cases performs with
  | step done rest =>
    cases rest
    obtain ⟨_, rfl⟩ := Prod.mk.inj done
    exact ⟨rfl, rfl, rfl⟩
  | stop failed => simp [Action.perform] at failed

end Context

namespace Document

/-- Any text without a carriage return in front of a line break or at its end is the body of a chunk,
with every `@` doubled: the chunk is read, has no options, expands to the text, and is printed as the
text. -/
theorem inChunk_comes_back (name t : Text) (nonempty : name ≠ []) (trimmed : name.trim = name)
    (plain : ∀ c ∈ name, c ∉ ['@', '[', ']', '=', ',', '\n'])
    (noReturn : ¬['\r', '\n'] <:+: t) (last : t.getLast? ≠ some '\r') :
    (∀ path, ∃ d c, (read path (t.inChunk name)).outcome = .ok d ∧ d.chunks = [c] ∧
      c.kind = .code ∧ c.name = name ∧ c.options = {} ∧
      ∀ policy, ((d.scope policy).expandName name).outcome = .ok t) ∧
    ∀ (x : Context) (w : World) (file : Text),
      w.files.readText (x.resolve file) = .ok (t.inChunk name) →
      (w.after (x.tangle file [name] false)).1 = .ok () ∧
      (w.after (x.tangle file [name] false)).2.files = w.files ∧
      (w.after (x.tangle file [name] false)).2.printed = w.printed ++ x.settings.finish t := by
  have clean := Text.clean_append_break noReturn last
  have allPlain : ∀ c ∈ name, Lexeme.isPlain c = true := by
    intro c hc
    simpa [Lexeme.isPlain, and_assoc] using plain c hc
  constructor
  · intro path
    obtain ⟨loc, run⟩ := read_inChunk nonempty trimmed allPlain clean path
    refine ⟨_, _, run, rfl, rfl, rfl, rfl, ?_⟩
    intro policy
    exact expandName_holding nonempty t loc path policy
  · intro x w file load
    obtain ⟨loc, run⟩ := read_inChunk nonempty trimmed allPlain clean (some file)
    apply Context.after_tangle_print
    rw [Context.planned, load]
    show (x.planSource (some file) (t.inChunk name) [name]).outcome = _
    rw [Context.planSource, Traced.outcome_bind, run]
    exact x.plan_holding nonempty t loc (some file)

/-- A text with what looks like a directive, a reference and an option list, and with a line break at
both ends. -/
theorem inChunk_comes_back_directives :
    let t : Text :=
      ['\n', '@', 'e', 'n', 'd', '\n', ' ', '@', '<', 'x', '>', '[', '@', '=', '\r', ',', '\n']
    let name : Text := ['a', ' ', 'b']
    let w : World := { files := ({} : FileTree).place [['n']] (.file (.text (t.inChunk name))) }
    let x : Context := { base := ['/'] }
    name ≠ [] ∧ name.trim = name ∧ (∀ c ∈ name, c ∉ ['@', '[', ']', '=', ',', '\n']) ∧
    ¬['\r', '\n'] <:+: t ∧ t.getLast? ≠ some '\r' ∧
    w.files.readText (x.resolve ['n']) = .ok (t.inChunk name) ∧
    (∃ d c, (read none (t.inChunk name)).outcome = .ok d ∧ d.chunks = [c] ∧ c.kind = .code ∧
      c.name = name ∧ c.options = {} ∧ ((d.scope .merged).expandName name).outcome = .ok t) ∧
    (w.after (x.tangle ['n'] [name] false)).2.printed = t := by
  intro t name w x
  have nonempty : name ≠ [] := List.cons_ne_nil _ _
  have trimmed : name.trim = name := rfl
  have plain : ∀ c ∈ name, c ∉ ['@', '[', ']', '=', ',', '\n'] := by simp [name]
  have noReturn : ¬['\r', '\n'] <:+: t := by decide
  have last : t.getLast? ≠ some '\r' := by decide
  have load : w.files.readText (x.resolve ['n']) = .ok (t.inChunk name) := rfl
  obtain ⟨found, printed⟩ := inChunk_comes_back name t nonempty trimmed plain noReturn last
  obtain ⟨d, c, run, one, code, named, options, expanded⟩ := found none
  refine ⟨nonempty, trimmed, plain, noReturn, last, load, ?_, (printed x w ['n'] load).2.2⟩
  exact ⟨d, c, run, one, code, named, options, expanded .merged⟩

end Document

end Literate
