import Literate.Proofs.Options

namespace Literate

/-- The text with every `@` doubled. -/
def Text.doubleAt (t : Text) : Text := t.flatMap fun c => if c = '@' then ['@', '@'] else [c]

namespace Segment

def print : Segment → Text
  | .text t => t.doubleAt
  | .reference name indent _ => indent ++ '@' :: '<' :: name ++ ['>']

/-- The segment without its place. -/
def bare : Segment → Segment
  | .text t => .text t
  | .reference name indent _ => .reference name indent {}

end Segment

/-- The option list of a header with a space in front of it, or nothing if there are no options. -/
def Options.print (o : Options) : Text :=
  if o.isEmpty then []
  else ' ' :: '[' :: [','].intercalate (o.entries.map fun e => e.1 ++ '=' :: e.2) ++ [']']

namespace Chunk

/-- A wrapper is written as its content alone, a named chunk with its header and footer. -/
def print (c : Chunk) : Text :=
  if c.isAnonymous then c.content.flatMap Segment.print
  else
    (Token.opening c.kind).spell ++ ' ' :: c.name ++ c.options.print ++ '\n' ::
      c.content.flatMap Segment.print ++ (if c.content.isEmpty then [] else ['\n']) ++
      ['@', 'e', 'n', 'd', '\n']

/-- The chunk without its place and the places of its references. -/
def bare (c : Chunk) : Chunk := { c with content := c.content.map Segment.bare, loc := {} }

end Chunk

def Document.print (d : Document) : Text := d.chunks.flatMap Chunk.print

namespace Atom

def print : Atom → Text
  | .char c => if c = '@' then ['@', '@'] else [c]
  | .reference name indent _ => indent ++ '@' :: '<' :: name ++ ['>']

def bare : Atom → Atom
  | .char c => .char c
  | .reference name indent _ => .reference name indent {}

theorem eq_char_of_bare {a : Atom} {c : Char} (h : a.bare = .char c) : a = .char c := by
  cases a with
  | char d => exact h
  | reference => simp [bare] at h

end Atom

namespace Segment

theorem print_eq (g : Segment) : g.print = g.atoms.flatMap Atom.print := by
  cases g with
  | text t => simp [print, atoms, Text.doubleAt, List.flatMap_map, Atom.print]
  | reference => simp [print, atoms, Atom.print]

theorem flatMap_print (gs : List Segment) : gs.flatMap print = (atomsOf gs).flatMap Atom.print := by
  rw [atomsOf, List.flatMap_assoc]
  exact congrArg gs.flatMap (funext print_eq)

theorem atomsOf_map_bare (gs : List Segment) : atomsOf (gs.map bare) = (atomsOf gs).map Atom.bare := by
  induction gs with
  | nil => rfl
  | cons g gs ih =>
    rw [List.map_cons, atomsOf_cons, atomsOf_cons, List.map_append, ih]
    cases g with
    | text t => simp [bare, atoms, Atom.bare]
    | reference => rfl

theorem Normal.map_bare {gs : List Segment} (h : Normal gs) : Normal (gs.map bare) := by
  induction gs with
  | nil => exact h
  | cons g gs ih =>
    obtain ⟨solid, apart, normal⟩ := h
    have starts : startsText (gs.map bare) = startsText gs := by
      cases gs with
      | nil => rfl
      | cons k gs => cases k <;> rfl
    refine ⟨?_, ?_, ih normal⟩
    · cases g <;> exact solid
    · rw [starts]
      cases g <;> exact apart

end Segment

open Grammar
open Segment (atomsOf Normal)
open Token (Steady Settled Fits spelling trimmed withBreak)

/-- A content does not hang on the places of its references. -/
theorem exists_content_of_bare {as bs : List Atom} {gs : List Segment} (h : Contents as gs)
    (same : bs.map Atom.bare = as.map Atom.bare) :
    ∃ hs, Contents bs hs ∧ hs.map Segment.bare = gs.map Segment.bare := by
  obtain ⟨normal, ⟨rfl, rfl⟩ | rfl⟩ := h
  · obtain rfl := List.map_eq_nil_iff.1 same
    exact ⟨[], ⟨trivial, Or.inl ⟨rfl, rfl⟩⟩, rfl⟩
  · rw [List.map_append] at same
    obtain ⟨cs, last, rfl, inner, atEnd⟩ := List.map_eq_append_iff.1 same
    obtain ⟨a, rfl, ha⟩ := List.map_eq_singleton_iff.1 atEnd
    obtain rfl : a = .char '\n' := Atom.eq_char_of_bare ha
    obtain ⟨hs, normal', rfl⟩ := Segment.exists_normal cs
    refine ⟨hs, ⟨normal', Or.inr rfl⟩, normal'.map_bare.ext normal.map_bare ?_⟩
    rw [Segment.atomsOf_map_bare, Segment.atomsOf_map_bare, inner]

theorem doubleAt_eq_self {t : Text} (h : '@' ∉ t) : t.doubleAt = t := by
  induction t with
  | nil => rfl
  | cons c t ih =>
    have hc : c ≠ '@' := fun same => h (same ▸ List.mem_cons_self)
    have later : Text.doubleAt t = t := ih fun ht => h (List.mem_cons_of_mem _ ht)
    show (if c = '@' then ['@', '@'] else [c]) ++ Text.doubleAt t = c :: t
    rw [if_neg hc, later, List.singleton_append]

theorem doubleAt_literal {lineStart : Bool} {token : Token} {rest : List Token} {t : Text}
    (fits : Fits lineStart token rest) (h : token.literal? = some t) : t.doubleAt = token.spell := by
  cases token with
  | opening | closing | reference => simp [Token.literal?] at h
  | text u =>
    obtain rfl : u = t := by simpa [Token.literal?] using h
    apply doubleAt_eq_self
    intro hu
    simpa [Lexeme.isPlain] using fits.2.1 _ hu
  | breaks n =>
    obtain rfl : List.replicate n '\n' = t := by simpa [Token.literal?] using h
    apply doubleAt_eq_self
    intro hn
    simpa using (List.mem_replicate.1 hn).2
  | _ =>
    simp only [Token.literal?, Option.some.injEq] at h
    rw [← h]
    rfl

theorem spelling_body {lineStart : Bool} {body : List Placed} {as : List Atom} {later : List Token}
    (h : Body body as) (settled : Settled lineStart (body.map (·.token) ++ later)) :
    spelling ((body.map (·.token)).map trimmed) = as.flatMap Atom.print := by
  induction h generalizing lineStart with
  | nil => rfl
  | @literal token loc t ts as literal _ ih =>
    obtain ⟨fits, settled⟩ := settled
    have chars : (t.map Atom.char).flatMap Atom.print = t.doubleAt := (Segment.print_eq (.text t)).symm
    rw [List.map_cons, List.map_cons, Token.spelling_cons, ih settled, List.flatMap_append, chars,
      doubleAt_literal fits literal, Token.trimmed_of_literal? literal]
  | reference _ _ ih =>
    obtain ⟨_, settled⟩ := settled
    rw [List.map_cons, List.map_cons, Token.spelling_cons, ih settled]
    rfl

theorem exists_body_of_tokens {body ps : List Placed} {as : List Atom} (h : Body body as)
    (same : ps.map (·.token) = (body.map (·.token)).map trimmed) :
    ∃ bs, Body ps bs ∧ bs.map Atom.bare = as.map Atom.bare := by
  induction h generalizing ps with
  | nil =>
    obtain rfl := List.map_eq_nil_iff.1 same
    exact ⟨[], .nil, rfl⟩
  | @literal token loc t ts as literal _ ih =>
    obtain ⟨l, qs, rfl, later⟩ := exists_placed_cons same
    obtain ⟨bs, body, bare⟩ := ih later
    refine ⟨t.map .char ++ bs, .literal ?_ body, by rw [List.map_append, List.map_append, bare]⟩
    rwa [Token.literal?_trimmed]
  | @reference indent name loc ts as nonempty _ ih =>
    obtain ⟨l, qs, rfl, later⟩ := exists_placed_cons same
    obtain ⟨bs, body, bare⟩ := ih later
    have trim := Text.trim_trim name
    refine ⟨.reference name.trim.trim indent l :: bs, .reference (by rwa [trim]) body, ?_⟩
    rw [List.map_cons, List.map_cons, bare, trim]
    rfl

/-- Tokens a content can be written with, between the header and the closing. -/
structure Writes (body : List Token) (content : List Segment) : Prop where
  spelling_eq : spelling body =
    content.flatMap Segment.print ++ (if content.isEmpty then [] else ['\n'])
  steady : Steady true (body ++ [.closing])
  ends : body.getLast?.all Token.isBreak = true
  read : ∀ ps : List Placed, ps.map (·.token) = body → ∃ as content', Body ps as ∧
    Contents as content' ∧ content'.map Segment.bare = content.map Segment.bare

theorem exists_writes {inner : List Placed} {as : List Atom} {content : List Segment}
    (hb : Body inner as) (hc : Contents as content)
    (ends : inner.getLast?.all (·.token.isBreak) = true)
    (steady : Steady true (inner.map (·.token) ++ [.closing])) : ∃ body, Writes body content := by
  cases content with
  | nil =>
    -- Nothing is written, even if the body was a line break.
    refine ⟨[], rfl, (Token.steady_sign_cons rfl).2 Token.steady_nil, rfl, ?_⟩
    intro ps none
    obtain rfl := List.map_eq_nil_iff.1 none
    exact ⟨[], [], .nil, ⟨trivial, Or.inl ⟨rfl, rfl⟩⟩, rfl⟩
  | cons g gs =>
    have atoms : as = atomsOf (g :: gs) ++ [.char '\n'] := by
      obtain ⟨_, ⟨_, none⟩ | atoms⟩ := hc
      · simp at none
      · exact atoms
    refine ⟨(inner.map (·.token)).map trimmed, ?_, ?_, ?_, ?_⟩
    · rw [spelling_body hb steady.1, Segment.flatMap_print, atoms, List.flatMap_append]
      rfl
    · have whole := Token.steady_map_trimmed steady
      rwa [List.map_append] at whole
    · have same : (fun p : Placed => p.token.trimmed.isBreak) = (·.token.isBreak) :=
        funext fun p => Token.isBreak_trimmed p.token
      rw [List.map_map, List.getLast?_map, Option.all_map]
      exact (congrArg (inner.getLast?.all ·) same).trans ends
    · intro ps same
      obtain ⟨bs, body, bare⟩ := exists_body_of_tokens hb same
      obtain ⟨content, hc', bare'⟩ := exists_content_of_bare hc bare
      exact ⟨bs, content, body, hc', bare'⟩

/-- The line break put in front of tokens can be taken off again. -/
theorem exists_lineBreak {lineStart : Bool} {ps : List Placed} {ts : List Token}
    (h : ps.map (·.token) = withBreak ts) (steady : Steady lineStart ts) :
    ∃ rest, LineBreak ps rest ∧ rest.map (·.token) = ts := by
  cases hb : Token.startsBreak ts with
  | false =>
    rw [Token.withBreak_of_startsBreak hb] at h
    obtain ⟨loc, rest, rfl, same⟩ := exists_placed_cons h
    exact ⟨rest, .single, same⟩
  | true =>
    match ts, hb with
    | .breaks n :: ts, _ =>
      obtain ⟨loc, rest, rfl, rfl⟩ := exists_placed_cons h
      have positive : 0 < n := (Token.steady_cons.1 steady).1.1.1
      exact ⟨⟨.breaks n, loc.step '\n'⟩ :: rest, .run positive, rfl⟩

namespace Chunk

/-- What a named chunk that was read is like. -/
structure Sound (c : Chunk) : Prop where
  name_trim : c.name.trim = c.name
  name_ne_nil : c.name ≠ []
  name_plain : ∀ x ∈ c.name, Lexeme.isPlain x = true
  options : c.options.Sound
  content : ∃ body, Writes body c.content

/-- The text between the directive and the option list, or the end of the line. -/
def headerText (c : Chunk) : Text := ' ' :: c.name ++ if c.options.isEmpty then [] else [' ']

/-- The tokens of the printed chunk, with those of its content and those behind it. -/
def tokens (c : Chunk) (body rest : List Token) : List Token :=
  .opening c.kind :: .text c.headerText ::
    (c.options.tokens ++ withBreak (body ++ .closing :: withBreak rest))

theorem headerText_spelling (c : Chunk) :
    c.headerText ++ spelling c.options.tokens = ' ' :: c.name ++ c.options.print := by
  unfold headerText Options.tokens Options.print
  split
  · simp
  · simp [Options.spelling_tokensOf, Token.spell]

variable {c : Chunk} {body : List Token}

theorem spelling_tokens (hc : c.name ≠ []) (hb : Writes body c.content) (rest : List Token) :
    spelling (c.tokens body rest) = c.print ++ spelling rest := by
  have named : c.isAnonymous = false := by simpa [isAnonymous] using hc
  rw [tokens, print, named, Token.spelling_cons, Token.spelling_cons, Token.spelling_append,
    Token.spelling_withBreak, Token.spelling_append, Token.spelling_cons, Token.spelling_withBreak,
    hb.spelling_eq]
  have header := headerText_spelling c
  simp only [Token.spell, Bool.false_eq_true, if_false, List.append_assoc, List.cons_append,
    List.nil_append] at header ⊢
  rw [← List.append_assoc c.headerText, header]
  simp

theorem trim_headerText (h : c.name.trim = c.name) : c.headerText.trim = c.name := by
  unfold headerText
  split
  · rw [List.append_nil, Text.trim_space_cons, h]
  · rw [List.cons_append, Text.trim_space_cons, Text.trim_append_space h]

theorem getLast?_headerText (h : c.name.trim = c.name) (hne : c.name ≠ []) :
    c.headerText.getLast? ≠ some '\r' := by
  unfold headerText
  split
  · intro last
    rw [List.append_nil, List.getLast?_cons_of_ne_nil hne, ← h] at last
    exact absurd (Text.isSpace_getLast_trim last) (by decide)
  · rw [List.getLast?_concat]
    decide

theorem steady_tokens (hc : c.Sound) (hb : Writes body c.content) {rest : List Token}
    (h : Steady true rest) : Steady true (c.tokens body rest) := by
  have afterBody : Steady true (body ++ .closing :: withBreak rest) :=
    (Token.steady_append_sign rfl _ _).2 ⟨hb.steady, Token.steady_withBreak h⟩
  have afterName : Steady false (c.options.tokens ++ withBreak (body ++ .closing :: withBreak rest)) :=
    Options.steady_tokens_append hc.options (Token.steady_withBreak afterBody)
  rw [tokens, Token.steady_sign_cons rfl, Token.steady_cons]
  refine ⟨⟨⟨by simp [headerText], ?_, ?_, by simp⟩, ?_⟩, afterName⟩
  · intro x hx
    have from_name : x = ' ' ∨ x ∈ c.name := by
      unfold headerText at hx
      split at hx
      · simpa using hx
      · simpa [or_comm, or_assoc] using hx
    rcases from_name with rfl | hx
    · rfl
    · exact hc.name_plain x hx
  · unfold Options.tokens
    split
    · unfold withBreak
      split <;> rfl
    · rfl
  · exact fun _ => getLast?_headerText hc.name_trim hc.name_ne_nil

/-- Places given to the tokens of a printed chunk make it a chunk again. -/
theorem exists_named_of_tokens (hc : c.Sound) (hb : Writes body c.content) {rest : List Token}
    (h : Steady true rest) {ps : List Placed} (same : ps.map (·.token) = c.tokens body rest) :
    ∃ c' qs, Named ps c' qs ∧ c'.bare = c.bare ∧ qs.map (·.token) = rest := by
  have afterBody : Steady true (body ++ .closing :: withBreak rest) :=
    (Token.steady_append_sign rfl _ _).2 ⟨hb.steady, Token.steady_withBreak h⟩
  obtain ⟨loc, _, rfl, afterOpening⟩ := exists_placed_cons same
  obtain ⟨l₁, _, rfl, afterName⟩ := exists_placed_cons afterOpening
  obtain ⟨list, line, rfl, hlist, hline⟩ := List.map_eq_append_iff.1 afterName
  obtain ⟨inside, hl, hinside⟩ := exists_lineBreak hline afterBody
  obtain ⟨inner, later, rfl, hinner, hlater⟩ := List.map_eq_append_iff.1 hinside
  obtain ⟨l₂, foot, rfl, hfoot⟩ := exists_placed_cons hlater
  obtain ⟨qs, he, hqs⟩ := exists_lineBreak hfoot h
  obtain ⟨as, content, hbody, hcontent, bare⟩ := hb.read inner hinner
  have hname := trim_headerText hc.name_trim
  have ends : inner.getLast?.all (·.token.isBreak) = true := by
    have := hb.ends
    rwa [← hinner, List.getLast?_map, Option.all_map] at this
  have nonempty : c.headerText.trim ≠ [] := hname.symm ▸ hc.name_ne_nil
  have options := Options.optionList_of_tokens hc.options hlist
  have named := @Named.mk c.kind _ _ _ _ list [] line inner [] foot qs loc l₁ l₂ rfl nonempty options
    .none hl hbody ends .none (.lineBreak he) hcontent
  refine ⟨_, qs, named, ?_, hqs⟩
  rw [Chunk.bare, Chunk.bare, bare, hname]

end Chunk

theorem plain_of_settled {lineStart : Bool} {ts : List Token} (h : Settled lineStart ts) (t : Text)
    (ht : Token.text t ∈ ts) : ∀ c ∈ t, Lexeme.isPlain c = true := by
  obtain ⟨_, _, fits⟩ := Token.exists_fits_of_mem h ht
  exact fits.2.1

theorem settled_of_lineEnd {lineStart : Bool} {ts rest : List Placed} (h : LineEnd ts rest)
    (settled : Settled lineStart (ts.map (·.token))) : Settled true (rest.map (·.token)) := by
  cases h with
  | lineBreak hl =>
    cases hl with
    | single => exact settled.2
    | run hn => exact ⟨⟨hn, settled.1.2⟩, settled.2⟩
  | finish => trivial

/-- A break that is left of a run neither has a carriage return nor takes one away. -/
theorem steady_of_lineEnd {lineStart : Bool} {ts rest : List Placed} (h : LineEnd ts rest)
    (steady : Steady lineStart (ts.map (·.token))) : Steady true (rest.map (·.token)) := by
  refine ⟨settled_of_lineEnd h steady.1, ?_⟩
  cases h with
  | lineBreak hl =>
    cases hl with
    | single => exact steady.2.2
    | run => exact ⟨trivial, steady.2.2⟩
  | finish => trivial

/-- A chunk taken off steady tokens is sound, and the tokens behind it are steady. -/
theorem sound_of_named {ts rest : List Placed} {c : Chunk} (h : Named ts c rest)
    (steady : Steady true (ts.map (·.token))) : c.Sound ∧ Steady true (rest.map (·.token)) := by
  cases h with
  | @mk kind t options as content list gap line body gap' foot rest loc l₁ l₂
      blank nonempty hlist hg hl hb ends hg' he hc =>
    simp only [List.map_cons, List.map_append] at steady
    have plain := plain_of_settled steady.1
    have afterName := (Token.steady_cons.1 (Token.steady_cons.1 steady).2).2
    obtain ⟨_, afterOptions⟩ := afterName.right
    obtain ⟨_, afterGap⟩ := afterOptions.right
    have inside := steady_of_lineEnd (.lineBreak hl) afterGap
    rw [List.map_append, List.map_cons, Token.steady_append_sign rfl, List.map_append] at inside
    obtain ⟨bodySteady, afterBody⟩ := inside
    obtain ⟨_, footSteady⟩ := afterBody.right
    refine ⟨?_, steady_of_lineEnd he footSteady⟩
    exact {
      name_trim := Text.trim_trim t
      name_ne_nil := nonempty
      name_plain := fun x hx => plain t (by simp) x (Text.mem_of_mem_trim hx)
      options := Options.sound_of_optionList hlist fun u hu => plain u (by simp [hu])
      content := exists_writes hb hc ends bodySteady }

theorem spell_of_loose {lineStart : Bool} {p : Placed} {c : Chunk} {rest : List Token}
    (h : Loose p c) (fits : Fits lineStart p.token rest) : p.token.trimmed.spell = c.print := by
  cases h with
  | @literal token loc t literal =>
    have content : (Chunk.wrapper (.text t) loc).print = t.doubleAt := List.append_nil _
    rw [content, doubleAt_literal fits literal, Token.trimmed_of_literal? literal]
  | @reference indent name loc nonempty =>
    have content : (Chunk.wrapper (.reference name.trim indent loc) loc).print =
      (Segment.reference name.trim indent loc).print := List.append_nil _
    rw [content]
    rfl

theorem exists_loose_of_token {p : Placed} {c : Chunk} (h : Loose p c) (loc : Location) :
    ∃ c', Loose ⟨p.token.trimmed, loc⟩ c' ∧ c'.bare = c.bare := by
  cases h with
  | literal literal => exact ⟨_, .literal (by rwa [Token.literal?_trimmed]), rfl⟩
  | @reference indent name l nonempty =>
    have trim := Text.trim_trim name
    refine ⟨_, .reference (by rwa [trim]), ?_⟩
    rw [trim]
    rfl

/-- The chunks that steady tokens derive can be written with steady tokens, and whatever places these
are given, they derive the same chunks. -/
theorem exists_tokens_of_derives {lineStart : Bool} {ts : List Placed} {cs : List Chunk}
    (h : Derives lineStart ts cs) (steady : Steady lineStart (ts.map (·.token))) :
    ∃ us, Steady lineStart us ∧ Token.Alike (ts.map (·.token)) us ∧
      spelling us = cs.flatMap Chunk.print ∧
      ∀ ps : List Placed, ps.map (·.token) = us →
        ∃ ds, Derives lineStart ps ds ∧ ds.map Chunk.bare = cs.map Chunk.bare := by
  induction h with
  | nil =>
    refine ⟨[], Token.steady_nil, ⟨rfl, rfl, rfl, Iff.rfl, Iff.rfl⟩, rfl, ?_⟩
    intro ps none
    obtain rfl := List.map_eq_nil_iff.1 none
    exact ⟨[], .nil, rfl⟩
  | @loose lineStart p ts c cs loose _ ih =>
    obtain ⟨⟨fits, _⟩, later⟩ := Token.steady_cons.1 steady
    obtain ⟨us, steady', alike, print, derive⟩ := ih later
    refine ⟨p.token.trimmed :: us, Token.steady_cons_trimmed steady alike steady',
      alike.cons_trimmed _, ?_, ?_⟩
    · rw [Token.spelling_cons, print, spell_of_loose loose fits]
      rfl
    · intro ps same
      obtain ⟨loc, qs, rfl, same'⟩ := exists_placed_cons same
      obtain ⟨c', loose', bare⟩ := exists_loose_of_token loose loc
      obtain ⟨ds, derives, bares⟩ := derive qs same'
      refine ⟨c' :: ds, .loose loose' ?_, by rw [List.map_cons, List.map_cons, bare, bares]⟩
      rwa [Token.isBreak_trimmed]
  | @chunk ts rest c cs named _ ih =>
    obtain ⟨sound, later⟩ := sound_of_named named steady
    obtain ⟨body, writes⟩ := sound.content
    obtain ⟨us, steady', _, print, derive⟩ := ih later
    refine ⟨c.tokens body us, Chunk.steady_tokens sound writes steady', ?_, ?_, ?_⟩
    · cases named with
      | mk => exact Token.alike_sign rfl _ _
    · rw [Chunk.spelling_tokens sound.name_ne_nil writes, print]
      rfl
    · intro ps same
      obtain ⟨c', qs, named', bare, same'⟩ := Chunk.exists_named_of_tokens sound writes steady' same
      obtain ⟨ds, derives, bares⟩ := derive qs same'
      exact ⟨c' :: ds, .chunk named' derives, by rw [List.map_cons, List.map_cons, bare, bares]⟩

namespace Document

/-- A document that was read from a source, written down and read again comes back, up to the
places. -/
theorem read_print (path path' : Option Text) (source : Text) (d : Document)
    (hs : ¬['\r', '\r', '\n'] <:+: source) (h : (read path source).outcome = .ok d) :
    ∃ d', (read path' d.print).outcome = .ok d' ∧
      d'.chunks.map Chunk.bare = d.chunks.map Chunk.bare := by
  obtain ⟨ts, scan, derives⟩ := exists_derives_of_read h
  have scans := Token.scans_of_scanFrom (scanFrom_of_scan scan)
  have steady := Token.steady_of_scans scans (Text.clean_unifyBreaks hs)
  obtain ⟨us, steady', _, print, derive⟩ := exists_tokens_of_derives derives steady
  have unchanged : d.print.unifyBreaks = spelling us := by
    rw [Document.print, ← print]
    exact Text.unifyBreaks_of_clean (Token.clean_spelling steady')
  obtain ⟨ps, scan', same⟩ :=
    Token.scanFrom_of_scans (Token.scans_spelling steady'.1) (.start path')
  obtain ⟨ds, derives', bares⟩ := derive ps same
  have scan'' : (Token.scan path' d.print.unifyBreaks).outcome = .ok ps := by
    rw [unchanged]
    unfold Token.scan
    rw [scan']
    rfl
  exact ⟨{ chunks := ds, path := path' }, read_of_derives scan'' derives', bares⟩

/-- A name and a reference with blanks around them, a line break left to the body, and loose text. -/
theorem read_print_blanks :
    ¬['\r', '\r', '\n'] <:+: "@@\r\n@doc  x \n\n @< y > \n@end ".toList ∧
    ∃ d d', (read none "@@\r\n@doc  x \n\n @< y > \n@end ".toList).outcome = .ok d ∧
      d.print = "@@\n@doc x\n\n @<y>\n@end\n".toList ∧ (read none d.print).outcome = .ok d' ∧
      d'.chunks.map Chunk.bare = d.chunks.map Chunk.bare := by
  have clean : ¬['\r', '\r', '\n'] <:+: "@@\r\n@doc  x \n\n @< y > \n@end ".toList := by
    intro found
    have one : List.count '\r' "@@\r\n@doc  x \n\n @< y > \n@end ".toList = 1 := by cbv
    have two := found.sublist.count_le '\r'
    exact absurd (one ▸ two) (by decide)
  have first : (read none "@@\r\n@doc  x \n\n @< y > \n@end ".toList).outcome = .ok { chunks := [
      .wrapper (.text ['@']) {}, .wrapper (.text ['\n']) { column := 3 },
      { kind := .doc, name := ['x'], loc := { line := 2 }
        content := [.text ['\n'], .reference ['y'] [' '] { line := 4 }] }] } := by cbv
  obtain ⟨d', again, bare⟩ := read_print none none _ _ clean first
  exact ⟨clean, _, d', first, by cbv, again, bare⟩

end Document

end Literate
