import Literate.Proofs.Ending
import Literate.Proofs.Literal
import Literate.Proofs.Summaries

namespace Literate

open Grammar

/-- A name that the header of a chunk can give it. -/
structure Text.IsName (t : Text) : Prop where
  nonempty : t ≠ []
  trimmed : t.trim = t
  plain : ∀ c ∈ t, Lexeme.isPlain c = true

/-- The source of a code chunk that holds one reference. -/
def Text.referring (name indent target : Text) : Text :=
  ['@', 'c', 'o', 'd', 'e', ' '] ++ name ++ '\n' :: indent ++ '@' :: '<' :: target ++
    ['>', '\n', '@', 'e', 'n', 'd', '\n']

/-- A code chunk that holds one reference, and their places. -/
def Chunk.referring (name indent target : Text) (inner loc : Location) : Chunk :=
  { kind := .code, name, content := [.reference target indent inner], loc }

theorem Lexeme.inName_of_isPlain {c : Char} (plain : isPlain c = true) (other : c ≠ '>') :
    inName c = true := by
  simp only [isPlain, Bool.and_eq_true, bne_iff_ne] at plain
  simp [inName, other, plain]

/-- The name of a chunk is a text of its source, less the spaces around it. -/
theorem Grammar.exists_text_of_derives {lineStart : Bool} {ts : List Placed} {cs : List Chunk}
    (h : Derives lineStart ts cs) {c : Chunk} (hc : c ∈ cs) (named : c.name ≠ []) :
    ∃ t loc, ⟨.text t, loc⟩ ∈ ts ∧ c.name = t.trim := by
  induction h with
  | nil => simp at hc
  | loose hl _ ih =>
    rcases List.mem_cons.1 hc with rfl | hc
    · cases hl <;> exact absurd rfl named
    · obtain ⟨t, loc, found, same⟩ := ih hc
      exact ⟨t, loc, List.mem_cons_of_mem _ found, same⟩
  | chunk first _ ih =>
    rcases List.mem_cons.1 hc with rfl | hc
    · cases first with
      | @mk _ t _ _ _ _ _ _ _ _ _ _ _ l₁ => exact ⟨t, l₁, by simp, rfl⟩
    · obtain ⟨t, loc, found, same⟩ := ih hc
      rcases mem_of_named first found with found | ⟨n, _, _, other⟩
      · exact ⟨t, loc, found, same⟩
      · simp at other

namespace Document

variable {path : Option Text} {source : Text} {d : Document}

theorem isName_of_read (h : (read path source).outcome = .ok d) {c : Chunk} (hc : c ∈ d.chunks)
    (named : c.name ≠ []) : c.name.IsName := by
  obtain ⟨ts, settled, derives⟩ := exists_settled_of_read h
  obtain ⟨t, loc, found, same⟩ := exists_text_of_derives derives hc named
  have plain := plain_of_settled settled t (List.mem_map_of_mem found)
  refine ⟨named, ?_, ?_⟩
  · rw [same, Text.trim_trim]
  · intro x hx
    rw [same] at hx
    exact plain x (Text.mem_of_mem_trim hx)

theorem exists_resolved_of_mem {c : Chunk} (hc : c ∈ d.chunks) (named : c.name ≠ [])
    (policy : Policy) :
    ∃ found, (d.scope policy).resolve? c.name = some found ∧ found.name = c.name := by
  have defined := (resolve?_isSome_iff policy).2 ⟨named, c, hc, rfl⟩
  obtain ⟨found, resolved⟩ := Option.isSome_iff_exists.1 defined
  exact ⟨found, resolved, (Scope.mem_of_resolve? resolved).2⟩

/-- A reference ends at the first `>`, so its name has none. -/
theorem noAngle_of_read (h : (read path source).outcome = .ok d) {c : Chunk} (hc : c ∈ d.chunks)
    {name indent : Text} {loc : Location} (hr : .reference name indent loc ∈ c.content) :
    '>' ∉ name := by
  obtain ⟨ts, settled, derives⟩ := exists_settled_of_read h
  obtain ⟨raw, rfl, found⟩ := exists_token_of_derives derives hc hr
  obtain ⟨_, _, _, _, inside, _⟩ := Token.exists_fits_of_mem settled (List.mem_map_of_mem found)
  intro angle
  exact absurd (inside _ (Text.mem_of_mem_trim angle)) (by decide)

end Document

section

variable {name indent target : Text}

theorem Chunk.print_referring (hn : name.IsName) (inner loc : Location) :
    (Chunk.referring name indent target inner loc).print = Text.referring name indent target := by
  have named : (Chunk.referring name indent target inner loc).isAnonymous = false := by
    simpa [isAnonymous, referring] using hn.nonempty
  rw [print, named]
  simp [referring, Text.referring, Segment.print, Options.print, Token.spell, Options.isEmpty]

theorem writes_reference (ht : target.IsName) (angle : '>' ∉ target)
    (blank : ∀ c ∈ indent, Text.isBlank c = true) :
    Writes [.reference indent target, .breaks 1] [.reference target indent {}] := by
  have inside : ∀ c ∈ target, Lexeme.inName c = true := fun c hc =>
    Lexeme.inName_of_isPlain (ht.plain c hc) fun same => angle (same ▸ hc)
  refine ⟨by simp [Segment.print, Token.spell], ?_, rfl, ?_⟩
  · refine Token.steady_cons.2 ⟨⟨⟨blank, fun _ => rfl, inside, id⟩, trivial⟩, ?_⟩
    exact Token.steady_cons.2 ⟨⟨⟨Nat.one_pos, rfl⟩, trivial⟩,
      (Token.steady_sign_cons rfl).2 Token.steady_nil⟩
  · intro ps same
    obtain ⟨inner, qs, rfl, later⟩ := exists_placed_cons same
    obtain ⟨l, rs, rfl, none⟩ := exists_placed_cons later
    obtain rfl := List.map_eq_nil_iff.1 none
    have lineEnd : Body [⟨.breaks 1, l⟩] [.char '\n'] :=
      @Body.literal (.breaks 1) l ['\n'] [] [] rfl .nil
    have trimmed : target.trim ≠ [] := ht.trimmed.symm ▸ ht.nonempty
    have body := @Body.reference indent target inner _ _ trimmed lineEnd
    rw [ht.trimmed] at body
    have normal : Segment.Normal [.reference target indent inner] := ⟨trivial, fun _ => rfl, trivial⟩
    exact ⟨_, _, body, ⟨normal, Or.inr rfl⟩, rfl⟩

theorem sound_referring (hn : name.IsName) (ht : target.IsName) (angle : '>' ∉ target)
    (blank : ∀ c ∈ indent, Text.isBlank c = true) :
    (Chunk.referring name indent target {} {}).Sound where
  name_trim := hn.trimmed
  name_ne_nil := hn.nonempty
  name_plain := hn.plain
  options := Options.sound_empty
  content := ⟨_, writes_reference ht angle blank⟩

theorem Chunk.eq_referring_of_bare {c : Chunk}
    (h : c.bare = (Chunk.referring name indent target {} {}).bare) :
    ∃ inner loc, c = Chunk.referring name indent target inner loc := by
  obtain ⟨kind, own, options, content, loc⟩ := c
  simp only [bare, referring, Chunk.mk.injEq] at h
  obtain ⟨rfl, rfl, rfl, bares, _⟩ := h
  obtain ⟨g, rfl, same⟩ := List.map_eq_singleton_iff.1 bares
  cases g with
  | text t => simp [Segment.bare] at same
  | reference n i inner =>
    obtain ⟨rfl, rfl⟩ : n = target ∧ i = indent := by simpa [Segment.bare] using same
    exact ⟨inner, loc, rfl⟩

namespace Document

theorem exists_read_referring (hn : name.IsName) (ht : target.IsName) (angle : '>' ∉ target)
    (blank : ∀ c ∈ indent, Text.isBlank c = true) (path : Option Text) :
    ∃ inner loc, (read path (Text.referring name indent target)).outcome =
      .ok ⟨[Chunk.referring name indent target inner loc], path⟩ := by
  have sound := sound_referring hn ht angle blank
  have writes := writes_reference ht angle blank
  have steady := Chunk.steady_tokens sound writes Token.steady_nil
  obtain ⟨ps, same, readBack⟩ := exists_read_of_steady steady path
  obtain ⟨c, qs, named, bare, none⟩ :=
    Chunk.exists_named_of_tokens sound writes Token.steady_nil same
  obtain rfl := List.map_eq_nil_iff.1 none
  obtain ⟨inner, loc, rfl⟩ := Chunk.eq_referring_of_bare bare
  refine ⟨inner, loc, ?_⟩
  have spelled := Chunk.spelling_tokens sound.name_ne_nil writes []
  rw [Chunk.print_referring hn, Token.spelling_nil, List.append_nil] at spelled
  rw [← spelled]
  exact readBack _ (.chunk named .nil)

/-- Behind a source that can be read, on a line of its own, the chunk is read as it stands alone. -/
theorem exists_read_append_referring {source : Text} {d : Document} {path : Option Text}
    (h : (read path source).outcome = .ok d) (hn : name.IsName) (ht : target.IsName)
    (angle : '>' ∉ target) (blank : ∀ c ∈ indent, Text.isBlank c = true) :
    ∃ before inner loc, (read path (source.endLine ++ Text.referring name indent target)).outcome =
        .ok ⟨before ++ [Chunk.referring name indent target inner loc], path⟩ ∧
      before.filter (!·.isAnonymous) = d.chunks.filter (!·.isAnonymous) := by
  obtain ⟨before, read', same⟩ := exists_read_endLine h
  obtain ⟨inner, loc, alone⟩ := exists_read_referring hn ht angle blank path
  by_cases empty : source.endLine = []
  · rw [empty, read_nil] at read'
    obtain rfl : [] = before := congrArg Document.chunks (Except.ok.inj read')
    exact ⟨[], inner, loc, by rwa [empty], same⟩
  · have stop : Text.Stops (· == '\n') (Text.referring name indent target).unifyBreaks :=
      Text.stops_cons.2 rfl
    have whole := read_append_outcome (Text.getLast?_endLine empty) stop read'
    rw [alone] at whole
    exact ⟨before, _, _, whole, same⟩

end Document

end

namespace Document

/-- Every chunk with a name that has no `>` in it can be referred to from a line of its own behind the
source, by a chunk of any name and with any indent, and the reference stands for a chunk of that
name. No reference of the source has a `>` in its name. -/
theorem read_referring (path : Option Text) (source : Text) (d : Document)
    (h : (read path source).outcome = .ok d) :
    (∀ c ∈ d.chunks, c.name ≠ [] → '>' ∉ c.name →
      ∀ name indent : Text, name.IsName → (∀ x ∈ indent, Text.isBlank x = true) →
        ∃ d' before inner loc,
          (read path (source.endLine ++ Text.referring name indent c.name)).outcome = .ok d' ∧
          d'.chunks = before ++ [Chunk.referring name indent c.name inner loc] ∧
          before.filter (!·.isAnonymous) = d.chunks.filter (!·.isAnonymous) ∧
          ∀ policy, ∃ found, (d'.scope policy).resolve? c.name = some found ∧ found.name = c.name) ∧
    ∀ c ∈ d.chunks, ∀ name indent loc, .reference name indent loc ∈ c.content → '>' ∉ name := by
  constructor
  · intro c hc named angle name indent hn blank
    have ht := isName_of_read h hc named
    obtain ⟨before, inner, loc, read', same⟩ := exists_read_append_referring h hn ht angle blank
    refine ⟨_, before, inner, loc, read', rfl, same, ?_⟩
    have kept : c ∈ before := by
      have mem : c ∈ d.chunks.filter (!·.isAnonymous) :=
        List.mem_filter.2 ⟨hc, by simpa [Chunk.isAnonymous] using named⟩
      rw [← same] at mem
      exact (List.mem_filter.1 mem).1
    exact exists_resolved_of_mem (List.mem_append_left _ kept) named
  · intro c hc name indent loc hr
    exact noAngle_of_read h hc hr

/-- A name with a space, behind a last line that ends in a carriage return. -/
theorem read_referring_behind_return :
    (read none "@doc b c \nx\n@end\r".toList).outcome = .ok { chunks := [
      { kind := .doc, name := "b c".toList, content := [.text ['x']] }] } ∧
    Text.IsName ['k'] ∧
    (∃ d' before inner loc,
      (read none (Text.endLine "@doc b c \nx\n@end\r".toList ++
        Text.referring ['k'] [' ', '\t'] "b c".toList)).outcome = .ok d' ∧
      d'.chunks = before ++ [Chunk.referring ['k'] [' ', '\t'] "b c".toList inner loc] ∧
      before.filter (!·.isAnonymous) =
        [{ kind := .doc, name := "b c".toList, content := [.text ['x']] }] ∧
      ∀ policy, ∃ found, (d'.scope policy).resolve? "b c".toList = some found ∧
        found.name = "b c".toList) := by
  have source : (read none "@doc b c \nx\n@end\r".toList).outcome = .ok { chunks := [
      { kind := .doc, name := "b c".toList, content := [.text ['x']] }] } := by cbv
  have name : Text.IsName ['k'] := ⟨by decide, by decide, by simp [Lexeme.isPlain]⟩
  have blank : ∀ x ∈ [' ', '\t'], Text.isBlank x = true := by simp [Text.isBlank]
  exact ⟨source, name, (read_referring none _ _ source).1 _ List.mem_cons_self (by simp) (by simp)
    ['k'] [' ', '\t'] name blank⟩

/-- A name with a `>` in it can be given, but a reference to it is read as one to what stands in front
of the `>`. -/
theorem read_referring_cut :
    (read none "@code a>b\nx\n@end\n".toList).outcome = .ok { chunks := [
      { kind := .code, name := "a>b".toList, content := [.text ['x']] }] } ∧
    (read none (Text.endLine "@code a>b\nx\n@end\n".toList ++
      Text.referring ['k'] [] "a>b".toList)).outcome = .ok { chunks := [
        { kind := .code, name := "a>b".toList, content := [.text ['x']] },
        { kind := .code, name := ['k'], loc := { line := 4 }
          content := [.reference ['a'] [] { line := 5 }, .text "b>".toList] }] } ∧
    ¬∃ d' before inner loc,
      (read none (Text.endLine "@code a>b\nx\n@end\n".toList ++
        Text.referring ['k'] [] "a>b".toList)).outcome = .ok d' ∧
      d'.chunks = before ++ [Chunk.referring ['k'] [] "a>b".toList inner loc] := by
  have cut : (read none (Text.endLine "@code a>b\nx\n@end\n".toList ++
      Text.referring ['k'] [] "a>b".toList)).outcome = .ok { chunks := [
        { kind := .code, name := "a>b".toList, content := [.text ['x']] },
        { kind := .code, name := ['k'], loc := { line := 4 }
          content := [.reference ['a'] [] { line := 5 }, .text "b>".toList] }] } := by cbv
  refine ⟨by cbv, cut, ?_⟩
  rintro ⟨d', before, inner, loc, read', chunks⟩
  rw [cut] at read'
  have last := congrArg List.getLast? chunks
  rw [← Except.ok.inj read', List.getLast?_concat] at last
  simp [Chunk.referring] at last

end Document

end Literate
