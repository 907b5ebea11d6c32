import Literate.Proofs.Literal
import Literate.Proofs.Sections

namespace Literate

open Grammar (Contents)

/-- The bodies of the code sections of a name: their lines, each with its break. -/
def Text.bodies (source name : Text) : List Text :=
  (source.sections.filter fun s => s.kind = .code && s.name = name).map (·.body.undoubleAt)

/-- A body is empty or ends its line. -/
def Text.Closed (body : Text) : Prop := body = [] ∨ body.getLast? = some '\n'

theorem Segment.eq_ofText_of_contents {body : Text} {content : List Segment}
    (h : Contents (body.map .char) content) : body.Closed ∧ content = ofText body.dropLast := by
  rcases h.2 with ⟨empty, rfl⟩ | last
  · obtain rfl := List.map_eq_nil_iff.1 empty
    exact ⟨Or.inl rfl, rfl⟩
  · obtain ⟨front, tail, rfl, _, same⟩ := List.map_eq_append_iff.1 last
    obtain ⟨c, rest, rfl, hc, hr⟩ := List.map_eq_cons_iff.1 same
    obtain rfl := List.map_eq_nil_iff.1 hr
    obtain rfl : c = '\n' := Atom.char.inj hc
    refine ⟨Or.inr List.getLast?_concat, ?_⟩
    rw [List.dropLast_concat]
    exact Read.content_unique h (contents_ofText front)

namespace Document

/-- The definitions of a name are the code chunks with this name, among those that have one. -/
theorem definitions_eq_filter_code (d : Document) (name : Text) :
    d.definitions name = (d.chunks.filter fun c => !c.isAnonymous).filter (·.defines name) := by
  rw [definitions_eq, List.filter_filter, List.filter_filter]
  apply List.filter_congr
  intro c _
  simp only [Table.accepts, Chunk.defines]
  cases c.isCode <;> cases c.isAnonymous <;> simp

theorem sections_definitions {path : Option Text} {source : Text} {d : Document}
    (noReturn : '\r' ∉ source) (h : (read path source).outcome = .ok d) (name : Text) :
    List.Forall₂ Section.Holds
      (source.sections.filter fun s => s.kind = .code && s.name = name) (d.definitions name) := by
  have clean := Text.clean_of_noReturn fun found => noReturn (found.subset (by simp))
  obtain ⟨ts, scanned, derives⟩ := exists_derives_of_read h
  rw [Text.unifyBreaks_of_clean clean] at scanned
  have scans := Token.scans_of_scanFrom (scanFrom_of_scan scanned)
  rw [definitions_eq_filter_code]
  refine List.rel_filter ?_ (Grammar.holds_of_derives derives scans)
  intro s c hs
  simp [Chunk.defines, Chunk.isCode, hs.kind, hs.name]

/-- The definitions of a name are written in its bodies, one in each. -/
theorem bodies_definitions {path : Option Text} {source : Text} {d : Document}
    (noReturn : '\r' ∉ source) (h : (read path source).outcome = .ok d) {name : Text}
    (text : ∀ c ∈ d.definitions name, ∀ g ∈ c.content, g.isReference = false) :
    List.Forall₂ (fun body c => body.Closed ∧ c.content = Segment.ofText body.dropLast)
      (source.bodies name) (d.definitions name) := by
  have holds := (sections_definitions noReturn h name).flip
  have both := ((List.forall₂_and_left _ _).2 ⟨text, holds⟩).flip
  rw [Text.bodies, List.forall₂_map_left_iff]
  exact both.imp fun s c hs => Segment.eq_ofText_of_contents (hs.2.content hs.1)

end Document

/-- Two texts with a line break between them, unless one is empty. -/
def Text.onLines (t u : Text) : Text := if t = [] then u else if u = [] then t else t ++ '\n' :: u

theorem Chunk.mergeContent_ofText (t u : Text) :
    mergeContent (Segment.ofText t) (Segment.ofText u) = Segment.ofText (t.onLines u) := by
  unfold Segment.ofText Text.onLines
  by_cases ht : t = []
  · by_cases hu : u = []
    · simp [ht, hu, mergeContent]
    · simp [ht, hu, mergeContent, Segment.push]
  · by_cases hu : u = []
    · simp [ht, hu, mergeContent]
    · simp [ht, hu, mergeContent, Segment.push]

theorem Chunk.content_foldl_merge {c : Chunk} {t : Text} (h : c.content = Segment.ofText t)
    {later : List Chunk} {ts : List Text}
    (hl : List.Forall₂ (fun u c => Chunk.content c = Segment.ofText u) ts later) :
    (later.foldl merge c).content = Segment.ofText (ts.foldl Text.onLines t) := by
  induction hl generalizing c t with
  | nil => exact h
  | @cons u b us bs hu _ ih =>
    rw [List.foldl_cons, List.foldl_cons]
    apply ih
    show mergeContent c.content b.content = _
    rw [h, hu, mergeContent_ofText]

theorem Text.foldl_onLines (t : Text) (us : List Text) :
    us.foldl Text.onLines t = ['\n'].intercalate ((t :: us).filter (· ≠ [])) := by
  induction us generalizing t with
  | nil => by_cases ht : t = [] <;> simp [ht]
  | cons u us ih =>
    rw [List.foldl_cons, ih]
    unfold onLines
    by_cases ht : t = []
    · simp [ht]
    · by_cases hu : u = []
      · simp [ht, hu]
      · simp only [ht, hu, if_false, ne_eq, not_false_eq_true, decide_true, List.filter_cons_of_pos,
          List.append_eq_nil_iff, reduceCtorEq, and_self]
        cases us.filter fun u => decide ¬u = [] with
        | nil => simp
        | cons v vs => simp

theorem Chunk.content_mergeAll? {cs : List Chunk} {bodies : List Text}
    (h : List.Forall₂ (fun body c => Chunk.content c = Segment.ofText (List.dropLast body))
      bodies cs) (nonempty : cs ≠ []) :
    ∃ c, mergeAll? cs = some c ∧ c.content =
      Segment.ofText (['\n'].intercalate ((bodies.map List.dropLast).filter (· ≠ []))) := by
  cases h with
  | nil => exact absurd rfl nonempty
  | @cons body c bodies cs first later =>
    refine ⟨_, rfl, ?_⟩
    rw [List.map_cons, ← Text.foldl_onLines]
    exact content_foldl_merge first (List.forall₂_map_left_iff.2 later)

namespace Text

theorem intercalate_append_break {us : List Text} (h : us ≠ []) :
    ['\n'].intercalate us ++ ['\n'] = us.flatMap (· ++ ['\n']) := by
  induction us with
  | nil => exact absurd rfl h
  | cons u us ih =>
    cases us with
    | nil => simp
    | cons v vs =>
      rw [List.intercalate_cons_cons, List.append_assoc, ih (by simp)]
      simp

/-- Without the bodies of one empty line, the bodies are the lines that come out. -/
theorem flatMap_dropLast {bodies : List Text} (h : ∀ body ∈ bodies, body.Closed) :
    ((bodies.map List.dropLast).filter (· ≠ [])).flatMap (· ++ ['\n']) =
      (bodies.filter (· ≠ ['\n'])).flatten := by
  induction bodies with
  | nil => rfl
  | cons body bodies ih =>
    have later := ih fun b hb => h b (List.mem_cons_of_mem _ hb)
    rcases h body List.mem_cons_self with rfl | last
    · simpa using later
    · obtain ⟨front, rfl⟩ := List.getLast?_eq_some_iff.1 last
      by_cases empty : front = []
      · simpa [empty] using later
      · simpa [empty] using later

theorem length_flatten_bodies (bodies : List Text) :
    bodies.flatten.length = (bodies.filter (· ≠ ['\n'])).flatten.length + bodies.count ['\n'] := by
  induction bodies with
  | nil => rfl
  | cons body bodies ih =>
    by_cases empty : body = ['\n']
    · subst empty
      simp [ih]
      omega
    · simp [ih, empty]
      omega

/-- The lines come out whole unless one is lost. A single empty line is not: the break that a text
ends with stands for it. -/
theorem whole_iff {bodies : List Text} (h : ∀ body ∈ bodies, body.Closed)
    (nonempty : bodies.flatten ≠ []) :
    ['\n'].intercalate ((bodies.map List.dropLast).filter (· ≠ [])) ++ ['\n'] = bodies.flatten ↔
      (∀ body ∈ bodies, body ≠ ['\n']) ∨ bodies.flatten = ['\n'] := by
  have kept := flatMap_dropLast h
  have length := length_flatten_bodies bodies
  have whole (all : ∀ body ∈ bodies, body ≠ ['\n']) : bodies.filter (· ≠ ['\n']) = bodies :=
    List.filter_eq_self.2 (by simpa using all)
  generalize hu : (bodies.map List.dropLast).filter (· ≠ []) = us at kept ⊢
  by_cases none : us = []
  · subst none
    constructor
    · exact fun same => Or.inr same.symm
    · rintro (all | same)
      · rw [whole all] at kept
        exact absurd kept.symm nonempty
      · exact same.symm
  · rw [intercalate_append_break none, kept]
    constructor
    · intro same
      rw [same] at length
      have never : bodies.count ['\n'] = 0 := by omega
      exact Or.inl fun body hb isEmpty => List.count_eq_zero.1 never (isEmpty ▸ hb)
    · rintro (all | same)
      · rw [whole all]
      · -- A text that is kept has a character besides its break.
        obtain ⟨u, us, rfl⟩ := List.exists_cons_of_ne_nil none
        have hu' : u ≠ [] := by
          have mem : u ∈ (bodies.map List.dropLast).filter (· ≠ []) := hu ▸ List.mem_cons_self
          simpa using (List.mem_filter.1 mem).2
        have long := congrArg List.length kept
        have pos := List.length_pos_iff.2 hu'
        rw [same] at length
        simp only [List.flatMap_cons, List.length_append, List.length_cons, List.length_nil]
          at long length
        omega

end Text

/-- Under the merged policy a name stands for the lines of all its definitions: the bodies without
their last breaks, those that are empty then left out, on lines of their own. So no line is lost or
joined to another one exactly if no body is a single empty line, or all of them together are. -/
theorem Document.expandName_merged_lines (path : Option Text) (source : Text) (d : Document)
    (name : Text) (noReturn : '\r' ∉ source) (h : (read path source).outcome = .ok d)
    (defined : d.definitions name ≠ [])
    (text : ∀ c ∈ d.definitions name, ∀ g ∈ c.content, g.isReference = false) :
    ∃ out, ((d.scope .merged).expandName name).outcome = .ok out ∧
      out = ['\n'].intercalate (((source.bodies name).map List.dropLast).filter (· ≠ [])) ∧
      ((source.bodies name).flatten ≠ [] →
        (out ++ ['\n'] = (source.bodies name).flatten ↔
          (∀ body ∈ source.bodies name, body ≠ ['\n']) ∨
            (source.bodies name).flatten = ['\n'])) := by
  obtain ⟨closed, contents⟩ := (List.forall₂_and_left _ _).1 (bodies_definitions noReturn h text)
  obtain ⟨c, merged, content⟩ := Chunk.content_mergeAll? contents defined
  have found : (d.scope .merged).resolve? name = some c := by
    show (d.table.get? name).or _ = _
    rw [get?_table, merged]
    rfl
  refine ⟨_, ?_, rfl, Text.whole_iff closed⟩
  rw [Scope.expandName, found]
  exact Scope.expand_ofText _ content

/-- The first of two definitions ends with an empty line, and the second is written with `@@`. -/
theorem Document.expandName_merged_lines_doubled_at :
    let source : Text := "@code a\none\n\n@end\n@code a\n@@\n@end\n".toList
    '\r' ∉ source ∧ source.bodies ['a'] = ["one\n\n".toList, "@\n".toList] ∧
    ∃ d, (read none source).outcome = .ok d ∧ d.definitions ['a'] ≠ [] ∧
      (∀ c ∈ d.definitions ['a'], ∀ g ∈ c.content, g.isReference = false) ∧
      ∃ out, ((d.scope .merged).expandName ['a']).outcome = .ok out ∧
        out ++ ['\n'] = "one\n\n@\n".toList := by
  intro source
  have noReturn : '\r' ∉ source := by decide
  have bodies : source.bodies ['a'] = ["one\n\n".toList, "@\n".toList] := by
    unfold source
    cbv
  have h : (read none source).outcome = .ok { chunks := [
      { kind := .code, name := ['a'], content := [.text "one\n".toList] },
      { kind := .code, name := ['a'], content := [.text ['@']], loc := { line := 5 } }] } := by
    unfold source
    cbv
  obtain ⟨out, run, _, whole⟩ := expandName_merged_lines none source _ ['a'] noReturn h (by decide)
    (by decide)
  rw [bodies] at whole
  exact ⟨noReturn, bodies, _, h, by decide, by decide, out, run,
    (whole (by decide)).2 (Or.inl (by decide))⟩

/-- A definition of one empty line between two others adds nothing, and its line is lost. -/
theorem Document.expandName_loses_empty_line :
    let source : Text := "@code a\none\n@end\n@code a\n\n@end\n@code a\ntwo\n@end\n".toList
    '\r' ∉ source ∧ source.bodies ['a'] = ["one\n".toList, "\n".toList, "two\n".toList] ∧
    ∃ d, (read none source).outcome = .ok d ∧ d.definitions ['a'] ≠ [] ∧
      (∀ c ∈ d.definitions ['a'], ∀ g ∈ c.content, g.isReference = false) ∧
      ((d.scope .merged).expandName ['a']).outcome = .ok "one\ntwo".toList ∧
      "one\ntwo".toList ++ ['\n'] ≠ (source.bodies ['a']).flatten := by
  intro source
  have bodies : source.bodies ['a'] = ["one\n".toList, "\n".toList, "two\n".toList] := by
    unfold source
    cbv
  have h : (read none source).outcome = .ok { chunks := [
      { kind := .code, name := ['a'], content := [.text "one".toList] },
      { kind := .code, name := ['a'], content := [], loc := { line := 4 } },
      { kind := .code, name := ['a'], content := [.text "two".toList]
        loc := { line := 7 } }] } := by
    unfold source
    cbv
  refine ⟨by decide, bodies, _, h, by decide, by decide, by cbv, ?_⟩
  rw [bodies]
  decide

end Literate
