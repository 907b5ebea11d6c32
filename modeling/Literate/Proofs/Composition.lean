import Literate.Proofs.Indents

namespace Literate

open Text (indentLines lastLine)

namespace Scope

variable {s : Scope}

/-- What a name stands for, expanded on its own. -/
def expansion (s : Scope) (name : Text) : Text :=
  match (s.expandName name).outcome with
  | .ok t => t
  | .error _ => []

/-- What a segment comes to in an expansion. -/
def piece (s : Scope) : Segment → Text
  | .text t => t
  | .reference name indent _ => indent ++ indentLines indent (s.expansion name)

theorem expansion_eq {name t : Text} {c : Chunk} (hr : s.resolve? name = some c)
    (h : (s.expand c).outcome = .ok t) : s.expansion name = t := by
  unfold expansion expandName
  rw [hr]
  simp only [h]

/-- A name that can be entered on a trail can be entered on a shorter one, and what it leads to is
shorter as well. -/
theorem exists_enter_of_shorter {trail trail' inner : Trail} {name : Text}
    (he : trail.enter name = .ok inner)
    (shorter : ∀ n, trail'.active n = true → trail.active n = true) :
    ∃ inner', trail'.enter name = .ok inner' ∧
      ∀ n, inner'.active n = true → inner.active n = true := by
  have inactive : trail'.active name = false := by
    cases hn : trail'.active name with
    | false => rfl
    | true => exact absurd (shorter name hn) (by simp [Trail.not_active_of_enter he])
  obtain ⟨inner', he'⟩ := Trail.exists_enter inactive
  refine ⟨inner', he', ?_⟩
  intro n hn
  rw [Trail.active_of_enter he', Bool.or_eq_true] at hn
  rw [Trail.active_of_enter he, Bool.or_eq_true]
  exact hn.imp_right (shorter n)

/-- An expansion under an indent is the plain one with its lines indented, and any shorter trail and
any other indent give the plain one as well. -/
theorem exists_plain (unbroken : ∀ name c, s.resolve? name = some c → c.Unbroken) {trail : Trail}
    {indent out : Text} {gs : List Segment} (hg : ∀ g ∈ gs, '\n' ∉ g.indent)
    (h : (s.expandAll trail indent gs).outcome = .ok out) :
    ∃ plain, out = indentLines indent plain ∧
      ∀ (trail' : Trail) (indent' : Text), (∀ n, trail'.active n = true → trail.active n = true) →
        (s.expandAll trail' indent' gs).outcome = .ok (indentLines indent' plain) := by
  induction trail, indent, gs using expandAll.induct s generalizing out with
  | case1 trail indent =>
    obtain rfl : out = [] := by simpa [eq_comm] using h
    exact ⟨[], rfl, fun _ _ _ => expandAll_nil_outcome _ _⟩
  | case2 trail indent t rest ih =>
    obtain ⟨later, hl, rfl⟩ := expandAll_text_outcome_ok.1 h
    obtain ⟨plain, rfl, other⟩ := ih (fun g mem => hg g (List.mem_cons_of_mem _ mem)) hl
    refine ⟨t ++ plain, (Text.indentLines_append _ _ _).symm, ?_⟩
    intro trail' indent' shorter
    rw [Text.indentLines_append]
    exact expandAll_text_outcome_ok.2 ⟨_, other trail' indent' shorter, rfl⟩
  | case3 trail indent name own loc rest hr =>
    obtain ⟨c, _, _, _, found, _⟩ := expandAll_reference_outcome_ok.1 h
    simp [hr] at found
  | case4 trail indent name own loc rest c hr names he =>
    obtain ⟨_, inner, _, _, _, entered, _⟩ := expandAll_reference_outcome_ok.1 h
    simp [he] at entered
  | case5 trail indent name own loc rest c hr inner he ihInner ihRest =>
    obtain ⟨c', inner', x, later, hr', he', hx, hl, rfl⟩ := expandAll_reference_outcome_ok.1 h
    obtain rfl : c = c' := Option.some.inj (hr.symm.trans hr')
    obtain rfl : inner = inner' := Except.ok.inj (he.symm.trans he')
    obtain ⟨plain, rfl, other⟩ := ihInner (unbroken name c hr) hx
    obtain ⟨plain', rfl, other'⟩ := ihRest (fun g mem => hg g (List.mem_cons_of_mem _ mem)) hl
    have hown : '\n' ∉ own := hg _ List.mem_cons_self
    have indented (i : Text) : indentLines i (own ++ indentLines own plain ++ plain') =
        own ++ indentLines (i ++ own) plain ++ indentLines i plain' := by
      rw [Text.indentLines_append, Text.indentLines_append, Text.indentLines_of_noBreak i hown,
        Text.indentLines_indentLines i hown]
    refine ⟨own ++ indentLines own plain ++ plain', (indented indent).symm, ?_⟩
    intro trail' indent' shorter
    obtain ⟨inner', he', shorter'⟩ := exists_enter_of_shorter he shorter
    rw [indented]
    exact expandAll_reference_outcome_ok.2 ⟨c, inner', _, _, hr, he',
      other inner' _ shorter', other' trail' indent' shorter, rfl⟩

/-- The segments of an expansion, piece by piece: what a reference stands for has an expansion of its
own, and the pieces make up the whole. -/
theorem expandAll_eq_pieces (unbroken : ∀ name c, s.resolve? name = some c → c.Unbroken)
    {trail : Trail} {gs : List Segment} {out : Text} (hg : ∀ g ∈ gs, '\n' ∉ g.indent)
    (h : (s.expandAll trail [] gs).outcome = .ok out) :
    (∀ name indent loc, .reference name indent loc ∈ gs →
      ∃ c, s.resolve? name = some c ∧ (s.expand c).outcome = .ok (s.expansion name)) ∧
    out = gs.flatMap s.piece := by
  induction gs generalizing out with
  | nil =>
    obtain rfl : out = [] := by simpa [eq_comm] using h
    exact ⟨by simp, rfl⟩
  | cons g gs ih =>
    have hg' : ∀ k ∈ gs, '\n' ∉ k.indent := fun k mem => hg k (List.mem_cons_of_mem _ mem)
    cases g with
    | text t =>
      obtain ⟨later, hl, rfl⟩ := expandAll_text_outcome_ok.1 h
      obtain ⟨runs, rfl⟩ := ih hg' hl
      refine ⟨fun name indent loc mem => runs name indent loc (by simpa using mem), ?_⟩
      rw [Text.indentLines_nil]
      rfl
    | reference name own loc =>
      obtain ⟨c, inner, x, later, hr, he, hx, hl, rfl⟩ := expandAll_reference_outcome_ok.1 h
      obtain ⟨runs, rfl⟩ := ih hg' hl
      obtain ⟨plain, rfl, other⟩ := exists_plain unbroken (unbroken name c hr) hx
      obtain ⟨fresh, hf, run⟩ := s.expand_eq c
      -- On a trail of its own the chunk finds only its own name active.
      have shorter : ∀ n, fresh.active n = true → inner.active n = true := by
        intro n hn
        rw [Trail.active_of_enter hf, (mem_of_resolve? hr).2] at hn
        rw [Trail.active_of_enter he]
        simp_all
      have alone : (s.expand c).outcome = .ok plain := by
        rw [run, other fresh [] shorter, Text.indentLines_nil]
      have same := expansion_eq hr alone
      constructor
      · intro name' indent' loc' mem
        rcases List.mem_cons.1 mem with first | mem
        · cases first
          exact ⟨c, hr, same.symm ▸ alone⟩
        · exact runs name' indent' loc' mem
      · rw [List.nil_append, List.flatMap_cons, piece, same]

theorem expand_eq_pieces (unbroken : ∀ name c, s.resolve? name = some c → c.Unbroken) {c : Chunk}
    {text : Text} (hc : c.Unbroken) (h : (s.expand c).outcome = .ok text) :
    (∀ name indent loc, .reference name indent loc ∈ c.content →
      ∃ t, s.resolve? name = some t ∧ (s.expand t).outcome = .ok (s.expansion name)) ∧
    text = c.content.flatMap s.piece := by
  obtain ⟨trail, _, run⟩ := s.expand_eq c
  rw [run] at h
  exact expandAll_eq_pieces unbroken hc h

/-- A chunk that the segments lead to through one reference or more, and the indents of these
references from the outside in. -/
inductive Nested (s : Scope) : List Segment → List Text → Chunk → Prop where
  | here {gs : List Segment} {name indent : Text} {loc : Location} {c : Chunk} :
      .reference name indent loc ∈ gs → s.resolve? name = some c → Nested s gs [indent] c
  | inside {gs : List Segment} {name indent : Text} {loc : Location} {c u : Chunk}
      {indents : List Text} : .reference name indent loc ∈ gs → s.resolve? name = some c →
      Nested s c.content indents u → Nested s gs (indent :: indents) u

end Scope

/-- A line that holds the indents one after the other, perhaps with other text between them. -/
inductive Text.Carries : Text → List Text → Prop where
  | nil {line : Text} : Carries line []
  | cons {gap indent rest : Text} {indents : List Text} : Carries rest indents →
      Carries (gap ++ indent ++ rest) (indent :: indents)

namespace Scope

variable {s : Scope}

/-- The expansion of a nested chunk stands in the whole, and all its lines carry the indents around
it, the outermost first. -/
theorem exists_nested (unbroken : ∀ name c, s.resolve? name = some c → c.Unbroken)
    {gs : List Segment} {indents : List Text} {u : Chunk} (h : s.Nested gs indents u)
    (hg : ∀ g ∈ gs, '\n' ∉ g.indent)
    (runs : ∀ name indent loc, .reference name indent loc ∈ gs →
      ∃ t, s.resolve? name = some t ∧ (s.expand t).outcome = .ok (s.expansion name)) :
    ∃ inner before after, (s.expand u).outcome = .ok inner ∧
      gs.flatMap s.piece = before ++ indentLines indents.flatten inner ++ after ∧
      (lastLine before).Carries indents ∧ '\n' ∉ indents.flatten := by
  induction h with
  | @here gs name indent loc c mem hr =>
    obtain ⟨t, ht, run⟩ := runs name indent loc mem
    obtain rfl : c = t := Option.some.inj (hr.symm.trans ht)
    have hi : '\n' ∉ indent := hg _ mem
    obtain ⟨left, right, rfl⟩ := List.append_of_mem mem
    refine ⟨s.expansion name, left.flatMap s.piece ++ indent, right.flatMap s.piece, run, ?_, ?_, ?_⟩
    · simp [piece]
    · rw [Text.lastLine_append_of_noBreak _ hi, ← List.append_nil (_ ++ indent)]
      exact .cons .nil
    · simpa using hi
  | @inside gs name indent loc c u indents mem hr _ ih =>
    obtain ⟨t, ht, run⟩ := runs name indent loc mem
    obtain rfl : c = t := Option.some.inj (hr.symm.trans ht)
    have hi : '\n' ∉ indent := hg _ mem
    obtain ⟨runs', pieces⟩ := expand_eq_pieces unbroken (unbroken name c hr) run
    obtain ⟨inner, before, after, run', split, carries, flat⟩ := ih (unbroken name c hr) runs'
    obtain ⟨left, right, rfl⟩ := List.append_of_mem mem
    refine ⟨inner, left.flatMap s.piece ++ indent ++ indentLines indent before,
      indentLines indent after ++ right.flatMap s.piece, run', ?_, ?_, ?_⟩
    · have expanded : indentLines indent (s.expansion name) = indentLines indent before ++
          indentLines (indent ++ indents.flatten) inner ++ indentLines indent after := by
        rw [pieces, split, Text.indentLines_append, Text.indentLines_append,
          Text.indentLines_indentLines indent flat]
      simp [piece, expanded]
    · obtain ⟨gap, last⟩ := Text.exists_lastLine_indent hi (left.flatMap s.piece) before
      rw [last]
      exact .cons carries
    · simpa [hi] using flat

end Scope

namespace Document

/-- Expansion is compositional in every document without line breaks in its indents, which are all
documents that can be read. If a chunk has an expansion, then what its references stand for has one
as well, in a run of its own, and the first is put together from these: text as it is, and for a
reference the indent and the expansion with the indent after every line break. So the lines of a
chunk that is nested in references carry the indents of all of them, the outermost first. -/
theorem expand_compositional :
    (∀ path source d, (read path source).outcome = .ok d → d.Unbroken) ∧
    ∀ (d : Document) (policy : Policy) (c : Chunk) (text : Text), d.Unbroken →
      (c ∈ d.chunks ∨ c ∈ d.table.chunks) → ((d.scope policy).expand c).outcome = .ok text →
      (∀ name indent loc, .reference name indent loc ∈ c.content →
        ∃ t, (d.scope policy).resolve? name = some t ∧
          ((d.scope policy).expand t).outcome = .ok ((d.scope policy).expansion name)) ∧
      text = c.content.flatMap (d.scope policy).piece ∧
      ∀ indents u, (d.scope policy).Nested c.content indents u →
        ∃ inner before after, ((d.scope policy).expand u).outcome = .ok inner ∧
          text = before ++ indentLines indents.flatten inner ++ after ∧
          (lastLine before).Carries indents := by
  refine ⟨fun _ _ _ => unbroken_of_read, ?_⟩
  intro d policy c text hd hc h
  have unbroken : ∀ name t, (d.scope policy).resolve? name = some t → t.Unbroken :=
    fun _ _ hr => hd.resolve hr
  have hc' : c.Unbroken := hc.elim (hd c) (hd.table c)
  obtain ⟨runs, rfl⟩ := Scope.expand_eq_pieces unbroken hc' h
  refine ⟨runs, rfl, ?_⟩
  intro indents u nested
  obtain ⟨inner, before, after, run, split, carries, _⟩ := Scope.exists_nested unbroken nested hc' runs
  exact ⟨inner, before, after, run, split, carries⟩

/-- A chunk of two lines, referred to within a line of one that is itself indented. -/
theorem expand_compositional_two_levels :
    let c : Chunk := { kind := .code, name := ['c'], content := [.text ['1', '\n', '2']] }
    let b : Chunk := { kind := .code, name := ['b']
                       content := [.text ['b'], .reference ['c'] ['\t'] {}, .text ['\n'],
                         .reference ['c'] [] {}] }
    let a : Chunk := { kind := .code, name := ['a']
                       content := [.text ['a'], .reference ['b'] [' '] {}] }
    let d : Document := { chunks := [a, b, c] }
    d.Unbroken ∧
    ((d.scope .merged).expand a).outcome = .ok
      ['a', ' ', 'b', '\t', '1', '\n', ' ', '\t', '2', '\n', ' ', '1', '\n', ' ', '2'] ∧
    ['a', ' ', 'b', '\t', '1', '\n', ' ', '\t', '2', '\n', ' ', '1', '\n', ' ', '2'] =
      a.content.flatMap (d.scope .merged).piece ∧
    ∃ inner before after, ((d.scope .merged).expand c).outcome = .ok inner ∧
      ['a', ' ', 'b', '\t', '1', '\n', ' ', '\t', '2', '\n', ' ', '1', '\n', ' ', '2'] =
        before ++ indentLines [[' '], ['\t']].flatten inner ++ after ∧
      Text.Carries (lastLine before) [[' '], ['\t']] := by
  intro c b a d
  have unbroken : d.Unbroken := by decide
  have run : ((d.scope .merged).expand a).outcome = .ok
      ['a', ' ', 'b', '\t', '1', '\n', ' ', '\t', '2', '\n', ' ', '1', '\n', ' ', '2'] := by cbv
  have inside : a ∈ d.chunks := List.mem_cons_self
  obtain ⟨_, pieces, nested⟩ := expand_compositional.2 d .merged a _ unbroken (Or.inl inside) run
  refine ⟨unbroken, run, pieces, nested [[' '], ['\t']] c ?_⟩
  have inA : .reference ['b'] [' '] {} ∈ a.content := by decide
  have inB : .reference ['c'] ['\t'] {} ∈ b.content := by decide
  have toB : (d.scope .merged).resolve? ['b'] = some b := by decide
  have toC : (d.scope .merged).resolve? ['c'] = some c := by decide
  exact .inside inA toB (.here inB toC)

end Document

end Literate
