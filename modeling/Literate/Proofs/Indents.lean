import Mathlib.Data.List.DropRight
import Literate.Proofs.Expansion
import Literate.Proofs.Reading

namespace Literate

namespace Text

theorem indentLines_append (indent a b : Text) :
    indentLines indent (a ++ b) = indentLines indent a ++ indentLines indent b := List.flatMap_append

theorem indentLines_of_noBreak {t : Text} (indent : Text) (h : '\n' ∉ t) : indentLines indent t = t := by
  induction t with
  | nil => rfl
  | cons c t ih =>
    have hc : c ≠ '\n' := fun same => h (same ▸ List.mem_cons_self)
    have later : indentLines indent t = t := ih fun ht => h (List.mem_cons_of_mem _ ht)
    show (if c = '\n' then '\n' :: indent else [c]) ++ indentLines indent t = c :: t
    rw [if_neg hc, later, List.singleton_append]

theorem indentLines_nil (t : Text) : indentLines [] t = t := by
  induction t with
  | nil => rfl
  | cons c t ih =>
    show (if c = '\n' then ['\n'] else [c]) ++ indentLines [] t = c :: t
    rw [ih]
    by_cases hc : c = '\n'
    · rw [if_pos hc, hc, List.singleton_append]
    · rw [if_neg hc, List.singleton_append]

/-- The outer indent comes first on every line. -/
theorem indentLines_indentLines {own : Text} (indent : Text) (h : '\n' ∉ own) (t : Text) :
    indentLines indent (indentLines own t) = indentLines (indent ++ own) t := by
  induction t with
  | nil => rfl
  | cons c t ih =>
    show indentLines indent ((if c = '\n' then '\n' :: own else [c]) ++ indentLines own t) =
      (if c = '\n' then '\n' :: (indent ++ own) else [c]) ++ indentLines (indent ++ own) t
    rw [indentLines_append, ih]
    by_cases hc : c = '\n'
    · have own' := indentLines_of_noBreak indent h
      have first : indentLines indent ('\n' :: own) = '\n' :: (indent ++ indentLines indent own) := rfl
      rw [if_pos hc, if_pos hc, first, own']
    · rw [if_neg hc, if_neg hc, indentLines_of_noBreak indent (by simpa [eq_comm] using hc)]

/-- What stands behind the last line break. -/
def lastLine (t : Text) : Text := t.rtakeWhile (· ≠ '\n')

theorem lastLine_append_of_noBreak (a : Text) {b : Text} (h : '\n' ∉ b) :
    lastLine (a ++ b) = lastLine a ++ b := by
  induction b using List.reverseRecOn with
  | nil => rw [List.append_nil, List.append_nil]
  | append_singleton b c ih =>
    have hc : c ≠ '\n' := fun same => h (by simp [same])
    have before := ih fun hb => h (List.mem_append_left _ hb)
    rw [← List.append_assoc, lastLine, List.rtakeWhile_concat_pos _ _ _ (by simpa using hc),
      ← List.append_assoc, ← before]
    rfl

theorem lastLine_break (a : Text) {b : Text} (h : '\n' ∉ b) : lastLine (a ++ '\n' :: b) = b := by
  have split : a ++ '\n' :: b = (a ++ ['\n']) ++ b := by simp
  rw [split, lastLine_append_of_noBreak _ h, lastLine, List.rtakeWhile_concat_neg _ _ _ (by simp),
    List.nil_append]

/-- The last line of an indented text starts with the indent, if only because the indent stands in
front of the text. -/
theorem exists_lastLine_indent {indent : Text} (h : '\n' ∉ indent) (a t : Text) :
    ∃ gap, lastLine (a ++ indent ++ indentLines indent t) = gap ++ indent ++ lastLine t := by
  induction t using List.reverseRecOn with
  | nil =>
    refine ⟨lastLine a, ?_⟩
    show lastLine (a ++ indent ++ []) = lastLine a ++ indent ++ []
    rw [List.append_nil, List.append_nil, lastLine_append_of_noBreak a h]
  | append_singleton t c ih =>
    rw [indentLines_append, ← List.append_assoc]
    by_cases hc : c = '\n'
    · subst hc
      refine ⟨[], ?_⟩
      have last : indentLines indent ['\n'] = '\n' :: indent := List.append_nil _
      rw [last, lastLine_break _ h, lastLine_break t List.not_mem_nil, List.append_nil, List.nil_append]
    · have other : '\n' ∉ [c] := by simpa [eq_comm] using hc
      obtain ⟨gap, same⟩ := ih
      refine ⟨gap, ?_⟩
      rw [indentLines_of_noBreak indent other, lastLine_append_of_noBreak _ other,
        lastLine_append_of_noBreak t other, same, List.append_assoc]

end Text

/-- The indent of a reference; text has none. -/
def Segment.indent : Segment → Text
  | .text _ => []
  | .reference _ indent _ => indent

/-- No indent has a line break in it. -/
def Chunk.Unbroken (c : Chunk) : Prop := ∀ g ∈ c.content, '\n' ∉ g.indent

def Document.Unbroken (d : Document) : Prop := ∀ c ∈ d.chunks, c.Unbroken

instance (c : Chunk) : Decidable c.Unbroken :=
  inferInstanceAs (Decidable (∀ g ∈ c.content, '\n' ∉ g.indent))

instance (d : Document) : Decidable d.Unbroken :=
  inferInstanceAs (Decidable (∀ c ∈ d.chunks, c.Unbroken))

/-- Pushing a segment adds no reference but the one that is pushed. -/
theorem Segment.mem_push {gs : List Segment} {g k : Segment} (h : k ∈ push gs g) :
    k ∈ gs ∨ k = g ∨ ∃ t, k = .text t := by
  fun_induction push gs g with
  | case1 g => exact Or.inr (Or.inl (List.mem_singleton.1 h))
  | case2 s t => exact Or.inr (Or.inr ⟨_, List.mem_singleton.1 h⟩)
  | case3 x xs g _ ih =>
    rcases List.mem_cons.1 h with rfl | h
    · exact Or.inl List.mem_cons_self
    · exact (ih h).imp_left (List.mem_cons_of_mem _)

namespace Chunk

theorem noBreak_push {gs : List Segment} {g : Segment} (hs : ∀ k ∈ gs, '\n' ∉ k.indent)
    (hg : '\n' ∉ g.indent) : ∀ k ∈ Segment.push gs g, '\n' ∉ k.indent := by
  intro k hk
  rcases Segment.mem_push hk with hk | rfl | ⟨t, rfl⟩
  · exact hs k hk
  · exact hg
  · exact List.not_mem_nil

theorem noBreak_foldl_push {gs later : List Segment} (hs : ∀ k ∈ gs, '\n' ∉ k.indent)
    (hl : ∀ k ∈ later, '\n' ∉ k.indent) :
    ∀ k ∈ later.foldl Segment.push gs, '\n' ∉ k.indent := by
  induction later generalizing gs with
  | nil => exact hs
  | cons g later ih =>
    exact ih (noBreak_push hs (hl g List.mem_cons_self)) fun k hk => hl k (List.mem_cons_of_mem _ hk)

theorem Unbroken.merge {c later : Chunk} (hc : c.Unbroken) (hl : later.Unbroken) :
    (c.merge later).Unbroken := by
  have start : ∀ k ∈ (if c.content.isEmpty || later.content.isEmpty then c.content
      else Segment.push c.content (.text ['\n'])), '\n' ∉ k.indent := by
    split
    · exact hc
    · exact noBreak_push hc List.not_mem_nil
  exact noBreak_foldl_push start hl

end Chunk

namespace Table

variable {p : Chunk → Prop}

theorem forall_addEntry (merge : ∀ c later, p c → p later → p (c.merge later)) {c : Chunk}
    (hc : p c) {es : List Entry} (hes : ∀ e ∈ es, p e.chunk) : ∀ e ∈ addEntry c es, p e.chunk := by
  fun_induction addEntry c es with
  | case1 =>
    intro e he
    obtain rfl := List.mem_singleton.1 he
    exact hc
  | case2 first rest same =>
    intro e he
    rcases List.mem_cons.1 he with rfl | he
    · exact merge _ _ (hes first List.mem_cons_self) hc
    · exact hes e (List.mem_cons_of_mem _ he)
  | case3 first rest other ih =>
    intro e he
    rcases List.mem_cons.1 he with rfl | he
    · exact hes e List.mem_cons_self
    · exact ih (fun e he => hes e (List.mem_cons_of_mem _ he)) e he

/-- What holds of every chunk and is kept by merging holds of every chunk of the table. -/
theorem forall_ofChunks (merge : ∀ c later, p c → p later → p (c.merge later)) {cs : List Chunk}
    (hcs : ∀ c ∈ cs, p c) : ∀ c ∈ (ofChunks cs).chunks, p c := by
  suffices all : ∀ (cs : List Chunk) (t : Table), (∀ c ∈ cs, p c) → (∀ e ∈ t.entries, p e.chunk) →
      ∀ e ∈ (cs.foldl add t).entries, p e.chunk by
    intro c hc
    obtain ⟨e, he, rfl⟩ := List.mem_map.1 hc
    exact all _ {} (fun c hc => hcs c (List.mem_filter.1 hc).1) (by simp) e he
  intro cs
  induction cs with
  | nil => exact fun t _ ht => ht
  | cons c cs ih =>
    intro t hcs ht
    have added := forall_addEntry merge (hcs c List.mem_cons_self) ht
    exact ih (t.add c) (fun c hc => hcs c (List.mem_cons_of_mem _ hc)) added

end Table

namespace Grammar

theorem exists_token_of_body {body : List Placed} {as : List Atom} (h : Body body as)
    {name indent : Text} {loc : Location} (hr : .reference name indent loc ∈ as) :
    ∃ raw, name = raw.trim ∧ ⟨.reference indent raw, loc⟩ ∈ body := by
  induction h with
  | nil => simp at hr
  | literal _ _ ih =>
    obtain ⟨raw, same, found⟩ := ih (by simpa using hr)
    exact ⟨raw, same, List.mem_cons_of_mem _ found⟩
  | @reference indent' name' loc' ts as _ _ ih =>
    rcases List.mem_cons.1 hr with first | hr
    · cases first
      exact ⟨name', rfl, List.mem_cons_self⟩
    · obtain ⟨raw, same, found⟩ := ih hr
      exact ⟨raw, same, List.mem_cons_of_mem _ found⟩

theorem exists_token_of_named {ts rest : List Placed} {c : Chunk} (h : Named ts c rest)
    {name indent : Text} {loc : Location} (hr : .reference name indent loc ∈ c.content) :
    ∃ raw, name = raw.trim ∧ ⟨.reference indent raw, loc⟩ ∈ ts := by
  cases h with
  | @mk kind t options as content list gap line body gap' foot rest loc' l₁ l₂
      _ _ _ _ hl hb _ _ _ hc =>
    have atom : Atom.reference name indent loc ∈ Segment.atomsOf content :=
      List.mem_flatMap.2 ⟨_, hr, List.mem_singleton_self _⟩
    have inBody : Atom.reference name indent loc ∈ as := by
      rcases hc.2 with ⟨_, rfl⟩ | rfl
      · simp at hr
      · exact List.mem_append_left _ atom
    obtain ⟨raw, same, found⟩ := exists_token_of_body hb inBody
    rcases mem_of_lineBreak hl (List.mem_append_left _ found) with found | ⟨n, _, _, other⟩
    · exact ⟨raw, same, by simp [found]⟩
    · simp at other

/-- Every reference of a document is a token of its source, with the same indent and the name
untrimmed. -/
theorem exists_token_of_derives {lineStart : Bool} {ts : List Placed} {cs : List Chunk}
    (h : Derives lineStart ts cs) {c : Chunk} (hc : c ∈ cs) {name indent : Text} {loc : Location}
    (hr : .reference name indent loc ∈ c.content) :
    ∃ raw, name = raw.trim ∧ ⟨.reference indent raw, loc⟩ ∈ ts := by
  induction h with
  | nil => simp at hc
  | loose hl _ ih =>
    rcases List.mem_cons.1 hc with rfl | hc
    · cases hl with
      | literal => simp [Chunk.wrapper] at hr
      | @reference indent' name' loc' _ =>
        obtain ⟨same, rfl, rfl⟩ : name = name'.trim ∧ indent = indent' ∧ loc = loc' := by
          simpa [Chunk.wrapper] using hr
        exact ⟨name', same, List.mem_cons_self⟩
    · obtain ⟨raw, same, found⟩ := ih hc
      exact ⟨raw, same, List.mem_cons_of_mem _ found⟩
  | chunk named _ ih =>
    rcases List.mem_cons.1 hc with rfl | hc
    · exact exists_token_of_named named hr
    · obtain ⟨raw, same, found⟩ := ih hc
      rcases mem_of_named named found with found | ⟨n, _, _, other⟩
      · exact ⟨raw, same, found⟩
      · simp at other

end Grammar

namespace Document

/-- The reader takes only blanks for an indent. -/
theorem unbroken_of_read {path : Option Text} {source : Text} {d : Document}
    (h : (read path source).outcome = .ok d) : d.Unbroken := by
  obtain ⟨ts, settled, derives⟩ := exists_settled_of_read h
  intro c hc g hg
  cases g with
  | text => exact List.not_mem_nil
  | reference name indent loc =>
    obtain ⟨raw, _, found⟩ := Grammar.exists_token_of_derives derives hc hg
    obtain ⟨_, _, blank, _⟩ := Token.exists_fits_of_mem settled (List.mem_map_of_mem found)
    intro hn
    exact absurd (blank _ hn) (by decide)

theorem Unbroken.table {d : Document} (h : d.Unbroken) : ∀ c ∈ d.table.chunks, c.Unbroken :=
  Table.forall_ofChunks (fun _ _ hc hl => hc.merge hl) h

theorem Unbroken.resolve {d : Document} (h : d.Unbroken) {policy : Policy} {name : Text} {c : Chunk}
    (hr : (d.scope policy).resolve? name = some c) : c.Unbroken := by
  rcases (Scope.mem_of_resolve? hr).1 with hc | hc
  · exact h c hc
  · exact h.table c hc

end Document

end Literate
