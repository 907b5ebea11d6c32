import Literate.Proofs.Gathering
import Literate.Proofs.Indents
import Literate.Proofs.Planning

namespace Literate

namespace Segment

/-- A segment that is pushed stands at the end, or it makes the text there longer. -/
theorem push_cases (gs : List Segment) (g : Segment) :
    push gs g = gs ++ [g] ∨
    ∃ init s t, gs = init ++ [.text s] ∧ g = .text t ∧ push gs g = init ++ [.text (s ++ t)] := by
  fun_induction push gs g with
  | case1 g => exact Or.inl rfl
  | case2 s t => exact Or.inr ⟨[], s, t, rfl, rfl, rfl⟩
  | case3 x xs g _ ih =>
    rcases ih with alone | ⟨init, s, t, rfl, rfl, longer⟩
    · rw [alone]
      exact Or.inl rfl
    · rw [longer]
      exact Or.inr ⟨x :: init, s, t, rfl, rfl, rfl⟩

end Segment

namespace Scope

variable (s : Scope) (trail : Trail) (indent : Text)

theorem expandAll_append_outcome (gs hs : List Segment) :
    (s.expandAll trail indent (gs ++ hs)).outcome =
      (s.expandAll trail indent gs).outcome >>= fun a =>
        (s.expandAll trail indent hs).outcome >>= fun b => .ok (a ++ b) := by
  induction gs with
  | nil =>
    rw [List.nil_append, expandAll_nil_outcome]
    cases (s.expandAll trail indent hs).outcome <;> rfl
  | cons g gs ih =>
    rw [List.cons_append]
    cases g with
    | text t =>
      rw [expandAll_text_outcome, expandAll_text_outcome, ih]
      cases (s.expandAll trail indent gs).outcome with
      | error e => rfl
      | ok a =>
        cases (s.expandAll trail indent hs).outcome with
        | error e => rfl
        | ok b => exact congrArg Except.ok (List.append_assoc _ a b).symm
    | reference name own loc =>
      cases hr : s.resolve? name with
      | none =>
        rw [expandAll_reference_unresolved hr, expandAll_reference_unresolved hr]
        rfl
      | some c =>
        cases he : trail.enter name with
        | error names =>
          rw [expandAll_reference_cyclic hr he, expandAll_reference_cyclic hr he]
          rfl
        | ok inner =>
          rw [expandAll_reference_outcome hr he, expandAll_reference_outcome hr he, ih]
          cases (s.expandAll inner (indent ++ own) c.content).outcome with
          | error e => rfl
          | ok x =>
            cases (s.expandAll trail indent gs).outcome with
            | error e => rfl
            | ok a =>
              cases (s.expandAll trail indent hs).outcome with
              | error e => rfl
              | ok b => exact congrArg Except.ok (List.append_assoc (own ++ x) a b).symm

theorem expandAll_single_text_outcome (t : Text) :
    (s.expandAll trail indent [.text t]).outcome = .ok (Text.indentLines indent t) := by
  rw [expandAll_text_outcome, expandAll_nil_outcome]
  exact congrArg Except.ok (List.append_nil _)

/-- It makes no difference for the expansion whether text stands in one segment or in two. -/
theorem expandAll_push_outcome (gs : List Segment) (g : Segment) :
    (s.expandAll trail indent (Segment.push gs g)).outcome =
      (s.expandAll trail indent (gs ++ [g])).outcome := by
  rcases Segment.push_cases gs g with alone | ⟨init, t, u, rfl, rfl, longer⟩
  · rw [alone]
  · rw [longer, expandAll_append_outcome, expandAll_append_outcome _ _ _ (init ++ _),
      expandAll_append_outcome, expandAll_single_text_outcome, expandAll_single_text_outcome,
      expandAll_single_text_outcome, Text.indentLines_append]
    cases (s.expandAll trail indent init).outcome with
    | error e => rfl
    | ok a => exact congrArg Except.ok (List.append_assoc a _ _).symm

theorem expandAll_foldl_push_outcome (gs later : List Segment) :
    (s.expandAll trail indent (later.foldl Segment.push gs)).outcome =
      (s.expandAll trail indent (gs ++ later)).outcome := by
  induction later generalizing gs with
  | nil => rw [List.foldl_nil, List.append_nil]
  | cons g later ih =>
    rw [List.foldl_cons, ih, expandAll_append_outcome, expandAll_push_outcome,
      ← expandAll_append_outcome, List.append_assoc, List.singleton_append]

/-- Two contents that are not empty expand one after the other, with a line break between them. -/
theorem expandAll_mergeContent_outcome {first later : List Segment} (hf : first ≠ [])
    (hl : later ≠ []) :
    (s.expandAll trail [] (Chunk.mergeContent first later)).outcome =
      (s.expandAll trail [] first).outcome >>= fun a =>
        (s.expandAll trail [] later).outcome >>= fun b => .ok (a ++ '\n' :: b) := by
  have neither : ¬(first.isEmpty || later.isEmpty) = true := by simp [hf, hl]
  rw [Chunk.mergeContent, if_neg neither, expandAll_foldl_push_outcome, expandAll_append_outcome,
    expandAll_push_outcome, expandAll_append_outcome, expandAll_single_text_outcome,
    Text.indentLines_nil]
  cases (s.expandAll trail [] first).outcome with
  | error e => rfl
  | ok a =>
    cases (s.expandAll trail [] later).outcome with
    | error e => rfl
    | ok b => exact congrArg Except.ok (List.append_assoc a ['\n'] b)

end Scope

namespace Segment

theorem push_ne_nil (gs : List Segment) (g : Segment) : push gs g ≠ [] := by
  rcases push_cases gs g with alone | ⟨init, s, t, _, _, longer⟩
  · simp [alone]
  · simp [longer]

theorem foldl_push_ne_nil {gs : List Segment} (h : gs ≠ []) (later : List Segment) :
    later.foldl push gs ≠ [] := by
  induction later generalizing gs with
  | nil => exact h
  | cons g later ih =>
    exact ih (push_ne_nil gs g)

end Segment

namespace Chunk

theorem mergeContent_nil_right (first : List Segment) : mergeContent first [] = first := by
  rw [mergeContent, List.isEmpty_nil, Bool.or_true, if_pos rfl, List.foldl_nil]

theorem mergeContent_nil_left (later : List Segment) :
    mergeContent [] later = later.foldl Segment.push [] := by
  rw [mergeContent, List.isEmpty_nil, Bool.true_or, if_pos rfl]

theorem mergeContent_ne_nil (first : List Segment) {later : List Segment} (h : later ≠ []) :
    mergeContent first later ≠ [] := by
  obtain ⟨g, later, rfl⟩ := List.exists_cons_of_ne_nil h
  exact Segment.foldl_push_ne_nil (Segment.push_ne_nil _ g) later

theorem content_foldl_merge_eq (c : Chunk) (later : List Chunk) :
    (later.foldl merge c).content = (later.map (·.content)).foldl mergeContent c.content := by
  induction later generalizing c with
  | nil => rfl
  | cons l later ih => exact ih (c.merge l)

end Chunk

namespace Scope

variable (s : Scope) (trail : Trail)

/-- The contents that are not empty expand on lines of their own, in order. -/
theorem expandAll_foldl_mergeContent_outcome (first : List Segment) (later : List (List Segment)) :
    (s.expandAll trail [] (later.foldl Chunk.mergeContent first)).outcome =
      (((first :: later).filter (· ≠ [])).mapM fun gs => (s.expandAll trail [] gs).outcome).map
        ['\n'].intercalate := by
  have kept {gs : List Segment} (h : gs ≠ []) (rest : List (List Segment)) :
      (gs :: rest).filter (· ≠ []) = gs :: rest.filter (· ≠ []) :=
    List.filter_cons_of_pos (by simpa using h)
  have left (rest : List (List Segment)) : ([] :: rest).filter (· ≠ []) = rest.filter (· ≠ []) :=
    List.filter_cons_of_neg (by simp)
  induction later generalizing first with
  | nil =>
    by_cases hf : first = []
    · rw [hf]
      exact expandAll_nil_outcome trail []
    · rw [List.foldl_nil, kept hf, List.mapM_cons]
      cases (s.expandAll trail [] first).outcome with
      | error e => rfl
      | ok a => exact congrArg Except.ok List.intercalate_singleton.symm
  | cons l later ih =>
    rw [List.foldl_cons, ih]
    by_cases hl : l = []
    · rw [hl, Chunk.mergeContent_nil_right]
      by_cases hf : first = []
      · rw [hf, left, left, left]
      · rw [kept hf, kept hf, left]
    rw [kept (Chunk.mergeContent_ne_nil first hl), List.mapM_cons]
    by_cases hf : first = []
    · rw [hf, left, kept hl, List.mapM_cons, Chunk.mergeContent_nil_left,
        expandAll_foldl_push_outcome, List.nil_append]
    · rw [kept hf, kept hl, List.mapM_cons, List.mapM_cons,
        expandAll_mergeContent_outcome s trail hf hl]
      cases (s.expandAll trail [] first).outcome with
      | error e => rfl
      | ok a =>
        cases (s.expandAll trail [] l).outcome with
        | error e => rfl
        | ok b =>
          cases (later.filter (· ≠ [])).mapM fun gs => (s.expandAll trail [] gs).outcome with
          | error e => rfl
          | ok rest =>
            apply congrArg Except.ok
            cases rest with
            | nil => simp
            | cons r rest => simp

end Scope

theorem mapM_congr_left {α β ε : Type} {f g : α → Except ε β} {xs : List α}
    (h : ∀ x ∈ xs, f x = g x) : xs.mapM f = xs.mapM g := by
  have mapped (f : α → Except ε β) : xs.mapM f = (xs.map f).mapM id := by
    rw [List.mapM_map, Function.id_comp]
  rw [mapped f, mapped g, List.map_congr_left h]

theorem exists_ok_of_forall₂ {α β ε : Type} {f : α → Except ε β} {xs : List α} {ys : List β}
    (h : List.Forall₂ (fun x y => f x = .ok y) xs ys) : ∀ x ∈ xs, ∃ y, f x = .ok y := by
  induction h with
  | nil => simp
  | cons first _ ih => exact List.forall_mem_cons.2 ⟨⟨_, first⟩, ih⟩

theorem mapM_eq_error {α β ε : Type} {f : α → Except ε β} {before : List α} {x : α} {e : ε}
    (good : ∀ y ∈ before, ∃ b, f y = .ok b) (bad : f x = .error e) (later : List α) :
    (before ++ x :: later).mapM f = .error e := by
  induction before with
  | nil =>
    rw [List.nil_append, List.mapM_cons, bad]
    rfl
  | cons y before ih =>
    obtain ⟨⟨b, hb⟩, rest⟩ := List.forall_mem_cons.1 good
    rw [List.cons_append, List.mapM_cons, hb, ih rest]
    rfl

namespace Scope

variable (s : Scope)

theorem expand_of_name {name : Text} {trail : Trail} (he : ({} : Trail).enter name = .ok trail)
    {c : Chunk} (hc : c.name = name) : s.expand c = s.expandAll trail [] c.content := by
  rw [expand, hc, he]

theorem expand_outcome_of_empty {c : Chunk} (h : c.content = []) :
    (s.expand c).outcome = .ok [] := by
  obtain ⟨trail, _, run⟩ := s.expand_eq c
  rw [run, h, expandAll_nil_outcome]

/-- Chunks of one name that are merged expand as each of them does. -/
theorem expand_mergeAll?_outcome {name : Text} {ks : List Chunk} {c : Chunk}
    (named : ∀ k ∈ ks, k.name = name) (h : Chunk.mergeAll? ks = some c) :
    (s.expand c).outcome =
      ((ks.filter (·.content ≠ [])).mapM fun k => (s.expand k).outcome).map
        ['\n'].intercalate := by
  cases ks with
  | nil => simp [Chunk.mergeAll?] at h
  | cons first later =>
    obtain rfl := Option.some.inj h
    obtain ⟨trail, he, _⟩ := s.expand_eq first
    have own : (later.foldl Chunk.merge first).name = first.name :=
      (Chunk.foldl_merge_first first later).1
    have contents : ((first :: later).map (·.content)).filter (· ≠ []) =
        ((first :: later).filter (·.content ≠ [])).map (·.content) := List.filter_map
    rw [s.expand_of_name he own, Chunk.content_foldl_merge_eq,
      expandAll_foldl_mergeContent_outcome, ← List.map_cons, contents, List.mapM_map]
    congr 1
    apply mapM_congr_left
    intro k hk
    have same : k.name = first.name :=
      (named k (List.mem_filter.1 hk).1).trans (named first List.mem_cons_self).symm
    rw [s.expand_of_name he same]
    rfl

/-- Each of the chunks expands and so do all of them together, or the first that fails decides. -/
theorem expand_mergeAll?_cases {name : Text} {ks : List Chunk} {c : Chunk}
    (named : ∀ k ∈ ks, k.name = name) (h : Chunk.mergeAll? ks = some c) :
    (∃ texts, (s.expand c).outcome = .ok (['\n'].intercalate texts) ∧
      List.Forall₂ (fun k u => (s.expand k).outcome = .ok u) (ks.filter (·.content ≠ [])) texts ∧
      ∀ k ∈ ks, ∃ t, (s.expand k).outcome = .ok t) ∨
    ∃ before k later e, ks = before ++ k :: later ∧
      (∀ b ∈ before, ∃ t, (s.expand b).outcome = .ok t) ∧
      (s.expand k).outcome = .error e ∧ (s.expand c).outcome = .error e := by
  have merged := s.expand_mergeAll?_outcome named h
  rcases mapM_cases (fun k => (s.expand k).outcome) ks with
    ⟨_, _, all⟩ | ⟨before, k, later, e, rfl, good, bad, _⟩
  · replace all := exists_ok_of_forall₂ all
    rcases mapM_cases (fun k => (s.expand k).outcome) (ks.filter (·.content ≠ [])) with
      ⟨texts, run, each⟩ | ⟨before, k, later, e, split, _, bad, _⟩
    · rw [run] at merged
      exact Or.inl ⟨texts, merged, each, all⟩
    · have inside : k ∈ ks.filter (·.content ≠ []) := split ▸ by simp
      obtain ⟨t, good⟩ := all k (List.mem_filter.1 inside).1
      exact absurd (good.symm.trans bad) (by simp)
  · -- A chunk without content has no fault, so the first one that has is among the others.
    have content : k.content ≠ [] := by
      intro empty
      rw [s.expand_outcome_of_empty empty] at bad
      simp at bad
    have kept : ∀ b ∈ before.filter (·.content ≠ []), ∃ t, (s.expand b).outcome = .ok t :=
      fun b hb => good b (List.mem_filter.1 hb).1
    rw [List.filter_append, List.filter_cons_of_pos (by simpa using content),
      mapM_eq_error kept bad] at merged
    exact Or.inr ⟨before, k, later, e, rfl, good, bad, merged⟩

end Scope

/-- All definitions of a name as one chunk expand exactly if each of them does. The text is then that
of the definitions whose content is not empty, with line breaks between them, and otherwise the fault
is that of the first definition that has one. -/
theorem Document.expand_merged (d : Document) (policy : Policy) (name : Text) (c : Chunk)
    (h : d.table.get? name = some c) :
    ((∃ t, ((d.scope policy).expand c).outcome = .ok t) ↔
      ∀ k ∈ d.definitions name, ∃ t, ((d.scope policy).expand k).outcome = .ok t) ∧
    (∀ t, ((d.scope policy).expand c).outcome = .ok t →
      ∃ texts, List.Forall₂ (fun k u => ((d.scope policy).expand k).outcome = .ok u)
          ((d.definitions name).filter (·.content ≠ [])) texts ∧
        t = ['\n'].intercalate texts) ∧
    ∀ e, ((d.scope policy).expand c).outcome = .error e →
      ∃ before k later, d.definitions name = before ++ k :: later ∧
        (∀ b ∈ before, ∃ t, ((d.scope policy).expand b).outcome = .ok t) ∧
        ((d.scope policy).expand k).outcome = .error e := by
  have named : ∀ k ∈ d.definitions name, k.name = name := by
    intro k hk
    rw [definitions_eq] at hk
    simpa using (List.mem_filter.1 hk).2
  rw [get?_table] at h
  rcases (d.scope policy).expand_mergeAll?_cases named h with
    ⟨texts, run, each, all⟩ | ⟨before, k, later, e, split, good, bad, run⟩
  · rw [run]
    refine ⟨⟨fun _ => all, fun _ => ⟨_, rfl⟩⟩, ?_, ?_⟩
    · intro t ht
      exact ⟨texts, each, (Except.ok.inj ht).symm⟩
    · intro e he
      simp at he
  · rw [run]
    refine ⟨⟨?_, ?_⟩, ?_, ?_⟩
    · rintro ⟨t, ht⟩
      simp at ht
    · intro all
      obtain ⟨t, ht⟩ := all k (by simp [split])
      exact absurd (ht.symm.trans bad) (by simp)
    · intro t ht
      simp at ht
    · intro e' he
      obtain rfl := Except.error.inj he
      exact ⟨before, k, later, split, good, bad⟩

/-- Three definitions, one of them without content, and a name whose second definition refers to
nothing and whose third to itself. -/
theorem Document.expand_merged_empty_between :
    let p : Chunk := { kind := .doc, name := ['p'], content := [.text ['x', '\n', 'y']] }
    let a₁ : Chunk := { kind := .code, name := ['a'], content := [.text ['1']] }
    let a₂ : Chunk := { kind := .code, name := ['a'], content := [] }
    let a₃ : Chunk := { kind := .code, name := ['a']
                        content := [.reference ['p'] [' '] {}, .text ['!']] }
    let b₁ : Chunk := { kind := .code, name := ['b'], content := [.text ['2']] }
    let b₂ : Chunk := { kind := .code, name := ['b'], content := [.reference ['q'] [] {}] }
    let b₃ : Chunk := { kind := .code, name := ['b'], content := [.reference ['b'] [] {}] }
    let a : Chunk := { kind := .code, name := ['a']
                       content := [.text ['1', '\n'], .reference ['p'] [' '] {}, .text ['!']] }
    let b : Chunk := { kind := .code, name := ['b']
                       content := [.text ['2', '\n'], .reference ['q'] [] {}, .text ['\n'],
                         .reference ['b'] [] {}] }
    let d : Document := ⟨[a₁, b₁, p, a₂, b₂, a₃, b₃], none⟩
    d.table.get? ['a'] = some a ∧
    ((d.scope .merged).expand a).outcome = .ok "1\n x\n y!".toList ∧
    (∃ texts, List.Forall₂ (fun k u => ((d.scope .merged).expand k).outcome = .ok u) [a₁, a₃] texts ∧
      "1\n x\n y!".toList = ['\n'].intercalate texts) ∧
    d.table.get? ['b'] = some b ∧
    ((d.scope .merged).expand b).outcome = .error (.unresolved ['q']) ∧
    ∃ before k later, [b₁, b₂, b₃] = before ++ k :: later ∧
      (∀ c ∈ before, ∃ t, ((d.scope .merged).expand c).outcome = .ok t) ∧
      ((d.scope .merged).expand k).outcome = .error (.unresolved ['q']) := by
  intro p a₁ a₂ a₃ b₁ b₂ b₃ a b d
  have foundA : d.table.get? ['a'] = some a := by decide
  have foundB : d.table.get? ['b'] = some b := by decide
  have runA : ((d.scope .merged).expand a).outcome = .ok "1\n x\n y!".toList := by cbv
  have runB : ((d.scope .merged).expand b).outcome = .error (.unresolved ['q']) := by cbv
  exact ⟨foundA, runA, (expand_merged d .merged ['a'] a foundA).2.1 _ runA, foundB, runB,
    (expand_merged d .merged ['b'] b foundB).2.2 _ runB⟩

end Literate
