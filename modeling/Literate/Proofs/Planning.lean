import Mathlib.Data.List.Permutation
import Literate.Proofs.Definitions
import Literate.Proofs.Expansion
import Literate.Tangle

namespace Literate

section Sequence

variable {α β ε : Type}

theorem map_eq_ok_iff {x : Except ε α} {f : α → β} {b : β} :
    x.map f = .ok b ↔ ∃ a, x = .ok a ∧ b = f a := by
  cases x with
  | error e => simp [Except.map]
  | ok a => simp [Except.map, eq_comm]

theorem map_eq_error_iff {x : Except ε α} {f : α → β} {e : ε} :
    x.map f = .error e ↔ x = .error e := by
  cases x with
  | error e => simp [Except.map]
  | ok a => simp [Except.map]

/-- Each element succeeds, or the first that fails decides. -/
theorem mapM_cases (f : α → Except ε β) (xs : List α) :
    (∃ ys, xs.mapM f = .ok ys ∧ List.Forall₂ (fun x y => f x = .ok y) xs ys) ∨
    ∃ before x later e, xs = before ++ x :: later ∧ (∀ y ∈ before, ∃ b, f y = .ok b) ∧
      f x = .error e ∧ xs.mapM f = .error e := by
  induction xs with
  | nil => exact Or.inl ⟨[], rfl, .nil⟩
  | cons x xs ih =>
    rw [List.mapM_cons]
    cases hx : f x with
    | error e => exact Or.inr ⟨[], x, xs, e, rfl, by simp, hx, rfl⟩
    | ok y =>
      rcases ih with ⟨ys, run, each⟩ | ⟨before, z, later, e, rfl, good, hz, run⟩
      · exact Or.inl ⟨y :: ys, by rw [run]; rfl, .cons hx each⟩
      · refine Or.inr ⟨x :: before, z, later, e, rfl, ?_, hz, by rw [run]; rfl⟩
        exact List.forall_mem_cons.2 ⟨⟨y, hx⟩, good⟩

theorem exists_fault_of_mapM {f : α → Except ε β} {xs : List α} {e : ε}
    (h : xs.mapM f = .error e) : ∃ x ∈ xs, f x = .error e := by
  rcases mapM_cases f xs with ⟨ys, run, _⟩ | ⟨before, x, later, e', rfl, _, failed, run⟩
  · simp [run] at h
  · obtain rfl : e' = e := Except.error.inj (run.symm.trans h)
    exact ⟨x, by simp, failed⟩

theorem Traced.outcome_mapM (f : α → Traced β) (xs : List α) :
    (xs.mapM f).outcome = xs.mapM fun x => (f x).outcome := by
  induction xs with
  | nil => rfl
  | cons x xs ih =>
    rw [List.mapM_cons, List.mapM_cons, Traced.outcome_bind]
    congr 1
    funext y
    rw [Traced.outcome_bind, ih]
    rfl

end Sequence

namespace Document

/-- The names that a run puts out, as the definitions in the document decide: those that were asked
for, unless one of them has no definition; else the root; else every name with an `out` option in
some definition, in the order of the first definitions. -/
inductive Selects (d : Document) (root : Text) (requested : List Text) :
    Except Fault (List Text) → Prop where
  | requested : requested ≠ [] → (∀ n ∈ requested, d.definitions n ≠ []) →
      Selects d root requested (.ok requested)
  | missing {before later : List Text} {name : Text} : requested = before ++ name :: later →
      (∀ n ∈ before, d.definitions n ≠ []) → d.definitions name = [] →
      Selects d root requested (.error (.notFound name))
  | root : requested = [] → d.definitions root ≠ [] → Selects d root requested (.ok [root])
  | terminals {names : List Text} : requested = [] → d.definitions root = [] → names ≠ [] →
      (∀ n, n ∈ names ↔ ∃ c ∈ d.definitions n, c.isTerminal = true) →
      names.Pairwise (fun a b => d.definedNames.idxOf a < d.definedNames.idxOf b) →
      Selects d root requested (.ok names)
  | noTarget : requested = [] → d.definitions root = [] →
      (∀ n, ∀ c ∈ d.definitions n, c.isTerminal = false) →
      Selects d root requested (.error .noTarget)

/-- Where a name goes: the last definition with an `out` option decides. -/
def outPath? (d : Document) (name : Text) : Option Text :=
  ((d.definitions name).filterMap Chunk.out?).getLast?

variable {d : Document} {root : Text} {requested : List Text}

theorem definitions_ne_nil_of_get? {name : Text} {c : Chunk} (h : d.table.get? name = some c) :
    d.definitions name ≠ [] := by
  intro none
  rw [get?_table, Chunk.mergeAll?_eq_none_iff.2 none] at h
  simp at h

theorem definitions_eq_nil_of_get? {name : Text} (h : d.table.get? name = none) :
    d.definitions name = [] := by
  rw [get?_table] at h
  exact Chunk.mergeAll?_eq_none_iff.1 h

theorem out?_of_mem_table {c : Chunk} (h : c ∈ d.table.chunks) : c.out? = d.outPath? c.name :=
  Chunk.out?_mergeAll (mergeAll?_of_mem_table h)

theorem isTerminal_of_mem_table {c : Chunk} (h : c ∈ d.table.chunks) :
    c.isTerminal = true ↔ ∃ k ∈ d.definitions c.name, k.isTerminal = true := by
  have some : c.isTerminal = true ↔ (d.definitions c.name).filterMap Chunk.out? ≠ [] := by
    rw [← List.getLast?_isSome]
    exact Eq.congr_left (congrArg Option.isSome (out?_of_mem_table h))
  rw [some, Ne, List.filterMap_eq_nil_iff]
  simp [Chunk.isTerminal, Option.isSome_iff_ne_none]

theorem mem_terminals {name : Text} :
    name ∈ d.table.terminals.map (·.name) ↔ ∃ c ∈ d.definitions name, c.isTerminal = true := by
  constructor
  · intro h
    obtain ⟨c, hc, rfl⟩ := List.mem_map.1 h
    obtain ⟨inside, terminal⟩ := List.mem_filter.1 hc
    exact (isTerminal_of_mem_table inside).1 terminal
  · rintro ⟨k, hk, terminal⟩
    cases hc : d.table.get? name with
    | none => simp [definitions_eq_nil_of_get? hc] at hk
    | some c =>
      obtain ⟨inside, rfl⟩ := Table.name_of_get? hc
      have own := (isTerminal_of_mem_table inside).2 ⟨k, hk, terminal⟩
      exact List.mem_map.2 ⟨c, List.mem_filter.2 ⟨inside, own⟩, rfl⟩

theorem pairwise_terminals (d : Document) : (d.table.terminals.map (·.name)).Pairwise
    fun a b => d.definedNames.idxOf a < d.definedNames.idxOf b := by
  have all := pairwise_distinct d.definedNames
  rw [← names_table] at all
  exact all.sublist (List.filter_sublist.map _)

end Document

namespace Table

variable {t : Table} {name : Text}

theorem get?_of_find {c : Chunk} (h : t.find name = .ok c) : t.get? name = some c := by
  unfold find at h
  split at h
  · simp_all
  · simp at h

theorem fault_of_find {e : Fault} (h : t.find name = .error e) :
    t.get? name = none ∧ e = .notFound name := by
  unfold find at h
  split at h
  · simp at h
  · simp_all

theorem names_of_found {names : List Text} {cs : List Chunk}
    (h : List.Forall₂ (fun n c => t.find n = .ok c) names cs) :
    cs.map (·.name) = names ∧ ∀ c ∈ cs, c ∈ t.chunks := by
  induction h with
  | nil => exact ⟨rfl, by simp⟩
  | cons found _ ih =>
    obtain ⟨inside, named⟩ := name_of_get? (get?_of_find found)
    exact ⟨congrArg₂ List.cons named ih.1, List.forall_mem_cons.2 ⟨inside, ih.2⟩⟩

end Table

namespace Document

variable {d : Document}

/-- The table makes the choice that the definitions call for, among its own chunks. -/
theorem selects_select (d : Document) (root : Text) (requested : List Text) :
    (∃ e, d.table.select requested root = .error e ∧ d.Selects root requested (.error e)) ∨
    ∃ s, d.table.select requested root = .ok s ∧
      d.Selects root requested (.ok (s.chunks.map (·.name))) ∧
      ∀ c ∈ s.chunks, c ∈ d.table.chunks := by
  by_cases none : requested = []
  · subst none
    cases hr : d.table.get? root with
    | some c =>
      obtain ⟨inside, rfl⟩ := Table.name_of_get? hr
      refine Or.inr ⟨⟨.root, [c]⟩, by simp [Table.select, hr], ?_, by simpa using inside⟩
      exact .root rfl (definitions_ne_nil_of_get? hr)
    | none =>
      have noRoot := definitions_eq_nil_of_get? hr
      by_cases ht : d.table.terminals = []
      · refine Or.inl ⟨.noTarget, by simp [Table.select, hr, ht], .noTarget rfl noRoot ?_⟩
        intro n c hc
        rw [← Bool.not_eq_true]
        intro terminal
        have inside := mem_terminals.2 ⟨c, hc, terminal⟩
        simp [ht] at inside
      · refine Or.inr ⟨⟨.terminals, d.table.terminals⟩, by simp [Table.select, hr, ht], ?_, ?_⟩
        · exact .terminals rfl noRoot (by simpa using ht) (fun n => mem_terminals)
            d.pairwise_terminals
        · exact fun c hc => (List.mem_filter.1 hc).1
  · have asked : requested.isEmpty = false := by simpa using none
    rcases mapM_cases d.table.find requested with
      ⟨cs, run, found⟩ | ⟨before, name, later, e, rfl, good, missing, run⟩
    · obtain ⟨named, inside⟩ := Table.names_of_found found
      refine Or.inr ⟨⟨.requested, cs⟩, by rw [Table.select, asked, run]; rfl, ?_, inside⟩
      rw [named]
      refine .requested none ?_
      intro n hn
      rw [← named] at hn
      obtain ⟨c, hc, rfl⟩ := List.mem_map.1 hn
      intro empty
      have merged := mergeAll?_of_mem_table (inside c hc)
      simp [empty, Chunk.mergeAll?] at merged
    · obtain ⟨absent, rfl⟩ := Table.fault_of_find missing
      refine Or.inl ⟨.notFound name, by rw [Table.select, asked, run]; rfl, .missing rfl ?_ ?_⟩
      · intro n hn
        obtain ⟨c, hc⟩ := good n hn
        exact definitions_ne_nil_of_get? (Table.get?_of_find hc)
      · exact definitions_eq_nil_of_get? absent

theorem find?_missing {requested before later : List Text} {name : Text}
    (split : requested = before ++ name :: later) (good : ∀ n ∈ before, d.definitions n ≠ [])
    (missing : d.definitions name = []) :
    requested.find? (fun n => (d.definitions n).isEmpty) = some name := by
  refine List.find?_eq_some_iff_append.2 ⟨by simp [missing], before, later, split, ?_⟩
  intro n hn
  simpa using good n hn

theorem eq_of_pairwise_idxOf {all xs ys : List Text} (hm : ∀ n, n ∈ xs ↔ n ∈ ys)
    (hx : xs.Pairwise fun a b => all.idxOf a < all.idxOf b)
    (hy : ys.Pairwise fun a b => all.idxOf a < all.idxOf b) : xs = ys := by
  have perm : xs.Perm ys :=
    (List.perm_ext_iff_of_nodup (nodup_of_idxOf_lt hx) (nodup_of_idxOf_lt hy)).2 hm
  refine perm.eq_of_pairwise ?_ hx hy
  intro a b _ _ less more
  exact absurd less (Nat.lt_asymm more)

/-- The definitions leave no choice. -/
theorem Selects.unique {root : Text} {requested : List Text} {a b : Except Fault (List Text)}
    (ha : d.Selects root requested a) (hb : d.Selects root requested b) : a = b := by
  -- No two rules apply at once: what was asked for tells the first two from the rest, and the root
  -- the third from the last two.
  cases ha with
  | requested asked defined =>
    cases hb with
    | requested => rfl
    | missing split _ none => exact absurd none (defined _ (by simp [split]))
    | root empty | terminals empty | noTarget empty => exact absurd empty asked
  | missing split good none =>
    have first := find?_missing split good none
    cases hb with
    | requested _ defined => exact absurd none (defined _ (by simp [split]))
    | missing split' good' none' =>
      have first' := find?_missing split' good' none'
      rw [first] at first'
      rw [Option.some.inj first']
    | root empty | terminals empty | noTarget empty => simp [empty] at split
  | root empty defined =>
    cases hb with
    | requested asked => exact absurd empty asked
    | missing split => simp [empty] at split
    | root => rfl
    | terminals _ none | noTarget _ none => exact absurd none defined
  | terminals empty none some terminal order =>
    cases hb with
    | requested asked => exact absurd empty asked
    | missing split => simp [empty] at split
    | root _ defined => exact absurd none defined
    | terminals _ _ _ terminal' order' =>
      have same n := (terminal n).trans (terminal' n).symm
      rw [eq_of_pairwise_idxOf same order order']
    | noTarget _ _ plain =>
      obtain ⟨n, hn⟩ := List.exists_mem_of_ne_nil _ some
      obtain ⟨c, hc, out⟩ := (terminal n).1 hn
      simp [plain n c hc] at out
  | noTarget empty none plain =>
    cases hb with
    | requested asked => exact absurd empty asked
    | missing split => simp [empty] at split
    | root _ defined => exact absurd none defined
    | terminals _ _ some terminal =>
      obtain ⟨n, hn⟩ := List.exists_mem_of_ne_nil _ some
      obtain ⟨c, hc, out⟩ := (terminal n).1 hn
      simp [plain n c hc] at out
    | noTarget => rfl

/-- The expansion of all definitions of a name as one chunk. -/
def expandDefinitions (d : Document) (policy : Policy) (name : Text) : Except Fault Text :=
  match Chunk.mergeAll? (d.definitions name) with
  | none => .error (.unresolved name)
  | some c => ((d.scope policy).expand c).outcome

end Document

namespace Context

/-- The action that puts a text out, to a file if there is a path for it. -/
def put (x : Context) (name : Text) (out? : Option Text) (text : Text) : Action :=
  match out? with
  | some path => .write name (x.resolveOutput path) (x.settings.finish text) x.settings.createDirs
  | none => .print name (x.settings.finish text)

theorem outcome_action (x : Context) (c : Chunk) (text : Text) :
    (x.action ⟨c.name, .ofChunk c, text⟩).outcome = .ok (x.put c.name c.out? text) := by
  unfold action put Target.ofChunk
  cases c.out? with
  | none => rfl
  | some path => rfl

variable {d : Document}

theorem outcome_output (policy : Policy) {c : Chunk} (h : c ∈ d.table.chunks) :
    ((d.scope policy).output c).outcome =
      (d.expandDefinitions policy c.name).map fun text => ⟨c.name, .ofChunk c, text⟩ := by
  rw [Scope.output, Traced.outcome_bind, Document.expandDefinitions,
    Document.mergeAll?_of_mem_table h]
  rfl

/-- All outputs are expanded before the first action is made, and no action can fail. So the outcome
is that of taking one name after the other. -/
theorem outcome_actions (x : Context) (policy : Policy) {cs : List Chunk}
    (h : ∀ c ∈ cs, c ∈ d.table.chunks) :
    ((cs.mapM (d.scope policy).output >>= fun os => os.mapM x.action).outcome) =
      (cs.map (·.name)).mapM fun n =>
        (d.expandDefinitions policy n).map (x.put n (d.outPath? n)) := by
  induction cs with
  | nil => rfl
  | cons c cs ih =>
    obtain ⟨hc, hcs⟩ := List.forall_mem_cons.1 h
    have rest := ih hcs
    rw [Traced.outcome_bind] at rest ⊢
    rw [List.mapM_cons, Traced.outcome_bind, outcome_output policy hc, List.map_cons,
      List.mapM_cons, ← rest]
    cases d.expandDefinitions policy c.name with
    | error e => rfl
    | ok text =>
      have first : (x.action ⟨c.name, .ofChunk c, text⟩).outcome =
          .ok (x.put c.name (d.outPath? c.name) text) := by
        rw [outcome_action, Document.out?_of_mem_table hc]
      show ((cs.mapM (d.scope policy).output >>= fun os => pure (_ :: os)).outcome >>= fun os =>
        (os.mapM x.action).outcome) = _
      rw [Traced.outcome_bind]
      cases (cs.mapM (d.scope policy).output).outcome with
      | error e => rfl
      | ok os =>
        show ((_ :: os).mapM x.action).outcome = _
        rw [List.mapM_cons, Traced.outcome_bind, first]
        show (os.mapM x.action >>= fun as => pure (_ :: as)).outcome = _
        rw [Traced.outcome_bind]
        rfl

theorem plan_of_select_error {x : Context} {requested : List Text} {e : Fault}
    (h : d.table.select requested x.settings.root = .error e) :
    x.plan d requested = ⟨d.collect.events, .error e⟩ := by
  have none : (d.scope x.settings.policy).outputs requested x.settings.root = .fail e := by
    show Traced.bind (.ofExcept (d.table.select requested x.settings.root)) _ = _
    rw [h]
    rfl
  show Traced.bind d.collect (fun _ => Traced.bind
    ((d.scope x.settings.policy).outputs requested x.settings.root) _) = _
  rw [none]
  show Traced.mk (d.collect.events ++ []) _ = _
  rw [List.append_nil]
  rfl

theorem outcome_plan (x : Context) (d : Document) (requested : List Text) :
    (x.plan d requested).outcome = d.table.select requested x.settings.root >>= fun s =>
      (s.chunks.mapM (d.scope x.settings.policy).output >>= fun os => os.mapM x.action).outcome := by
  have outputs : ((d.scope x.settings.policy).outputs requested x.settings.root).outcome =
      d.table.select requested x.settings.root >>= fun s =>
        (s.chunks.mapM (d.scope x.settings.policy).output).outcome := by
    rw [Scope.outputs, Traced.outcome_bind, Traced.outcome_ofExcept]
    rfl
  show Traced.outcome ((d.scope x.settings.policy).outputs requested x.settings.root >>= fun os =>
    os.mapM x.action >>= fun actions => .report (.prepared actions.length) >>= fun _ =>
      pure actions) = _
  rw [Traced.outcome_bind, outputs]
  cases d.table.select requested x.settings.root with
  | error e => rfl
  | ok s =>
    show _ = (s.chunks.mapM (d.scope x.settings.policy).output >>= fun os =>
      os.mapM x.action).outcome
    rw [Traced.outcome_bind]
    congr 1
    funext os
    rw [Traced.outcome_bind]
    exact bind_pure _

/-- What a run puts out hangs on the definitions in the document alone, and they leave no choice. A
fault of the selection comes before any expansion, the first fault of an expansion comes next, and
otherwise there is one action for each selected name, in order. -/
theorem plan_selected :
    ∀ (x : Context) (d : Document) (requested : List Text),
      ∃ selection, d.Selects x.settings.root requested selection ∧
        (∀ other, d.Selects x.settings.root requested other → other = selection) ∧
        match selection with
        | .error e => x.plan d requested = ⟨d.collect.events, .error e⟩
        | .ok names =>
          (∃ before name later e, names = before ++ name :: later ∧
            (∀ n ∈ before, ∃ text, d.expandDefinitions x.settings.policy n = .ok text) ∧
            d.expandDefinitions x.settings.policy name = .error e ∧
            (x.plan d requested).outcome = .error e) ∨
          ∃ actions, (x.plan d requested).outcome = .ok actions ∧
            List.Forall₂ (fun n a => ∃ text, d.expandDefinitions x.settings.policy n = .ok text ∧
              a = x.put n (d.outPath? n) text) names actions := by
  intro x d requested
  rcases d.selects_select x.settings.root requested with
    ⟨e, run, selects⟩ | ⟨s, run, selects, inside⟩
  · exact ⟨_, selects, fun _ other => other.unique selects, plan_of_select_error run⟩
  · refine ⟨_, selects, fun _ other => other.unique selects, ?_⟩
    have outcome : (x.plan d requested).outcome = (s.chunks.map (·.name)).mapM fun n =>
        (d.expandDefinitions x.settings.policy n).map (x.put n (d.outPath? n)) := by
      rw [outcome_plan, run, ← outcome_actions x x.settings.policy inside]
      rfl
    rcases mapM_cases (fun n => (d.expandDefinitions x.settings.policy n).map
        (x.put n (d.outPath? n))) (s.chunks.map (·.name)) with
      ⟨actions, good, each⟩ | ⟨before, name, later, e, split, fine, bad, stop⟩
    · exact Or.inr ⟨actions, outcome.trans good, each.imp fun n a => map_eq_ok_iff.1⟩
    · refine Or.inl ⟨before, name, later, e, split, ?_, map_eq_error_iff.1 bad, outcome.trans stop⟩
      intro n hn
      obtain ⟨a, made⟩ := fine n hn
      obtain ⟨text, expanded, _⟩ := map_eq_ok_iff.1 made
      exact ⟨text, expanded⟩

/-- Two names, both with an `out` option that another definition adds or changes. A piece of prose of
the same name gives none. -/
theorem plan_selected_terminals :
    let a : Chunk := { kind := .code, name := ['a'], content := [.text ['1']] }
    let doc : Chunk := { kind := .doc, name := ['a'], options := .ofList [(Options.outKey, ['n'])] }
    let b : Chunk := { kind := .code, name := ['b'], options := .ofList [(Options.outKey, ['m'])]
                       content := [.text ['2', '\n', '3']] }
    let a' : Chunk := { kind := .code, name := ['a'], options := .ofList [(Options.outKey, ['y'])]
                        content := [.reference ['b'] [' '] {}] }
    let b' : Chunk := { kind := .code, name := ['b']
                        options := .ofList [(Options.outKey, ['/', 'z'])] }
    let d : Document := ⟨[a, doc, b, a', doc, b'], none⟩
    let x : Context := { base := ['/', 'w'] }
    d.Selects x.settings.root [] (.ok [['a'], ['b']]) ∧
    (x.plan d []).outcome =
      .ok [.write ['a'] "/w/y".toList "1\n 2\n 3\n".toList true,
        .write ['b'] "/z".toList "2\n3\n".toList true] := by
  intro a doc b a' b' d x
  have selects : d.Selects x.settings.root [] (.ok [['a'], ['b']]) := by
    refine .terminals rfl (by decide) (by decide) ?_ (by decide)
    intro n
    have each : ∀ n ∈ [['a'], ['b']], ∃ c ∈ d.definitions n, c.isTerminal = true := by decide
    refine ⟨each n, ?_⟩
    rintro ⟨c, hc, _⟩
    have defined : n ∈ d.definedNames := Document.mem_definedNames.2 (List.ne_nil_of_mem hc)
    have all : ∀ n ∈ d.definedNames, n ∈ [['a'], ['b']] := by decide
    exact all n defined
  have first : d.expandDefinitions .merged ['a'] = .ok "1\n 2\n 3".toList := by cbv
  have second : d.expandDefinitions .merged ['b'] = .ok "2\n3".toList := by cbv
  obtain ⟨selection, _, unique, result⟩ := plan_selected x d []
  obtain rfl := unique _ selects
  refine ⟨selects, ?_⟩
  rcases result with ⟨before, name, later, e, split, _, bad, _⟩ | ⟨actions, run, each⟩
  · have mem : name ∈ [['a'], ['b']] := by simp [split]
    have good : ∀ n ∈ [['a'], ['b']], ∃ t, d.expandDefinitions .merged n = .ok t := by
      simp [first, second]
    obtain ⟨t, ht⟩ := good name mem
    exact absurd (bad.symm.trans ht) (by simp)
  · rw [run]
    cases each with
    | cons ha rest =>
      cases rest with
      | cons hb rest =>
        cases rest
        obtain ⟨t, ht, rfl⟩ := ha
        obtain ⟨u, hu, rfl⟩ := hb
        obtain rfl := Except.ok.inj (ht.symm.trans first)
        obtain rfl := Except.ok.inj (hu.symm.trans second)
        cbv

end Context

end Literate
