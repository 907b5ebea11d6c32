import Literate.Proofs.Chains
import Literate.Proofs.Moments

namespace Literate

namespace Scope

variable {s : Scope} {path : List Text} {gs : List Segment}

/-- A chain of references with the position of each among the segments that it is in. -/
inductive Route (s : Scope) : List Segment → List Nat → List Text → Prop where
  | last {gs : List Segment} {i : Nat} {name indent : Text} {loc : Location} :
      gs[i]? = some (.reference name indent loc) → Route s gs [i] [name]
  | step {gs : List Segment} {i : Nat} {name indent : Text} {loc : Location} {c : Chunk}
      {positions : List Nat} {names : List Text} :
      gs[i]? = some (.reference name indent loc) → s.resolve? name = some c →
        Route s c.content positions names → Route s gs (i :: positions) (name :: names)

/-- The positions of a chain, if one more segment comes first. -/
def behind : List Nat → List Nat
  | [] => []
  | i :: positions => (i + 1) :: positions

namespace Route

theorem chain {positions : List Nat} {names : List Text} (h : s.Route gs positions names) :
    s.Chain gs names := by
  induction h with
  | last found => exact .last (List.mem_of_getElem? found)
  | step found hr _ ih => exact .step (List.mem_of_getElem? found) hr ih

theorem ne_nil {positions : List Nat} {names : List Text} (h : s.Route gs positions names) :
    positions ≠ [] ∧ names ≠ [] := by
  cases h with
  | last => exact ⟨List.cons_ne_nil _ _, List.cons_ne_nil _ _⟩
  | step => exact ⟨List.cons_ne_nil _ _, List.cons_ne_nil _ _⟩

theorem behind {positions : List Nat} {names : List Text} (h : s.Route gs positions names)
    (g : Segment) : s.Route (g :: gs) (behind positions) names := by
  cases h with
  | last found => exact .last (by rwa [List.getElem?_cons_succ])
  | step found hr later => exact .step (by rwa [List.getElem?_cons_succ]) hr later

/-- A chain starts with the first segment or comes from those behind it. -/
theorem of_cons {g : Segment} {positions : List Nat} {names : List Text}
    (h : s.Route (g :: gs) positions names) :
    (∃ ps, positions = Scope.behind ps ∧ s.Route gs ps names) ∨
    ∃ name indent loc, g = .reference name indent loc ∧
      (positions = [0] ∧ names = [name] ∨
      ∃ c ps later, s.resolve? name = some c ∧ positions = 0 :: ps ∧ names = name :: later ∧
        s.Route c.content ps later) := by
  cases h with
  | @last _ i name indent loc found =>
    cases i with
    | zero => exact Or.inr ⟨name, indent, loc, Option.some.inj found, Or.inl ⟨rfl, rfl⟩⟩
    | succ i => exact Or.inl ⟨[i], rfl, .last (by rwa [List.getElem?_cons_succ] at found)⟩
  | @step _ i name indent loc c ps later found hr rest =>
    cases i with
    | zero =>
      exact Or.inr ⟨name, indent, loc, Option.some.inj found, Or.inr ⟨c, ps, later, hr, rfl, rfl, rest⟩⟩
    | succ i => exact Or.inl ⟨i :: ps, rfl, .step (by rwa [List.getElem?_cons_succ] at found) hr rest⟩

end Route

/-- A chain that comes to a fault with its last name and not before. The names of `path` led to the
segments that it starts from. -/
structure Faulty (s : Scope) (path : List Text) (gs : List Segment) (positions : List Nat)
    (front : List Text) (last : Text) : Prop where
  route : s.Route gs positions (front ++ [last])
  nodup : (path ++ front).Nodup
  fault : s.resolve? last = none ∨ last ∈ path ++ front

/-- The chain to a fault that comes before all others. -/
structure First (s : Scope) (path : List Text) (gs : List Segment) (positions : List Nat)
    (front : List Text) (last : Text) : Prop extends Faulty s path gs positions front last where
  least : ∀ ps f l, s.Faulty path gs ps f l →
    ps = positions ∧ f = front ∧ l = last ∨ List.Lex (· < ·) positions ps

theorem lex_behind {ps qs : List Nat} (h : List.Lex (· < ·) ps qs) (hp : ps ≠ []) :
    List.Lex (· < ·) (behind ps) (behind qs) := by
  cases h with
  | nil => exact absurd rfl hp
  | rel less => exact .rel (Nat.succ_lt_succ less)
  | cons later => exact .cons later

theorem lex_zero_behind (ps : List Nat) {qs : List Nat} (h : qs ≠ []) :
    List.Lex (· < ·) (0 :: ps) (behind qs) := by
  obtain ⟨i, qs, rfl⟩ := List.exists_cons_of_ne_nil h
  exact .rel (Nat.succ_pos i)

namespace Faulty

variable {positions : List Nat} {front : List Text} {last : Text}

theorem behind (h : s.Faulty path gs positions front last) (g : Segment) :
    s.Faulty path (g :: gs) (behind positions) front last :=
  ⟨h.route.behind g, h.nodup, h.fault⟩

theorem of_text_cons {t : Text} (h : s.Faulty path (.text t :: gs) positions front last) :
    ∃ ps, positions = Scope.behind ps ∧ s.Faulty path gs ps front last := by
  rcases h.route.of_cons with ⟨ps, rfl, route⟩ | ⟨_, _, _, same, _⟩
  · exact ⟨ps, rfl, route, h.nodup, h.fault⟩
  · simp at same

/-- A chain comes to a fault behind the first reference, with it, or in what it stands for. -/
theorem of_reference_cons {name own : Text} {loc : Location}
    (h : s.Faulty path (.reference name own loc :: gs) positions front last) :
    (∃ ps, positions = Scope.behind ps ∧ s.Faulty path gs ps front last) ∨
    positions = [0] ∧ front = [] ∧ last = name ∨
    ∃ c ps f, s.resolve? name = some c ∧ positions = 0 :: ps ∧ front = name :: f ∧
      s.Faulty (path ++ [name]) c.content ps f last := by
  rcases h.route.of_cons with ⟨ps, rfl, route⟩ | ⟨_, _, _, same, here | inside⟩
  · exact Or.inl ⟨ps, rfl, route, h.nodup, h.fault⟩
  · obtain ⟨rfl, names⟩ := here
    cases same
    obtain ⟨rfl, rfl⟩ : front = [] ∧ last = name := by simpa [List.append_eq_singleton_iff] using names
    exact Or.inr (Or.inl ⟨rfl, rfl, rfl⟩)
  · obtain ⟨c, ps, later, hr, rfl, names, route⟩ := inside
    cases same
    cases front with
    | nil => exact absurd (List.cons.inj names).2.symm route.ne_nil.2
    | cons first f =>
      obtain ⟨rfl, rfl⟩ := List.cons.inj names
      have path' : path ++ first :: f = path ++ [first] ++ f := by simp
      exact Or.inr (Or.inr ⟨c, ps, f, hr, rfl, rfl, route, path' ▸ h.nodup, path' ▸ h.fault⟩)

end Faulty

namespace First

variable {positions : List Nat} {front : List Text} {last name own : Text} {loc : Location} {c : Chunk}

/-- Segments in front with no fault of their own make no difference. -/
theorem behind {g : Segment} (h : s.First path gs positions front last)
    (none : ∀ ps f l, s.Faulty path (g :: gs) ps f l →
      ∃ qs, ps = behind qs ∧ s.Faulty path gs qs f l) :
    s.First path (g :: gs) (behind positions) front last where
  toFaulty := h.toFaulty.behind g
  least ps f l faulty := by
    obtain ⟨qs, rfl, later⟩ := none ps f l faulty
    rcases h.least qs f l later with ⟨rfl, rfl, rfl⟩ | before
    · exact Or.inl ⟨rfl, rfl, rfl⟩
    · exact Or.inr (lex_behind before h.route.ne_nil.1)

/-- A reference whose name is at fault comes before all else. -/
theorem here (nodup : path.Nodup) (fault : s.resolve? name = none ∨ name ∈ path) :
    s.First path (.reference name own loc :: gs) [0] [] name where
  route := .last rfl
  nodup := by rwa [List.append_nil]
  fault := by rwa [List.append_nil]
  least ps f l faulty := by
    rcases faulty.of_reference_cons with ⟨qs, rfl, later⟩ | same | ⟨_, qs, _, _, rfl, _, inner⟩
    · exact Or.inr (lex_zero_behind [] later.route.ne_nil.1)
    · exact Or.inl same
    · obtain ⟨i, qs, rfl⟩ := List.exists_cons_of_ne_nil inner.route.ne_nil.1
      exact Or.inr (.cons .nil)

/-- A fault in what the first reference stands for comes before those behind it. -/
theorem inside (hr : s.resolve? name = some c) (fresh : name ∉ path)
    (h : s.First (path ++ [name]) c.content positions front last) :
    s.First path (.reference name own loc :: gs) (0 :: positions) (name :: front) last where
  route := .step rfl hr h.route
  nodup := by simpa using h.nodup
  fault := by simpa using h.fault
  least ps f l faulty := by
    rcases faulty.of_reference_cons with ⟨qs, rfl, later⟩ | ⟨rfl, rfl, rfl⟩ |
      ⟨c', qs, f, hr', rfl, rfl, inner⟩
    · exact Or.inr (lex_zero_behind positions later.route.ne_nil.1)
    · have fault := faulty.fault
      simp [hr, fresh] at fault
    · obtain rfl : c = c' := Option.some.inj (hr.symm.trans hr')
      rcases h.least qs f l inner with ⟨rfl, rfl, rfl⟩ | before
      · exact Or.inl ⟨rfl, rfl, rfl⟩
      · exact Or.inr (.cons before)

end First

/-- Clear segments have no chain to a fault. -/
theorem Clear.not_faulty {trail : Trail} (clear : s.Clear trail gs)
    {positions : List Nat} {front : List Text} {last : Text} :
    ¬s.Faulty trail.stack gs positions front last := by
  intro h
  obtain ⟨resolved, nodup⟩ := clear _ h.route.chain
  obtain ⟨⟨c, hr⟩, inactive⟩ := resolved last (by simp)
  have apart : last ∉ front := (List.nodup_cons.1 (List.nodup_append_comm.1 nodup)).1
  rcases h.fault with none | again
  · simp [hr] at none
  · rcases List.mem_append.1 again with old | old
    · rw [← trail.active_iff, inactive] at old
      simp at old
    · exact apart old

/-- The fault with a name that does not resolve, or that `path` has come to before. -/
def faultWith (s : Scope) (path : List Text) (last : Text) : Fault :=
  if s.resolve? last = none then .unresolved last
  else .cyclic (path.dropWhile (· != last) ++ [last])

/-- An expansion ends with the fault that the first chain comes to. -/
theorem exists_first_of_error {trail : Trail} {indent : Text} {e : Fault}
    (h : (s.expandAll trail indent gs).outcome = .error e) :
    ∃ positions front last, s.First trail.stack gs positions front last ∧
      e = s.faultWith (trail.stack ++ front) last := by
  induction trail, indent, gs using expandAll.induct s with
  | case1 => simp at h
  | case2 trail indent t rest ih =>
    obtain ⟨ps, f, l, first, rfl⟩ := ih (expandAll_text_outcome_error.1 h)
    exact ⟨behind ps, f, l, first.behind fun _ _ _ faulty => faulty.of_text_cons, rfl⟩
  | case3 trail indent name own loc rest hr =>
    rw [expandAll_reference_unresolved hr] at h
    obtain rfl := Except.error.inj h
    refine ⟨[0], [], name, .here trail.nodup (Or.inl hr), ?_⟩
    rw [faultWith, if_pos hr]
  | case4 trail indent name own loc rest c hr names he =>
    rw [expandAll_reference_cyclic hr he] at h
    obtain rfl := Except.error.inj h
    refine ⟨[0], [], name, .here trail.nodup (Or.inr (Trail.enter_error_iff.1 ⟨names, he⟩)), ?_⟩
    rw [faultWith, if_neg (by simp [hr]), List.append_nil, Trail.eq_dropWhile_of_error he]
  | case5 trail indent name own loc rest c hr inner he ihInner ihRest =>
    have stack := Trail.stack_of_enter he
    have fresh := Trail.not_mem_of_enter he
    rcases (expandAll_reference_outcome_error hr he).1 h with hx | ⟨x, hx, hl⟩
    · obtain ⟨ps, f, l, first, rfl⟩ := ihInner hx
      rw [stack] at first ⊢
      refine ⟨0 :: ps, name :: f, l, first.inside hr fresh, ?_⟩
      rw [List.append_assoc, List.singleton_append]
    · obtain ⟨ps, f, l, first, rfl⟩ := ihRest hl
      have clear := (s.expandAll_ok_iff_clear inner _ _).1 ⟨x, hx⟩
      refine ⟨behind ps, f, l, first.behind ?_, rfl⟩
      intro qs f' l' faulty
      rcases faulty.of_reference_cons with later | ⟨rfl, rfl, rfl⟩ | ⟨c', qs, f, hr', rfl, rfl, inside⟩
      · exact later
      · have fault := faulty.fault
        simp [hr, fresh] at fault
      · obtain rfl : c = c' := Option.some.inj (hr.symm.trans hr')
        rw [← stack] at inside
        exact absurd inside clear.not_faulty

/-- The chunk that is expanded under a name on the way from a chunk. -/
def under (s : Scope) (c : Chunk) (name : Text) : Option Chunk :=
  if name = c.name then some c else s.resolve? name

/-- What is expanded under the first name refers to the second. -/
def Refers (s : Scope) (c : Chunk) (name other : Text) : Prop :=
  ∃ k, s.under c name = some k ∧ other ∈ k.references

theorem Route.refers {c : Chunk} {positions : List Nat} {front : List Text} {last : Text}
    (h : s.Route gs positions (front ++ [last])) (apart : c.name ∉ front) :
    (front ++ [last]).IsChain (s.Refers c) ∧
      ∀ n, (front ++ [last]).head? = some n → n ∈ gs.filterMap Segment.name? := by
  have inside {gs : List Segment} {i : Nat} {name indent : Text} {loc : Location}
      (found : gs[i]? = some (.reference name indent loc)) : name ∈ gs.filterMap Segment.name? :=
    List.mem_filterMap.2 ⟨_, List.mem_of_getElem? found, rfl⟩
  generalize hn : front ++ [last] = names at h
  induction h generalizing front with
  | @last gs i name indent loc found =>
    refine ⟨.singleton name, ?_⟩
    intro n head
    obtain rfl := Option.some.inj head
    exact inside found
  | @step gs i name indent loc k ps names found hr route ih =>
    cases front with
    | nil => exact absurd (List.cons.inj hn).2.symm route.ne_nil.2
    | cons first f =>
      obtain ⟨rfl, rest⟩ := List.cons.inj hn
      obtain ⟨other, apart⟩ := not_or.1 (fun mem => apart (List.mem_cons.2 mem))
      obtain ⟨chain, head⟩ := ih apart rest
      refine ⟨List.isChain_cons.2 ⟨?_, chain⟩, ?_⟩
      · intro n hn
        exact ⟨k, (if_neg (Ne.symm other)).trans hr, head n hn⟩
      · intro n head
        obtain rfl := Option.some.inj head
        exact inside found

/-- A cycle that a chain from a chunk closes is given from its first name to the same name again,
and the names on it refer to each other in turn. -/
theorem Faulty.faultWith_eq {c : Chunk} {positions : List Nat} {front : List Text} {last : Text}
    (h : s.Faulty [c.name] c.content positions front last) (hr : s.resolve? last ≠ none) :
    ∃ before inner, c.name :: front = before ++ last :: inner ∧
      s.faultWith (c.name :: front) last = .cyclic (last :: inner ++ [last]) ∧
      (last :: inner).Nodup ∧ (last :: inner ++ [last]).IsChain (s.Refers c) := by
  have again : last ∈ c.name :: front := h.fault.resolve_left hr
  have nodup : (c.name :: front).Nodup := h.nodup
  obtain ⟨before, inner, split⟩ := List.append_of_mem again
  obtain ⟨chain, head⟩ := h.route.refers (List.nodup_cons.1 nodup).1
  have all : (c.name :: (front ++ [last])).IsChain (s.Refers c) :=
    List.isChain_cons.2 ⟨fun n hn => ⟨c, if_pos rfl, head n hn⟩, chain⟩
  rw [← List.cons_append, split, List.append_assoc] at all
  rw [split] at nodup
  obtain ⟨_, later, apart⟩ := List.nodup_append.1 nodup
  refine ⟨before, inner, split, ?_, later, all.right_of_append⟩
  have skipped : ∀ n ∈ before, (n != last) = true := by
    intro n hn
    simpa using apart n hn last List.mem_cons_self
  rw [faultWith, if_neg hr, split, List.dropWhile_append_of_pos skipped, List.dropWhile_cons_of_neg]
  simp

end Scope

/-- An expansion that fails does so with the fault of the chain of references that comes first, by
the positions of its references, of those that come to a fault: a name that does not resolve, or the
cycle that the chain closes with its last name. -/
theorem Document.expand_first_fault (d : Document) (policy : Policy) (c : Chunk) (e : Fault)
    (h : ((d.scope policy).expand c).outcome = .error e) :
    ∃ positions front last, (d.scope policy).First [c.name] c.content positions front last ∧
      ((d.scope policy).resolve? last = none → e = .unresolved last) ∧
      ((d.scope policy).resolve? last ≠ none → ∃ before inner,
        c.name :: front = before ++ last :: inner ∧ e = .cyclic (last :: inner ++ [last]) ∧
        (last :: inner).Nodup ∧
        (last :: inner ++ [last]).IsChain ((d.scope policy).Refers c)) := by
  obtain ⟨trail, he, run⟩ := (d.scope policy).expand_eq c
  have stack : trail.stack = [c.name] := Trail.stack_of_enter he
  rw [run] at h
  obtain ⟨positions, front, last, first, rfl⟩ := Scope.exists_first_of_error h
  rw [stack] at first ⊢
  exact ⟨positions, front, last, first, fun hr => if_pos hr, first.toFaulty.faultWith_eq⟩

/-- A cycle that does not lead back to the chunk itself, with names that do not resolve behind it on
the chain and in the chunk. -/
theorem Document.expand_first_fault_inner_cycle :
    let a : Chunk := { kind := .code, name := ['a']
                       content := [.text ['1'], .reference ['b'] [' '] {}, .reference ['x'] [] {}] }
    let b : Chunk := { kind := .doc, name := ['b'], content := [.reference ['c'] [] {}] }
    let c : Chunk := { kind := .code, name := ['c']
                       content := [.reference ['b'] [] {}, .reference ['y'] [] {}] }
    let d : Document := ⟨[b, a, c], none⟩
    ((d.scope .merged).expand a).outcome = .error (.cyclic [['b'], ['c'], ['b']]) ∧
    ∃ positions front last, (d.scope .merged).First [['a']] a.content positions front last ∧
      ((d.scope .merged).resolve? last ≠ none → ∃ before inner,
        ['a'] :: front = before ++ last :: inner ∧
        [['b'], ['c'], ['b']] = last :: inner ++ [last] ∧
        (last :: inner).Nodup ∧
        (last :: inner ++ [last]).IsChain ((d.scope .merged).Refers a)) := by
  intro a b c d
  have failed : ((d.scope .merged).expand a).outcome = .error (.cyclic [['b'], ['c'], ['b']]) := by
    cbv
  obtain ⟨positions, front, last, first, _, cyclic⟩ := expand_first_fault d .merged a _ failed
  refine ⟨failed, positions, front, last, first, ?_⟩
  intro hr
  obtain ⟨before, inner, split, same, rest⟩ := cyclic hr
  exact ⟨before, inner, split, Fault.cyclic.inj same, rest⟩

end Literate
