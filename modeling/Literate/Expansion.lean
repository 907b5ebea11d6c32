import Literate.Context
import Literate.Table

namespace Literate

structure Scope where
  policy : Policy
  document : Document
  table : Table

namespace Scope

/-- The chunk a name stands for. A name without code definitions stands for its first chunk under
either policy. -/
def resolve? (s : Scope) (name : Text) : Option Chunk :=
  match s.policy with
  | .merged => (s.table.get? name).or (s.document.first? name)
  | .firstDefinition => s.document.first? name

def names (s : Scope) : List Text := s.document.chunks.map (·.name) ++ s.table.chunks.map (·.name)

theorem mem_names_of_resolve? {s : Scope} {name : Text} {c : Chunk} (h : s.resolve? name = some c) :
    name ∈ s.names := by
  have fromDocument {c : Chunk} (h : s.document.first? name = some c) : name ∈ s.names := by
    simp only [Document.first?] at h
    split at h
    · simp at h
    · have found := List.find?_some h
      simp only [decide_eq_true_eq] at found
      exact List.mem_append_left _ (List.mem_map.2 ⟨c, List.mem_of_find?_eq_some h, found⟩)
  unfold resolve? at h
  split at h
  · rcases Option.or_eq_some_iff.1 h with h | ⟨_, h⟩
    · obtain ⟨e, he, rfl⟩ := Option.map_eq_some_iff.1 h
      have found := List.find?_some he
      simp only [decide_eq_true_eq] at found
      refine List.mem_append_right _ (List.mem_map.2 ⟨e.chunk, ?_, found⟩)
      exact List.mem_map.2 ⟨e, List.mem_of_find?_eq_some he, rfl⟩
    · exact fromDocument h
  · exact fromDocument h

end Scope

def Document.scope (d : Document) (policy : Policy) : Scope := ⟨policy, d, d.table⟩

theorem Trail.nodup_nil : ([] : List Text).Nodup := List.nodup_nil

theorem Trail.active_nil (name : Text) : false = true ↔ name ∈ ([] : List Text) := by simp

/-- The names that are being expanded: `stack` in the order in which they were entered, outermost
first, and `active` as a test for membership. -/
structure Trail where
  stack : List Text := []
  active : Text → Bool := fun _ => false
  nodup : stack.Nodup := by exact Literate.Trail.nodup_nil
  active_iff : ∀ name, active name = true ↔ name ∈ stack := by exact Literate.Trail.active_nil

theorem nodup_concat {α : Type} {xs : List α} (h : xs.Nodup) {a : α} (new : a ∉ xs) :
    (xs ++ [a]).Nodup := by
  refine List.nodup_append.2 ⟨h, by simp, ?_⟩
  rintro b old c last rfl
  rw [List.mem_singleton.1 last] at old
  exact new old

theorem mem_dropLast_iff {α : Type} {xs : List α} (h : xs.Nodup) {a : α} :
    a ∈ xs.dropLast ↔ xs.getLast? ≠ some a ∧ a ∈ xs := by
  rcases List.eq_nil_or_concat xs with rfl | ⟨init, last, rfl⟩
  · simp
  · rw [List.concat_eq_append] at h ⊢
    obtain ⟨_, _, apart⟩ := List.nodup_append.1 h
    rw [List.dropLast_concat, List.getLast?_concat, List.mem_append, List.mem_singleton]
    constructor
    · intro old
      exact ⟨fun same => apart a old last (by simp) (Option.some.inj same).symm, Or.inl old⟩
    · rintro ⟨other, old | rfl⟩
      · exact old
      · exact absurd rfl other

namespace Trail

def depth (t : Trail) : Nat := t.stack.length

/-- Enters a name. One that is active already closes a cycle, which is returned from its first
occurrence to its second. -/
def enter (t : Trail) (name : Text) : Except (List Text) Trail :=
  if h : t.active name then
    let first := (t.stack.findIdx? (· == name)).getD 0
    .error (t.stack.drop first ++ [name])
  else
    .ok
      { stack := t.stack ++ [name]
        active := fun m => m == name || t.active m
        nodup := nodup_concat t.nodup fun old => h ((t.active_iff name).2 old)
        active_iff := fun m => by simp [t.active_iff, or_comm] }

def exit (t : Trail) : Trail where
  stack := t.stack.dropLast
  active m := t.stack.getLast? != some m && t.active m
  nodup := t.nodup.sublist (List.dropLast_sublist t.stack)
  active_iff m := by simp [t.active_iff, mem_dropLast_iff t.nodup]

theorem active_of_enter {t inner : Trail} {name : Text} (h : t.enter name = .ok inner) (m : Text) :
    inner.active m = (m == name || t.active m) := by
  unfold enter at h
  split at h
  · simp at h
  · obtain rfl := Except.ok.inj h
    rfl

theorem not_active_of_enter {t inner : Trail} {name : Text} (h : t.enter name = .ok inner) :
    t.active name = false := by
  unfold enter at h
  split at h
  · simp at h
  · simp_all

end Trail

theorem length_filter_lt_of_imp {α : Type} {p q : α → Bool} {xs : List α}
    (h : ∀ x, q x = true → p x = true) {a : α} (ha : a ∈ xs) (hp : p a = true) (hq : q a = false) :
    (xs.filter q).length < (xs.filter p).length := by
  have le : ∀ ys : List α, (ys.filter q).length ≤ (ys.filter p).length := by
    intro ys
    simp only [← List.countP_eq_length_filter]
    exact List.countP_mono_left fun x _ => h x
  obtain ⟨before, after, rfl⟩ := List.append_of_mem ha
  have := le before
  have := le after
  simp only [List.filter_append, List.length_append, List.filter_cons, hp, hq]
  simp
  omega

namespace Scope

/-- The number of places left for names that are not active. Each name is entered once at most
along the way, and so expansion ends. -/
def room (s : Scope) (trail : Trail) : Nat := (s.names.filter fun n => !trail.active n).length

theorem room_enter_lt {s : Scope} {trail inner : Trail} {name : Text} {c : Chunk}
    (hr : s.resolve? name = some c) (he : trail.enter name = .ok inner) :
    s.room inner < s.room trail := by
  apply length_filter_lt_of_imp (a := name)
  · intro m hm
    rw [Trail.active_of_enter he] at hm
    simp_all
  · exact mem_names_of_resolve? hr
  · simp [Trail.not_active_of_enter he]
  · simp [Trail.active_of_enter he]

/-- Expands the segments of a chunk whose lines carry `indent`. A name is looked up before it is
entered, so a missing chunk is reported rather than a cycle. -/
def expandAll (s : Scope) (trail : Trail) (indent : Text) : List Segment → Traced Text
  | [] => pure []
  | .text t :: rest => do
    let later ← s.expandAll trail indent rest
    return Text.indentLines indent t ++ later
  | .reference name own loc :: rest =>
    match _hr : s.resolve? name with
    | none => .fail (.unresolved name)
    | some c =>
      match _he : trail.enter name with
      | .error names => .fail (.cyclic names)
      | .ok inner => do
        .report (.expanding name loc inner.depth)
        let expansion ← s.expandAll inner (indent ++ own) c.content
        let later ← s.expandAll trail indent rest
        return own ++ expansion ++ later
termination_by segments => (s.room trail, segments.length)
decreasing_by
  · exact Prod.Lex.right _ (by simp)
  · exact Prod.Lex.left _ _ (room_enter_lt _hr _he)
  · exact Prod.Lex.right _ (by simp)

def expand (s : Scope) (c : Chunk) : Traced Text :=
  match ({} : Trail).enter c.name with
  | .error names => .fail (.cyclic names)
  | .ok trail => s.expandAll trail [] c.content

def expandName (s : Scope) (name : Text) : Traced Text :=
  match s.resolve? name with
  | none => .fail (.unresolved name)
  | some c => s.expand c

end Scope

end Literate
