import Literate.Proofs.Expansion

namespace Literate

namespace Trail

variable {t inner : Trail} {name : Text} {names : List Text}

/-- The stack says which names are active, and so all there is to say. -/
theorem eq_of_stack {t u : Trail} (h : t.stack = u.stack) : t = u := by
  have active : t.active = u.active := by
    funext name
    rw [Bool.eq_iff_iff, t.active_iff, u.active_iff, h]
  obtain ⟨stack, active', _, _⟩ := t
  obtain rfl : stack = u.stack := h
  obtain rfl : active' = u.active := active
  rfl

theorem stack_of_enter (h : t.enter name = .ok inner) : inner.stack = t.stack ++ [name] := by
  unfold enter at h
  split at h
  · simp at h
  · obtain rfl := Except.ok.inj h
    rfl

theorem not_mem_of_enter (h : t.enter name = .ok inner) : name ∉ t.stack := by
  rw [← t.active_iff, not_active_of_enter h]
  simp

/-- Leaving a name that was entered leads back to where it was entered. -/
theorem exit_of_enter (h : t.enter name = .ok inner) : inner.exit = t := by
  apply eq_of_stack
  show inner.stack.dropLast = t.stack
  rw [stack_of_enter h, List.dropLast_concat]

theorem findIdx?_of_first {before behind : List Text} (fresh : name ∉ before) :
    (before ++ name :: behind).findIdx? (· == name) = some before.length := by
  have none : before.findIdx? (· == name) = none := by
    rw [List.findIdx?_eq_none_iff]
    intro other mem
    exact beq_false_of_ne fun same => fresh (same ▸ mem)
  rw [List.findIdx?_append, none, List.findIdx?_cons, beq_self_eq_true]
  simp

theorem enter_error_iff : (∃ names, t.enter name = .error names) ↔ name ∈ t.stack := by
  rw [← t.active_iff]
  constructor
  · rintro ⟨names, he⟩
    exact (of_enter_error he).1
  · intro active
    unfold enter
    rw [dif_pos active]
    exact ⟨_, rfl⟩

/-- A name that is refused is found on the stack, and the cycle goes from there to the end. -/
theorem cycle_of_error (h : t.enter name = .error names) :
    ∃ before behind, t.stack = before ++ name :: behind ∧ name ∉ before ∧
      t.stack.findIdx? (· == name) = some before.length ∧ names = name :: behind ++ [name] := by
  obtain ⟨before, behind, split, fresh⟩ := List.eq_append_cons_of_mem (enter_error_iff.1 ⟨names, h⟩)
  have place : t.stack.findIdx? (· == name) = some before.length := by
    rw [split]
    exact findIdx?_of_first fresh
  have cycle := (of_enter_error h).2
  rw [place, split, Option.getD_some, List.drop_left] at cycle
  exact ⟨before, behind, split, fresh, place, cycle⟩

theorem eq_dropWhile_of_error (h : t.enter name = .error names) :
    names = t.stack.dropWhile (· != name) ++ [name] := by
  obtain ⟨before, behind, split, fresh, _, cycle⟩ := cycle_of_error h
  have skipped : ∀ other ∈ before, (other != name) = true := by
    intro other mem
    exact bne_iff_ne.2 fun same => fresh (same ▸ mem)
  rw [cycle, split, List.dropWhile_append_of_pos skipped, List.dropWhile_cons_of_neg (by simp)]

/-- What can be done to a trail. -/
inductive Call where
  | enter (name : Text)
  | exit

/-- The trail after a call. One that is refused leaves the trail as it is. -/
def call (t : Trail) : Call → Trail
  | .enter name => (t.enter name).toOption.getD t
  | .exit => t.exit

/-- The trail that is left after the calls, if nothing was entered before. -/
def after (calls : List Call) : Trail := calls.foldl call {}

theorem after_append (calls more : List Call) :
    after (calls ++ more) = more.foldl call (after calls) := List.foldl_append

theorem call_of_enter (h : t.enter name = .ok inner) : t.call (.enter name) = inner := by
  rw [call, h]
  rfl

theorem call_of_error {names : List Text} (h : t.enter name = .error names) :
    t.call (.enter name) = t := by
  rw [call, h]
  rfl

/-- What a call does to a list of names and to their marks, if the two are kept apart and only the
marks are asked whether a name is there. -/
def update (d : List Text × (Text → Bool)) : Call → List Text × (Text → Bool)
  | .enter name => if d.2 name then d else (d.1 ++ [name], fun m => m == name || d.2 m)
  | .exit => (d.1.dropLast, fun m => d.1.getLast? != some m && d.2 m)

theorem data_call (t : Trail) (c : Call) :
    ((t.call c).stack, (t.call c).active) = update (t.stack, t.active) c := by
  cases c with
  | exit => rfl
  | enter name =>
    cases h : t.enter name with
    | error names => rw [call_of_error h, update, if_pos (of_enter_error h).1]
    | ok inner =>
      have active : inner.active = fun m => m == name || t.active m := funext (active_of_enter h)
      rw [call_of_enter h, update, if_neg (by simp [not_active_of_enter h]), stack_of_enter h, active]

theorem data_after (calls : List Call) :
    ((after calls).stack, (after calls).active) = calls.foldl update ([], fun _ => false) :=
  (List.foldl_hom (fun t : Trail => (t.stack, t.active)) fun t c => (data_call t c).symm).symm

/-- Whatever was entered and left: stack and marks are what they are if they are kept apart, the stack
has no name twice, those on it are the active ones, and the depth counts them. A name is refused if
and only if it is on the stack. It then has a place there, the cycle is the stack from that place on
with the name behind it, and nothing changes. A name that is not refused can be left again, which
leads back to the trail as it was. -/
theorem after_consistent (calls : List Call) :
    ((after calls).stack, (after calls).active) = calls.foldl update ([], fun _ => false) ∧
      (after calls).stack.Nodup ∧
      (∀ name, (after calls).active name = true ↔ name ∈ (after calls).stack) ∧
      (after calls).depth = (after calls).stack.length ∧
      ∀ name,
        ((∃ names, (after calls).enter name = .error names) ↔ name ∈ (after calls).stack) ∧
        (∀ names, (after calls).enter name = .error names →
          after (calls ++ [.enter name]) = after calls ∧
          ∃ before behind, (after calls).stack = before ++ name :: behind ∧ name ∉ before ∧
            (after calls).stack.findIdx? (· == name) = some before.length ∧
            names = name :: behind ++ [name]) ∧
        ∀ inner, (after calls).enter name = .ok inner →
          after (calls ++ [.enter name]) = inner ∧ inner.stack = (after calls).stack ++ [name] ∧
          after (calls ++ [.enter name, .exit]) = after calls := by
  refine ⟨data_after calls, (after calls).nodup, (after calls).active_iff, rfl,
    fun name => ⟨enter_error_iff, ?_, ?_⟩⟩
  · intro names refused
    have unchanged : after (calls ++ [.enter name]) = after calls := by
      rw [after_append]
      exact call_of_error refused
    exact ⟨unchanged, cycle_of_error refused⟩
  · intro inner entered
    have next : (after calls).call (.enter name) = inner := call_of_enter entered
    refine ⟨?_, stack_of_enter entered, ?_⟩
    · rw [after_append]
      exact next
    · rw [after_append]
      show ((after calls).call (.enter name)).exit = after calls
      rw [next]
      exact exit_of_enter entered

/-- Three names entered after an exit too many, of which the second is then refused. -/
theorem after_consistent_refused :
    let calls : List Call := [.exit, .enter ['a'], .enter ['b'], .enter ['c']]
    (after calls).enter ['b'] = .error [['b'], ['c'], ['b']] ∧
      after (calls ++ [.enter ['b']]) = after calls ∧
      ∃ inner, (after calls).enter ['d'] = .ok inner ∧
        after (calls ++ [.enter ['d'], .exit]) = after calls := by
  intro calls
  have refused : (after calls).enter ['b'] = .error [['b'], ['c'], ['b']] := rfl
  have entered : ∃ inner, (after calls).enter ['d'] = .ok inner := ⟨_, rfl⟩
  obtain ⟨inner, he⟩ := entered
  have law := (after_consistent calls).2.2.2.2
  exact ⟨refused, ((law ['b']).2.1 _ refused).1, inner, he, ((law ['d']).2.2 inner he).2.2⟩

end Trail

end Literate
