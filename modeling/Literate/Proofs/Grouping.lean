import Literate.Proofs.Locality
import Literate.Proofs.Merging

namespace Literate

section Distinct

variable {α : Type} [BEq α] [LawfulBEq α]

theorem distinct_eq_self {xs : List α} (h : xs.Nodup) : distinct xs = xs := by
  induction xs using List.reverseRecOn with
  | nil => rfl
  | append_singleton xs x ih =>
    obtain ⟨before, _, apart⟩ := List.nodup_append.1 h
    have new : x ∉ xs := fun old => apart x old x List.mem_cons_self rfl
    rw [distinct_append_singleton, ih before, if_neg (by simpa using new)]

theorem nodup_distinct (xs : List α) : (distinct xs).Nodup := nodup_of_idxOf_lt (pairwise_distinct xs)

theorem distinct_distinct_append (xs ys : List α) :
    distinct (distinct xs ++ ys) = distinct (xs ++ ys) := by
  induction ys using List.reverseRecOn with
  | nil => rw [List.append_nil, List.append_nil, distinct_eq_self (nodup_distinct xs)]
  | append_singleton ys y ih =>
    rw [← List.append_assoc, ← List.append_assoc, distinct_append_singleton,
      distinct_append_singleton, ih]

theorem distinct_append_distinct (xs ys : List α) :
    distinct (xs ++ distinct ys) = distinct (xs ++ ys) := by
  induction ys using List.reverseRecOn with
  | nil => rfl
  | append_singleton ys y ih =>
    rw [distinct_append_singleton, ← List.append_assoc, distinct_append_singleton (xs ++ ys)]
    split
    · rename_i old
      have inside : y ∈ xs ++ ys :=
        List.mem_append_right _ (mem_distinct.1 (List.contains_iff_mem.1 old))
      rw [ih, if_pos (List.contains_iff_mem.2 (mem_distinct.2 inside))]
    · rw [← List.append_assoc, distinct_append_singleton, ih]

end Distinct

namespace Options

/-- The keys, in the order in which they first came. -/
def keys (o : Options) : List Text := o.entries.map Prod.fst

theorem keys_insert (o : Options) (key value : Text) :
    (o.insert key value).keys = if o.keys.contains key then o.keys else o.keys ++ [key] := by
  show (insertEntry key value o.entries).map Prod.fst =
    if (o.entries.map Prod.fst).contains key then o.entries.map Prod.fst
    else o.entries.map Prod.fst ++ [key]
  generalize o.entries = es
  fun_induction insertEntry key value es with
  | case1 => rfl
  | case2 v rest => simp
  | case3 k v rest other ih =>
    have apart : (key == k) = false := by simpa using Ne.symm other
    rw [List.map_cons, ih, List.map_cons, List.contains_cons, apart, Bool.false_or]
    split <;> rfl

/-- Keys keep the place where they first came. -/
theorem keys_overlay (o later : Options) :
    (o.overlay later).keys = distinct (o.keys ++ later.keys) := by
  show (later.entries.foldl (fun o e => o.insert e.1 e.2) o).keys =
    distinct (o.keys ++ later.entries.map Prod.fst)
  induction later.entries using List.reverseRecOn with
  | nil =>
    rw [List.foldl_nil, List.map_nil, List.append_nil]
    exact (distinct_eq_self o.nodup).symm
  | append_singleton es e ih =>
    rw [List.foldl_append, List.foldl_cons, List.foldl_nil, keys_insert, ih, List.map_append,
      List.map_singleton, ← List.append_assoc, distinct_append_singleton]

theorem get?_of_mem {o : Options} {e : Text × Text} (he : e ∈ o.entries) :
    o.get? e.1 = some e.2 := by
  obtain ⟨before, after, split⟩ := List.append_of_mem he
  have apart := o.nodup
  rw [split, List.map_append, List.map_cons] at apart
  have first : o.entries.find? (fun p => p.1 = e.1) = some e := by
    refine List.find?_eq_some_iff_append.2 ⟨by simp, before, after, split, ?_⟩
    intro p hp
    have other := (List.nodup_append.1 apart).2.2 _ (List.mem_map_of_mem hp) _ List.mem_cons_self
    simpa using other
  rw [get?, lookup?, first]
  rfl

theorem entries_eq_keys (o : Options) :
    o.entries = o.keys.map fun key => (key, (o.get? key).getD []) := by
  have each : ∀ e ∈ o.entries, id e = (e.1, (o.get? e.1).getD []) := by
    intro e he
    rw [get?_of_mem he, Option.getD_some, id]
  calc o.entries
      = o.entries.map id := (List.map_id _).symm
    _ = o.entries.map fun e => (e.1, (o.get? e.1).getD []) := List.map_congr_left each
    _ = o.keys.map fun key => (key, (o.get? key).getD []) := by
        rw [keys, List.map_map]
        rfl

/-- Options are determined by their keys in order and the value of each key. -/
theorem eq_of_keys {o p : Options} (keys : o.keys = p.keys)
    (get : ∀ key, o.get? key = p.get? key) : o = p := by
  ext1
  rw [entries_eq_keys o, entries_eq_keys p, keys]
  exact List.map_congr_left fun key _ => by rw [get key]

variable (a b c : Options)

theorem keys_overlay_overlay :
    ((a.overlay b).overlay c).keys = distinct (a.keys ++ b.keys ++ c.keys) := by
  rw [keys_overlay, keys_overlay, distinct_distinct_append]

/-- The last value wins. -/
theorem get?_overlay_overlay (key : Text) :
    ((a.overlay b).overlay c).get? key =
      (c.get? key).or ((b.get? key).or (a.get? key)) := by
  rw [get?_overlay, get?_overlay]

theorem overlay_assoc : (a.overlay b).overlay c = a.overlay (b.overlay c) := by
  apply eq_of_keys
  · rw [keys_overlay_overlay, keys_overlay, keys_overlay, distinct_append_distinct,
      List.append_assoc]
  · intro key
    rw [get?_overlay_overlay, get?_overlay, get?_overlay, Option.or_assoc]

theorem empty_overlay : ({} : Options).overlay a = a := a.ofList_entries

end Options

namespace Segment

/-- A text that is pushed in two pieces is pushed as one. -/
theorem push_push_text (gs : List Segment) (s t : Text) :
    push (push gs (.text s)) (.text t) = push gs (.text (s ++ t)) := by
  induction gs with
  | nil => rfl
  | cons x xs ih =>
    cases xs with
    | cons y ys =>
      obtain ⟨z, zs, hz⟩ := List.exists_cons_of_ne_nil (push_ne_nil (y :: ys) (.text s))
      rw [push_cons_cons, push_cons_cons, ← ih, hz, push_cons_cons]
    | nil =>
      cases x with
      | text u =>
        show [Segment.text (u ++ s ++ t)] = [.text (u ++ (s ++ t))]
        rw [List.append_assoc]
      | reference => rfl

theorem foldl_push_push (gs later : List Segment) (g : Segment) :
    (push later g).foldl push gs = push (later.foldl push gs) g := by
  rcases push_cases later g with alone | ⟨init, s, t, rfl, rfl, longer⟩
  · rw [alone, List.foldl_append, List.foldl_cons, List.foldl_nil]
  · rw [longer, List.foldl_append, List.foldl_append, List.foldl_cons, List.foldl_nil,
      List.foldl_cons, List.foldl_nil, push_push_text]

/-- Segments that were pushed together before are pushed as they would be one by one. -/
theorem foldl_push_foldl_push (gs hs later : List Segment) :
    (later.foldl push hs).foldl push gs = later.foldl push (hs.foldl push gs) := by
  induction later generalizing hs with
  | nil => rfl
  | cons g later ih => rw [List.foldl_cons, List.foldl_cons, ih, foldl_push_push]

/-- No two texts are adjacent. A text may be empty. -/
def Parted (gs : List Segment) : Prop :=
  gs.IsChain fun g h => g.isReference = true ∨ h.isReference = true

theorem parted_push {gs : List Segment} (h : Parted gs) (g : Segment) : Parted (push gs g) := by
  induction gs with
  | nil => exact .singleton g
  | cons x xs ih =>
    cases xs with
    | cons y ys =>
      obtain ⟨first, later⟩ := List.isChain_cons_cons.1 h
      rw [push_cons_cons]
      have rest := ih later
      -- What is pushed behind `y` leaves it a text or a reference, as it was.
      have kept : ∃ z zs, push (y :: ys) g = z :: zs ∧ z.isReference = y.isReference := by
        cases ys with
        | cons z zs => exact ⟨y, _, push_cons_cons y z zs g, rfl⟩
        | nil => cases y <;> cases g <;> exact ⟨_, _, rfl, rfl⟩
      obtain ⟨z, zs, hz, same⟩ := kept
      rw [hz] at rest ⊢
      exact List.isChain_cons_cons.2 ⟨same ▸ first, rest⟩
    | nil =>
      cases x with
      | reference => exact List.isChain_pair.2 (Or.inl rfl)
      | text s =>
        cases g with
        | reference => exact List.isChain_pair.2 (Or.inr rfl)
        | text t => exact .singleton _

theorem parted_foldl_push {gs : List Segment} (h : Parted gs) (later : List Segment) :
    Parted (later.foldl push gs) := by
  induction later generalizing gs with
  | nil => exact h
  | cons g later ih => exact ih (parted_push h g)

theorem push_of_parted {gs : List Segment} {g : Segment} (h : Parted (gs ++ [g])) :
    push gs g = gs ++ [g] := by
  rcases push_cases gs g with alone | ⟨init, s, t, rfl, rfl, _⟩
  · exact alone
  · have last : Parted [.text s, .text t] := by
      rw [List.append_assoc] at h
      exact h.right_of_append
    simp [Parted, isReference] at last

/-- What is pushed one by one comes out as it is exactly if it has no adjacent texts. -/
theorem foldl_push_eq_self_iff (gs : List Segment) : gs.foldl push [] = gs ↔ Parted gs := by
  constructor
  · intro same
    exact same ▸ parted_foldl_push List.isChain_nil gs
  · intro h
    induction gs using List.reverseRecOn with
    | nil => rfl
    | append_singleton gs g ih =>
      rw [List.foldl_append, ih h.left_of_append]
      exact push_of_parted h

end Segment

namespace Chunk

theorem mergeContent_of_ne_nil {first later : List Segment} (hf : first ≠ []) (hl : later ≠ []) :
    mergeContent first later = later.foldl Segment.push (Segment.push first (.text ['\n'])) := by
  rw [mergeContent, if_neg (by simp [hf, hl])]

/-- Pushing adds nothing to a content that has been pushed together before. -/
theorem mergeContent_foldl_push (first later : List Segment) :
    mergeContent first (later.foldl Segment.push []) = mergeContent first later := by
  by_cases hl : later = []
  · rw [hl, List.foldl_nil]
  · have pushed : later.foldl Segment.push [] ≠ [] := by
      rw [← mergeContent_nil_left]
      exact mergeContent_ne_nil [] hl
    by_cases hf : first = []
    · rw [hf, mergeContent_nil_left, mergeContent_nil_left, Segment.foldl_push_foldl_push,
        List.foldl_nil]
    · rw [mergeContent_of_ne_nil hf pushed, mergeContent_of_ne_nil hf hl,
        Segment.foldl_push_foldl_push, List.foldl_nil]

theorem mergeContent_assoc (a b c : List Segment) :
    mergeContent (mergeContent a b) c = mergeContent a (mergeContent b c) := by
  by_cases hc : c = []
  · rw [hc, mergeContent_nil_right, mergeContent_nil_right]
  by_cases hb : b = []
  · rw [hb, mergeContent_nil_right, mergeContent_nil_left, mergeContent_foldl_push]
  have left := mergeContent_ne_nil a hb
  have right := mergeContent_ne_nil b hc
  rw [mergeContent_of_ne_nil left hc]
  by_cases ha : a = []
  · rw [ha, mergeContent_nil_left, mergeContent_nil_left, mergeContent_of_ne_nil hb hc,
      Segment.foldl_push_foldl_push, Segment.foldl_push_push]
  · rw [mergeContent_of_ne_nil ha hb, mergeContent_of_ne_nil ha right, mergeContent_of_ne_nil hb hc,
      Segment.foldl_push_foldl_push, Segment.foldl_push_push]

/-- It makes no difference which of three definitions are merged first. The options have their keys
in the order in which they first come and the last value of each, and all else is that of the first
definition. A definition that says nothing changes nothing behind another one, and in front of one
it makes no difference to the options, and to the content exactly if this has no adjacent texts. -/
theorem merge_associative (a b c : Chunk) :
    (a.merge b).merge c = a.merge (b.merge c) ∧
    ((a.merge b).merge c).kind = a.kind ∧ ((a.merge b).merge c).name = a.name ∧
    ((a.merge b).merge c).loc = a.loc ∧
    ((a.merge b).merge c).options.keys =
      distinct (a.options.keys ++ b.options.keys ++ c.options.keys) ∧
    (∀ key, ((a.merge b).merge c).options.get? key =
      (c.options.get? key).or ((b.options.get? key).or (a.options.get? key))) ∧
    ∀ kind name loc, let empty : Chunk := { kind, name, loc }
      a.merge empty = a ∧ (empty.merge a).options = a.options ∧
        ((empty.merge a).content = a.content ↔ Segment.Parted a.content) := by
  refine ⟨?_, rfl, rfl, rfl, Options.keys_overlay_overlay _ _ _, Options.get?_overlay_overlay _ _ _,
    ?_⟩
  · unfold merge
    rw [mergeContent_assoc, Options.overlay_assoc]
  · intro kind name loc empty
    refine ⟨?_, Options.empty_overlay _, ?_⟩
    · unfold merge
      rw [mergeContent_nil_right]
      rfl
    · show mergeContent [] a.content = a.content ↔ _
      rw [mergeContent_nil_left, Segment.foldl_push_eq_self_iff]

/-- Three definitions with an empty text, adjacent texts, a body that is nothing but a reference, and
options that change each other's values. -/
theorem merge_associative_adjacent_texts :
    let a : Chunk := { kind := .code, name := ['a']
                       options := .ofList [(['k'], ['1']), (['l'], ['2'])]
                       content := [.text ['x'], .text []], loc := { line := 2 } }
    let b : Chunk := { kind := .doc, name := ['b']
                       options := .ofList [(['m'], ['3']), (['k'], ['4'])]
                       content := [.reference ['p'] [' '] {}] }
    let c : Chunk := { kind := .code, name := ['c']
                       options := .ofList [(['m'], ['5']), (['n'], [])]
                       content := [.text ['y'], .text ['z']] }
    let all : Chunk := { kind := .code, name := ['a']
                         options :=
                           .ofList [(['k'], ['4']), (['l'], ['2']), (['m'], ['5']), (['n'], [])]
                         content := [.text ['x'], .text ['\n'], .reference ['p'] [' '] {},
                           .text ['\n', 'y', 'z']]
                         loc := { line := 2 } }
    let empty : Chunk := { kind := .doc, name := [] }
    (a.merge b).merge c = all ∧ a.merge (b.merge c) = all ∧
    a.merge empty = a ∧ (empty.merge a).options = a.options ∧ (empty.merge a).content ≠ a.content := by
  intro a b c all empty
  have merged : (a.merge b).merge c = all := by decide
  obtain ⟨grouped, _, _, _, _, _, units⟩ := merge_associative a b c
  obtain ⟨right, options, content⟩ := units .doc [] {}
  have adjacent : ¬Segment.Parted a.content := by
    unfold Segment.Parted
    decide
  exact ⟨merged, grouped ▸ merged, right, options, fun same => adjacent (content.1 same)⟩

end Chunk

end Literate
