import Literate.Document.Read

namespace Literate

/-- The smallest parts of a content: a character of its text, or a whole reference. -/
inductive Atom where
  | char (c : Char)
  | reference (name indent : Text) (loc : Location)

namespace Segment

def atoms : Segment → List Atom
  | .text t => t.map .char
  | .reference name indent loc => [.reference name indent loc]

def atomsOf (gs : List Segment) : List Atom := gs.flatMap atoms

@[simp] theorem atomsOf_nil : atomsOf [] = [] := rfl

@[simp] theorem atomsOf_cons (g : Segment) (gs : List Segment) :
    atomsOf (g :: gs) = g.atoms ++ atomsOf gs := rfl

/-- A text that says something, or a reference. -/
def Solid : Segment → Prop
  | .text t => t ≠ []
  | .reference .. => True

theorem Solid.atoms_ne_nil {g : Segment} (h : g.Solid) : g.atoms ≠ [] := by
  cases g with
  | text t => simpa [atoms, Solid] using h
  | reference => simp [atoms]

def startsText : List Segment → Bool
  | .text _ :: _ => true
  | _ => false

/-- No text is empty, and no two texts are adjacent. -/
def Normal : List Segment → Prop
  | [] => True
  | g :: rest => g.Solid ∧ (g.isReference = false → startsText rest = false) ∧ Normal rest

theorem Normal.atomsOf_eq_nil {gs : List Segment} (h : Normal gs) : atomsOf gs = [] ↔ gs = [] := by
  cases gs with
  | nil => simp
  | cons g gs => simp [h.1.atoms_ne_nil]

/-- The atoms behind a text that is as long as it can be. -/
def StopsText (as : List Atom) : Prop := ∀ c later, as ≠ .char c :: later

theorem Normal.stopsText {gs : List Segment} (h : Normal gs) (hs : startsText gs = false) :
    StopsText (atomsOf gs) := by
  intro c later same
  cases gs with
  | nil => simp at same
  | cons g gs =>
    cases g with
    | text t => simp [startsText] at hs
    | reference => simp [atoms] at same

theorem text_atoms_inj {t u : Text} {as bs : List Atom} (ha : StopsText as) (hb : StopsText bs)
    (h : t.map Atom.char ++ as = u.map Atom.char ++ bs) : t = u ∧ as = bs := by
  induction t generalizing u with
  | nil =>
    cases u with
    | nil => exact ⟨rfl, h⟩
    | cons c u => exact absurd h (ha c _)
  | cons c t ih =>
    cases u with
    | nil => exact absurd h.symm (hb c _)
    | cons d u =>
      simp only [List.map_cons, List.cons_append, List.cons.injEq, Atom.char.injEq] at h
      obtain ⟨rfl, rfl⟩ := ih h.2
      exact ⟨by rw [h.1], rfl⟩

/-- A content in normal form is determined by its atoms. -/
theorem Normal.ext {gs hs : List Segment} (hg : Normal gs) (hh : Normal hs)
    (h : atomsOf gs = atomsOf hs) : gs = hs := by
  induction gs generalizing hs with
  | nil => exact (hh.atomsOf_eq_nil.1 h.symm).symm
  | cons g gs ih =>
    cases hs with
    | nil => exact hg.atomsOf_eq_nil.1 h
    | cons k hs =>
      obtain ⟨solid, apart, hg⟩ := hg
      obtain ⟨solid', apart', hh⟩ := hh
      cases g with
      | text t =>
        cases k with
        | text u =>
          obtain ⟨rfl, same⟩ := text_atoms_inj (hg.stopsText (apart rfl)) (hh.stopsText (apart' rfl)) h
          rw [ih hg hh same]
        | reference =>
          obtain ⟨c, t, rfl⟩ := List.exists_cons_of_ne_nil solid
          simp [atoms] at h
      | reference =>
        cases k with
        | text u =>
          obtain ⟨c, u, rfl⟩ := List.exists_cons_of_ne_nil solid'
          simp [atoms] at h
        | reference =>
          simp only [atomsOf_cons, atoms, List.singleton_append, List.cons.injEq,
            Atom.reference.injEq] at h
          obtain ⟨⟨rfl, rfl, rfl⟩, same⟩ := h
          rw [ih hg hh same]

theorem atomsOf_consSegment (g : Segment) (gs : List Segment) :
    atomsOf (cons g gs) = g.atoms ++ atomsOf gs := by
  unfold cons
  split
  · simp [atoms]
  · simp

theorem atomsOf_coalesce (gs : List Segment) : atomsOf (coalesce gs) = atomsOf gs := by
  induction gs with
  | nil => rfl
  | cons g gs ih =>
    show atomsOf (cons g (coalesce gs)) = _
    rw [atomsOf_consSegment, ih, atomsOf_cons]

theorem Normal.consSegment {g : Segment} {gs : List Segment} (h : Normal gs) (hg : g.Solid) :
    Normal (cons g gs) := by
  cases g with
  | reference => exact ⟨trivial, by simp [isReference], h⟩
  | text s =>
    cases gs with
    | nil => exact ⟨hg, fun _ => rfl, trivial⟩
    | cons k gs =>
      cases k with
      | reference => exact ⟨hg, fun _ => rfl, h⟩
      | text t => exact ⟨by simp_all [Solid], h.2⟩

theorem normal_coalesce {gs : List Segment} (h : ∀ g ∈ gs, g.Solid) : Normal (coalesce gs) := by
  induction gs with
  | nil => trivial
  | cons g gs ih =>
    have rest := ih fun k hk => h k (List.mem_cons_of_mem _ hk)
    exact rest.consSegment (h g List.mem_cons_self)

/-- Every list of atoms is the content of some normal form. -/
theorem exists_normal (as : List Atom) : ∃ gs, Normal gs ∧ atomsOf gs = as := by
  induction as with
  | nil => exact ⟨[], trivial, rfl⟩
  | cons a as ih =>
    obtain ⟨gs, normal, rfl⟩ := ih
    cases a with
    | char c =>
      have solid : Solid (.text [c]) := List.cons_ne_nil _ _
      exact ⟨cons (.text [c]) gs, normal.consSegment solid, atomsOf_consSegment _ _⟩
    | reference name indent loc =>
      exact ⟨.reference name indent loc :: gs, ⟨trivial, by simp [isReference], normal⟩, rfl⟩

end Segment

namespace Read

open Segment

theorem startsText_dropFinalBreak {gs : List Segment} (h : startsText gs = false) :
    startsText (dropFinalBreak gs) = false := by
  unfold dropFinalBreak
  split
  · rfl
  · simp [startsText] at h
  · rename_i g rest _
    cases g with
    | text => simp [startsText] at h
    | reference => rfl

theorem normal_dropFinalBreak {gs : List Segment} (h : Normal gs) : Normal (dropFinalBreak gs) := by
  fun_induction dropFinalBreak gs with
  | case1 => trivial
  | case2 t last short => trivial
  | case3 t last long => exact ⟨by simpa [Solid] using long, fun _ => rfl, trivial⟩
  | case4 t last => exact h
  | case5 g rest _ ih =>
    obtain ⟨solid, apart, rest⟩ := h
    exact ⟨solid, fun hg => startsText_dropFinalBreak (apart hg), ih rest⟩

theorem eq_append_break_of_atoms {t : Text} {as : List Atom}
    (h : t.map Atom.char = as ++ [.char '\n']) : ∃ u, t = u ++ ['\n'] ∧ u.map Atom.char = as := by
  obtain ⟨u, last, rfl, rfl, hl⟩ := List.map_eq_append_iff.1 h
  obtain ⟨c, rfl, hc⟩ := List.map_eq_singleton_iff.1 hl
  exact ⟨u, by rw [Atom.char.inj hc], rfl⟩

theorem atomsOf_dropFinalBreak {gs : List Segment} {as : List Atom} (h : Normal gs)
    (ha : atomsOf gs = as ++ [.char '\n']) : atomsOf (dropFinalBreak gs) = as := by
  fun_induction dropFinalBreak gs generalizing as with
  | case1 => simp at ha
  | case2 t last short =>
    obtain ⟨u, rfl, rfl⟩ := eq_append_break_of_atoms (by simpa [atoms] using ha)
    simp_all
  | case3 t last long =>
    obtain ⟨u, rfl, rfl⟩ := eq_append_break_of_atoms (by simpa [atoms] using ha)
    simp [atoms]
  | case4 t last =>
    obtain ⟨u, rfl, rfl⟩ := eq_append_break_of_atoms (by simpa [atoms] using ha)
    simp at last
  | case5 g rest other ih =>
    obtain ⟨solid, _, normal⟩ := h
    rw [atomsOf_cons] at ha ⊢
    rcases List.eq_nil_or_concat (atomsOf rest) with none | ⟨bs, b, hr⟩
    · obtain rfl := normal.atomsOf_eq_nil.1 none
      cases g with
      | text t => exact absurd rfl (other t rfl)
      | reference =>
        have last := congrArg List.getLast? ha
        simp [atoms] at last
    · rw [hr, List.concat_eq_append, ← List.append_assoc] at ha
      obtain ⟨rfl, hb⟩ := List.append_inj' ha rfl
      rw [ih normal (by rw [hr, List.concat_eq_append, hb])]

end Read

end Literate
