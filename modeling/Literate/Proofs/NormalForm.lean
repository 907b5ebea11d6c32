import Literate.Proofs.Grouping
import Literate.Proofs.Printing
import Literate.Proofs.Stray

namespace Literate

namespace Atom

def isBlank : Atom → Bool
  | .char c => Text.isBlank c
  | .reference .. => false

def isBreak : Atom → Bool
  | .char c => c == '\n'
  | .reference .. => false

/-- The atoms begin with a reference that has no indent. -/
def startsBare : List Atom → Bool
  | .reference _ [] _ :: _ => true
  | _ => false

/-- No more atoms, or a line break. -/
def startsEnd : List Atom → Bool
  | [] => true
  | a :: _ => a.isBreak

/-- The atoms begin with blanks, and the rest of them is as asked for. -/
def behindBlanks (p : List Atom → Bool) (as : List Atom) : Bool :=
  as.head?.any isBlank && p (as.dropWhile isBlank)

/-- Blanks at the beginning of a line are no text in front of a reference, and blanks at its end are
no text behind one. Only a reference that begins its line has an indent. The flag says whether a
line begins here. -/
def Laid : Bool → List Atom → Prop
  | _, [] => True
  | lineStart, .char c :: rest =>
    (lineStart = true → behindBlanks startsBare (.char c :: rest) = false) ∧ Laid (c == '\n') rest
  | lineStart, .reference _ indent _ :: rest =>
    (indent ≠ [] → lineStart = true) ∧ behindBlanks startsEnd rest = false ∧ Laid false rest

theorem behindBlanks_append_break {p : List Atom → Bool}
    (first : ∀ a as bs, p (a :: as) = p (a :: bs)) {bs : List Atom}
    (atBreak : p (.char '\n' :: bs) = p []) (as : List Atom) :
    behindBlanks p (as ++ .char '\n' :: bs) = behindBlanks p as := by
  cases as with
  | nil => rfl
  | cons a as =>
    have head : (a :: as ++ .char '\n' :: bs).head? = (a :: as).head? := rfl
    unfold behindBlanks
    rw [head, List.dropWhile_append]
    cases left : (a :: as).dropWhile isBlank with
    | nil => exact congrArg _ atBreak
    | cons b left => exact congrArg _ (first b _ _)

theorem startsBare_first (a : Atom) (as bs : List Atom) :
    startsBare (a :: as) = startsBare (a :: bs) := by
  unfold startsBare
  split <;> simp_all

/-- The rule looks no further than a line break. -/
theorem laid_append_break {lineStart : Bool} {as bs : List Atom} :
    Laid lineStart (as ++ .char '\n' :: bs) ↔ Laid lineStart as ∧ Laid true bs := by
  induction as generalizing lineStart with
  | nil => simp [Laid, behindBlanks, isBlank, Text.isBlank]
  | cons a as ih =>
    cases a with
    | char c =>
      have same := @behindBlanks_append_break _ startsBare_first bs rfl (.char c :: as)
      rw [List.cons_append] at same
      rw [List.cons_append, Laid, same, ih, Laid, and_assoc]
    | reference name indent loc =>
      have same := @behindBlanks_append_break startsEnd (fun _ _ _ => rfl) bs rfl as
      rw [List.cons_append, Laid, same, ih, Laid, and_assoc, and_assoc]

theorem Laid.drop {lineStart : Bool} {as bs : List Atom} (h : Laid lineStart (as ++ bs)) :
    Laid (as.getLast?.elim lineStart isBreak) bs := by
  induction as generalizing lineStart with
  | nil => exact h
  | cons a as ih =>
    have later : Laid a.isBreak (as ++ bs) := by
      cases a with
      | char c => exact h.2
      | reference => exact h.2.2
    cases as with
    | nil => exact later
    | cons b as =>
      have rest := ih later
      rwa [List.getLast?_cons_cons]

/-- A text in front of other atoms begins with blanks, and then comes what is asked for, only if it
is all blanks. -/
theorem behindBlanks_text {p : List Atom → Bool} {t : Text} {as : List Atom}
    (other : ∀ c ∈ t, ∀ bs, Text.isBlank c = false → p (.char c :: bs) = false)
    (h : behindBlanks p (t.map .char ++ as) = true) :
    (∀ c ∈ t, Text.isBlank c = true) ∧ p (as.dropWhile isBlank) = true := by
  have found : p ((t.map Atom.char ++ as).dropWhile isBlank) = true := (Bool.and_eq_true_iff.1 h).2
  by_cases blank : ∀ c ∈ t, Text.isBlank c = true
  · refine ⟨blank, ?_⟩
    rwa [List.dropWhile_append_of_pos (by simpa [isBlank] using blank)] at found
  · obtain ⟨run, c, rest, rfl, hrun, hc⟩ := Text.exists_first_other blank
    rw [List.map_append, List.map_cons, List.append_assoc, List.cons_append,
      List.dropWhile_append_of_pos (by simpa [isBlank] using hrun),
      List.dropWhile_cons_of_neg (by simpa [isBlank] using hc), other c (by simp) _ hc] at found
    simp at found

theorem laid_text_append {t : Text} {as : List Atom} (noBreak : '\n' ∉ t) (h : Laid false as) :
    Laid false (t.map .char ++ as) := by
  induction t with
  | nil => exact h
  | cons c t ih =>
    have other : (c == '\n') = false := by
      simpa using fun same : c = '\n' => noBreak (same ▸ List.mem_cons_self)
    refine ⟨by simp, ?_⟩
    rw [other]
    exact ih fun hn => noBreak (List.mem_cons_of_mem c hn)

theorem laid_breaks_append {n : Nat} (positive : 0 < n) {as : List Atom} (h : Laid true as)
    (lineStart : Bool) : Laid lineStart ((List.replicate n '\n').map .char ++ as) := by
  induction n generalizing lineStart with
  | zero => omega
  | succ n ih =>
    refine ⟨fun _ => rfl, ?_⟩
    by_cases last : n = 0
    · subst last
      exact h
    · exact ih (by omega) true

theorem laid_text (lineStart : Bool) (t : Text) : Laid lineStart (t.map .char) := by
  induction t generalizing lineStart with
  | nil => trivial
  | cons c t ih =>
    refine ⟨fun _ => ?_, ih _⟩
    cases h : behindBlanks startsBare ((c :: t).map .char) with
    | false => exact h
    | true =>
      rw [← List.append_nil ((c :: t).map Atom.char)] at h
      simpa [startsBare] using (behindBlanks_text (fun _ _ _ _ => rfl) h).2

end Atom

namespace Segment

open Atom (Laid isBlank)

/-- A name as the reader leaves it, and blanks in front of it. -/
structure Proper (name indent : Text) : Prop where
  nonempty : name ≠ []
  trimmed : name.trim = name
  inside : '>' ∉ name ∧ ']' ∉ name ∧ '\n' ∉ name
  blank : ∀ c ∈ indent, Text.isBlank c = true

/-- The normal form of a content. -/
structure Formed (gs : List Segment) : Prop where
  normal : Normal gs
  proper : ∀ name indent loc, .reference name indent loc ∈ gs → Proper name indent
  /-- An indent begins its line. -/
  indented : ∀ before name indent loc after, gs = before ++ .reference name indent loc :: after →
    indent ≠ [] → before = [] ∨ ∃ front t, before = front ++ [.text (t ++ ['\n'])]
  /-- What could be an indent is one. -/
  unindented : ∀ before front blanks name loc after,
    gs = before ++ .text (front ++ blanks) :: .reference name [] loc :: after →
    blanks ≠ [] → (∀ c ∈ blanks, Text.isBlank c = true) →
    ¬(before = [] ∧ front = []) ∧ ∀ u, front ≠ u ++ ['\n']
  /-- The blanks behind a reference do not end its line. -/
  unended : ∀ before name indent loc blanks rest after,
    gs = before ++ .reference name indent loc :: .text (blanks ++ rest) :: after →
    blanks ≠ [] → (∀ c ∈ blanks, Text.isBlank c = true) →
    ¬(rest = [] ∧ after = []) ∧ ∀ u, rest ≠ '\n' :: u

/-- The normal form of a content, atom by atom. -/
structure Arranged (gs : List Segment) : Prop where
  normal : Normal gs
  proper : ∀ name indent loc, .reference name indent loc ∈ atomsOf gs → Proper name indent
  laid : Laid true (atomsOf gs)

@[simp] theorem atomsOf_append (gs hs : List Segment) :
    atomsOf (gs ++ hs) = atomsOf gs ++ atomsOf hs := List.flatMap_append

theorem Normal.right {gs hs : List Segment} (h : Normal (gs ++ hs)) : Normal hs := by
  induction gs with
  | nil => exact h
  | cons g gs ih => exact ih h.2.2

theorem Normal.solid {gs : List Segment} (h : Normal gs) : ∀ g ∈ gs, g.Solid := by
  intro g hg
  obtain ⟨before, after, rfl⟩ := List.append_of_mem hg
  exact h.right.1

/-- Atoms end in a line break only if the last segment is a text that does. -/
theorem exists_text_of_break {gs : List Segment} (solid : ∀ g ∈ gs, g.Solid)
    (h : (atomsOf gs).getLast?.elim true Atom.isBreak = true) :
    gs = [] ∨ ∃ front t, gs = front ++ [.text (t ++ ['\n'])] := by
  rcases List.eq_nil_or_concat gs with none | ⟨front, g, rfl⟩
  · exact Or.inl none
  · refine Or.inr ⟨front, ?_⟩
    rw [List.concat_eq_append] at *
    have last : g.atoms.getLast?.elim true Atom.isBreak = true := by
      have nonempty := (solid g (by simp)).atoms_ne_nil
      rwa [atomsOf_append, atomsOf_cons, atomsOf_nil, List.append_nil,
        List.getLast?_append_of_ne_nil _ nonempty] at h
    cases g with
    | reference => simp [atoms, Atom.isBreak] at last
    | text t =>
      rcases List.eq_nil_or_concat t with none | ⟨u, c, rfl⟩
      · exact absurd none (solid (.text t) (by simp))
      · have same : c = '\n' := by simpa [atoms, Atom.isBreak] using last
        exact ⟨u, by rw [same, List.concat_eq_append]⟩

theorem Arranged.formed {gs : List Segment} (h : Arranged gs) : Formed gs where
  normal := h.normal
  proper name indent loc hr := by
    apply h.proper name indent loc
    exact List.mem_flatMap.2 ⟨_, hr, List.mem_singleton_self _⟩
  indented before name indent loc after split indented := by
    have laid := h.laid
    have solid := h.normal.solid
    rw [split] at solid
    rw [split, atomsOf_append] at laid
    exact exists_text_of_break (fun g hg => solid g (List.mem_append_left _ hg))
      (laid.drop.1 indented)
  unindented before front blanks name loc after split nonempty blank := by
    have laid := h.laid
    rw [split, atomsOf_append, atomsOf_cons, atoms, List.map_append, List.append_assoc,
      ← List.append_assoc] at laid
    obtain ⟨c, blanks, rfl⟩ := List.exists_cons_of_ne_nil nonempty
    have found : Atom.behindBlanks Atom.startsBare
        ((c :: blanks).map .char ++ atomsOf (.reference name [] loc :: after)) = true := by
      unfold Atom.behindBlanks
      rw [List.dropWhile_append_of_pos (by simpa [isBlank] using blank)]
      simp [isBlank, blank, atoms, Atom.startsBare]
    have notStart := laid.drop.1
    refine ⟨?_, ?_⟩
    · rintro ⟨rfl, rfl⟩
      exact Bool.false_ne_true ((notStart rfl).symm.trans found)
    · rintro u rfl
      have starts : ((atomsOf before ++ (u ++ ['\n']).map Atom.char).getLast?.elim true
          Atom.isBreak) = true := by simp [Atom.isBreak]
      exact Bool.false_ne_true ((notStart starts).symm.trans found)
  unended before name indent loc blanks rest after split nonempty blank := by
    have laid := h.laid
    rw [split, atomsOf_append] at laid
    have clear : Atom.behindBlanks Atom.startsEnd
        (atomsOf (.text (blanks ++ rest) :: after)) = false := laid.drop.2.1
    rw [atomsOf_cons, atoms, List.map_append, List.append_assoc] at clear
    obtain ⟨c, blanks, rfl⟩ := List.exists_cons_of_ne_nil nonempty
    have found {more : List Atom} (atEnd : Atom.startsEnd (more.dropWhile isBlank) = true) :
        Atom.behindBlanks Atom.startsEnd ((c :: blanks).map .char ++ more) = true := by
      unfold Atom.behindBlanks
      rw [List.dropWhile_append_of_pos (by simpa [isBlank] using blank), atEnd]
      simp [isBlank, blank]
    refine ⟨?_, ?_⟩
    · rintro ⟨rfl, rfl⟩
      exact Bool.false_ne_true (clear.symm.trans (found rfl))
    · rintro u rfl
      exact Bool.false_ne_true (clear.symm.trans (found rfl))

theorem normal_iff {gs : List Segment} : Normal gs ↔ Parted gs ∧ ∀ g ∈ gs, g.Solid := by
  induction gs with
  | nil => simp [Normal, Parted]
  | cons g gs ih =>
    have apart : (∀ k ∈ gs.head?, g.isReference = true ∨ k.isReference = true) ↔
        (g.isReference = false → startsText gs = false) := by
      cases gs with
      | nil => simp [startsText]
      | cons k gs => cases g <;> cases k <;> simp [startsText, isReference]
    rw [Normal, ih, Parted, Parted, List.isChain_cons, apart, List.forall_mem_cons]
    tauto

theorem solid_foldl_push {gs later : List Segment} (h : ∀ g ∈ gs, g.Solid)
    (hl : ∀ g ∈ later, g.Solid) : ∀ g ∈ later.foldl push gs, g.Solid := by
  induction later generalizing gs with
  | nil => exact h
  | cons k later ih =>
    obtain ⟨hk, hl⟩ := List.forall_mem_cons.1 hl
    refine ih ?_ hl
    rcases push_cases gs k with alone | ⟨init, s, t, rfl, rfl, longer⟩
    · rw [alone]
      simpa [or_imp, forall_and] using ⟨h, hk⟩
    · rw [longer]
      obtain ⟨first, _⟩ := List.forall_mem_append.1 h
      refine List.forall_mem_append.2 ⟨first, ?_⟩
      simpa [Solid] using fun _ : s = [] => hk

theorem atomsOf_push (gs : List Segment) (g : Segment) :
    atomsOf (push gs g) = atomsOf gs ++ g.atoms := by
  rcases push_cases gs g with alone | ⟨init, s, t, rfl, rfl, longer⟩
  · simp [alone]
  · simp [longer, atoms]

theorem atomsOf_foldl_push (gs later : List Segment) :
    atomsOf (later.foldl push gs) = atomsOf gs ++ atomsOf later := by
  induction later generalizing gs with
  | nil => simp
  | cons g later ih => rw [List.foldl_cons, ih, atomsOf_push, atomsOf_cons, List.append_assoc]

theorem Arranged.mergeContent {first later : List Segment} (h : Arranged first)
    (hl : Arranged later) : Arranged (Chunk.mergeContent first later) := by
  obtain ⟨parted, solid⟩ := normal_iff.1 h.normal
  obtain ⟨parted', solid'⟩ := normal_iff.1 hl.normal
  by_cases noFirst : first = []
  · rwa [noFirst, Chunk.mergeContent_nil_left, (foldl_push_eq_self_iff later).2 parted']
  by_cases noLater : later = []
  · rwa [noLater, Chunk.mergeContent_nil_right]
  have atoms : atomsOf (Chunk.mergeContent first later) =
      atomsOf first ++ .char '\n' :: atomsOf later := by
    rw [Chunk.mergeContent_of_ne_nil noFirst noLater, atomsOf_foldl_push, atomsOf_push,
      List.append_assoc]
    rfl
  have solidBreak : ∀ g ∈ push first (.text ['\n']), g.Solid :=
    @solid_foldl_push first [.text ['\n']] solid (by simp [Solid])
  refine ⟨normal_iff.2 ?_, ?_, ?_⟩
  · rw [Chunk.mergeContent_of_ne_nil noFirst noLater]
    exact ⟨parted_foldl_push (parted_push parted _) later, solid_foldl_push solidBreak solid'⟩
  · intro name indent loc hr
    rw [atoms] at hr
    rcases List.mem_append.1 hr with hr | hr
    · exact h.proper name indent loc hr
    · exact hl.proper name indent loc (by simpa using hr)
  · rw [atoms]
    exact Atom.laid_append_break.2 ⟨h.laid, hl.laid⟩

end Segment

namespace Token

theorem startsText_left {ts us : List Token} (h : startsText (ts ++ us) = false) :
    startsText ts = false := by
  cases ts with
  | nil => rfl
  | cons t ts => cases t <;> exact h

theorem startsReference_append {ts : List Token} (h : startsReference ts = true)
    (us : List Token) : startsReference (ts ++ us) = true := by
  cases ts with
  | nil => simp [startsReference] at h
  | cons t ts => cases t <;> exact h

theorem startsBreak_append {ts : List Token} (h : startsBreak ts = true) (us : List Token) :
    startsBreak (ts ++ us) = true := by
  cases ts with
  | nil => simp [startsBreak] at h
  | cons t ts => cases t <;> exact h

theorem exists_text_of_startsText {token : Token} {ts : List Token}
    (h : startsText (token :: ts) = true) : ∃ u, token = .text u := by
  cases token with
  | text u => exact ⟨u, rfl⟩
  | _ => simp [startsText] at h

end Token

namespace Grammar

open Atom (Laid behindBlanks startsBare startsEnd)
open Segment (Proper Arranged atomsOf Normal)
open Token (Settled Fits startsText startsReference startsBreak)

variable {lineStart : Bool} {later : List Token}

theorem ends_tail {p : Placed} {ts : List Placed}
    (h : (p :: ts).getLast?.all (·.token.isBreak) = true) :
    ts.getLast?.all (·.token.isBreak) = true := by
  cases ts with
  | nil => rfl
  | cons q ts => rwa [List.getLast?_cons_cons] at h

theorem proper_of_fits {indent raw : Text} (nonempty : raw.trim ≠ [])
    (fits : Fits lineStart (.reference indent raw) later) : Proper raw.trim indent := by
  obtain ⟨blank, _, inside, _⟩ := fits
  refine ⟨nonempty, Text.trim_trim raw, ?_, blank⟩
  exact Lexeme.inName_iff.1 fun c hc => inside c (Text.mem_of_mem_trim hc)

theorem proper_of_body {ts : List Placed} {as : List Atom} (h : Body ts as)
    (settled : Settled lineStart (ts.map (·.token) ++ later)) :
    ∀ name indent loc, .reference name indent loc ∈ as → Proper name indent := by
  induction h generalizing lineStart with
  | nil => simp
  | literal _ _ ih =>
    intro name indent loc hr
    exact ih settled.2 name indent loc (by simpa using hr)
  | @reference indent' raw loc' ts as nonempty _ ih =>
    intro name indent loc hr
    rcases List.mem_cons.1 hr with same | hr
    · obtain ⟨rfl, rfl, _⟩ := Atom.reference.inj same
      exact proper_of_fits nonempty settled.1
    · exact ih settled.2 name indent loc hr

/-- Atoms begin with a blank only if a text does. What they begin with otherwise tells the token. -/
theorem starts_of_body {ts : List Placed} {as : List Atom} (h : Body ts as)
    (settled : Settled lineStart (ts.map (·.token) ++ later))
    (noText : startsText (ts.map (·.token)) = false) :
    as.dropWhile Atom.isBlank = as ∧ as.head?.any Atom.isBlank = false ∧
      (startsBare as = true → startsReference (ts.map (·.token)) = true) ∧
      (startsEnd as = true → ts = [] ∨ startsBreak (ts.map (·.token)) = true) := by
  cases h with
  | nil => simp [startsBare]
  | reference => simp [Atom.isBlank, startsReference, startsEnd, Atom.isBreak]
  | @literal token loc t ts as literal _ =>
    cases token with
    | opening | closing | reference => simp [Token.literal?] at literal
    | text => simp [startsText] at noText
    | breaks n =>
      obtain ⟨m, rfl⟩ := Nat.exists_eq_succ_of_ne_zero (Nat.pos_iff_ne_zero.1 settled.1.1)
      obtain rfl := Option.some.inj literal
      simp [List.replicate_succ, Atom.isBlank, Text.isBlank, startsBare, startsBreak]
    | _ =>
      obtain rfl := Option.some.inj literal
      simp [Atom.isBlank, Text.isBlank, startsBare, startsEnd, Atom.isBreak]

theorem startsEnd_of_plain {c : Char} (plain : Lexeme.isPlain c = true) (as : List Atom) :
    startsEnd (.char c :: as) = false := by
  simp only [startsEnd, Atom.isBreak, beq_eq_false_iff_ne]
  rintro rfl
  simp [Lexeme.isPlain] at plain

/-- Behind a reference, the atoms of a body do not begin with blanks that end the line. -/
theorem behindBlanks_of_body {ts : List Placed} {as : List Atom} (h : Body ts as)
    (ends : ts.getLast?.all (·.token.isBreak) = true)
    (settled : Settled lineStart (ts.map (·.token) ++ later))
    (noEnd : ¬Token.EndsLine (ts.map (·.token) ++ later)) : behindBlanks startsEnd as = false := by
  rw [Bool.eq_false_iff]
  intro found
  have blank : as.head?.any Atom.isBlank = true := (Bool.and_eq_true_iff.1 found).1
  cases h with
  | nil => simp at blank
  | reference => simp [Atom.isBlank] at blank
  | @literal token loc t ts as literal body =>
    cases hs : startsText (token :: ts.map (·.token)) with
    | false =>
      have clear := (starts_of_body (.literal literal body) settled hs).2.1
      exact Bool.false_ne_true (clear.symm.trans blank)
    | true =>
      obtain ⟨u, rfl⟩ := Token.exists_text_of_startsText hs
      obtain rfl := Option.some.inj literal
      obtain ⟨⟨_, plain, noText, _⟩, settled⟩ := settled
      obtain ⟨blanks, atEnd⟩ :=
        Atom.behindBlanks_text (fun c hc bs _ => startsEnd_of_plain (plain c hc) bs) found
      -- A body ends in a line break, so the line can only end in one that is a token of it.
      obtain ⟨same, _, _, more⟩ := starts_of_body body settled (Token.startsText_left noText)
      rw [same] at atEnd
      rcases more atEnd with rfl | hb
      · simp [Token.isBreak] at ends
      · exact noEnd (Token.endsLine_text.2 ⟨blanks, Or.inr (Token.startsBreak_append hb later)⟩)

/-- The atoms of a body are laid out as its tokens are settled. -/
theorem laid_of_body {ts : List Placed} {as : List Atom} (h : Body ts as)
    (ends : ts.getLast?.all (·.token.isBreak) = true)
    (settled : Settled lineStart (ts.map (·.token) ++ later)) : Laid lineStart as := by
  induction h generalizing lineStart with
  | nil => trivial
  | @literal token loc t ts as literal body ih =>
    obtain ⟨fits, settled⟩ := settled
    have rest := ih (ends_tail ends) settled
    cases token with
    | opening | closing | reference => simp [Token.literal?] at literal
    | breaks n =>
      obtain rfl := Option.some.inj literal
      exact Atom.laid_breaks_append fits.1 rest lineStart
    | text u =>
      obtain rfl := Option.some.inj literal
      obtain ⟨nonempty, plain, noText, lone⟩ := fits
      -- Behind the text comes no text, so blanks that reach a reference are the whole of it.
      obtain ⟨same, _, bare, _⟩ := starts_of_body body settled (Token.startsText_left noText)
      have noBreak : '\n' ∉ u := fun hn => absurd (plain _ hn) (by decide)
      have inLine := Atom.laid_text_append noBreak rest
      obtain ⟨c, u, rfl⟩ := List.exists_cons_of_ne_nil nonempty
      refine ⟨?_, inLine.2⟩
      intro starts
      rw [Bool.eq_false_iff]
      intro found
      obtain ⟨blank, hasBare⟩ := Atom.behindBlanks_text (t := c :: u) (fun _ _ _ _ => rfl) found
      rw [same] at hasBare
      have reference := Token.startsReference_append (bare hasBare) later
      exact Bool.false_ne_true ((lone starts blank).symm.trans reference)
    | _ =>
      obtain rfl := Option.some.inj literal
      exact ⟨fun _ => rfl, rest⟩
  | @reference indent raw loc ts as nonempty body ih =>
    obtain ⟨⟨_, indented, _, noEnd⟩, settled⟩ := settled
    exact ⟨indented, behindBlanks_of_body body (ends_tail ends) settled noEnd,
      ih (ends_tail ends) settled⟩

theorem arranged_of_body {ts : List Placed} {as : List Atom} {content : List Segment}
    (h : Body ts as) (ends : ts.getLast?.all (·.token.isBreak) = true)
    (settled : Settled true (ts.map (·.token) ++ later)) (hc : Contents as content) :
    Arranged content := by
  have proper := proper_of_body h settled
  have laid := laid_of_body h ends settled
  obtain ⟨normal, ⟨_, rfl⟩ | rfl⟩ := hc
  · exact ⟨normal, by simp, trivial⟩
  · refine ⟨normal, ?_, (Atom.laid_append_break.1 laid).1⟩
    intro name indent loc hr
    exact proper name indent loc (List.mem_append_left _ hr)

end Grammar

namespace Chunk

/-- The normal form of a chunk. -/
structure NormalForm (c : Chunk) : Prop where
  content : Segment.Formed c.content
  options : c.options.Sound
  keys : (c.options.entries.map Prod.fst).Nodup
  name_trim : c.name.trim = c.name
  code : c.kind = .code → c.name ≠ []
  anonymous : c.name = [] → c.kind = .doc ∧ c.options = {} ∧ ∃ g, c.content = [g]

/-- What of the normal form is kept when definitions are merged. -/
structure Arranged (c : Chunk) : Prop where
  content : Segment.Arranged c.content
  options : c.options.Sound
  name_trim : c.name.trim = c.name
  code : c.kind = .code → c.name ≠ []

theorem Arranged.merge {c later : Chunk} (h : c.Arranged) (hl : later.Arranged) :
    (c.merge later).Arranged where
  content := h.content.mergeContent hl.content
  options := h.options.overlay hl.options
  name_trim := h.name_trim
  code := h.code

theorem Arranged.normalForm {c : Chunk} (h : c.Arranged)
    (wrapper : c.name = [] → ∃ g loc, c = .wrapper g loc) : c.NormalForm where
  content := h.content.formed
  options := h.options
  keys := c.options.nodup
  name_trim := h.name_trim
  code := h.code
  anonymous none := by
    obtain ⟨g, loc, rfl⟩ := wrapper none
    exact ⟨rfl, rfl, g, rfl⟩

theorem arranged_wrapper {g : Segment} {loc : Location} (h : Segment.Arranged [g]) :
    (wrapper g loc).Arranged where
  content := h
  options := Options.sound_empty
  name_trim := rfl
  code := by simp [wrapper]

end Chunk

namespace Grammar

open Token (Settled)

theorem arranged_of_loose {lineStart : Bool} {p : Placed} {c : Chunk} {later : List Token}
    (h : Loose p c) (fits : Token.Fits lineStart p.token later) :
    c.Arranged ∧ ∃ g loc, c = .wrapper g loc := by
  cases h with
  | @literal token loc t literal =>
    have nonempty := Read.literal_ne_nil (Token.spell_ne_nil fits) literal
    refine ⟨Chunk.arranged_wrapper ⟨⟨nonempty, fun _ => rfl, trivial⟩, ?_, ?_⟩, _, _, rfl⟩
    · simp [Segment.atoms]
    · rw [Segment.atomsOf_cons, Segment.atomsOf_nil, List.append_nil]
      exact Atom.laid_text true t
  | @reference indent raw loc nonempty =>
    refine ⟨Chunk.arranged_wrapper ⟨⟨trivial, fun _ => rfl, trivial⟩, ?_, ?_⟩, _, _, rfl⟩
    · intro name indent' loc' hr
      obtain ⟨rfl, rfl, _⟩ := Atom.reference.inj (List.mem_singleton.1 hr)
      exact proper_of_fits nonempty fits
    · exact ⟨fun _ => rfl, rfl, trivial⟩

theorem arranged_of_named {ts rest : List Placed} {c : Chunk} (h : Named ts c rest)
    (settled : Settled true (ts.map (·.token))) :
    c.Arranged ∧ c.name ≠ [] ∧ Settled true (rest.map (·.token)) := by
  cases h with
  | @mk kind t options as content list gap line body gap' foot rest loc l₁ l₂
      _ nonempty hlist _ hl hb ends _ he hc =>
    simp only [List.map_cons, List.map_append] at settled
    have plain := plain_of_settled settled
    obtain ⟨_, afterOptions⟩ := settled.2.2.right
    obtain ⟨_, afterGap⟩ := afterOptions.right
    have inside := settled_of_lineEnd (.lineBreak hl) afterGap
    rw [List.map_append] at inside
    obtain ⟨_, afterBody⟩ := inside.right
    have behind := afterBody.2
    rw [List.map_append] at behind
    obtain ⟨_, footSettled⟩ := behind.right
    refine ⟨?_, nonempty, settled_of_lineEnd he footSettled⟩
    exact {
      content := arranged_of_body hb ends inside hc
      options := Options.sound_of_optionList hlist fun u hu => plain u (by simp [hu])
      name_trim := Text.trim_trim t
      code := fun _ => nonempty }

/-- Every chunk of a document is arranged, and those without a name are wrappers. -/
theorem arranged_of_derives {lineStart : Bool} {ts : List Placed} {cs : List Chunk}
    (h : Derives lineStart ts cs) (settled : Settled lineStart (ts.map (·.token))) :
    ∀ c ∈ cs, c.Arranged ∧ (c.name = [] → ∃ g loc, c = .wrapper g loc) := by
  induction h with
  | nil => simp
  | loose hl _ ih =>
    obtain ⟨arranged, wrapper⟩ := arranged_of_loose hl settled.1
    exact List.forall_mem_cons.2 ⟨⟨arranged, fun _ => wrapper⟩, ih settled.2⟩
  | chunk named _ ih =>
    obtain ⟨arranged, nonempty, rest⟩ := arranged_of_named named settled
    exact List.forall_mem_cons.2 ⟨⟨arranged, fun none => absurd none nonempty⟩, ih rest⟩

end Grammar

namespace Document

/-- The chunks of a document that was read are in normal form, and so are the merged definitions of
its table. -/
theorem normalForm_of_read (path : Option Text) (source : Text) (d : Document)
    (h : (read path source).outcome = .ok d) :
    (∀ c ∈ d.chunks, c.NormalForm) ∧ ∀ e ∈ d.table.entries, e.chunk.NormalForm := by
  obtain ⟨ts, settled, derives⟩ := exists_settled_of_read h
  have each := Grammar.arranged_of_derives derives settled
  refine ⟨fun c hc => (each c hc).1.normalForm (each c hc).2, ?_⟩
  intro e he
  have inTable : e.chunk ∈ d.table.chunks := List.mem_map_of_mem he
  have arranged := Table.forall_ofChunks (fun _ _ => Chunk.Arranged.merge)
    (fun c hc => (each c hc).1) e.chunk inTable
  have nonempty : e.chunk.name ≠ [] :=
    (d.mem_names_table_iff.1 (List.mem_map_of_mem inTable)).1
  exact arranged.normalForm fun none => absurd none nonempty

/-- Loose text and two definitions of a name. The second begins with an indent and ends with blanks
that are left out, and it is merged behind a line break. -/
theorem normalForm_of_read_merged :
    let source : Text := "x\n@code a\ny\n@end\n@code a\n  @<b > z\n@<c>\t\n@end".toList
    let later : List Segment := [.reference ['b'] [' ', ' '] { line := 6 }, .text [' ', 'z', '\n'],
      .reference ['c'] [] { line := 7 }]
    let d : Document := ⟨[.wrapper (.text ['x']) {}, .wrapper (.text ['\n']) { column := 2 },
      ⟨.code, ['a'], {}, [.text ['y']], { line := 2 }⟩, ⟨.code, ['a'], {}, later, { line := 5 }⟩],
      none⟩
    let merged : Chunk := ⟨.code, ['a'], {}, .text ['y', '\n'] :: later, { line := 2 }⟩
    (read none source).outcome = .ok d ∧ d.table.entries = [⟨merged, 2⟩] ∧
    (∀ c ∈ d.chunks, c.NormalForm) ∧ merged.NormalForm := by
  intro source later d merged
  have hd : (read none source).outcome = .ok d := by
    unfold source d later
    cbv
  have entries : d.table.entries = [⟨merged, 2⟩] := rfl
  obtain ⟨chunks, table⟩ := normalForm_of_read none source d hd
  exact ⟨hd, entries, chunks, table ⟨merged, 2⟩ (entries ▸ List.mem_cons_self)⟩

end Document

end Literate
