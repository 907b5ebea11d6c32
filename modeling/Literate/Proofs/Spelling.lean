import Literate.Proofs.Scanning

namespace Literate.Token

open Text
open Lexeme hiding token source rest

/-- How a list of tokens is written. -/
def spelling (ts : List Token) : Text := ts.flatMap spell

@[simp] theorem spelling_nil : spelling [] = [] := rfl

@[simp] theorem spelling_cons (t : Token) (ts : List Token) :
    spelling (t :: ts) = t.spell ++ spelling ts := rfl

@[simp] theorem spelling_append (ts us : List Token) :
    spelling (ts ++ us) = spelling ts ++ spelling us := List.flatMap_append

def startsText : List Token → Bool
  | .text _ :: _ => true
  | _ => false

def startsReference : List Token → Bool
  | .reference .. :: _ => true
  | _ => false

def startsBreak : List Token → Bool
  | .breaks _ :: _ => true
  | _ => false

/-- Blanks that a reference in front of them would take as the end of its line. -/
def EndsLine : List Token → Prop
  | [.text t] => ∀ c ∈ t, isBlank c = true
  | .text t :: .breaks _ :: _ => ∀ c ∈ t, isBlank c = true
  | _ => False

/-- A token that is read as itself in its place: `rest` are the tokens behind it. -/
def Fits (lineStart : Bool) : Token → List Token → Prop
  | .reference indent name, rest =>
    (∀ c ∈ indent, isBlank c = true) ∧ (indent ≠ [] → lineStart = true) ∧
      (∀ c ∈ name, inName c = true) ∧ ¬EndsLine rest
  | .text t, rest =>
    t ≠ [] ∧ (∀ c ∈ t, isPlain c = true) ∧ startsText rest = false ∧
      (lineStart = true → (∀ c ∈ t, isBlank c = true) → startsReference rest = false)
  | .breaks n, rest => 0 < n ∧ startsBreak rest = false
  | _, _ => True

/-- Every token fits in its place. -/
def Settled : Bool → List Token → Prop
  | _, [] => True
  | lineStart, t :: ts => Fits lineStart t ts ∧ Settled t.isBreak ts

theorem fits_of_isSign {lineStart : Bool} {t : Token} {rest : List Token} (h : t.isSign = true) :
    Fits lineStart t rest := by
  cases t <;> simp_all [isSign, Fits]

theorem exists_fits_of_mem {lineStart : Bool} {ts : List Token} {t : Token}
    (h : Settled lineStart ts) (ht : t ∈ ts) : ∃ start rest, Fits start t rest := by
  induction ts generalizing lineStart with
  | nil => simp at ht
  | cons u ts ih =>
    obtain ⟨fits, settled⟩ := h
    rcases List.mem_cons.1 ht with rfl | ht
    · exact ⟨lineStart, ts, fits⟩
    · exact ih settled ht

theorem Settled.right {lineStart : Bool} {ts us : List Token} (h : Settled lineStart (ts ++ us)) :
    ∃ lineStart', Settled lineStart' us := by
  induction ts generalizing lineStart with
  | nil => exact ⟨lineStart, h⟩
  | cons t ts ih => exact ih h.2

theorem split_of_isSign {lineStart : Bool} {t : Token} (h : t.isSign = true) :
    split lineStart t = [t] := by
  cases t <;> simp_all [isSign, split]

/-- A sign at the front is none of the tokens that others depend on. -/
theorem starts_of_isSign {t : Token} (h : t.isSign = true) (ts : List Token) :
    startsText (t :: ts) = false ∧ startsReference (t :: ts) = false ∧
      startsBreak (t :: ts) = false ∧ ¬EndsLine (t :: ts) := by
  cases t <;> simp_all [isSign, startsText, startsReference, startsBreak, EndsLine]

theorem not_stops_of_startsText {lineStart : Bool} {t : Text} {ts : List Token}
    (h : Scans lineStart t ts) (hs : startsText ts = true) : ¬Stops isPlain t := by
  cases h with
  | nil => simp [startsText] at hs
  | cons reads _ =>
    cases reads with
    | sign sign =>
      rw [split_of_isSign sign, List.singleton_append, (starts_of_isSign sign _).1] at hs
      simp at hs
    | @reference indent name tail hi hn =>
      cases indent with
      | nil => simp [split, startsText] at hs
      | cons c indent => simp [isPlain_of_isBlank (hi c List.mem_cons_self)]
    | text hne hp hstop hr =>
      obtain ⟨c, run', rfl⟩ := List.exists_cons_of_ne_nil hne
      simp [hp c List.mem_cons_self]
    | breaks => simp [split, startsText] at hs

theorem exists_break_of_startsBreak {lineStart : Bool} {t : Text} {ts : List Token}
    (h : Scans lineStart t ts) (hs : startsBreak ts = true) : ∃ tail, t = '\n' :: tail := by
  cases h with
  | nil => simp [startsBreak] at hs
  | cons reads _ =>
    cases reads with
    | sign sign =>
      rw [split_of_isSign sign, List.singleton_append, (starts_of_isSign sign _).2.2.1] at hs
      simp at hs
    | reference =>
      simp only [split] at hs
      split at hs <;> simp [startsBreak] at hs
    | text => simp [split, startsBreak] at hs
    | @breaks n _ hn _ =>
      obtain ⟨m, rfl⟩ : ∃ m, n = m + 1 := ⟨n - 1, by omega⟩
      exact ⟨List.replicate m '\n' ++ _, by rw [List.replicate_succ, List.cons_append]⟩

/-- A reference comes first only where one is written, whatever blanks are put in front of it. -/
theorem reference?_ne_none_of_startsReference {lineStart : Bool} {t blanks : Text} {ts : List Token}
    (h : Scans lineStart t ts) (hs : startsReference ts = true)
    (hb : ∀ c ∈ blanks, isBlank c = true) : reference? (blanks ++ t) ≠ none := by
  cases h with
  | nil => simp [startsReference] at hs
  | cons reads _ =>
    cases reads with
    | sign sign =>
      rw [split_of_isSign sign, List.singleton_append, (starts_of_isSign sign _).2.1] at hs
      simp at hs
    | @reference indent name tail hi hn =>
      have all : ∀ c ∈ blanks ++ indent, isBlank c = true := by
        intro c hc
        rcases List.mem_append.1 hc with hc | hc
        · exact hb c hc
        · exact hi c hc
      have found := @reference?_eq _ _ tail all hn
      rw [List.append_assoc, List.append_assoc, ← List.append_assoc indent] at found
      rw [found]
      simp
    | text => simp [split, startsReference] at hs
    | breaks => simp [split, startsReference] at hs

theorem eq_nil_of_scans_nil {lineStart : Bool} {t : Text} {ts : List Token}
    (h : Scans lineStart t ts) (hts : ts = []) : t = [] := by
  cases h with
  | nil => rfl
  | @cons _ _ _ token _ _ _ =>
    have nonempty : split lineStart token ≠ [] := by
      unfold split
      split
      · split <;> simp
      · simp
    exact absurd (List.append_eq_nil_iff.1 hts).1 nonempty

theorem lineEndBlanks_ne_nil_of_endsLine {lineStart : Bool} {t : Text} {ts : List Token}
    (h : Scans lineStart t ts) (he : EndsLine ts) : lineEndBlanks t ≠ [] := by
  cases h with
  | nil => simp [EndsLine] at he
  | @cons _ _ rest _ later reads scans =>
    cases reads with
    | sign sign =>
      rw [split_of_isSign sign] at he
      exact absurd he (starts_of_isSign sign _).2.2.2
    | reference =>
      simp only [split] at he
      split at he <;> simp [EndsLine] at he
    | @text run _ hne hp hstop hr =>
      simp only [split, List.singleton_append] at he
      have ending : (∀ c ∈ run, isBlank c = true) ∧ (rest = [] ∨ ∃ tail, rest = '\n' :: tail) := by
        unfold EndsLine at he
        split at he
        · rename_i same
          obtain ⟨rfl, rfl⟩ : _ = run ∧ later = [] := by simpa using same.symm
          exact ⟨he, Or.inl (eq_nil_of_scans_nil scans rfl)⟩
        · rename_i same
          simp only [List.cons.injEq, text.injEq] at same
          obtain ⟨rfl, rfl⟩ := same
          exact ⟨he, Or.inr (exists_break_of_startsBreak scans rfl)⟩
        · exact he.elim
      rw [lineEndBlanks_run_end ending.1 ending.2]
      exact hne
    | breaks => simp [split, EndsLine] at he

/-- No token of a text would be read otherwise next to its neighbours. -/
theorem settled_of_scans {lineStart : Bool} {t : Text} {ts : List Token}
    (h : Scans lineStart t ts) : Settled lineStart ts := by
  induction h with
  | nil => trivial
  | @cons lineStart t rest token later reads scans ih =>
    cases reads with
    | sign sign =>
      rw [split_of_isSign sign]
      exact ⟨fits_of_isSign sign, ih⟩
    | @reference indent name tail hi hn =>
      have noEnd : ¬EndsLine later := fun he =>
        lineEndBlanks_ne_nil_of_endsLine scans he (lineEndBlanks_drop tail)
      cases indent with
      | nil => exact ⟨⟨hi, by simp, hn, noEnd⟩, ih⟩
      | cons c indent =>
        cases lineStart with
        | true => exact ⟨⟨hi, by simp, hn, noEnd⟩, ih⟩
        | false =>
          refine ⟨⟨by simp, fun x hx => isPlain_of_isBlank (hi x hx), rfl, by simp⟩, ?_⟩
          exact ⟨⟨by simp, by simp, hn, noEnd⟩, ih⟩
    | @text run rest hne hp hstop hr =>
      refine ⟨⟨hne, hp, ?_, ?_⟩, ih⟩
      · cases hs : startsText later with
        | false => exact hs
        | true => exact absurd hstop (not_stops_of_startsText scans hs)
      · intro _ blank
        cases hs : startsReference later with
        | false => exact hs
        | true => exact absurd hr (reference?_ne_none_of_startsReference scans hs blank)
    | @breaks n rest hn hstop =>
      refine ⟨⟨hn, ?_⟩, ih⟩
      cases hs : startsBreak later with
      | false => exact hs
      | true =>
        obtain ⟨tail, rfl⟩ := exists_break_of_startsBreak scans hs
        simp at hstop

theorem spell_of_isSign {t : Token} (h : t.isSign = true) :
    ∃ c rest, t.spell = c :: rest ∧ isPlain c = false ∧ c ≠ '\n' ∧
      ∀ tail more, t.spell ++ more ≠ '@' :: '<' :: tail := by
  cases t with
  | opening kind => cases kind <;> exact ⟨_, _, rfl, rfl, by decide, by simp [spell]⟩
  | reference | text | breaks => simp [isSign] at h
  | _ => exact ⟨_, _, rfl, rfl, by decide, by simp [spell]⟩

theorem spell_breaks {n : Nat} (h : 0 < n) :
    (Token.breaks n).spell = '\n' :: List.replicate (n - 1) '\n' := by
  obtain ⟨m, rfl⟩ : ∃ m, n = m + 1 := ⟨n - 1, by omega⟩
  rfl

/-- Every token is a sign or of one of the three kinds that look at their neighbours. -/
theorem sign_or (t : Token) : t.isSign = true ∨ (∃ indent name, t = .reference indent name) ∨
    (∃ u, t = .text u) ∨ ∃ n, t = .breaks n := by
  cases t <;> simp [isSign]

theorem spell_ne_nil {lineStart : Bool} {token : Token} {later : List Token}
    (fits : Fits lineStart token later) : token.spell ≠ [] := by
  rcases sign_or token with sign | ⟨indent, name, rfl⟩ | ⟨u, rfl⟩ | ⟨n, rfl⟩
  · obtain ⟨c, rest, same, _⟩ := spell_of_isSign sign
    simp [same]
  · simp [spell]
  · exact fits.1
  · simpa [spell] using Nat.ne_of_gt fits.1

/-- Within a line a reference has no indent. -/
theorem noIndent_of_fits {indent name : Text} {rest : List Token}
    (h : Fits false (.reference indent name) rest) : indent = [] :=
  Classical.byContradiction fun hne => by simpa using h.2.1 hne

theorem stops_plain_spelling {ts : List Token} (h : Settled false ts)
    (ht : startsText ts = false) : Stops isPlain (spelling ts) := by
  cases ts with
  | nil => exact stops_nil
  | cons t ts =>
    obtain ⟨fits, _⟩ := h
    rcases sign_or t with sign | ⟨indent, name, rfl⟩ | ⟨u, rfl⟩ | ⟨n, rfl⟩
    · obtain ⟨c, rest, hs, hp, _⟩ := spell_of_isSign sign
      rw [spelling_cons, hs]
      exact stops_cons.2 hp
    · obtain rfl := noIndent_of_fits fits
      exact stops_cons.2 rfl
    · simp [startsText] at ht
    · rw [spelling_cons, spell_breaks fits.1]
      exact stops_cons.2 rfl

theorem stops_break_spelling {lineStart : Bool} {ts : List Token} (h : Settled lineStart ts)
    (hb : startsBreak ts = false) : Stops (· == '\n') (spelling ts) := by
  cases ts with
  | nil => exact stops_nil
  | cons t ts =>
    obtain ⟨fits, _⟩ := h
    rcases sign_or t with sign | ⟨indent, name, rfl⟩ | ⟨u, rfl⟩ | ⟨n, rfl⟩
    · obtain ⟨c, rest, hs, _, hn, _⟩ := spell_of_isSign sign
      rw [spelling_cons, hs]
      exact stops_cons.2 (by simpa using hn)
    · cases indent with
      | nil => exact stops_cons.2 rfl
      | cons c indent =>
        rcases isBlank_iff.1 (fits.1 c List.mem_cons_self) with rfl | rfl <;> exact stops_cons.2 rfl
    · obtain ⟨c, u, rfl⟩ := List.exists_cons_of_ne_nil fits.1
      have plain := fits.2.1 c List.mem_cons_self
      exact stops_cons.2 (by simp_all [isPlain])
    · simp [startsBreak] at hb

/-- Behind a reference the spelling has no blanks to lose. -/
theorem lineEndBlanks_spelling {ts : List Token} (h : Settled false ts) (he : ¬EndsLine ts) :
    lineEndBlanks (spelling ts) = [] := by
  cases ts with
  | nil => rfl
  | cons t ts =>
    obtain ⟨fits, settled⟩ := h
    by_cases ht : ∃ u, t = .text u
    · obtain ⟨u, rfl⟩ := ht
      obtain ⟨_, plain, noText, _⟩ := fits
      by_cases blank : ∀ c ∈ u, isBlank c = true
      · -- The line goes on behind the blanks, with a token that is neither text nor a break.
        have stop := stops_plain_spelling settled noText
        have goesOn : ∃ c rest, spelling ts = c :: rest ∧ c ≠ '\n' := by
          cases ts with
          | nil => exact absurd blank he
          | cons t' ts' =>
            have noBreak : startsBreak (t' :: ts') = false := by
              cases t' <;> first | rfl | exact absurd blank he
            have stop' := stops_break_spelling settled noBreak
            cases hs : spelling (t' :: ts') with
            | nil =>
              obtain ⟨fits', _⟩ := settled
              rcases sign_or t' with sign | ⟨indent, name, rfl⟩ | ⟨u', rfl⟩ | ⟨n, rfl⟩
              · obtain ⟨c, rest, hc, _⟩ := spell_of_isSign sign
                simp [hc] at hs
              · simp [spell] at hs
              · simp [startsText] at noText
              · simp [startsBreak] at noBreak
            | cons c rest => exact ⟨c, rest, rfl, by simpa [hs] using stop'⟩
        obtain ⟨c, rest, hs, hn⟩ := goesOn
        rw [hs] at stop
        rw [spelling_cons, hs]
        exact lineEndBlanks_run blank (stops_cons.1 (stops_blank_of_stops_plain stop)) hn
      · obtain ⟨run, c, tail, rfl, hr, hb⟩ := exists_first_other blank
        have hc := plain c (by simp)
        rw [spelling_cons, spell, List.append_assoc, List.cons_append]
        refine lineEndBlanks_run hr hb ?_
        rintro rfl
        simp [isPlain] at hc
    · have noText : startsText (t :: ts) = false := by
        cases t <;> first | rfl | exact absurd ⟨_, rfl⟩ ht
      exact lineEndBlanks_of_stops
        (stops_blank_of_stops_plain (stops_plain_spelling ⟨fits, settled⟩ noText))

theorem reference?_eq_none {blanks rest : Text} (hb : ∀ c ∈ blanks, isBlank c = true)
    (hs : Stops isBlank rest) (hr : ∀ tail, rest ≠ '@' :: '<' :: tail) :
    reference? (blanks ++ rest) = none := by
  unfold reference?
  simp only [dropWhile_run hb hs]

/-- Plain text is not taken for a reference, unless it is all blank and one follows. -/
theorem reference?_text_eq_none {t : Text} {ts : List Token} (plain : ∀ c ∈ t, isPlain c = true)
    (h : Settled false ts) (ht : startsText ts = false)
    (hr : (∀ c ∈ t, isBlank c = true) → startsReference ts = false) :
    reference? (t ++ spelling ts) = none := by
  by_cases blank : ∀ c ∈ t, isBlank c = true
  · have stop := stops_plain_spelling h ht
    refine reference?_eq_none blank (stops_blank_of_stops_plain stop) ?_
    intro tail same
    cases ts with
    | nil => simp at same
    | cons t' ts' =>
      have noReference := hr blank
      rcases sign_or t' with sign | ⟨indent, name, rfl⟩ | ⟨u, rfl⟩ | ⟨n, rfl⟩
      · obtain ⟨_, _, _, _, _, other⟩ := spell_of_isSign sign
        exact other tail _ same
      · simp [startsReference] at noReference
      · simp [startsText] at ht
      · rw [spelling_cons, spell_breaks h.1.1] at same
        simp at same
  · obtain ⟨run, c, tail, rfl, hrun, hb⟩ := exists_first_other blank
    have hc := plain c (by simp)
    rw [List.append_assoc, List.cons_append]
    refine reference?_eq_none hrun (stops_cons.2 hb) ?_
    rintro _ same
    obtain ⟨rfl, _⟩ := List.cons.inj same
    simp [isPlain] at hc

/-- A reference in its place is read off its spelling, with `blanks` in front of it. -/
theorem reads_reference_spelling {blanks name : Text} {ts : List Token}
    (hb : ∀ c ∈ blanks, isBlank c = true) (hn : ∀ c ∈ name, inName c = true)
    (h : Settled false ts) (he : ¬EndsLine ts) :
    Reads (blanks ++ spelling (.reference [] name :: ts)) (.reference blanks name) (spelling ts) := by
  have reads := @Reads.reference _ _ (spelling ts) hb hn
  rw [lineEndBlanks_spelling h he, List.length_nil, List.drop_zero] at reads
  simpa [spell] using reads

theorem exists_of_startsReference {ts : List Token} (h : startsReference ts = true) :
    ∃ indent name us, ts = .reference indent name :: us := by
  unfold startsReference at h
  split at h
  · exact ⟨_, _, _, rfl⟩
  · simp at h

/-- One more token in front, unless it is blank text that the reference behind it would take. -/
theorem scans_cons_spelling {lineStart : Bool} {t : Token} {ts : List Token}
    (fits : Fits lineStart t ts) (settled : Settled t.isBreak ts)
    (lone : ∀ u, t = .text u → (∀ c ∈ u, isBlank c = true) → startsReference ts = false)
    (later : Scans t.isBreak (spelling ts) ts) : Scans lineStart (spelling (t :: ts)) (t :: ts) := by
  rcases sign_or t with sign | ⟨indent, name, rfl⟩ | ⟨u, rfl⟩ | ⟨n, rfl⟩
  · have scans := @Scans.cons lineStart _ _ _ _ (.sign sign) later
    rwa [split_of_isSign sign] at scans
  · obtain ⟨hi, indented, hn, noEnd⟩ := fits
    have whole : split lineStart (.reference indent name) = [.reference indent name] := by
      cases indent with
      | nil => rfl
      | cons c indent => simp [split, indented]
    have scans := @Scans.cons lineStart _ _ _ _ (reads_reference_spelling hi hn settled noEnd) later
    rw [whole] at scans
    simpa [spell] using scans
  · obtain ⟨hne, plain, noText, _⟩ := fits
    have stop := stops_plain_spelling settled noText
    have noReference := reference?_text_eq_none plain settled noText (lone u rfl)
    exact Scans.cons (.text hne plain stop noReference) later
  · exact Scans.cons (.breaks fits.1 (stops_break_spelling settled fits.2)) later

/-- Within a line, blank text and the reference behind it are read together and then parted. -/
theorem scans_blank_reference {u name : Text} {ts : List Token} (hne : u ≠ [])
    (blank : ∀ c ∈ u, isBlank c = true) (fits : Fits false (.reference [] name) ts)
    (settled : Settled false ts) (later : Scans false (spelling ts) ts) :
    Scans false (spelling (.text u :: .reference [] name :: ts))
      (.text u :: .reference [] name :: ts) := by
  obtain ⟨_, _, inside, noEnd⟩ := fits
  have apart : split false (.reference u name) = [.text u, .reference [] name] := by
    simp [split, hne]
  have scans := @Scans.cons false _ _ _ _ (reads_reference_spelling blank inside settled noEnd) later
  rwa [apart] at scans

/-- Settled tokens are the tokens of their spelling. -/
theorem scans_spelling {lineStart : Bool} {ts : List Token} (h : Settled lineStart ts) :
    Scans lineStart (spelling ts) ts := by
  -- On the length, since two tokens may be read at once.
  induction hn : ts.length using Nat.strong_induction_on generalizing ts lineStart with
  | _ n ih =>
    subst hn
    cases ts with
    | nil => exact .nil
    | cons t ts =>
      obtain ⟨fits, settled⟩ := h
      by_cases pair : ∃ u, t = .text u ∧ (∀ c ∈ u, isBlank c = true) ∧ startsReference ts = true
      · obtain ⟨u, rfl, blank, hr⟩ := pair
        obtain ⟨indent, name, us, rfl⟩ := exists_of_startsReference hr
        obtain ⟨fits', settled'⟩ := settled
        obtain rfl := noIndent_of_fits fits'
        obtain rfl : lineStart = false := by
          cases lineStart with
          | false => rfl
          | true => simp [fits.2.2.2 rfl blank] at hr
        have shorter : us.length < (Token.text u :: .reference [] name :: us).length := by
          simp only [List.length_cons]
          omega
        exact scans_blank_reference fits.1 blank fits' settled' (ih _ shorter settled' rfl)
      · have lone : ∀ u, t = .text u → (∀ c ∈ u, isBlank c = true) → startsReference ts = false := by
          intro u hu blank
          simpa using fun hr => pair ⟨u, hu, blank, hr⟩
        have shorter : ts.length < (t :: ts).length := by simp
        exact scans_cons_spelling fits settled lone (ih _ shorter settled rfl)

end Literate.Token
