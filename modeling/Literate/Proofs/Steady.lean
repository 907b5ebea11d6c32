import Literate.Proofs.Spelling
import Literate.Proofs.Text

namespace Literate.Token

open Text
open Lexeme hiding token source rest

/-- The token does not lose a carriage return to a line break behind it. -/
def Keeps : Token → List Token → Prop
  | .text t, rest => startsBreak rest = true → t.getLast? ≠ some '\r'
  | _, _ => True

def Calm : List Token → Prop
  | [] => True
  | t :: ts => Keeps t ts ∧ Calm ts

/-- Every token fits in its place and keeps all its characters there. -/
def Steady (lineStart : Bool) (ts : List Token) : Prop := Settled lineStart ts ∧ Calm ts

@[simp] theorem steady_nil {lineStart : Bool} : Steady lineStart [] := ⟨trivial, trivial⟩

@[simp] theorem steady_cons {lineStart : Bool} {t : Token} {ts : List Token} :
    Steady lineStart (t :: ts) ↔ (Fits lineStart t ts ∧ Keeps t ts) ∧ Steady t.isBreak ts :=
  and_and_and_comm

theorem keeps_of_isSign {t : Token} {rest : List Token} (h : t.isSign = true) : Keeps t rest := by
  cases t <;> simp_all [isSign, Keeps]

theorem isBreak_of_isSign {t : Token} (h : t.isSign = true) : t.isBreak = false := by
  cases t <;> simp_all [isSign, isBreak]

theorem steady_sign_cons {lineStart : Bool} {t : Token} {ts : List Token} (h : t.isSign = true) :
    Steady lineStart (t :: ts) ↔ Steady false ts := by
  rw [steady_cons, isBreak_of_isSign h]
  exact and_iff_right ⟨fits_of_isSign h, keeps_of_isSign h⟩

theorem Calm.right {ts us : List Token} (h : Calm (ts ++ us)) : Calm us := by
  induction ts with
  | nil => exact h
  | cons t ts ih => exact ih h.2

theorem Steady.right {lineStart : Bool} {ts us : List Token} (h : Steady lineStart (ts ++ us)) :
    ∃ lineStart', Steady lineStart' us :=
  h.1.right.imp fun _ settled => ⟨settled, h.2.right⟩

/-- Two continuations that no token in front of them can tell apart. -/
structure Alike (ts us : List Token) : Prop where
  text : startsText us = startsText ts
  reference : startsReference us = startsReference ts
  breaks : startsBreak us = startsBreak ts
  endsLine : EndsLine us ↔ EndsLine ts
  empty : us = [] ↔ ts = []

theorem endsLine_text {t : Text} {ts : List Token} :
    EndsLine (.text t :: ts) ↔ (∀ c ∈ t, isBlank c = true) ∧ (ts = [] ∨ startsBreak ts = true) := by
  cases ts with
  | nil => simp [EndsLine]
  | cons u ts => cases u <;> simp [EndsLine, startsBreak]

theorem alike_sign {t : Token} (h : t.isSign = true) (ts us : List Token) :
    Alike (t :: ts) (t :: us) := by
  obtain ⟨text, reference, breaks, noEnd⟩ := starts_of_isSign h ts
  obtain ⟨text', reference', breaks', noEnd'⟩ := starts_of_isSign h us
  exact ⟨text'.trans text.symm, reference'.trans reference.symm, breaks'.trans breaks.symm,
    by simp [noEnd, noEnd'], by simp⟩

namespace Alike

variable {ts us : List Token}

theorem symm (h : Alike ts us) : Alike us ts :=
  ⟨h.text.symm, h.reference.symm, h.breaks.symm, h.endsLine.symm, h.empty.symm⟩

theorem fits {lineStart : Bool} {t : Token} (h : Alike ts us) (ht : Fits lineStart t ts) :
    Fits lineStart t us := by
  rcases sign_or t with sign | ⟨indent, name, rfl⟩ | ⟨u, rfl⟩ | ⟨n, rfl⟩
  · exact fits_of_isSign sign
  · obtain ⟨blank, indented, inside, noEnd⟩ := ht
    exact ⟨blank, indented, inside, fun he => noEnd (h.endsLine.1 he)⟩
  · obtain ⟨nonempty, plain, noText, lone⟩ := ht
    exact ⟨nonempty, plain, h.text.trans noText, fun hl hb => h.reference.trans (lone hl hb)⟩
  · exact ⟨ht.1, h.breaks.trans ht.2⟩

theorem keeps {t : Token} (h : Alike ts us) (ht : Keeps t ts) : Keeps t us := by
  cases t with
  | text u => exact fun hb => ht (h.breaks ▸ hb)
  | _ => trivial

theorem cons (h : Alike ts us) (t : Token) : Alike (t :: ts) (t :: us) := by
  rcases sign_or t with sign | ⟨indent, name, rfl⟩ | ⟨u, rfl⟩ | ⟨n, rfl⟩
  · exact alike_sign sign ts us
  · exact ⟨rfl, rfl, rfl, Iff.rfl, by simp⟩
  · refine ⟨rfl, rfl, rfl, ?_, by simp⟩
    rw [endsLine_text, endsLine_text, h.empty, h.breaks]
  · exact ⟨rfl, rfl, rfl, Iff.rfl, by simp⟩

end Alike

theorem alike_append_sign {t : Token} (h : t.isSign = true) (ts us : List Token) :
    Alike (ts ++ [t]) (ts ++ t :: us) := by
  induction ts with
  | nil => exact alike_sign h [] us
  | cons u ts ih => exact ih.cons u

/-- A sign keeps apart what stands before it and what stands behind it. -/
theorem steady_append_sign {lineStart : Bool} {t : Token} (h : t.isSign = true)
    (ts us : List Token) :
    Steady lineStart (ts ++ t :: us) ↔ Steady lineStart (ts ++ [t]) ∧ Steady false us := by
  induction ts generalizing lineStart with
  | nil => simp [steady_sign_cons h]
  | cons u ts ih =>
    have alike := alike_append_sign h ts us
    simp only [List.cons_append, steady_cons, ih, ← and_assoc]
    refine and_congr_left' (and_congr_left' ?_)
    exact ⟨fun ⟨hf, hk⟩ => ⟨alike.symm.fits hf, alike.symm.keeps hk⟩,
      fun ⟨hf, hk⟩ => ⟨alike.fits hf, alike.keeps hk⟩⟩

/-- The token with the name of its reference trimmed. -/
def trimmed : Token → Token
  | .reference indent name => .reference indent name.trim
  | t => t

theorem isBreak_trimmed (t : Token) : t.trimmed.isBreak = t.isBreak := by
  cases t <;> rfl

theorem literal?_trimmed (t : Token) : t.trimmed.literal? = t.literal? := by
  cases t <;> rfl

theorem trimmed_of_literal? {t : Token} {u : Text} (h : t.literal? = some u) : t.trimmed = t := by
  cases t with
  | reference => simp [literal?] at h
  | _ => rfl

theorem Alike.cons_trimmed {ts us : List Token} (h : Alike ts us) (t : Token) :
    Alike (t :: ts) (t.trimmed :: us) := by
  cases t with
  | reference indent name => exact ⟨rfl, rfl, rfl, Iff.rfl, by simp⟩
  | _ => exact h.cons _

theorem fits_trimmed {lineStart : Bool} {t : Token} {ts : List Token} (h : Fits lineStart t ts) :
    Fits lineStart t.trimmed ts := by
  cases t with
  | reference indent name =>
    obtain ⟨blank, indented, inside, noEnd⟩ := h
    exact ⟨blank, indented, fun c hc => inside c (mem_of_mem_trim hc), noEnd⟩
  | _ => exact h

theorem keeps_trimmed {t : Token} {ts : List Token} (h : Keeps t ts) : Keeps t.trimmed ts := by
  cases t <;> exact h

/-- A token stays in its place if its name is trimmed and what follows is exchanged for the like. -/
theorem steady_cons_trimmed {lineStart : Bool} {t : Token} {ts us : List Token}
    (h : Steady lineStart (t :: ts)) (alike : Alike ts us) (hu : Steady t.isBreak us) :
    Steady lineStart (t.trimmed :: us) := by
  obtain ⟨⟨fits, keeps⟩, _⟩ := steady_cons.1 h
  rw [steady_cons, isBreak_trimmed]
  exact ⟨⟨fits_trimmed (alike.fits fits), keeps_trimmed (alike.keeps keeps)⟩, hu⟩

theorem alike_map_trimmed (ts : List Token) : Alike ts (ts.map trimmed) := by
  induction ts with
  | nil => exact ⟨rfl, rfl, rfl, Iff.rfl, Iff.rfl⟩
  | cons t ts ih => exact ih.cons_trimmed t

theorem steady_map_trimmed {lineStart : Bool} {ts : List Token} (h : Steady lineStart ts) :
    Steady lineStart (ts.map trimmed) := by
  induction ts generalizing lineStart with
  | nil => exact h
  | cons t ts ih => exact steady_cons_trimmed h (alike_map_trimmed ts) (ih (steady_cons.1 h).2)

/-- The tokens with a line break in front, in one run with those that stand there. -/
def withBreak : List Token → List Token
  | .breaks n :: ts => .breaks (n + 1) :: ts
  | ts => .breaks 1 :: ts

theorem withBreak_of_startsBreak {ts : List Token} (h : startsBreak ts = false) :
    withBreak ts = .breaks 1 :: ts := by
  unfold withBreak
  split
  · simp [startsBreak] at h
  · rfl

theorem spelling_withBreak (ts : List Token) : spelling (withBreak ts) = '\n' :: spelling ts := by
  unfold withBreak
  split <;> rfl

theorem steady_withBreak {lineStart : Bool} {ts : List Token} (h : Steady true ts) :
    Steady lineStart (withBreak ts) := by
  cases hb : startsBreak ts with
  | false =>
    rw [withBreak_of_startsBreak hb, steady_cons]
    exact ⟨⟨⟨Nat.one_pos, hb⟩, trivial⟩, h⟩
  | true =>
    match ts, hb with
    | .breaks n :: ts, _ =>
      obtain ⟨⟨⟨_, noBreak⟩, _⟩, steady⟩ := steady_cons.1 h
      exact steady_cons.2 ⟨⟨⟨Nat.succ_pos n, noBreak⟩, trivial⟩, steady⟩

theorem suffix_of_reads {t rest : Text} {token : Token} (h : Reads t token rest) : rest <:+ t := by
  cases h with
  | sign => exact List.suffix_append _ _
  | @reference indent name tail =>
    have dropped : tail.drop (lineEndBlanks tail).length <:+ tail := List.drop_suffix _ _
    exact dropped.trans ⟨indent ++ '@' :: '<' :: name ++ ['>'], by simp⟩
  | text => exact List.suffix_append _ _
  | breaks => exact List.suffix_append _ _

/-- In a text without lost carriage returns no token loses one. -/
theorem calm_of_scans {lineStart : Bool} {t : Text} {ts : List Token} (h : Scans lineStart t ts)
    (clean : Clean t) : Calm ts := by
  induction h with
  | nil => trivial
  | @cons lineStart t rest token later reads scans ih =>
    have calm := ih (clean.suffix (suffix_of_reads reads))
    cases reads with
    | sign sign =>
      rw [split_of_isSign sign]
      exact ⟨keeps_of_isSign sign, calm⟩
    | @reference indent name tail =>
      simp only [split]
      split
      · exact ⟨trivial, calm⟩
      · refine ⟨?_, trivial, calm⟩
        intro hb
        simp [startsBreak] at hb
    | @text run rest =>
      refine ⟨?_, calm⟩
      intro hb last
      obtain ⟨tail, rfl⟩ := exists_break_of_startsBreak scans hb
      exact (List.isChain_append.1 clean).2.2 '\r' last '\n' rfl ⟨rfl, rfl⟩
    | breaks => exact ⟨trivial, calm⟩

theorem steady_of_scans {lineStart : Bool} {t : Text} {ts : List Token} (h : Scans lineStart t ts)
    (clean : Clean t) : Steady lineStart ts :=
  ⟨settled_of_scans h, calm_of_scans h clean⟩

theorem clean_spell {lineStart : Bool} {t : Token} {ts : List Token} (h : Fits lineStart t ts) :
    Clean t.spell := by
  rcases sign_or t with sign | ⟨indent, name, rfl⟩ | ⟨u, rfl⟩ | ⟨n, rfl⟩
  · apply clean_of_noBreak
    cases t with
    | opening kind => cases kind <;> decide
    | reference | text | breaks => simp [isSign] at sign
    | _ => decide
  · obtain ⟨blank, _, inside, _⟩ := h
    apply clean_of_noBreak
    intro hn
    simp only [spell, List.mem_append, List.mem_cons] at hn
    have noBlank : '\n' ∉ indent := fun hi => by simpa [isBlank] using blank _ hi
    have noName : '\n' ∉ name := fun hi => by simpa [inName] using inside _ hi
    simp [noBlank, noName] at hn
  · apply clean_of_noBreak
    intro hn
    simpa [isPlain] using h.2.1 _ hn
  · exact List.isChain_replicate_of_rel n (by decide)

/-- Only a text ends with a carriage return. -/
theorem getLast?_spell {lineStart : Bool} {t : Token} {ts : List Token} (h : Fits lineStart t ts)
    (last : t.spell.getLast? = some '\r') : ∃ u, t = .text u := by
  rcases sign_or t with sign | ⟨indent, name, rfl⟩ | ⟨u, rfl⟩ | ⟨n, rfl⟩
  · cases t with
    | opening kind => cases kind <;> simp [spell] at last
    | reference | text | breaks => simp [isSign] at sign
    | _ => simp [spell] at last
  · rw [spell, List.getLast?_concat] at last
    simp at last
  · exact ⟨u, rfl⟩
  · have inside := List.mem_of_getLast? last
    simp [spell] at inside

/-- The spelling of steady tokens has no carriage return to lose. -/
theorem clean_spelling {lineStart : Bool} {ts : List Token} (h : Steady lineStart ts) :
    Clean (spelling ts) := by
  induction ts generalizing lineStart with
  | nil => exact .nil
  | cons t ts ih =>
    obtain ⟨⟨fits, keeps⟩, steady⟩ := steady_cons.1 h
    rw [spelling_cons]
    refine (clean_spell fits).append (ih steady) ?_
    rintro x hx y hy ⟨rfl, rfl⟩
    obtain ⟨u, rfl⟩ := getLast?_spell fits hx
    cases hb : startsBreak ts with
    | true => exact keeps hb hx
    | false =>
      have noBreak := stops_break_spelling steady.1 hb '\n' hy
      simp at noBreak

end Literate.Token
