import Literate.Proofs.Content
import Literate.Proofs.Spelling

namespace Literate.Grammar

open Segment (atomsOf Normal)

/-- Nothing, or one text that is blank. -/
inductive Gap : List Placed → Prop where
  | none : Gap []
  | blank {t : Text} {loc : Location} : t.trim = [] → Gap [⟨.text t, loc⟩]

/-- A key with its value, which is empty if it is left out. -/
inductive Pair : List Placed → Text × Text → Prop where
  | bare {key : Text} {l₁ l₂ : Location} : key.trim ≠ [] →
      Pair [⟨.text key, l₁⟩, ⟨.equals, l₂⟩] (key.trim, [])
  | valued {key value : Text} {l₁ l₂ l₃ : Location} : key.trim ≠ [] →
      Pair [⟨.text key, l₁⟩, ⟨.equals, l₂⟩, ⟨.text value, l₃⟩] (key.trim, value.trim)

inductive Pairs : List Placed → List (Text × Text) → Prop where
  | last {ts : List Placed} {e : Text × Text} : Pair ts e → Pairs ts [e]
  | more {ts us : List Placed} {e : Text × Text} {es : List (Text × Text)} {loc : Location} :
      Pair ts e → Pairs us es → Pairs (ts ++ ⟨.comma, loc⟩ :: us) (e :: es)

/-- The option list of a header, which may be missing. -/
inductive OptionList : List Placed → Options → Prop where
  | absent : OptionList [] {}
  | empty {l₁ l₂ : Location} : OptionList [⟨.leftBracket, l₁⟩, ⟨.rightBracket, l₂⟩] {}
  | items {ts : List Placed} {es : List (Text × Text)} {l₁ l₂ : Location} : Pairs ts es →
      OptionList (⟨.leftBracket, l₁⟩ :: (ts ++ [⟨.rightBracket, l₂⟩])) (.ofList es)

/-- One line break off the front. The rest of its run stays, one line further on. -/
inductive LineBreak : List Placed → List Placed → Prop where
  | single {rest : List Placed} {loc : Location} : LineBreak (⟨.breaks 1, loc⟩ :: rest) rest
  | run {n : Nat} {rest : List Placed} {loc : Location} : 0 < n →
      LineBreak (⟨.breaks (n + 1), loc⟩ :: rest) (⟨.breaks n, loc.step '\n'⟩ :: rest)

/-- A line break, or the end of input in its place. -/
inductive LineEnd : List Placed → List Placed → Prop where
  | lineBreak {ts rest : List Placed} : LineBreak ts rest → LineEnd ts rest
  | finish : LineEnd [] []

/-- Tokens without a directive, and the characters and references they stand for. -/
inductive Body : List Placed → List Atom → Prop where
  | nil : Body [] []
  | literal {token : Token} {loc : Location} {t : Text} {ts : List Placed} {as : List Atom} :
      token.literal? = some t → Body ts as → Body (⟨token, loc⟩ :: ts) (t.map .char ++ as)
  | reference {indent name : Text} {loc : Location} {ts : List Placed} {as : List Atom} :
      name.trim ≠ [] → Body ts as →
        Body (⟨.reference indent name, loc⟩ :: ts) (.reference name.trim indent loc :: as)

/-- What a body means as content: its parts in normal form, less the line break in front of the
closing. -/
def Contents (as : List Atom) (gs : List Segment) : Prop :=
  Normal gs ∧ (as = [] ∧ gs = [] ∨ as = atomsOf gs ++ [.char '\n'])

/-- A chunk at the front of the tokens, and the tokens behind it. The closing stands directly behind
a line break: that of the header, or the end of the body. -/
inductive Named : List Placed → Chunk → List Placed → Prop where
  | mk {kind : ChunkKind} {t : Text} {options : Options} {as : List Atom} {content : List Segment}
      {list gap line body gap' foot rest : List Placed} {loc l₁ l₂ : Location} :
      t.head?.any Text.isBlank = true → t.trim ≠ [] → OptionList list options → Gap gap →
      LineBreak line (body ++ ⟨.closing, l₂⟩ :: (gap' ++ foot)) → Body body as →
      body.getLast?.all (·.token.isBreak) = true → Gap gap' → LineEnd foot rest →
      Contents as content →
      Named (⟨.opening kind, loc⟩ :: ⟨.text t, l₁⟩ :: (list ++ (gap ++ line)))
        { kind, name := t.trim, options, content, loc } rest

/-- A token outside of chunks. -/
inductive Loose : Placed → Chunk → Prop where
  | literal {token : Token} {loc : Location} {t : Text} : token.literal? = some t →
      Loose ⟨token, loc⟩ (.wrapper (.text t) loc)
  | reference {indent name : Text} {loc : Location} : name.trim ≠ [] →
      Loose ⟨.reference indent name, loc⟩ (.wrapper (.reference name.trim indent loc) loc)

/-- Whole documents:

    document := (chunk | loose)*
    chunk    := opening name options? gap BREAK body closing gap (BREAK | end of input)
    options  := '[' ']' | '[' pair (',' pair)* ']'
    pair     := key '=' value?

The flag says whether a line starts here: at the beginning and directly behind a line break. -/
inductive Derives : Bool → List Placed → List Chunk → Prop where
  | nil {lineStart : Bool} : Derives lineStart [] []
  | loose {lineStart : Bool} {p : Placed} {ts : List Placed} {c : Chunk} {cs : List Chunk} :
      Loose p c → Derives p.token.isBreak ts cs → Derives lineStart (p :: ts) (c :: cs)
  | chunk {ts rest : List Placed} {c : Chunk} {cs : List Chunk} :
      Named ts c rest → Derives true rest cs → Derives true ts (c :: cs)

/-- Behind a line break stand the tokens that stood there, and perhaps the rest of the run. -/
theorem mem_of_lineBreak {ts rest : List Placed} {p : Placed} (h : LineBreak ts rest)
    (hp : p ∈ rest) : p ∈ ts ∨ ∃ n loc, 0 < n ∧ p = ⟨.breaks n, loc⟩ := by
  cases h with
  | single => exact Or.inl (List.mem_cons_of_mem _ hp)
  | run hn =>
    rcases List.mem_cons.1 hp with rfl | hp
    · exact Or.inr ⟨_, _, hn, rfl⟩
    · exact Or.inl (List.mem_cons_of_mem _ hp)

theorem mem_of_lineEnd {ts rest : List Placed} {p : Placed} (h : LineEnd ts rest) (hp : p ∈ rest) :
    p ∈ ts ∨ ∃ n loc, 0 < n ∧ p = ⟨.breaks n, loc⟩ := by
  cases h with
  | lineBreak hl => exact mem_of_lineBreak hl hp
  | finish => exact Or.inl hp

/-- A token behind a chunk stood there before, or is the rest of a run of line breaks. -/
theorem mem_of_named {ts rest : List Placed} {c : Chunk} {p : Placed} (h : Named ts c rest)
    (hp : p ∈ rest) : p ∈ ts ∨ ∃ n loc, 0 < n ∧ p = ⟨.breaks n, loc⟩ := by
  cases h with
  | @mk kind t options as content list gap line body gap' foot rest loc l₁ l₂
      _ _ _ _ hl _ _ _ he _ =>
    rcases mem_of_lineEnd he hp with hp | run
    · have inside : p ∈ body ++ ⟨.closing, l₂⟩ :: (gap' ++ foot) := by simp [hp]
      rcases mem_of_lineBreak hl inside with hp | run
      · exact Or.inl (by simp [hp])
      · exact Or.inr run
    · exact Or.inr run

end Literate.Grammar
