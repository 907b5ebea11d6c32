import Mathlib.Data.List.Forall2
import Literate.Proofs.Indents
import Literate.Proofs.Stray

namespace Literate

namespace Location

/-- The place comes first: in an earlier line, or in the same line further to the left. -/
def Before (l m : Location) : Prop := l.line < m.line ∨ l.line = m.line ∧ l.column < m.column

instance (l m : Location) : Decidable (l.Before m) :=
  inferInstanceAs (Decidable (l.line < m.line ∨ l.line = m.line ∧ l.column < m.column))

theorem Before.trans {l m n : Location} (h : l.Before m) (h' : m.Before n) : l.Before n := by
  unfold Before at *
  omega

theorem before_step (l : Location) (c : Char) : l.Before (l.step c) := by
  unfold Before step
  split
  · exact Or.inl (Nat.lt_succ_self _)
  · exact Or.inr ⟨rfl, Nat.lt_succ_self _⟩

theorem before_advance (l : Location) {t : Text} (nonempty : t ≠ []) : l.Before (l.advance t) := by
  induction t generalizing l with
  | nil => exact absurd rfl nonempty
  | cons c t ih =>
    have first := before_step l c
    by_cases last : t = []
    · rw [last]
      exact first
    · exact first.trans (ih (l.step c) last)

/-- The place where a word stands in the text of a source. It is reached from the beginning over
what stands in front of the word. -/
structure Points (path : Option Text) (t : Text) (l : Location) (word : Text) : Prop where
  path_eq : l.path = path
  reached : ∃ front rest, t = front ++ (word ++ rest) ∧ l = (start path).advance front

theorem points_advance (path : Option Text) (front word rest : Text) :
    Points path (front ++ (word ++ rest)) ((start path).advance front) word :=
  ⟨((start path).line_advance front).2, front, rest, rfl, rfl⟩

end Location

/-- The tokens stand in a text that begins at the given place, in order and each at its own place.
Between them there may be anything. -/
inductive Spread : Location → Text → List Placed → Prop where
  | nil {loc : Location} {t : Text} : Spread loc t []
  | cons {loc : Location} {gap rest : Text} {p : Placed} {ps : List Placed} :
      p.loc = loc.advance gap → Spread (loc.advance (gap ++ p.token.spell)) rest ps →
        Spread loc (gap ++ (p.token.spell ++ rest)) (p :: ps)

namespace Spread

variable {loc : Location} {t : Text} {p : Placed} {ps qs : List Placed}

theorem first {token : Token} (h : Spread (loc.advance token.spell) t ps) :
    Spread loc (token.spell ++ t) (⟨token, loc⟩ :: ps) :=
  @cons loc [] t ⟨token, loc⟩ ps rfl h

theorem behind {gap : Text} (h : Spread (loc.advance gap) t ps) : Spread loc (gap ++ t) ps := by
  generalize start : loc.advance gap = l at h
  cases h with
  | nil => exact .nil
  | @cons _ gap' rest p ps place later =>
    rw [← start, ← Location.advance_append] at place later
    rw [← List.append_assoc] at later ⊢
    exact .cons place later

theorem tail (h : Spread loc t (p :: ps)) : Spread loc t ps := by
  cases h with
  | cons place later =>
    have whole := later.behind
    rwa [List.append_assoc] at whole

/-- Tokens may be left out. -/
theorem sublist (h : Spread loc t ps) (sub : qs.Sublist ps) : Spread loc t qs := by
  induction sub generalizing loc t with
  | slnil => exact .nil
  | cons p _ ih => exact ih h.tail
  | cons_cons p _ ih =>
    cases h with
    | cons place later => exact .cons place (ih later)

theorem of_mem (h : Spread loc t ps) (hp : p ∈ ps) :
    ∃ front rest, t = front ++ (p.token.spell ++ rest) ∧ p.loc = loc.advance front := by
  have alone := h.sublist (List.singleton_sublist.2 hp)
  cases alone with
  | @cons _ gap rest _ _ place _ => exact ⟨gap, rest, rfl, place⟩

theorem points {path : Option Text} (h : Spread (.start path) t ps) (hp : p ∈ ps) :
    p.loc.Points path t p.token.spell := by
  obtain ⟨front, rest, rfl, place⟩ := h.of_mem hp
  rw [place]
  exact Location.points_advance path front p.token.spell rest

/-- Each token is placed before those behind it. -/
theorem pairwise (h : Spread loc t ps) (solid : Read.Solid ps) :
    ps.Pairwise fun p q => p.loc.Before q.loc := by
  induction h with
  | nil => exact .nil
  | @cons loc gap rest p ps place later ih =>
    refine List.pairwise_cons.2 ⟨?_, ih solid.tail⟩
    intro q hq
    obtain ⟨front, _, _, place'⟩ := later.of_mem hq
    have nonempty : p.token.spell ≠ [] := solid p List.mem_cons_self
    rw [place', Location.advance_append, ← place, ← Location.advance_append]
    apply Location.before_advance
    exact List.append_ne_nil_of_left_ne_nil nonempty front

theorem lineBreak (h : Spread loc t ps) (hl : Grammar.LineBreak ps qs) : Spread loc t qs := by
  cases hl with
  | single => exact h.tail
  | @run n rest l hn =>
    cases h with
    | @cons _ gap behind _ _ place later =>
      -- The break that is taken becomes part of what stands in front of the rest of its run.
      have parted : (Token.breaks (n + 1)).spell = ['\n'] ++ (Token.breaks n).spell := by
        simp [Token.spell, List.replicate_succ]
      have place' : l.step '\n' = loc.advance (gap ++ ['\n']) := by
        rw [Location.advance_append, ← place]
        rfl
      rw [parted, ← List.append_assoc] at later
      rw [parted, List.append_assoc ['\n'], ← List.append_assoc gap]
      exact @cons loc (gap ++ ['\n']) behind ⟨.breaks n, l.step '\n'⟩ rest place' later

theorem lineEnd (h : Spread loc t ps) (he : Grammar.LineEnd ps qs) : Spread loc t qs := by
  cases he with
  | lineBreak hl => exact h.lineBreak hl
  | finish => exact .nil

end Spread

namespace Token

open Lexeme

/-- A token is spelled at the front of its text. Blanks that it takes along stand in front of the
rest. -/
theorem exists_blanks_of_reads {t rest : Text} {token : Token} (h : Reads t token rest) :
    ∃ blanks, t = token.spell ++ (blanks ++ rest) := by
  cases h with
  | sign => exact ⟨[], rfl⟩
  | @reference indent name tail =>
    refine ⟨lineEndBlanks tail, ?_⟩
    rw [lineEndBlanks_append]
    simp [spell]
  | text => exact ⟨[], rfl⟩
  | breaks => exact ⟨[], rfl⟩

/-- The parts of a token that is placed stand where the token stands. -/
theorem spread_place {loc : Location} {t : Text} {later : List Placed} (lineStart : Bool)
    (token : Token) (h : Spread (loc.advance token.spell) t later) :
    Spread loc (token.spell ++ t) (place lineStart loc token ++ later) := by
  cases token with
  | reference indent name =>
    by_cases whole : (indent.isEmpty || lineStart) = true
    · simp only [place, if_pos whole]
      exact h.first
    · simp only [place, if_neg whole]
      have parted : (reference indent name).spell =
          (text indent).spell ++ (reference [] name).spell := by
        simp [spell]
      rw [parted, Location.advance_append] at h
      rw [parted, List.append_assoc]
      exact h.first.first
  | _ => exact h.first

/-- The tokens of a text stand in it. -/
theorem spread_of_scanFrom {loc : Location} {lineStart : Bool} {t : Text} {ps : List Placed}
    (h : scanFrom loc lineStart t = .ok ps) : Spread loc t ps := by
  fun_induction scanFrom loc lineStart t generalizing ps with
  | case1 =>
    obtain rfl := Except.ok.inj h
    exact .nil
  | case2 => simp at h
  | case3 => simp at h
  | case4 loc lineStart t nonempty x hx later hl ih =>
    obtain rfl := Except.ok.inj h
    obtain ⟨blanks, split⟩ := exists_blanks_of_reads (reads_of_first? hx)
    have source : x.source = x.token.spell ++ blanks := by
      have whole := (first?_source hx).1
      rw [split, ← List.append_assoc] at whole
      exact List.append_cancel_right whole
    have spread := ih hl
    rw [source, Location.advance_append] at spread
    rw [split]
    exact spread_place lineStart x.token spread.behind

end Token

namespace Grammar

open Read (Solid)

/-- A token of the list, or what is left of a run of line breaks of it. -/
def Part (ts : List Placed) (p : Placed) : Prop :=
  p ∈ ts ∨ ∃ m n l, 0 < n ∧ ⟨.breaks (m + n), l⟩ ∈ ts ∧
    p = ⟨.breaks n, l.advance (List.replicate m '\n')⟩

theorem Part.mono {ts us : List Placed} {p : Placed} (h : Part us p) (sub : ∀ q ∈ us, Part ts q) :
    Part ts p := by
  rcases h with hp | ⟨m, n, l, some, run, rfl⟩
  · exact sub p hp
  · rcases sub _ run with found | ⟨m', n', l', _, run', same⟩
    · exact Or.inr ⟨m, n, l, some, found, rfl⟩
    · obtain ⟨counts, rfl⟩ := Placed.mk.inj same
      obtain rfl : m + n = n' := Token.breaks.inj counts
      refine Or.inr ⟨m' + m, n, l', some, by rwa [Nat.add_assoc], ?_⟩
      rw [← Location.advance_append, List.replicate_append_replicate]

theorem part_of_lineBreak {ts rest : List Placed} {p : Placed} (h : LineBreak ts rest)
    (hp : p ∈ rest) : Part ts p := by
  cases h with
  | single => exact Or.inl (List.mem_cons_of_mem _ hp)
  | @run n rest l hn =>
    rcases List.mem_cons.1 hp with rfl | hp
    · refine Or.inr ⟨1, n, l, hn, ?_, rfl⟩
      rw [Nat.add_comm]
      exact List.mem_cons_self
    · exact Or.inl (List.mem_cons_of_mem _ hp)

theorem part_of_lineEnd {ts rest : List Placed} {p : Placed} (h : LineEnd ts rest)
    (hp : p ∈ rest) : Part ts p := by
  cases h with
  | lineBreak hl => exact part_of_lineBreak hl hp
  | finish => exact Or.inl hp

/-- What a chunk leaves of the tokens behind its directive. -/
theorem rest_of_named {ts rest : List Placed} {c : Chunk} (h : Named ts c rest) :
    ∃ tail, ts = ⟨.opening c.kind, c.loc⟩ :: tail ∧ c.isAnonymous = false ∧
      (∀ p ∈ rest, Part tail p) ∧ ∀ loc t, Spread loc t tail → Spread loc t rest := by
  cases h with
  | @mk kind u options as content list gap line body gap' foot rest loc l₁ l₂
      _ nonempty _ _ hl _ _ _ he _ =>
    have inLine : line.Sublist (⟨.text u, l₁⟩ :: (list ++ (gap ++ line))) :=
      ((List.sublist_append_right gap line).trans (List.sublist_append_right list _)).cons _
    have inBody : foot.Sublist (body ++ ⟨.closing, l₂⟩ :: (gap' ++ foot)) :=
      ((List.sublist_append_right gap' foot).cons _).trans (List.sublist_append_right body _)
    refine ⟨_, rfl, by simpa [Chunk.isAnonymous] using nonempty, ?_, ?_⟩
    · intro p hp
      apply (part_of_lineEnd he hp).mono
      intro q hq
      apply Part.mono (part_of_lineBreak hl (inBody.subset hq))
      exact fun r hr => Or.inl (inLine.subset hr)
    · intro loc t spread
      exact (((spread.sublist inLine).lineBreak hl).sublist inBody).lineEnd he

/-- The token with which a chunk begins: its directive, or the one that it wraps. -/
inductive Leads : Placed → Chunk → Prop where
  | named {c : Chunk} : c.isAnonymous = false → Leads ⟨.opening c.kind, c.loc⟩ c
  | loose {p : Placed} {c : Chunk} : Loose p c → Leads p c

theorem Leads.loc_eq {p : Placed} {c : Chunk} (h : Leads p c) : c.loc = p.loc := by
  cases h with
  | named => rfl
  | loose hl => cases hl <;> rfl

theorem exists_lead_of_mem {ps : List Placed} {cs : List Chunk} {c : Chunk}
    (h : List.Forall₂ Leads ps cs) (hc : c ∈ cs) : ∃ p ∈ ps, Leads p c := by
  induction h with
  | nil => simp at hc
  | @cons p c' ps cs lead _ ih =>
    rcases List.mem_cons.1 hc with rfl | hc
    · exact ⟨p, List.mem_cons_self, lead⟩
    · obtain ⟨q, hq, lead'⟩ := ih hc
      exact ⟨q, List.mem_cons_of_mem p hq, lead'⟩

theorem pairwise_of_leads {ps : List Placed} {cs : List Chunk} (h : List.Forall₂ Leads ps cs)
    (ordered : ps.Pairwise fun p q => p.loc.Before q.loc) :
    cs.Pairwise fun c c' => c.loc.Before c'.loc := by
  induction h with
  | nil => exact .nil
  | @cons p c ps cs lead leads ih =>
    obtain ⟨first, later⟩ := List.pairwise_cons.1 ordered
    refine List.pairwise_cons.2 ⟨?_, ih later⟩
    intro c' hc'
    obtain ⟨q, hq, lead'⟩ := exists_lead_of_mem leads hc'
    rw [lead.loc_eq, lead'.loc_eq]
    exact first q hq

/-- The tokens with which the chunks of a document begin stand in its text. -/
theorem exists_leads_of_derives {lineStart : Bool} {ts : List Placed} {cs : List Chunk}
    {loc : Location} {t : Text} (h : Derives lineStart ts cs) (solid : Solid ts)
    (spread : Spread loc t ts) :
    ∃ ps, Spread loc t ps ∧ Solid ps ∧ (∀ p ∈ ps, Part ts p) ∧ List.Forall₂ Leads ps cs := by
  induction h generalizing loc t with
  | nil => exact ⟨[], .nil, by simp [Solid], by simp, .nil⟩
  | @loose lineStart p ts c cs hl _ ih =>
    cases spread with
    | cons place later =>
      obtain ⟨ps, spread', solid', parts, leads⟩ := ih solid.tail later
      refine ⟨p :: ps, .cons place spread', ?_, ?_, .cons (.loose hl) leads⟩
      · exact List.forall_mem_cons.2 ⟨solid p List.mem_cons_self, solid'⟩
      · refine List.forall_mem_cons.2 ⟨Or.inl List.mem_cons_self, ?_⟩
        exact fun q hq => (parts q hq).mono fun r hr => Or.inl (List.mem_cons_of_mem p hr)
  | @chunk ts rest c cs named _ ih =>
    have solidRest := solid.named named
    obtain ⟨tail, rfl, proper, left, keep⟩ := rest_of_named named
    cases spread with
    | cons place later =>
      obtain ⟨ps, spread', solid', parts, leads⟩ := ih solidRest (keep _ _ later)
      refine ⟨_ :: ps, .cons place spread', ?_, ?_, .cons (.named proper) leads⟩
      · exact List.forall_mem_cons.2 ⟨solid _ List.mem_cons_self, solid'⟩
      · refine List.forall_mem_cons.2 ⟨Or.inl List.mem_cons_self, ?_⟩
        intro q hq
        apply Part.mono (parts q hq)
        intro r hr
        exact (left r hr).mono fun u hu => Or.inl (List.mem_cons_of_mem _ hu)

end Grammar

namespace Read

open Grammar

variable {good : Location → Prop} {finish directive : Location} {ts us : List Placed}
  {e : SyntaxFault}

/-- Every place within a token of the list is good. -/
def Covered (good : Location → Prop) (ts : List Placed) : Prop :=
  ∀ p ∈ ts, ∀ t, t <+: p.token.spell → good (p.loc.advance t)

namespace Covered

theorem here {p : Placed} (h : Covered good (p :: ts)) : good p.loc :=
  h p List.mem_cons_self [] List.nil_prefix

theorem mono (h : Covered good ts) (sub : ∀ p ∈ us, p ∈ ts) : Covered good us :=
  fun p hp => h p (sub p hp)

theorem tail {p : Placed} (h : Covered good (p :: ts)) : Covered good ts :=
  h.mono fun _ hq => List.mem_cons_of_mem _ hq

theorem right (h : Covered good (us ++ ts)) : Covered good ts :=
  h.mono fun _ hq => List.mem_append_right _ hq

theorem part {p : Placed} (h : Covered good ts) (hp : Part ts p) : Covered good [p] := by
  intro q hq
  obtain rfl := List.mem_singleton.1 hq
  rcases hp with hp | ⟨m, n, l, _, run, rfl⟩
  · exact h q hp
  · intro t ht
    rw [← Location.advance_append]
    apply h _ run
    obtain ⟨more, whole⟩ := ht
    refine ⟨more, ?_⟩
    rw [List.append_assoc, whole]
    exact List.replicate_append_replicate

theorem parts (h : Covered good ts) (sub : ∀ p ∈ us, Part ts p) : Covered good us :=
  fun p hp => h.part (sub p hp) p List.mem_cons_self

end Covered

theorem expected_place (hf : good finish) (h : Covered good ts) (what : Expectation) :
    good (expected finish what ts).loc := by
  cases ts with
  | nil => exact hf
  | cons p ts => exact h.here

theorem name_place (hd : good directive) (h : Covered good ts) (he : name directive ts = .error e) :
    good e.loc := by
  unfold name at he
  split at he
  · split at he
    · simp at he
    · obtain rfl := Except.error.inj he
      exact h.here
  · obtain rfl := Except.error.inj he
    exact expected_place hd h _

theorem mem_of_mem_value {p : Placed} (h : p ∈ (value ts).2) : p ∈ ts := by
  unfold value at h
  split at h
  · exact List.mem_cons_of_mem _ h
  · exact h

theorem items_place {options : Options} (hf : good finish) (h : Covered good ts)
    (he : items finish options ts = .error e) : good e.loc := by
  fun_induction items finish options ts with
  | case1 =>
    obtain rfl := Except.error.inj he
    exact h.here
  | case2 options t l₁ nonempty l₂ tail options' l₃ rest hv ih =>
    apply ih _ he
    apply (h.tail.tail).mono
    intro p hp
    apply mem_of_mem_value
    rw [hv]
    exact List.mem_cons_of_mem _ hp
  | case3 => simp at he
  | case4 options t l₁ nonempty l₂ tail options' =>
    obtain rfl := Except.error.inj he
    exact expected_place hf (h.tail.tail.mono fun _ => mem_of_mem_value) _
  | case5 =>
    obtain rfl := Except.error.inj he
    exact expected_place hf h.tail _
  | case6 =>
    obtain rfl := Except.error.inj he
    exact expected_place hf h _

theorem options_place (hf : good finish) (h : Covered good ts) (he : options finish ts = .error e) :
    good e.loc := by
  unfold options at he
  split at he
  · simp at he
  · exact items_place hf h.tail he
  · simp at he

theorem lineEnd_place {chunk : Text} {frame : Frame} (hf : good finish) (h : Covered good ts)
    (he : lineEnd finish chunk frame ts = .error e) : good e.loc := by
  unfold lineEnd at he
  split at he
  · obtain rfl := Except.error.inj he
    exact hf
  · simp at he
  · simp at he
  · obtain rfl := Except.error.inj he
    exact h.here

theorem covered_skipBlankText (h : Covered good ts) : Covered good (skipBlankText ts) := by
  obtain ⟨gap, split, _⟩ := skipBlankText_gap ts
  rw [split] at h
  exact h.right

theorem header_place (hf : good finish) (hd : good directive) (h : Covered good ts)
    (he : header finish directive ts = .error e) : good e.loc := by
  unfold header at he
  rcases bind_error_iff.1 he with hn | ⟨⟨n, afterName⟩, hn, he'⟩
  · exact name_place hd h hn
  · obtain ⟨t, l, rfl, _⟩ := name_ok_iff.1 hn
    rcases bind_error_iff.1 he' with ho | ⟨⟨o, afterOptions⟩, ho, hl⟩
    · exact options_place hf h.tail ho
    · obtain ⟨list, rfl, _⟩ := options_of_ok ho
      rcases bind_error_iff.1 hl with hl | ⟨rest, _, hp⟩
      · exact lineEnd_place hf (covered_skipBlankText h.tail.right) hl
      · simp [pure, Except.pure] at hp

theorem covered_of_header {x : Header} {rest : List Placed} (solid : Solid ts) (h : Covered good ts)
    (hh : header finish directive ts = .ok (x, rest)) : Covered good rest ∧ Solid rest := by
  obtain ⟨afterName, afterOptions, hn, ho, hl⟩ := header_ok_iff.1 hh
  obtain ⟨t, l, rfl, _⟩ := name_ok_iff.1 hn
  obtain ⟨list, rfl, _⟩ := options_of_ok ho
  obtain ⟨gap, split, _⟩ := skipBlankText_gap afterOptions
  have solid' : Solid (skipBlankText afterOptions) := (split ▸ solid.tail.right).right
  have line := lineBreak_of_ok solid' hl
  have covered := covered_skipBlankText h.tail.right
  exact ⟨covered.parts fun p hp => part_of_lineBreak line hp, solid'.lineBreak line⟩

theorem reference_place {indent name : Text} {loc : Location} (hl : good loc)
    (he : reference indent name loc = .error e) : good e.loc := by
  unfold reference at he
  split at he
  · obtain rfl := Except.error.inj he
    exact hl
  · simp at he

theorem footer_place {chunk : Text} (hf : good finish) (h : Covered good ts)
    (he : footer finish chunk ts = .error e) : good e.loc := by
  unfold footer at he
  split at he
  · simp at he
  · exact lineEnd_place hf (covered_skipBlankText h) he

theorem body_place {chunk : Text} {lineStart : Bool} (hf : good finish) (hd : good directive)
    (h : Covered good ts) (he : body finish directive chunk lineStart ts = .error e) :
    good e.loc := by
  fun_induction body finish directive chunk lineStart ts with
  | case1 =>
    obtain rfl := Except.error.inj he
    exact hd
  | case2 loc tail f hfoot =>
    obtain rfl := Except.error.inj he
    exact footer_place hf h.tail hfoot
  | case3 => simp at he
  | case4 =>
    obtain rfl := Except.error.inj he
    exact h.here
  | case5 =>
    obtain rfl := Except.error.inj he
    exact h.here
  | case6 lineStart indent name loc tail f hr =>
    obtain rfl := Except.error.inj he
    exact reference_place h.here hr
  | case7 lineStart indent name loc tail g hr f hb ih =>
    obtain rfl := Except.error.inj he
    exact ih h.tail hb
  | case8 => simp at he
  | case9 lineStart token loc tail h₁ h₂ h₃ f hb ih =>
    obtain rfl := Except.error.inj he
    exact ih h.tail hb
  | case10 => simp at he

theorem chunk_place {kind : ChunkKind} (hf : good finish) (hd : good directive) (solid : Solid ts)
    (h : Covered good ts) (he : chunk finish kind directive ts = .error e) : good e.loc := by
  unfold chunk at he
  rcases bind_error_iff.1 he with he | ⟨⟨x, afterHeader⟩, hh, he⟩
  · exact header_place hf hd h he
  · rcases bind_error_iff.1 he with he | ⟨⟨gs, rest⟩, _, he⟩
    · exact body_place hf hd (covered_of_header solid h hh).1 he
    · simp [pure, Except.pure] at he

/-- A fault of the reader is at the end of the source or at a place within one of its tokens. -/
theorem chunks_place {lineStart : Bool} (hf : good finish) (solid : Solid ts) (h : Covered good ts)
    (he : (chunks finish lineStart ts).outcome = .error (.source e)) : good e.loc := by
  fun_induction chunks finish lineStart ts with
  | case1 => simp at he
  | case2 kind loc tail f hc =>
    obtain rfl : f = e := by simpa using he
    exact chunk_place hf h.here solid.tail h.tail hc
  | case3 kind loc tail c rest hc ih =>
    simp only [Traced.outcome_bind, Traced.outcome_report, Traced.outcome_pure,
      bind_error_iff] at he
    have named := named_of_ok solid.tail hc
    obtain ⟨_, same, _, left, _⟩ := rest_of_named named
    obtain ⟨_, rfl⟩ := List.cons.inj same
    exact ih (solid.named named) (h.tail.parts left) (by simpa using he)
  | case4 =>
    obtain rfl := Fault.source.inj (Except.error.inj he)
    exact h.here
  | case5 =>
    obtain rfl := Fault.source.inj (Except.error.inj he)
    exact h.here
  | case6 lineStart indent name loc tail f hr =>
    obtain rfl : f = e := by simpa using he
    exact reference_place h.here hr
  | case7 lineStart indent name loc tail g hr ih =>
    simp only [Traced.outcome_bind, Traced.outcome_pure, bind_error_iff] at he
    exact ih solid.tail h.tail (by simpa using he)
  | case8 lineStart token loc tail h₁ h₂ h₃ ih =>
    simp only [Traced.outcome_bind, Traced.outcome_pure, bind_error_iff] at he
    exact ih solid.tail h.tail (by simpa using he)

end Read

namespace Document

open Grammar

theorem covered_of_spread {path : Option Text} {t : Text} {ts : List Placed}
    (h : Spread (.start path) t ts) : Read.Covered (fun l => l.Points path t []) ts := by
  intro p hp u hu
  obtain ⟨front, rest, rfl, place⟩ := h.of_mem hp
  obtain ⟨more, whole⟩ := hu
  rw [place, ← Location.advance_append, ← whole, List.append_assoc, ← List.append_assoc front]
  exact Location.points_advance path (front ++ u) [] (more ++ rest)

/-- A fault of the scanner is at a sign, and one of the reader is somewhere in the source. -/
theorem fault_place {path : Option Text} {source : Text} {f : Fault}
    (h : (read path source).outcome = .error f) :
    ∃ e, f = .source e ∧ e.loc.Points path source.unifyBreaks [] ∧
      ((∃ f', (Token.scan path source.unifyBreaks).outcome = .error f') →
        e.loc.Points path source.unifyBreaks ['@']) := by
  rw [Token.scan_outcome]
  rw [read_outcome_eq] at h
  cases scan : Token.scanFrom (.start path) true source.unifyBreaks with
  | error e =>
    rw [scan] at h
    obtain ⟨u, v, split, _, _, rfl⟩ := Token.exists_stray_of_error scan
    refine ⟨_, (Except.error.inj h).symm, ?_⟩
    rw [split]
    exact ⟨Location.points_advance path u [] _, fun _ => Location.points_advance path u ['@'] v⟩
  | ok ts =>
    rw [scan] at h
    change (Read.chunks _ true ts).outcome >>= _ = _ at h
    have spread := Token.spread_of_scanFrom scan
    have solid := Read.solid_of_settled (Token.settled_of_scans (Token.scans_of_scanFrom scan))
    have atEnd := Location.points_advance path source.unifyBreaks [] []
    simp only [List.append_nil] at atEnd
    rcases Read.bind_error_iff.1 h with h | ⟨cs, _, h⟩
    · obtain ⟨e, rfl⟩ := Read.chunks_fault h
      refine ⟨e, rfl, Read.chunks_place atEnd solid (covered_of_spread spread) h, ?_⟩
      rintro ⟨f', impossible⟩
      simp [Except.mapError] at impossible
    · simp at h

/-- Every place that reading a source names is a place of the source, with its path. A chunk is
where its directive stands, or the token that it wraps, which may be the rest of a run of line
breaks. A reference is where its indent begins. Each chunk comes before those that follow it. A
fault is somewhere in the source, and one of the scanner is where a sign stands. -/
theorem read_places (path : Option Text) (source : Text) :
    (∀ d, (read path source).outcome = .ok d →
      (∀ c ∈ d.chunks, c.isAnonymous = false →
        c.loc.Points path source.unifyBreaks (Token.opening c.kind).spell) ∧
      (∀ c ∈ d.chunks, c.isAnonymous = true →
        ∃ ts token, (Token.scan path source.unifyBreaks).outcome = .ok ts ∧
          Part ts ⟨token, c.loc⟩ ∧ Loose ⟨token, c.loc⟩ c ∧
          c.loc.Points path source.unifyBreaks token.spell) ∧
      (∀ c ∈ d.chunks, ∀ name indent loc, .reference name indent loc ∈ c.content →
        loc.Points path source.unifyBreaks (indent ++ ['@', '<'])) ∧
      d.chunks.Pairwise fun c c' => c.loc.Before c'.loc) ∧
    ∀ f, (read path source).outcome = .error f →
      ∃ e, f = .source e ∧ e.loc.Points path source.unifyBreaks [] ∧
        ((∃ f', (Token.scan path source.unifyBreaks).outcome = .error f') →
          e.loc.Points path source.unifyBreaks ['@']) := by
  refine ⟨?_, fun f => fault_place⟩
  intro d hd
  obtain ⟨ts, scan, derives⟩ := exists_derives_of_read hd
  have spread := Token.spread_of_scanFrom (scanFrom_of_scan scan)
  obtain ⟨ps, spread', solid', parts, leads⟩ :=
    exists_leads_of_derives derives (solid_of_scan scan) spread
  refine ⟨?_, ?_, ?_, ?_⟩
  · intro c hc proper
    obtain ⟨p, hp, lead⟩ := exists_lead_of_mem leads hc
    cases lead with
    | named _ => exact spread'.points hp
    | loose hl => cases hl <;> simp [Chunk.wrapper, Chunk.isAnonymous] at proper
  · intro c hc wrapped
    obtain ⟨p, hp, lead⟩ := exists_lead_of_mem leads hc
    have place := lead.loc_eq
    cases lead with
    | named proper => simp [proper] at wrapped
    | loose hl =>
      refine ⟨ts, p.token, scan, ?_, ?_, ?_⟩
      · rw [place]
        exact parts p hp
      · rw [place]
        exact hl
      · rw [place]
        exact spread'.points hp
  · intro c hc name indent loc hr
    obtain ⟨raw, _, found⟩ := exists_token_of_derives derives hc hr
    obtain ⟨pathEq, front, rest, split, place⟩ := spread.points found
    refine ⟨pathEq, front, raw ++ '>' :: rest, ?_, place⟩
    rw [split]
    simp [Token.spell]
  · exact pairwise_of_leads leads (spread'.pairwise solid')

/-- A header and a reference with an indent in lines that end in two ways, then line breaks of which
the first ends the chunk and the rest is loose. In the other source a reference is not closed. -/
theorem read_places_rest_of_run :
    let path : Option Text := some ['m']
    let source : Text := "@code a\r\n  @<b>\n@end\n\n\nx".toList
    let reference : Segment := .reference ['b'] [' ', ' '] ⟨path, 2, 1⟩
    let chunk : Chunk := ⟨.code, ['a'], {}, [reference], ⟨path, 1, 1⟩⟩
    let loose : Chunk := .wrapper (.text ['\n', '\n']) ⟨path, 4, 1⟩
    let d : Document := ⟨[chunk, loose, .wrapper (.text ['x']) ⟨path, 6, 1⟩], path⟩
    let broken : Text := "x\r\n@<b\n".toList
    (read path source).outcome = .ok d ∧
    chunk.loc.Points path source.unifyBreaks (Token.opening .code).spell ∧
    Location.Points path source.unifyBreaks ⟨path, 2, 1⟩ [' ', ' ', '@', '<'] ∧
    (∃ ts token, (Token.scan path source.unifyBreaks).outcome = .ok ts ∧
      Part ts ⟨token, loose.loc⟩ ∧ Loose ⟨token, loose.loc⟩ loose ∧
      loose.loc.Points path source.unifyBreaks token.spell) ∧
    d.chunks.Pairwise (fun c c' => c.loc.Before c'.loc) ∧
    (read path broken).outcome = .error (.source ⟨⟨path, 2, 1⟩, .malformedReference "@<b".toList⟩) ∧
    Location.Points path broken.unifyBreaks ⟨path, 2, 1⟩ ['@'] := by
  intro path source reference chunk loose d broken
  have hd : (read path source).outcome = .ok d := by
    unfold d source chunk loose reference path
    cbv
  have hf : (read path broken).outcome =
      .error (.source ⟨⟨path, 2, 1⟩, .malformedReference "@<b".toList⟩) := by
    unfold broken path
    cbv
  have hs : (Token.scan path broken.unifyBreaks).outcome =
      .error (.source ⟨⟨path, 2, 1⟩, .malformedReference "@<b".toList⟩) := by
    unfold broken path
    cbv
  obtain ⟨named, wrapped, references, ordered⟩ := (read_places path source).1 d hd
  obtain ⟨e, same, _, sign⟩ := (read_places path broken).2 _ hf
  obtain rfl := Fault.source.inj same
  refine ⟨hd, named chunk List.mem_cons_self rfl, ?_, ?_, ordered, hf, sign ⟨_, hs⟩⟩
  · exact references chunk List.mem_cons_self ['b'] [' ', ' '] ⟨path, 2, 1⟩ List.mem_cons_self
  · exact wrapped loose (List.mem_cons_of_mem _ List.mem_cons_self) rfl

end Document

end Literate
