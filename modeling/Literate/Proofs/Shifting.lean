import Literate.Proofs.Reading

namespace Literate

/-- The place as many lines further down, in the same column. -/
def Location.shift (k : Nat) (l : Location) : Location := { l with line := l.line + k }

namespace Location

theorem step_shift (k : Nat) (l : Location) (c : Char) :
    (l.shift k).step c = (l.step c).shift k := by
  by_cases h : c = '\n'
  · simp only [step, shift, if_pos h, Nat.add_right_comm l.line k 1]
  · simp only [step, shift, if_neg h]

theorem advance_shift (k : Nat) (l : Location) (t : Text) :
    (l.shift k).advance t = (l.advance t).shift k := by
  induction t generalizing l with
  | nil => rfl
  | cons c t ih =>
    show ((l.shift k).step c).advance t = ((l.step c).advance t).shift k
    rw [step_shift, ih]

theorem advance_append (l : Location) (t u : Text) : l.advance (t ++ u) = (l.advance t).advance u :=
  List.foldl_append

theorem line_advance (l : Location) (t : Text) :
    (l.advance t).line = l.line + t.count '\n' ∧ (l.advance t).path = l.path := by
  induction t generalizing l with
  | nil => exact ⟨rfl, rfl⟩
  | cons c t ih =>
    show ((l.step c).advance t).line = _ ∧ ((l.step c).advance t).path = _
    rw [(ih (l.step c)).1, (ih (l.step c)).2, List.count_cons]
    by_cases h : c = '\n'
    · simp only [step, h, beq_self_eq_true, if_true, and_true]
      omega
    · simp [step, h]

/-- Behind a line break a line starts, and it is counted by the breaks. -/
theorem advance_of_break (l : Location) {t : Text} (h : t.getLast? = some '\n') :
    l.advance t = { l with line := l.line + t.count '\n', column := 1 } := by
  obtain ⟨line, path⟩ := l.line_advance t
  obtain ⟨before, rfl⟩ := List.getLast?_eq_some_iff.1 h
  have column : (l.advance (before ++ ['\n'])).column = 1 := by
    rw [advance_append]
    rfl
  rw [← line, ← path, ← column]

end Location

def Placed.shift (k : Nat) (p : Placed) : Placed := { p with loc := p.loc.shift k }

def Segment.shift (k : Nat) : Segment → Segment
  | .text t => .text t
  | .reference name indent loc => .reference name indent (loc.shift k)

/-- The chunk with its own place and those of its references further down. -/
def Chunk.shift (k : Nat) (c : Chunk) : Chunk :=
  { c with content := c.content.map (Segment.shift k), loc := c.loc.shift k }

def SyntaxFault.shift (k : Nat) (f : SyntaxFault) : SyntaxFault := { f with loc := f.loc.shift k }

/-- The fault as many lines further down, if it is one of the source. -/
def Fault.shift (k : Nat) : Fault → Fault
  | .source f => .source (f.shift k)
  | f => f

/-- The same outcome with other places in the value and in the fault. -/
def mapBoth {ε α : Type} (g : ε → ε) (f : α → α) : Except ε α → Except ε α
  | .ok a => .ok (f a)
  | .error e => .error (g e)

theorem mapBoth_bind {ε α β : Type} {g : ε → ε} {f : α → α} {f' : β → β}
    {next next' : α → Except ε β} (h : ∀ a, next' (f a) = mapBoth g f' (next a)) (x : Except ε α) :
    mapBoth g f x >>= next' = mapBoth g f' (x >>= next) := by
  cases x with
  | error e => rfl
  | ok a => exact h a

theorem Lexeme.place_shift (k : Nat) (lineStart : Bool) (loc : Location) (token : Token) :
    place lineStart (loc.shift k) token = (place lineStart loc token).map (Placed.shift k) := by
  cases token with
  | reference indent name =>
    by_cases whole : (indent.isEmpty || lineStart) = true
    · simp only [place, if_pos whole]
      rfl
    · simp only [place, if_neg whole, Location.advance_shift]
      rfl
  | _ => rfl

theorem Token.scanFrom_shift (k : Nat) (loc : Location) (lineStart : Bool) (t : Text) :
    scanFrom (loc.shift k) lineStart t =
      mapBoth (SyntaxFault.shift k) (List.map (Placed.shift k)) (scanFrom loc lineStart t) := by
  fun_induction scanFrom loc lineStart t with
  | case1 loc lineStart t empty =>
    rw [scanFrom, if_pos empty]
    rfl
  | case2 loc lineStart t nonempty hx =>
    rw [scanFrom, if_neg nonempty]
    split
    · rfl
    · simp_all
  | case3 loc lineStart t nonempty x hx e he ih =>
    rw [scanFrom_of_first? hx, Location.advance_shift, ih, he]
    rfl
  | case4 loc lineStart t nonempty x hx later hl ih =>
    rw [scanFrom_of_first? hx, Location.advance_shift, ih, hl, Lexeme.place_shift]
    simp only [mapBoth, Except.map, List.map_append]

namespace Segment

theorem shift_consSegment (k : Nat) (g : Segment) (gs : List Segment) :
    cons (g.shift k) (gs.map (shift k)) = (cons g gs).map (shift k) := by
  cases g with
  | reference => rfl
  | text s =>
    cases gs with
    | nil => rfl
    | cons first gs => cases first <;> rfl

theorem shift_coalesce (k : Nat) (gs : List Segment) :
    coalesce (gs.map (shift k)) = (coalesce gs).map (shift k) := by
  induction gs with
  | nil => rfl
  | cons g gs ih =>
    show cons (g.shift k) (coalesce (gs.map (shift k))) = (cons g (coalesce gs)).map (shift k)
    rw [ih, shift_consSegment]

end Segment

namespace Read

theorem shift_dropFinalBreak (k : Nat) (gs : List Segment) :
    dropFinalBreak (gs.map (Segment.shift k)) = (dropFinalBreak gs).map (Segment.shift k) := by
  fun_induction dropFinalBreak gs with
  | case1 => rfl
  | case2 t last short => simp_all [dropFinalBreak, Segment.shift]
  | case3 t last long => simp_all [dropFinalBreak, Segment.shift]
  | case4 t last => simp_all [dropFinalBreak, Segment.shift]
  | case5 g rest other ih =>
    rw [List.map_cons, List.map_cons, ← ih]
    cases g with
    | reference => rfl
    | text t =>
      cases rest with
      | nil => exact absurd rfl (other t rfl)
      | cons first rest => rfl

variable (k : Nat)

theorem expected_shift (finish : Location) (what : Expectation) (ts : List Placed) :
    expected (finish.shift k) what (ts.map (Placed.shift k)) =
      (expected finish what ts).shift k := by
  cases ts <;> rfl

theorem name_shift (directive : Location) (ts : List Placed) :
    name (directive.shift k) (ts.map (Placed.shift k)) =
      mapBoth (SyntaxFault.shift k) (Prod.map id (List.map (Placed.shift k)))
        (name directive ts) := by
  cases ts with
  | nil => rfl
  | cons p ts =>
    obtain ⟨token, loc⟩ := p
    cases token with
    | text t =>
      simp only [List.map_cons, Placed.shift, name]
      split <;> rfl
    | _ => rfl

theorem value_shift (ts : List Placed) :
    value (ts.map (Placed.shift k)) = ((value ts).1, (value ts).2.map (Placed.shift k)) := by
  cases ts with
  | nil => rfl
  | cons p ts =>
    obtain ⟨token, loc⟩ := p
    cases token <;> rfl

/-- The options behind a pair, which is followed by a comma or by the bracket that ends the list. -/
def afterPair (finish : Location) (o : Options) : List Placed → Result Options
  | ⟨.comma, _⟩ :: rest => items finish o rest
  | ⟨.rightBracket, _⟩ :: rest => .ok (o, rest)
  | tokens => .error (expected finish .separator tokens)

theorem items_equals (finish l₁ l₂ : Location) (o : Options) (t : Text) (ts : List Placed) :
    items finish o (⟨.text t, l₁⟩ :: ⟨.equals, l₂⟩ :: ts) =
      if t.trim.isEmpty then .error ⟨l₁, .emptyKey⟩
      else afterPair finish (o.insert t.trim (value ts).1) (value ts).2 := by
  rw [items]
  split
  · rfl
  · generalize value ts = v
    obtain ⟨v, rest⟩ := v
    cases rest with
    | nil => rfl
    | cons p rest =>
      obtain ⟨token, loc⟩ := p
      cases token <;> rfl

theorem items_emptyKey (finish loc : Location) (o : Options) {t : Text} (h : t.trim.isEmpty = true)
    (ts : List Placed) : items finish o (⟨.text t, loc⟩ :: ts) = .error ⟨loc, .emptyKey⟩ := by
  cases ts with
  | nil => simp [items, h]
  | cons p ts =>
    obtain ⟨token, l⟩ := p
    cases token <;> simp [items, h]

theorem items_key (finish loc : Location) (o : Options) (t : Text) {ts : List Placed}
    (h : ∀ l tail, ts ≠ ⟨.equals, l⟩ :: tail) :
    items finish o (⟨.text t, loc⟩ :: ts) =
      if t.trim.isEmpty then .error ⟨loc, .emptyKey⟩
      else .error (expected finish (.equalsAfter t.trim) ts) := by
  rw [items]
  exact h

theorem items_other (finish : Location) (o : Options) {ts : List Placed}
    (h : ∀ t l tail, ts ≠ ⟨.text t, l⟩ :: tail) :
    items finish o ts = .error (expected finish .propertyKey ts) := by
  rw [items]
  exact h

theorem map_shift_ne {token : Token} {ts : List Placed} (h : ∀ l tail, ts ≠ ⟨token, l⟩ :: tail) :
    ∀ l tail, ts.map (Placed.shift k) ≠ ⟨token, l⟩ :: tail := by
  intro l tail same
  obtain ⟨p, rest, rfl, first, _⟩ := List.map_eq_cons_iff.1 same
  have token : p.token = token := congrArg Placed.token first
  exact h p.loc rest (by rw [← token])

theorem afterPair_other (finish : Location) (o : Options) {ts : List Placed}
    (comma : ∀ l tail, ts ≠ ⟨.comma, l⟩ :: tail)
    (bracket : ∀ l tail, ts ≠ ⟨.rightBracket, l⟩ :: tail) :
    afterPair finish o ts = .error (expected finish .separator ts) := by
  unfold afterPair
  split
  · exact absurd rfl (comma _ _)
  · exact absurd rfl (bracket _ _)
  · rfl

theorem items_shift (finish : Location) (o : Options) (ts : List Placed) :
    items (finish.shift k) o (ts.map (Placed.shift k)) =
      mapBoth (SyntaxFault.shift k) (Prod.map id (List.map (Placed.shift k)))
        (items finish o ts) := by
  fun_induction items finish o ts with
  | case1 o t loc tail empty =>
    rw [List.map_cons, Placed.shift, items_emptyKey _ _ _ empty]
    rfl
  | case2 o t loc nonempty loc' tail o' loc'' rest hv ih =>
    rw [List.map_cons, List.map_cons, Placed.shift, Placed.shift, items_equals, if_neg nonempty,
      value_shift, hv]
    exact ih
  | case3 o t loc nonempty loc' tail o' loc'' rest hv =>
    rw [List.map_cons, List.map_cons, Placed.shift, Placed.shift, items_equals, if_neg nonempty,
      value_shift, hv]
    rfl
  | case4 o t loc nonempty loc' tail comma bracket =>
    rw [List.map_cons, List.map_cons, Placed.shift, Placed.shift, items_equals, if_neg nonempty,
      value_shift, afterPair_other _ _ (map_shift_ne k comma) (map_shift_ne k bracket),
      expected_shift]
    rfl
  | case5 o t loc nonempty tail other =>
    rw [List.map_cons, Placed.shift, items_key _ _ _ _ (map_shift_ne k other), if_neg nonempty,
      expected_shift]
    rfl
  | case6 o ts other =>
    have noText : ∀ t l tail, ts.map (Placed.shift k) ≠ ⟨.text t, l⟩ :: tail :=
      fun t => map_shift_ne k (other t)
    rw [items_other _ _ noText, expected_shift]
    rfl

theorem options_shift (finish : Location) (ts : List Placed) :
    options (finish.shift k) (ts.map (Placed.shift k)) =
      mapBoth (SyntaxFault.shift k) (Prod.map id (List.map (Placed.shift k)))
        (options finish ts) := by
  cases ts with
  | nil => rfl
  | cons p ts =>
    obtain ⟨token, loc⟩ := p
    cases token with
    | leftBracket =>
      cases ts with
      | nil => exact items_shift k finish {} []
      | cons q ts =>
        obtain ⟨token, loc'⟩ := q
        cases token with
        | rightBracket => rfl
        | _ => exact items_shift k finish {} (_ :: ts)
    | _ => rfl

theorem skipBlankText_shift (ts : List Placed) :
    skipBlankText (ts.map (Placed.shift k)) = (skipBlankText ts).map (Placed.shift k) := by
  cases ts with
  | nil => rfl
  | cons p ts =>
    obtain ⟨token, loc⟩ := p
    cases token with
    | text t =>
      simp only [List.map_cons, Placed.shift, skipBlankText]
      split <;> rfl
    | _ => rfl

theorem lineEnd_shift (finish : Location) (chunk : Text) (frame : Frame) (ts : List Placed) :
    lineEnd (finish.shift k) chunk frame (ts.map (Placed.shift k)) =
      mapBoth (SyntaxFault.shift k) (List.map (Placed.shift k))
        (lineEnd finish chunk frame ts) := by
  cases ts with
  | nil => rfl
  | cons p ts =>
    obtain ⟨token, loc⟩ := p
    cases token with
    | breaks n =>
      match n with
      | 0 | 1 => rfl
      | n + 2 =>
        show Except.ok (⟨.breaks (n + 1), (loc.shift k).step '\n'⟩ :: ts.map (Placed.shift k)) = _
        rw [Location.step_shift]
        rfl
    | _ => rfl

theorem header_shift (finish directive : Location) (ts : List Placed) :
    header (finish.shift k) (directive.shift k) (ts.map (Placed.shift k)) =
      mapBoth (SyntaxFault.shift k) (Prod.map id (List.map (Placed.shift k)))
        (header finish directive ts) := by
  unfold header
  rw [name_shift]
  apply mapBoth_bind
  rintro ⟨name, afterName⟩
  simp only [Prod.map_apply, id_eq]
  rw [options_shift]
  apply mapBoth_bind
  rintro ⟨options, afterOptions⟩
  simp only [Prod.map_apply, id_eq]
  rw [skipBlankText_shift, lineEnd_shift]
  apply mapBoth_bind
  intro rest
  rfl

theorem reference_shift (indent name : Text) (loc : Location) :
    reference indent name (loc.shift k) =
      mapBoth (SyntaxFault.shift k) (Segment.shift k) (reference indent name loc) := by
  unfold reference
  split <;> rfl

theorem footer_shift (finish : Location) (chunk : Text) (ts : List Placed) :
    footer (finish.shift k) chunk (ts.map (Placed.shift k)) =
      mapBoth (SyntaxFault.shift k) (List.map (Placed.shift k)) (footer finish chunk ts) := by
  unfold footer
  rw [skipBlankText_shift]
  cases skipBlankText ts with
  | nil => rfl
  | cons p ts => exact lineEnd_shift k finish chunk .footer (p :: ts)

theorem body_shift (finish directive : Location) (chunk : Text) (lineStart : Bool)
    (ts : List Placed) :
    body (finish.shift k) (directive.shift k) chunk lineStart (ts.map (Placed.shift k)) =
      mapBoth (SyntaxFault.shift k)
        (Prod.map (List.map (Segment.shift k)) (List.map (Placed.shift k)))
        (body finish directive chunk lineStart ts) := by
  fun_induction body finish directive chunk lineStart ts with
  | case1 => rfl
  | case2 loc tail e he =>
    rw [List.map_cons, Placed.shift, body, if_pos rfl, footer_shift, he]
    rfl
  | case3 loc tail rest hf =>
    rw [List.map_cons, Placed.shift, body, if_pos rfl, footer_shift, hf]
    rfl
  | case4 lineStart loc tail later =>
    rw [List.map_cons, Placed.shift, body, if_neg later]
    rfl
  | case5 => rfl
  | case6 lineStart indent name loc tail e hr =>
    rw [List.map_cons, Placed.shift, body, reference_shift, hr]
    rfl
  | case7 lineStart indent name loc tail g hr e hb ih =>
    rw [List.map_cons, Placed.shift, body, reference_shift, hr]
    simp only [mapBoth]
    rw [ih, hb]
    rfl
  | case8 lineStart indent name loc tail g hr later rest hb ih =>
    rw [List.map_cons, Placed.shift, body, reference_shift, hr]
    simp only [mapBoth]
    rw [ih, hb]
    rfl
  | case9 lineStart token loc tail h₁ h₂ h₃ e hb ih =>
    rw [List.map_cons, Placed.shift, body]
    · rw [ih, hb]
      rfl
    · exact h₁
    · exact h₂
    · exact h₃
  | case10 lineStart token loc tail h₁ h₂ h₃ later rest hb ih =>
    rw [List.map_cons, Placed.shift, body]
    · rw [ih, hb]
      rfl
    · exact h₁
    · exact h₂
    · exact h₃

theorem chunk_shift (finish loc : Location) (kind : ChunkKind) (ts : List Placed) :
    chunk (finish.shift k) kind (loc.shift k) (ts.map (Placed.shift k)) =
      mapBoth (SyntaxFault.shift k) (Prod.map (Chunk.shift k) (List.map (Placed.shift k)))
        (chunk finish kind loc ts) := by
  unfold chunk
  rw [header_shift]
  apply mapBoth_bind
  rintro ⟨x, afterHeader⟩
  simp only [Prod.map_apply, id_eq]
  rw [body_shift]
  apply mapBoth_bind
  rintro ⟨gs, rest⟩
  simp only [Prod.map_apply]
  rw [Segment.shift_coalesce, shift_dropFinalBreak]
  rfl

theorem chunks_opening_error {finish loc : Location} {kind : ChunkKind} {ts : List Placed}
    {e : SyntaxFault} (h : chunk finish kind loc ts = .error e) :
    (chunks finish true (⟨.opening kind, loc⟩ :: ts)).outcome = .error (.source e) := by
  rw [chunks, if_pos rfl]
  split
  · simp_all
  · simp_all

theorem chunks_shift (finish : Location) (lineStart : Bool) (ts : List Placed) :
    (chunks (finish.shift k) lineStart (ts.map (Placed.shift k))).outcome =
      mapBoth (Fault.shift k) (List.map (Chunk.shift k)) (chunks finish lineStart ts).outcome := by
  fun_induction chunks finish lineStart ts with
  | case1 =>
    rw [List.map_nil, chunks]
    rfl
  | case2 kind loc tail e hc =>
    have moved := chunk_shift k finish loc kind tail
    rw [hc] at moved
    rw [List.map_cons, Placed.shift, chunks_opening_error moved]
    rfl
  | case3 kind loc tail c rest hc ih =>
    have moved := chunk_shift k finish loc kind tail
    rw [hc] at moved
    rw [List.map_cons, Placed.shift, chunks_opening_outcome moved, ih]
    simp only [Traced.outcome_bind, Traced.outcome_report, Traced.outcome_pure]
    apply mapBoth_bind
    intro later
    rfl
  | case4 lineStart kind loc tail later =>
    rw [List.map_cons, Placed.shift, chunks, if_neg later]
    rfl
  | case5 =>
    rw [List.map_cons, Placed.shift, chunks]
    rfl
  | case6 lineStart indent name loc tail e hr =>
    rw [List.map_cons, Placed.shift, chunks, reference_shift, hr]
    rfl
  | case7 lineStart indent name loc tail g hr ih =>
    rw [List.map_cons, Placed.shift, chunks, reference_shift, hr]
    simp only [mapBoth, Traced.outcome_bind, Traced.outcome_pure]
    rw [ih]
    apply mapBoth_bind
    intro later
    rfl
  | case8 lineStart token loc tail h₁ h₂ h₃ ih =>
    rw [List.map_cons, Placed.shift, chunks]
    · simp only [Traced.outcome_bind, Traced.outcome_pure]
      rw [ih]
      apply mapBoth_bind
      intro later
      rfl
    · exact h₁
    · exact h₂
    · exact h₃

end Read

end Literate
