import Literate.Proofs.Grammar

namespace Literate.Read

open Grammar
open Segment (atomsOf Normal)

/-- Every token takes some characters. Tokens that come from a text do. -/
def Solid (ts : List Placed) : Prop := ∀ p ∈ ts, p.token.spell ≠ []

theorem solid_of_settled {lineStart : Bool} {ts : List Placed}
    (h : Token.Settled lineStart (ts.map (·.token))) : Solid ts := by
  rintro ⟨token, loc⟩ hp
  obtain ⟨_, _, fits⟩ := Token.exists_fits_of_mem h (List.mem_map_of_mem hp)
  exact Token.spell_ne_nil fits

namespace Solid

theorem tail {p : Placed} {ts : List Placed} (h : Solid (p :: ts)) : Solid ts :=
  fun q hq => h q (List.mem_cons_of_mem _ hq)

theorem right {ts us : List Placed} (h : Solid (ts ++ us)) : Solid us :=
  fun q hq => h q (List.mem_append_right _ hq)

theorem left {ts us : List Placed} (h : Solid (ts ++ us)) : Solid ts :=
  fun q hq => h q (List.mem_append_left _ hq)

theorem of_mem {ts rest : List Placed} (h : Solid ts)
    (sub : ∀ p ∈ rest, p ∈ ts ∨ ∃ n loc, 0 < n ∧ p = ⟨.breaks n, loc⟩) : Solid rest := by
  intro p hp
  rcases sub p hp with hp | ⟨n, loc, hn, rfl⟩
  · exact h p hp
  · simp [Token.spell_breaks hn]

theorem lineBreak {ts rest : List Placed} (h : Solid ts) (hl : LineBreak ts rest) : Solid rest :=
  h.of_mem fun _ => mem_of_lineBreak hl

theorem named {ts rest : List Placed} {c : Chunk} (h : Solid ts) (hn : Named ts c rest) :
    Solid rest :=
  h.of_mem fun _ => mem_of_named hn

end Solid

theorem name_ok_iff {directive : Location} {ts rest : List Placed} {n : Text} :
    name directive ts = .ok (n, rest) ↔ ∃ t loc, ts = ⟨.text t, loc⟩ :: rest ∧
      t.head?.any Text.isBlank = true ∧ t.trim ≠ [] ∧ n = t.trim := by
  constructor
  · intro h
    unfold name at h
    split at h
    · rename_i t loc tail
      split at h
      · rename_i good
        simp only [Except.ok.injEq, Prod.mk.injEq] at h
        obtain ⟨rfl, rfl⟩ := h
        simp only [Bool.and_eq_true, Bool.not_eq_true', List.isEmpty_eq_false_iff] at good
        exact ⟨t, loc, rfl, good.1, good.2, rfl⟩
      · simp at h
    · simp at h
  · rintro ⟨t, loc, rfl, blank, nonempty, rfl⟩
    simp [name, blank, nonempty]

/-- What stands in front of the rest of a list is an item. -/
theorem item_value {t : Text} {l₁ l₂ : Location} (ht : t.trim ≠ []) (ts : List Placed) :
    ∃ us, ⟨.text t, l₁⟩ :: ⟨.equals, l₂⟩ :: ts = us ++ (value ts).2 ∧
      Pair us (t.trim, (value ts).1) := by
  unfold value
  split
  · rename_i v l₃ tail
    exact ⟨[⟨.text t, l₁⟩, ⟨.equals, l₂⟩, ⟨.text v, l₃⟩], rfl, .valued ht⟩
  · exact ⟨[⟨.text t, l₁⟩, ⟨.equals, l₂⟩], rfl, .bare ht⟩

theorem items_of_ok {finish : Location} {options found : Options} {ts rest : List Placed}
    (h : items finish options ts = .ok (found, rest)) :
    ∃ us loc es, ts = us ++ ⟨.rightBracket, loc⟩ :: rest ∧ Pairs us es ∧
      found = es.foldl (fun o e => o.insert e.1 e.2) options := by
  fun_induction items finish options ts with
  | case1 => simp at h
  | case2 options t l₁ nonempty l₂ tail options' l₃ rest' hv ih =>
    obtain ⟨us, loc, es, rfl, list, rfl⟩ := ih h
    obtain ⟨vs, split, item⟩ := @item_value t l₁ l₂ (by simpa using nonempty) tail
    rw [hv] at split
    exact ⟨_, loc, _, by simpa using split, @Pairs.more _ _ _ _ l₃ item list, rfl⟩
  | case3 options t l₁ nonempty l₂ tail options' l₃ rest' hv =>
    simp only [Except.ok.injEq, Prod.mk.injEq] at h
    obtain ⟨rfl, rfl⟩ := h
    obtain ⟨vs, split, item⟩ := @item_value t l₁ l₂ (by simpa using nonempty) tail
    rw [hv] at split
    exact ⟨_, l₃, _, split, .last item, rfl⟩
  | case4 => simp at h
  | case5 => simp at h
  | case6 => simp at h

/-- A pair is put into the options, whatever sign follows it. -/
theorem items_pair {us : List Placed} {e : Text × Text} (h : Pair us e) (finish loc : Location)
    (options : Options) (rest : List Placed) :
    items finish options (us ++ ⟨.comma, loc⟩ :: rest) =
      items finish (options.insert e.1 e.2) rest ∧
    items finish options (us ++ ⟨.rightBracket, loc⟩ :: rest) =
      .ok (options.insert e.1 e.2, rest) := by
  cases h with
  | bare ht =>
    simp only [List.cons_append, List.nil_append]
    rw [items, items]
    simp [ht, value]
  | valued ht =>
    simp only [List.cons_append, List.nil_append]
    rw [items, items]
    simp [ht, value]

theorem items_ok {us : List Placed} {es : List (Text × Text)} (h : Pairs us es) (finish : Location)
    (options : Options) (loc : Location) (rest : List Placed) :
    items finish options (us ++ ⟨.rightBracket, loc⟩ :: rest) =
      .ok (es.foldl (fun o e => o.insert e.1 e.2) options, rest) := by
  induction h generalizing options with
  | last item =>
    rw [(items_pair item finish loc options rest).2]
    rfl
  | more item _ ih =>
    rw [List.append_assoc, List.cons_append, (items_pair item finish _ options _).1, ih]
    rfl

theorem options_of_ok {finish : Location} {found : Options} {ts rest : List Placed}
    (h : options finish ts = .ok (found, rest)) : ∃ list, ts = list ++ rest ∧ OptionList list found := by
  unfold options at h
  split at h
  · rename_i l₁ l₂ tail
    simp only [Except.ok.injEq, Prod.mk.injEq] at h
    obtain ⟨rfl, rfl⟩ := h
    exact ⟨[⟨.leftBracket, l₁⟩, ⟨.rightBracket, l₂⟩], rfl, .empty⟩
  · rename_i l₁ tail _
    obtain ⟨us, l₂, es, rfl, list, rfl⟩ := items_of_ok h
    exact ⟨⟨.leftBracket, l₁⟩ :: (us ++ [⟨.rightBracket, l₂⟩]), by simp, .items list⟩
  · simp only [Except.ok.injEq, Prod.mk.injEq] at h
    obtain ⟨rfl, rfl⟩ := h
    exact ⟨[], rfl, .absent⟩

/-- A list that is missing leaves no bracket behind. -/
theorem options_ok {list : List Placed} {found : Options} (h : OptionList list found)
    (finish : Location) (rest : List Placed)
    (hr : ∀ loc tail, rest ≠ ⟨.leftBracket, loc⟩ :: tail) :
    options finish (list ++ rest) = .ok (found, rest) := by
  cases h with
  | absent =>
    rw [List.nil_append]
    unfold options
    split
    · rename_i loc _ tail
      exact absurd rfl (hr loc _)
    · rename_i loc tail _
      exact absurd rfl (hr loc tail)
    · rfl
  | empty => rfl
  | @items ts es l₁ l₂ list =>
    have first : ∃ t loc tail, ts = ⟨.text t, loc⟩ :: tail := by
      cases list with
      | last item => cases item <;> exact ⟨_, _, _, rfl⟩
      | more item _ => cases item <;> exact ⟨_, _, _, rfl⟩
    have read := items_ok list finish {} l₂ rest
    obtain ⟨t, loc, tail, rfl⟩ := first
    simpa [options, Options.ofList] using read

theorem skipBlankText_gap (ts : List Placed) : ∃ gap, ts = gap ++ skipBlankText ts ∧ Gap gap := by
  unfold skipBlankText
  split
  · split
    · rename_i t loc tail blank
      exact ⟨[⟨.text t, loc⟩], rfl, .blank (by simpa using blank)⟩
    · exact ⟨[], rfl, .none⟩
  · exact ⟨[], rfl, .none⟩

theorem skipBlankText_append {gap rest : List Placed} (h : Gap gap)
    (hr : ∀ t loc tail, rest ≠ ⟨.text t, loc⟩ :: tail) : skipBlankText (gap ++ rest) = rest := by
  cases h with
  | none =>
    rw [List.nil_append]
    unfold skipBlankText
    split
    · rename_i t loc tail
      exact absurd rfl (hr t loc tail)
    · rfl
  | blank ht => simp [skipBlankText, ht]

theorem lineBreak_of_ok {finish : Location} {chunk : Text} {frame : Frame} {ts rest : List Placed}
    (solid : Solid ts) (h : lineEnd finish chunk frame ts = .ok rest) : LineBreak ts rest := by
  unfold lineEnd at h
  split at h
  · simp at h
  · simp only [Except.ok.injEq] at h
    subst h
    exact .run (by omega)
  · rename_i n loc tail many
    simp only [Except.ok.injEq] at h
    subst h
    have some := solid ⟨.breaks n, loc⟩ List.mem_cons_self
    match n, many with
    | 0, _ => simp [Token.spell] at some
    | 1, _ => exact .single
    | n + 2, many => exact absurd rfl (many n)
  · simp at h

theorem lineEnd_ok {ts rest : List Placed} (h : LineBreak ts rest) (finish : Location) (chunk : Text)
    (frame : Frame) : lineEnd finish chunk frame ts = .ok rest := by
  cases h with
  | single => rfl
  | @run n rest loc hn =>
    obtain ⟨m, rfl⟩ : ∃ m, n = m + 1 := ⟨n - 1, by omega⟩
    rfl

theorem exists_breaks_of_lineBreak {ts rest : List Placed} (h : LineBreak ts rest) :
    ∃ n loc tail, ts = ⟨.breaks n, loc⟩ :: tail := by
  cases h <;> exact ⟨_, _, _, rfl⟩

theorem footer_of_ok {finish : Location} {chunk : Text} {ts rest : List Placed} (solid : Solid ts)
    (h : footer finish chunk ts = .ok rest) :
    ∃ gap foot, ts = gap ++ foot ∧ Gap gap ∧ LineEnd foot rest := by
  obtain ⟨gap, split, hg⟩ := skipBlankText_gap ts
  unfold footer at h
  split at h
  · rename_i empty
    simp only [Except.ok.injEq] at h
    subst h
    exact ⟨gap, [], by rw [split, empty], hg, .finish⟩
  · rw [split] at solid
    exact ⟨gap, _, split, hg, .lineBreak (lineBreak_of_ok solid.right h)⟩

theorem footer_ok {gap foot rest : List Placed} (hg : Gap gap) (h : LineEnd foot rest)
    (finish : Location) (chunk : Text) : footer finish chunk (gap ++ foot) = .ok rest := by
  cases h with
  | finish =>
    rw [footer, skipBlankText_append hg (by simp)]
  | lineBreak hl =>
    obtain ⟨n, loc, tail, rfl⟩ := exists_breaks_of_lineBreak hl
    rw [footer, skipBlankText_append hg (by simp)]
    exact lineEnd_ok hl finish chunk .footer

theorem literal?_eq_some {token : Token} (h₁ : token ≠ .closing) (h₂ : ∀ kind, token ≠ .opening kind)
    (h₃ : ∀ indent name, token ≠ .reference indent name) : token.literal? = some token.literal := by
  cases token with
  | closing => exact absurd rfl h₁
  | opening kind => exact absurd rfl (h₂ kind)
  | reference indent name => exact absurd rfl (h₃ indent name)
  | _ => rfl

theorem literal_ne_nil {token : Token} {t : Text} (solid : token.spell ≠ [])
    (h : token.literal? = some t) : t ≠ [] := by
  cases token with
  | opening | closing | reference => simp [Token.literal?] at h
  | text | breaks =>
    simp only [Token.literal?, Option.some.injEq] at h
    exact h ▸ solid
  | _ =>
    simp only [Token.literal?, Option.some.injEq] at h
    simp [← h]

/-- Whether a line starts behind the tokens, if one starts in front of them as the flag says. -/
def startsAfter (lineStart : Bool) (ts : List Placed) : Bool :=
  ts.getLast?.elim lineStart (·.token.isBreak)

@[simp] theorem startsAfter_nil (lineStart : Bool) : startsAfter lineStart [] = lineStart := rfl

@[simp] theorem startsAfter_cons (lineStart : Bool) (p : Placed) (ts : List Placed) :
    startsAfter lineStart (p :: ts) = startsAfter p.token.isBreak ts := by
  cases ts with
  | nil => rfl
  | cons q ts => simp [startsAfter, List.getLast?_cons]

theorem startsAfter_true (ts : List Placed) :
    startsAfter true ts = ts.getLast?.all (·.token.isBreak) := by
  unfold startsAfter
  cases ts.getLast? <;> rfl

theorem body_of_ok {finish directive : Location} {chunk : Text} {lineStart : Bool}
    {ts rest : List Placed} {gs : List Segment} (solid : Solid ts)
    (h : body finish directive chunk lineStart ts = .ok (gs, rest)) :
    ∃ inner loc gap foot, ts = inner ++ ⟨.closing, loc⟩ :: (gap ++ foot) ∧
      Body inner (atomsOf gs) ∧ startsAfter lineStart inner = true ∧ Gap gap ∧ LineEnd foot rest ∧
      ∀ g ∈ gs, g.Solid := by
  fun_induction body finish directive chunk lineStart ts generalizing gs rest with
  | case1 => simp at h
  | case2 => simp at h
  | case3 loc tail rest' hf =>
    simp only [Except.ok.injEq, Prod.mk.injEq] at h
    obtain ⟨rfl, rfl⟩ := h
    obtain ⟨gap, foot, rfl, hg, hl⟩ := footer_of_ok solid.tail hf
    exact ⟨[], loc, gap, foot, rfl, .nil, rfl, hg, hl, by simp⟩
  | case4 => simp at h
  | case5 => simp at h
  | case6 => simp at h
  | case7 => simp at h
  | case8 lineStart indent name loc tail g hr later rest' hb ih =>
    simp only [Except.ok.injEq, Prod.mk.injEq] at h
    obtain ⟨rfl, rfl⟩ := h
    obtain ⟨inner, l, gap, foot, rfl, body, starts, hg, hl, good⟩ := ih solid.tail hb
    unfold reference at hr
    split at hr
    · simp at hr
    · rename_i nonempty
      simp only [Except.ok.injEq] at hr
      subst hr
      exact ⟨⟨.reference indent name, loc⟩ :: inner, l, gap, foot, rfl,
        .reference (by simpa using nonempty) body, by rwa [startsAfter_cons], hg, hl,
        List.forall_mem_cons.2 ⟨trivial, good⟩⟩
  | case9 => simp at h
  | case10 lineStart token loc tail h₁ h₂ h₃ later rest' hb ih =>
    simp only [Except.ok.injEq, Prod.mk.injEq] at h
    obtain ⟨rfl, rfl⟩ := h
    obtain ⟨inner, l, gap, foot, rfl, body, starts, hg, hl, good⟩ := ih solid.tail hb
    have literal := literal?_eq_some h₁ h₂ h₃
    have nonempty := literal_ne_nil (solid _ List.mem_cons_self) literal
    exact ⟨⟨token, loc⟩ :: inner, l, gap, foot, rfl, .literal literal body, by simpa using starts,
      hg, hl, List.forall_mem_cons.2 ⟨nonempty, good⟩⟩

theorem body_ok {inner gap foot rest : List Placed} {as : List Atom} {lineStart : Bool}
    (hb : Body inner as) (solid : Solid inner) (starts : startsAfter lineStart inner = true)
    (hg : Gap gap) (hl : LineEnd foot rest) (finish directive loc : Location) (chunk : Text) :
    ∃ gs, body finish directive chunk lineStart (inner ++ ⟨.closing, loc⟩ :: (gap ++ foot)) =
      .ok (gs, rest) ∧ atomsOf gs = as ∧ ∀ g ∈ gs, g.Solid := by
  induction hb generalizing lineStart with
  | nil =>
    obtain rfl : lineStart = true := starts
    exact ⟨[], by simp [body, footer_ok hg hl], rfl, by simp⟩
  | @literal token l t ts as literal _ ih =>
    obtain ⟨gs, hb, rfl, good⟩ := ih solid.tail (by simpa using starts)
    have nonempty := literal_ne_nil (solid _ List.mem_cons_self) literal
    refine ⟨.text t :: gs, ?_, rfl, List.forall_mem_cons.2 ⟨nonempty, good⟩⟩
    have same : token.literal = t := by simp [Token.literal, literal]
    cases token with
    | opening | closing | reference => simp [Token.literal?] at literal
    | _ => simp [body, hb, same]
  | @reference indent name l ts as nonempty _ ih =>
    obtain ⟨gs, hb, rfl, good⟩ := ih solid.tail (by simpa using starts)
    refine ⟨.reference name.trim indent l :: gs, ?_, rfl, List.forall_mem_cons.2 ⟨trivial, good⟩⟩
    have hr : reference indent name l = .ok (.reference name.trim indent l) := by
      simp [reference, nonempty]
    have hb' : body finish directive chunk false (ts ++ ⟨.closing, loc⟩ :: (gap ++ foot)) =
        .ok (gs, rest) := hb
    simp [body, hr, hb']

/-- A body that ends its line ends with a line break, if there is anything in it. -/
theorem body_atoms {inner : List Placed} {as : List Atom} {lineStart : Bool} (hb : Body inner as)
    (solid : Solid inner) (starts : startsAfter lineStart inner = true) :
    (inner = [] ∧ as = []) ∨ ∃ bs, as = bs ++ [.char '\n'] := by
  induction hb generalizing lineStart with
  | nil => exact Or.inl ⟨rfl, rfl⟩
  | @literal token l t ts as literal _ ih =>
    rw [startsAfter_cons] at starts
    rcases ih solid.tail starts with ⟨rfl, rfl⟩ | ⟨bs, rfl⟩
    · -- The last token is a run of line breaks, and so are its characters.
      right
      have nonempty := literal_ne_nil (solid _ List.mem_cons_self) literal
      cases token with
      | breaks n =>
        simp only [Token.literal?, Option.some.injEq] at literal
        subst literal
        obtain ⟨m, rfl⟩ : ∃ m, n = m + 1 := ⟨n - 1, by simp at nonempty; omega⟩
        exact ⟨(List.replicate m '\n').map .char, by simp [List.replicate_succ']⟩
      | _ => simp [Token.isBreak] at starts
    · exact Or.inr ⟨t.map .char ++ bs, by simp⟩
  | @reference indent name l ts as nonempty _ ih =>
    rw [startsAfter_cons] at starts
    rcases ih solid.tail starts with ⟨rfl, rfl⟩ | ⟨bs, rfl⟩
    · simp [Token.isBreak] at starts
    · exact Or.inr ⟨_ :: bs, rfl⟩

theorem content_dropFinalBreak {gs : List Segment} (good : ∀ g ∈ gs, g.Solid)
    (last : atomsOf gs = [] ∨ ∃ bs, atomsOf gs = bs ++ [.char '\n']) :
    Contents (atomsOf gs) (dropFinalBreak (Segment.coalesce gs)) := by
  have normal := Segment.normal_coalesce good
  refine ⟨normal_dropFinalBreak normal, ?_⟩
  rcases last with empty | ⟨bs, hb⟩
  · have none : Segment.coalesce gs = [] := by
      rw [← normal.atomsOf_eq_nil, Segment.atomsOf_coalesce, empty]
    exact Or.inl ⟨empty, by rw [none]; rfl⟩
  · rw [hb, atomsOf_dropFinalBreak normal (by rw [Segment.atomsOf_coalesce, hb])]
    exact Or.inr rfl

theorem content_unique {as : List Atom} {gs hs : List Segment} (hg : Contents as gs)
    (hh : Contents as hs) : gs = hs := by
  obtain ⟨normal, hg⟩ := hg
  obtain ⟨normal', hh⟩ := hh
  rcases hg with ⟨none, rfl⟩ | hg <;> rcases hh with ⟨none', rfl⟩ | hh
  · rfl
  · simp [none] at hh
  · simp [none'] at hg
  · exact normal.ext normal' (List.append_cancel_right (hg.symm.trans hh))

theorem bind_ok_iff {ε α β : Type} {x : Except ε α} {f : α → Except ε β} {b : β} :
    x >>= f = .ok b ↔ ∃ a, x = .ok a ∧ f a = .ok b := by
  cases x with
  | error e => simp [bind, Except.bind]
  | ok a => simp [bind, Except.bind]

theorem bind_error_iff {ε α β : Type} {x : Except ε α} {f : α → Except ε β} {e : ε} :
    x >>= f = .error e ↔ x = .error e ∨ ∃ a, x = .ok a ∧ f a = .error e := by
  cases x with
  | error e => simp [bind, Except.bind]
  | ok a => simp [bind, Except.bind]

theorem header_ok_iff {finish directive : Location} {ts rest : List Placed} {x : Header} :
    header finish directive ts = .ok (x, rest) ↔ ∃ afterName afterOptions,
      name directive ts = .ok (x.name, afterName) ∧
      options finish afterName = .ok (x.options, afterOptions) ∧
      lineEnd finish x.name .header (skipBlankText afterOptions) = .ok rest := by
  unfold header
  simp only [bind_ok_iff, pure, Except.pure, Except.ok.injEq, Prod.mk.injEq, Prod.exists]
  constructor
  · rintro ⟨n, afterName, hn, o, afterOptions, ho, rest', hl, rfl, rfl⟩
    exact ⟨afterName, afterOptions, hn, ho, hl⟩
  · rintro ⟨afterName, afterOptions, hn, ho, hl⟩
    exact ⟨_, afterName, hn, _, afterOptions, ho, rest, hl, rfl, rfl⟩

theorem chunk_ok_iff {finish loc : Location} {kind : ChunkKind} {ts rest : List Placed} {c : Chunk} :
    chunk finish kind loc ts = .ok (c, rest) ↔ ∃ x afterHeader gs,
      header finish loc ts = .ok (x, afterHeader) ∧
      body finish loc x.name true afterHeader = .ok (gs, rest) ∧
      c = { kind, name := x.name, options := x.options,
            content := dropFinalBreak (Segment.coalesce gs), loc } := by
  unfold chunk
  simp only [bind_ok_iff, pure, Except.pure, Except.ok.injEq, Prod.mk.injEq, Prod.exists]
  constructor
  · rintro ⟨x, afterHeader, hh, gs, rest', hb, rfl, rfl⟩
    exact ⟨x, afterHeader, gs, hh, hb, rfl⟩
  · rintro ⟨x, afterHeader, gs, hh, hb, rfl⟩
    exact ⟨x, afterHeader, hh, gs, rest, hb, rfl, rfl⟩

theorem named_of_ok {finish loc : Location} {kind : ChunkKind} {ts rest : List Placed} {c : Chunk}
    (solid : Solid ts) (h : chunk finish kind loc ts = .ok (c, rest)) :
    Named (⟨.opening kind, loc⟩ :: ts) c rest := by
  obtain ⟨⟨n, options⟩, afterHeader, gs, hh, hb, rfl⟩ := chunk_ok_iff.1 h
  obtain ⟨afterName, afterOptions, hn, ho, hl⟩ := header_ok_iff.1 hh
  obtain ⟨t, l, rfl, blank, nonempty, rfl⟩ := name_ok_iff.1 hn
  obtain ⟨list, rfl, options⟩ := options_of_ok ho
  obtain ⟨gap, split, hg⟩ := skipBlankText_gap afterOptions
  have solid' : Solid (skipBlankText afterOptions) := (split ▸ solid.tail.right).right
  have line := lineBreak_of_ok solid' hl
  have solid'' := solid'.lineBreak line
  obtain ⟨inner, l', gap', foot, rfl, body, starts, hg', he, good⟩ := body_of_ok solid'' hb
  have last := body_atoms body solid''.left starts
  rw [split]
  refine .mk blank nonempty options hg line body ?_ hg' he (content_dropFinalBreak good ?_)
  · rwa [← startsAfter_true]
  · exact last.imp_left (·.2)

theorem chunk_ok {ts rest : List Placed} {c : Chunk} (h : Named ts c rest) (solid : Solid ts)
    (finish : Location) :
    ∃ tail, ts = ⟨.opening c.kind, c.loc⟩ :: tail ∧ chunk finish c.kind c.loc tail = .ok (c, rest) := by
  cases h with
  | @mk kind t options as content list gap line body gap' foot rest loc l₁ l₂
      blank nonempty hlist hg hl hb starts hg' he hc =>
    obtain ⟨n, l₃, tail, rfl⟩ := exists_breaks_of_lineBreak hl
    have solid' := (solid.tail.tail.right.right.lineBreak hl).left
    rw [← startsAfter_true] at starts
    obtain ⟨gs, read, rfl, good⟩ := body_ok hb solid' starts hg' he finish loc l₂ t.trim
    have hname := (@name_ok_iff loc _ (list ++ (gap ++ ⟨.breaks n, l₃⟩ :: tail)) _).2
      ⟨t, l₁, rfl, blank, nonempty, rfl⟩
    have hoptions := options_ok hlist finish (gap ++ ⟨.breaks n, l₃⟩ :: tail)
      (by cases hg <;> simp)
    have hline := lineEnd_ok hl finish t.trim .header
    rw [← @skipBlankText_append _ (⟨.breaks n, l₃⟩ :: tail) hg (by simp)] at hline
    have hheader := header_ok_iff (x := ⟨t.trim, options⟩).2 ⟨_, _, hname, hoptions, hline⟩
    have last := body_atoms hb solid' starts
    have same := content_unique hc (content_dropFinalBreak good (last.imp_left (·.2)))
    exact ⟨_, rfl, chunk_ok_iff.2 ⟨_, _, gs, hheader, read, by rw [same]⟩⟩

/-- What the reader accepts can be derived. -/
theorem derives_of_ok {finish : Location} {lineStart : Bool} {ts : List Placed} {cs : List Chunk}
    (solid : Solid ts) (h : (chunks finish lineStart ts).outcome = .ok cs) :
    Derives lineStart ts cs := by
  fun_induction chunks finish lineStart ts generalizing cs with
  | case1 =>
    simp only [Traced.outcome_pure, Except.ok.injEq] at h
    subst h
    exact .nil
  | case2 => simp at h
  | case3 kind loc tail c rest hc ih =>
    simp only [Traced.outcome_bind, Traced.outcome_report, Traced.outcome_pure, bind_ok_iff,
      Except.ok.injEq] at h
    obtain ⟨_, _, later, hl, rfl⟩ := h
    have named := named_of_ok solid.tail hc
    exact .chunk named (ih (solid.named named) hl)
  | case4 => simp at h
  | case5 => simp at h
  | case6 => simp at h
  | case7 lineStart indent name loc tail g hr ih =>
    simp only [Traced.outcome_bind, Traced.outcome_pure, bind_ok_iff, Except.ok.injEq] at h
    obtain ⟨later, hl, rfl⟩ := h
    unfold reference at hr
    split at hr
    · simp at hr
    · rename_i nonempty
      simp only [Except.ok.injEq] at hr
      subst hr
      exact .loose (.reference (by simpa using nonempty)) (ih solid.tail hl)
  | case8 lineStart token loc tail h₁ h₂ h₃ ih =>
    simp only [Traced.outcome_bind, Traced.outcome_pure, bind_ok_iff, Except.ok.injEq] at h
    obtain ⟨later, hl, rfl⟩ := h
    exact .loose (.literal (literal?_eq_some h₂ h₁ h₃)) (ih solid.tail hl)

theorem chunks_literal_outcome {token : Token} {t : Text} (h : token.literal? = some t)
    (finish loc : Location) (lineStart : Bool) (ts : List Placed) :
    (chunks finish lineStart (⟨token, loc⟩ :: ts)).outcome =
      (chunks finish token.isBreak ts).outcome >>= fun later =>
        .ok (.wrapper (.text t) loc :: later) := by
  have same : token.literal = t := by simp [Token.literal, h]
  rw [chunks]
  · rw [Traced.outcome_bind, same]
    rfl
  all_goals
    intros
    subst token
    simp [Token.literal?] at h

theorem chunks_reference_outcome {name : Text} (h : name.trim ≠ []) (finish loc : Location)
    (lineStart : Bool) (indent : Text) (ts : List Placed) :
    (chunks finish lineStart (⟨.reference indent name, loc⟩ :: ts)).outcome =
      (chunks finish false ts).outcome >>= fun later =>
        .ok (.wrapper (.reference name.trim indent loc) loc :: later) := by
  have read : reference indent name loc = .ok (.reference name.trim indent loc) := by
    simp [reference, h]
  rw [chunks, read]
  exact Traced.outcome_bind _ _

theorem chunks_opening_outcome {finish loc : Location} {kind : ChunkKind} {ts rest : List Placed}
    {c : Chunk} (h : chunk finish kind loc ts = .ok (c, rest)) :
    (chunks finish true (⟨.opening kind, loc⟩ :: ts)).outcome =
      (chunks finish true rest).outcome >>= fun later => .ok (c :: later) := by
  rw [chunks, if_pos rfl]
  split
  · simp_all
  · rename_i c' rest' h'
    obtain ⟨rfl, rfl⟩ : c = c' ∧ rest = rest' := by simpa [h] using h'
    rw [Traced.outcome_bind, Traced.outcome_report]
    exact Traced.outcome_bind _ _

/-- What can be derived is accepted. -/
theorem chunks_ok {lineStart : Bool} {ts : List Placed} {cs : List Chunk}
    (h : Derives lineStart ts cs) (solid : Solid ts) (finish : Location) :
    (chunks finish lineStart ts).outcome = .ok cs := by
  induction h with
  | nil =>
    rw [chunks]
    rfl
  | loose hl _ ih =>
    have later := ih solid.tail
    cases hl with
    | literal literal =>
      rw [chunks_literal_outcome literal, later]
      rfl
    | reference nonempty =>
      rw [chunks_reference_outcome nonempty]
      exact congrArg (· >>= _) later
  | @chunk ts rest c cs named _ ih =>
    have later := ih (solid.named named)
    obtain ⟨tail, rfl, read⟩ := chunk_ok named solid finish
    rw [chunks_opening_outcome read, later]
    rfl

/-- The reader fails only with a fault of the source. -/
theorem chunks_fault {finish : Location} {lineStart : Bool} {ts : List Placed} {f : Fault}
    (h : (chunks finish lineStart ts).outcome = .error f) : ∃ e, f = .source e := by
  fun_induction chunks finish lineStart ts with
  | case1 => simp at h
  | case2 => exact ⟨_, by simpa using h.symm⟩
  | case3 kind loc tail c rest hc ih =>
    simp only [Traced.outcome_bind, Traced.outcome_report, Traced.outcome_pure, bind_error_iff] at h
    exact ih (by simpa using h)
  | case4 => exact ⟨_, by simpa using h.symm⟩
  | case5 => exact ⟨_, by simpa using h.symm⟩
  | case6 => exact ⟨_, by simpa using h.symm⟩
  | case7 lineStart indent name loc tail g hr ih =>
    simp only [Traced.outcome_bind, Traced.outcome_pure, bind_error_iff] at h
    exact ih (by simpa using h)
  | case8 lineStart token loc tail h₁ h₂ h₃ ih =>
    simp only [Traced.outcome_bind, Traced.outcome_pure, bind_error_iff] at h
    exact ih (by simpa using h)

end Literate.Read

namespace Literate.Document

open Grammar

theorem scanFrom_of_scan {path : Option Text} {t : Text} {ts : List Placed}
    (h : (Token.scan path t).outcome = .ok ts) : Token.scanFrom (.start path) true t = .ok ts := by
  unfold Token.scan at h
  split at h
  · simp at h
  · rename_i tokens found
    have same : Except.ok tokens = (Except.ok ts : Except Fault (List Placed)) := h
    rw [found, Except.ok.inj same]

/-- Once the text is scanned, reading a document is reading its chunks off the tokens. -/
theorem read_outcome {path : Option Text} {source : Text} {ts : List Placed}
    (h : (Token.scan path source.unifyBreaks).outcome = .ok ts) :
    (read path source).outcome =
      (Read.chunks ((Location.start path).advance source.unifyBreaks) true ts).outcome >>= fun cs =>
        .ok { chunks := cs, path } := by
  unfold read
  simp only [Traced.outcome_bind, h, Traced.outcome_report, Traced.outcome_pure]
  rfl

theorem solid_of_scan {path : Option Text} {t : Text} {ts : List Placed}
    (h : (Token.scan path t).outcome = .ok ts) : Read.Solid ts :=
  Read.solid_of_settled (Token.settled_of_scans (Token.scans_of_scanFrom (scanFrom_of_scan h)))

theorem derives_of_read {path : Option Text} {source : Text} {ts : List Placed} {d : Document}
    (h : (Token.scan path source.unifyBreaks).outcome = .ok ts)
    (hr : (read path source).outcome = .ok d) : Derives true ts d.chunks := by
  rw [read_outcome h, Read.bind_ok_iff] at hr
  obtain ⟨cs, hc, same⟩ := hr
  obtain rfl := Except.ok.inj same
  exact Read.derives_of_ok (solid_of_scan h) hc

/-- A document that was read derives from the tokens of its source. -/
theorem exists_derives_of_read {path : Option Text} {source : Text} {d : Document}
    (h : (read path source).outcome = .ok d) :
    ∃ ts, (Token.scan path source.unifyBreaks).outcome = .ok ts ∧ Derives true ts d.chunks := by
  cases hs : (Token.scan path source.unifyBreaks).outcome with
  | error fault =>
    unfold read at h
    rw [Traced.outcome_bind, hs, Read.bind_ok_iff] at h
    obtain ⟨_, impossible, _⟩ := h
    simp at impossible
  | ok ts => exact ⟨ts, rfl, derives_of_read hs h⟩

theorem exists_settled_of_read {path : Option Text} {source : Text} {d : Document}
    (h : (read path source).outcome = .ok d) :
    ∃ ts, Token.Settled true (ts.map (·.token)) ∧ Derives true ts d.chunks := by
  obtain ⟨ts, scan, derives⟩ := exists_derives_of_read h
  exact ⟨ts, Token.settled_of_scans (Token.scans_of_scanFrom (scanFrom_of_scan scan)), derives⟩

theorem read_of_derives {path : Option Text} {source : Text} {ts : List Placed} {cs : List Chunk}
    (h : (Token.scan path source.unifyBreaks).outcome = .ok ts) (hd : Derives true ts cs) :
    (read path source).outcome = .ok { chunks := cs, path } := by
  rw [read_outcome h, Read.chunks_ok hd (solid_of_scan h)]
  rfl

end Literate.Document
