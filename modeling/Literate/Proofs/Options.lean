import Literate.Proofs.Reading
import Literate.Proofs.Steady

namespace Literate

theorem exists_placed_cons {ps : List Placed} {t : Token} {ts : List Token}
    (h : ps.map (·.token) = t :: ts) : ∃ loc qs, ps = ⟨t, loc⟩ :: qs ∧ qs.map (·.token) = ts := by
  obtain ⟨p, qs, rfl, rfl, later⟩ := List.map_eq_cons_iff.1 h
  exact ⟨p.loc, qs, rfl, later⟩

namespace Options

open Grammar
open Lexeme (isPlain)
open Token (Steady spelling)

/-- A key and a value that are read back as they are written. -/
structure Written (e : Text × Text) : Prop where
  key_trim : e.1.trim = e.1
  key_ne_nil : e.1 ≠ []
  key_plain : ∀ c ∈ e.1, isPlain c = true
  value_trim : e.2.trim = e.2
  value_plain : ∀ c ∈ e.2, isPlain c = true

/-- What the options of a chunk that was read are like. -/
def Sound (o : Options) : Prop := ∀ e ∈ o.entries, Written e

theorem Sound.insert {o : Options} {e : Text × Text} (h : o.Sound) (he : Written e) :
    (o.insert e.1 e.2).Sound := by
  intro x hx
  rcases mem_insertEntry hx with rfl | hx
  · exact he
  · exact h x hx

theorem sound_empty : Sound {} := by simp [Sound]

theorem Sound.insertAll {o : Options} {es : List (Text × Text)} (ho : o.Sound)
    (h : ∀ e ∈ es, Written e) : (es.foldl (fun o e => o.insert e.1 e.2) o).Sound := by
  induction es generalizing o with
  | nil => exact ho
  | cons e es ih =>
    exact ih (ho.insert (h e List.mem_cons_self)) fun x hx => h x (List.mem_cons_of_mem _ hx)

theorem sound_ofList {es : List (Text × Text)} (h : ∀ e ∈ es, Written e) : (ofList es).Sound :=
  sound_empty.insertAll h

theorem Sound.overlay {o later : Options} (h : o.Sound) (hl : later.Sound) :
    (o.overlay later).Sound :=
  h.insertAll hl

theorem insertEntry_new {key value : Text} {es : List (Text × Text)}
    (h : key ∉ es.map Prod.fst) : insertEntry key value es = es ++ [(key, value)] := by
  induction es with
  | nil => rfl
  | cons e es ih =>
    obtain ⟨k, v⟩ := e
    simp only [List.map_cons, List.mem_cons, not_or] at h
    rw [insertEntry, if_neg (Ne.symm h.1), ih h.2, List.cons_append]

theorem entries_foldl_insert {o : Options} {es : List (Text × Text)}
    (h : ((o.entries ++ es).map Prod.fst).Nodup) :
    (es.foldl (fun o e => o.insert e.1 e.2) o).entries = o.entries ++ es := by
  induction es generalizing o with
  | nil => simp
  | cons e es ih =>
    have new : e.1 ∉ o.entries.map Prod.fst := by
      rw [List.map_append, List.map_cons] at h
      exact fun old => (List.nodup_append.1 h).2.2 _ old _ List.mem_cons_self rfl
    have added : (o.insert e.1 e.2).entries = o.entries ++ [e] := insertEntry_new new
    have later : (((o.insert e.1 e.2).entries ++ es).map Prod.fst).Nodup := by
      rw [added]
      simpa using h
    rw [List.foldl_cons, ih later, added, List.append_assoc, List.singleton_append]

/-- Options are what their entries put together. -/
theorem ofList_entries (o : Options) : ofList o.entries = o := by
  ext1
  exact @entries_foldl_insert {} o.entries o.nodup

theorem written_of_item {ts : List Placed} {e : Text × Text} (h : Pair ts e)
    (plain : ∀ t, Token.text t ∈ ts.map (·.token) → ∀ c ∈ t, isPlain c = true) : Written e := by
  cases h with
  | @bare key l₁ l₂ nonempty =>
    exact ⟨Text.trim_trim key, nonempty, fun c hc => plain key (by simp) c (Text.mem_of_mem_trim hc),
      rfl, by simp⟩
  | @valued key value l₁ l₂ l₃ nonempty =>
    exact ⟨Text.trim_trim key, nonempty, fun c hc => plain key (by simp) c (Text.mem_of_mem_trim hc),
      Text.trim_trim value, fun c hc => plain value (by simp) c (Text.mem_of_mem_trim hc)⟩

theorem written_of_items {ts : List Placed} {es : List (Text × Text)} (h : Pairs ts es)
    (plain : ∀ t, Token.text t ∈ ts.map (·.token) → ∀ c ∈ t, isPlain c = true) :
    ∀ e ∈ es, Written e := by
  induction h with
  | last item =>
    intro e he
    obtain rfl := List.mem_singleton.1 he
    exact written_of_item item plain
  | more item _ ih =>
    intro e he
    rcases List.mem_cons.1 he with rfl | he
    · exact written_of_item item fun t ht => plain t (by simp_all)
    · exact ih (fun t ht => plain t (by simp_all)) e he

theorem sound_of_optionList {ts : List Placed} {o : Options} (h : OptionList ts o)
    (plain : ∀ t, Token.text t ∈ ts.map (·.token) → ∀ c ∈ t, isPlain c = true) : o.Sound := by
  cases h with
  | absent => exact sound_empty
  | empty => exact sound_empty
  | items list => exact sound_ofList (written_of_items list fun t ht => plain t (by simp_all))

def itemTokens (e : Text × Text) : List Token :=
  .text e.1 :: .equals :: if e.2.isEmpty then [] else [.text e.2]

def tokensOf : List (Text × Text) → List Token
  | [] => []
  | [e] => itemTokens e
  | e :: es => itemTokens e ++ .comma :: tokensOf es

/-- The tokens of the list with its brackets; there are none if it is empty. -/
def tokens (o : Options) : List Token :=
  if o.isEmpty then [] else .leftBracket :: (tokensOf o.entries ++ [.rightBracket])

theorem spelling_itemTokens (e : Text × Text) : spelling (itemTokens e) = e.1 ++ '=' :: e.2 := by
  unfold itemTokens
  split
  · rename_i empty
    simp [Token.spell, List.isEmpty_iff.1 empty]
  · simp [Token.spell]

theorem spelling_tokensOf (es : List (Text × Text)) :
    spelling (tokensOf es) = [','].intercalate (es.map fun e => e.1 ++ '=' :: e.2) := by
  fun_induction tokensOf es with
  | case1 => rfl
  | case2 e => rw [spelling_itemTokens, List.map_singleton, List.intercalate_singleton]
  | case3 e es several ih =>
    obtain ⟨e', es, rfl⟩ := List.exists_cons_of_ne_nil several
    rw [Token.spelling_append, Token.spelling_cons, ih, spelling_itemTokens]
    simp only [List.map_cons, List.intercalate_cons_cons, List.append_assoc]
    rfl

theorem item_of_tokens {ps : List Placed} {e : Text × Text} (he : Written e)
    (h : ps.map (·.token) = itemTokens e) : Pair ps e := by
  obtain ⟨key, value⟩ := e
  obtain ⟨l₁, qs, rfl, afterKey⟩ := exists_placed_cons h
  obtain ⟨l₂, rs, rfl, afterEquals⟩ := exists_placed_cons afterKey
  have hk : key.trim = key := he.key_trim
  have hv : value.trim = value := he.value_trim
  have nonempty : key.trim ≠ [] := hk.symm ▸ he.key_ne_nil
  split at afterEquals
  · rename_i empty
    obtain rfl : value = [] := List.isEmpty_iff.1 empty
    obtain rfl := List.map_eq_nil_iff.1 afterEquals
    have item : Pair [⟨.text key, l₁⟩, ⟨.equals, l₂⟩] (key.trim, []) := .bare nonempty
    rwa [hk] at item
  · obtain ⟨l₃, us, rfl, afterValue⟩ := exists_placed_cons afterEquals
    obtain rfl := List.map_eq_nil_iff.1 afterValue
    have item : Pair [⟨.text key, l₁⟩, ⟨.equals, l₂⟩, ⟨.text value, l₃⟩] (key.trim, value.trim) :=
      .valued nonempty
    rwa [hk, hv] at item

theorem items_of_tokens {ps : List Placed} {es : List (Text × Text)} (hes : es ≠ [])
    (he : ∀ e ∈ es, Written e) (h : ps.map (·.token) = tokensOf es) : Pairs ps es := by
  fun_induction tokensOf es generalizing ps with
  | case1 => exact absurd rfl hes
  | case2 e => exact .last (item_of_tokens (he e List.mem_cons_self) h)
  | case3 e es several ih =>
    obtain ⟨qs, rs, rfl, item, later⟩ := List.map_eq_append_iff.1 h
    obtain ⟨l, us, rfl, list⟩ := exists_placed_cons later
    have rest := ih several (fun x hx => he x (List.mem_cons_of_mem _ hx)) list
    exact .more (item_of_tokens (he e List.mem_cons_self) item) rest

theorem optionList_of_tokens {ps : List Placed} {o : Options} (ho : o.Sound)
    (h : ps.map (·.token) = o.tokens) : OptionList ps o := by
  unfold tokens at h
  split at h
  · rename_i empty
    obtain ⟨entries⟩ := o
    obtain rfl : entries = [] := List.isEmpty_iff.1 empty
    obtain rfl := List.map_eq_nil_iff.1 h
    exact .absent
  · rename_i nonempty
    obtain ⟨l₁, qs, rfl, inner⟩ := exists_placed_cons h
    obtain ⟨rs, last, rfl, list, bracket⟩ := List.map_eq_append_iff.1 inner
    obtain ⟨l₂, us, rfl, none⟩ := exists_placed_cons bracket
    obtain rfl := List.map_eq_nil_iff.1 none
    have items := items_of_tokens (fun none => nonempty (List.isEmpty_iff.2 none)) ho list
    exact o.ofList_entries ▸ .items items

theorem steady_itemTokens {e : Text × Text} {t : Token} (he : Written e) (ht : t.isSign = true) :
    Steady false (itemTokens e ++ [t]) := by
  have last : Steady false [t] := (Token.steady_sign_cons ht).2 Token.steady_nil
  obtain ⟨noText, _, noBreak, _⟩ := Token.starts_of_isSign ht []
  have key : ∀ rest, Steady false (.equals :: rest) → Steady false (.text e.1 :: .equals :: rest) := by
    intro rest steady
    refine Token.steady_cons.2 ⟨⟨⟨he.key_ne_nil, he.key_plain, rfl, by simp⟩, ?_⟩, steady⟩
    intro hb
    simp [Token.startsBreak] at hb
  unfold itemTokens
  split
  · exact key _ ((Token.steady_sign_cons rfl).2 last)
  · rename_i nonempty
    refine key _ ((Token.steady_sign_cons rfl).2 (Token.steady_cons.2 ⟨⟨⟨?_, he.value_plain, noText,
      by simp⟩, ?_⟩, last⟩))
    · exact fun none => nonempty (List.isEmpty_iff.2 none)
    · intro hb
      simp [noBreak] at hb

theorem steady_tokensOf {es : List (Text × Text)} (he : ∀ e ∈ es, Written e) :
    Steady false (tokensOf es ++ [.rightBracket]) := by
  fun_induction tokensOf es with
  | case1 => exact (Token.steady_sign_cons rfl).2 Token.steady_nil
  | case2 e => exact steady_itemTokens (he e List.mem_cons_self) rfl
  | case3 e es several ih =>
    rw [List.append_assoc, List.cons_append, Token.steady_append_sign rfl]
    exact ⟨steady_itemTokens (he e List.mem_cons_self) rfl,
      ih fun x hx => he x (List.mem_cons_of_mem _ hx)⟩

/-- The list can be written in front of whatever may follow a bracket. -/
theorem steady_tokens_append {o : Options} {ts : List Token} (ho : o.Sound) (h : Steady false ts) :
    Steady false (o.tokens ++ ts) := by
  unfold tokens
  split
  · exact h
  · rw [List.cons_append, Token.steady_sign_cons rfl, List.append_assoc, List.singleton_append,
      Token.steady_append_sign rfl]
    exact ⟨steady_tokensOf ho, h⟩

end Options

end Literate
