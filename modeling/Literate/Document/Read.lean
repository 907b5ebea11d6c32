import Literate.Token.Scan

namespace Literate.Read

abbrev Result (α : Type) := Except SyntaxFault (α × List Placed)

def expected (finish : Location) (what : Expectation) : List Placed → SyntaxFault
  | [] => ⟨finish, .expected what none⟩
  | ⟨token, loc⟩ :: _ => ⟨loc, .expected what (some token)⟩

/-- The name goes up to the next sign, and a blank parts it from the directive. -/
def name (directive : Location) : List Placed → Result Text
  | ⟨.text t, loc⟩ :: rest =>
    if t.head?.any Text.isBlank && !t.trim.isEmpty then .ok (t.trim, rest)
    else .error ⟨loc, .missingName⟩
  | tokens => .error (expected directive .chunkName tokens)

def value : List Placed → Text × List Placed
  | ⟨.text t, _⟩ :: rest => (t.trim, rest)
  | tokens => ([], tokens)

theorem value_length_le (tokens : List Placed) : (value tokens).2.length ≤ tokens.length := by
  unfold value
  split <;> simp

def items (finish : Location) (options : Options) : List Placed → Result Options
  | ⟨.text t, loc⟩ :: afterKey =>
    if t.trim.isEmpty then .error ⟨loc, .emptyKey⟩
    else
      match afterKey with
      | ⟨.equals, _⟩ :: afterEquals =>
        let options := options.insert t.trim (value afterEquals).1
        match _h : (value afterEquals).2 with
        | ⟨.comma, _⟩ :: rest => items finish options rest
        | ⟨.rightBracket, _⟩ :: rest => .ok (options, rest)
        | tokens => .error (expected finish .separator tokens)
      | tokens => .error (expected finish (.equalsAfter t.trim) tokens)
  | tokens => .error (expected finish .propertyKey tokens)
termination_by tokens => tokens.length
decreasing_by
  have := value_length_le afterEquals
  rw [_h] at this
  simp only [List.length_cons] at this ⊢
  omega

def options (finish : Location) : List Placed → Result Options
  | ⟨.leftBracket, _⟩ :: ⟨.rightBracket, _⟩ :: rest => .ok ({}, rest)
  | ⟨.leftBracket, _⟩ :: rest => items finish {} rest
  | tokens => .ok ({}, tokens)

def skipBlankText : List Placed → List Placed
  | ⟨.text t, loc⟩ :: rest => if t.trim.isEmpty then rest else ⟨.text t, loc⟩ :: rest
  | tokens => tokens

/-- Takes one line break. The rest of its run stays, one line further on. -/
def lineEnd (finish : Location) (chunk : Text) (frame : Frame) :
    List Placed → Except SyntaxFault (List Placed)
  | [] => .error ⟨finish, .unterminated chunk⟩
  | ⟨.breaks (n + 2), loc⟩ :: rest => .ok (⟨.breaks (n + 1), loc.step '\n'⟩ :: rest)
  | ⟨.breaks _, _⟩ :: rest => .ok rest
  | ⟨token, loc⟩ :: _ => .error ⟨loc, .unexpectedAfter token frame⟩

structure Header where
  name : Text
  options : Options

def header (finish directive : Location) (tokens : List Placed) :
    Except SyntaxFault (Header × List Placed) := do
  let (name, tokens) ← name directive tokens
  let (options, tokens) ← options finish tokens
  let tokens ← lineEnd finish name .header (skipBlankText tokens)
  return (⟨name, options⟩, tokens)

def reference (indent name : Text) (loc : Location) : Except SyntaxFault Segment :=
  if name.trim.isEmpty then .error ⟨loc, .emptyReference⟩
  else .ok (.reference name.trim indent loc)

/-- The last line break of a body belongs to the footer. -/
def dropFinalBreak : List Segment → List Segment
  | [] => []
  | [.text t] =>
    if t.getLast? = some '\n' then
      if t.dropLast.isEmpty then [] else [.text t.dropLast]
    else [.text t]
  | g :: rest => g :: dropFinalBreak rest

/-- The line of `@end` holds nothing else, but may be the last one of the source. -/
def footer (finish : Location) (chunk : Text) (tokens : List Placed) :
    Except SyntaxFault (List Placed) :=
  match skipBlankText tokens with
  | [] => .ok []
  | tokens => lineEnd finish chunk .footer tokens

/-- The segments up to `@end`, one for each token. It has to start its line. -/
def body (finish directive : Location) (chunk : Text) (lineStart : Bool) :
    List Placed → Result (List Segment)
  | [] => .error ⟨directive, .unterminated chunk⟩
  | ⟨.closing, loc⟩ :: rest =>
    if lineStart then
      match footer finish chunk rest with
      | .error e => .error e
      | .ok rest => .ok ([], rest)
    else .error ⟨loc, .footerNotAlone⟩
  | ⟨.opening kind, loc⟩ :: _ => .error ⟨loc, .nestedOpening (.opening kind) chunk⟩
  | ⟨.reference indent name, loc⟩ :: rest =>
    match reference indent name loc with
    | .error e => .error e
    | .ok g =>
      match body finish directive chunk false rest with
      | .error e => .error e
      | .ok (later, rest) => .ok (g :: later, rest)
  | ⟨token, _⟩ :: rest =>
    match body finish directive chunk token.isBreak rest with
    | .error e => .error e
    | .ok (later, rest) => .ok (.text token.literal :: later, rest)

def chunk (finish : Location) (kind : ChunkKind) (loc : Location) (tokens : List Placed) :
    Except SyntaxFault (Chunk × List Placed) := do
  let (header, tokens) ← header finish loc tokens
  let (segments, tokens) ← body finish loc header.name true tokens
  let content := dropFinalBreak (Segment.coalesce segments)
  return ({ kind, name := header.name, options := header.options, content, loc }, tokens)

theorem name_length_lt {directive : Location} {tokens rest : List Placed} {t : Text}
    (h : name directive tokens = .ok (t, rest)) : rest.length < tokens.length := by
  unfold name at h
  split at h
  · split at h
    · simp only [Except.ok.injEq, Prod.mk.injEq] at h
      simp [h.2]
    · simp at h
  · simp at h

theorem items_length_le {finish : Location} {options found : Options} {tokens rest : List Placed}
    (h : items finish options tokens = .ok (found, rest)) : rest.length ≤ tokens.length := by
  fun_induction items finish options tokens with
  | case1 => simp at h
  | case2 options t loc _ loc' tail options' loc'' rest' hv ih =>
    have := value_length_le tail
    have := ih h
    simp only [hv, List.length_cons] at *
    omega
  | case3 options t loc _ loc' tail options' loc'' rest' hv =>
    have := value_length_le tail
    simp only [Except.ok.injEq, Prod.mk.injEq] at h
    simp only [hv, ← h.2, List.length_cons] at *
    omega
  | case4 => simp at h
  | case5 => simp at h
  | case6 => simp at h

theorem options_length_le {finish : Location} {found : Options} {tokens rest : List Placed}
    (h : options finish tokens = .ok (found, rest)) : rest.length ≤ tokens.length := by
  unfold options at h
  split at h
  · simp only [Except.ok.injEq, Prod.mk.injEq] at h
    simp only [← h.2, List.length_cons]
    omega
  · have := items_length_le h
    simp only [List.length_cons]
    omega
  · simp only [Except.ok.injEq, Prod.mk.injEq] at h
    simp [h.2]

theorem skipBlankText_length_le (tokens : List Placed) :
    (skipBlankText tokens).length ≤ tokens.length := by
  unfold skipBlankText
  split
  · split <;> simp
  · simp

theorem lineEnd_length_le {finish : Location} {chunk : Text} {frame : Frame}
    {tokens rest : List Placed} (h : lineEnd finish chunk frame tokens = .ok rest) :
    rest.length ≤ tokens.length := by
  unfold lineEnd at h
  split at h <;> simp at h <;> simp [← h]

theorem header_length_lt {finish directive : Location} {tokens rest : List Placed} {x : Header}
    (h : header finish directive tokens = .ok (x, rest)) : rest.length < tokens.length := by
  simp only [header, bind, Except.bind] at h
  split at h
  · simp at h
  · rename_i p hp
    split at h
    · simp at h
    · rename_i q hq
      split at h
      · simp at h
      · rename_i r hr
        simp only [pure, Except.pure, Except.ok.injEq, Prod.mk.injEq] at h
        have := name_length_lt hp
        have := options_length_le hq
        have := skipBlankText_length_le q.2
        have := lineEnd_length_le hr
        rw [← h.2]
        omega

theorem footer_length_le {finish : Location} {chunk : Text} {tokens rest : List Placed}
    (h : footer finish chunk tokens = .ok rest) : rest.length ≤ tokens.length := by
  have := skipBlankText_length_le tokens
  unfold footer at h
  split at h
  · simp at h
    simp [h]
  · have := lineEnd_length_le h
    omega

theorem body_length_le {finish directive : Location} {chunk : Text} {lineStart : Bool}
    {found : List Segment} {tokens rest : List Placed}
    (h : body finish directive chunk lineStart tokens = .ok (found, rest)) :
    rest.length ≤ tokens.length := by
  fun_induction body finish directive chunk lineStart tokens generalizing found rest with
  | case1 => simp at h
  | case2 => simp at h
  | case3 loc tail rest' hf =>
    have := footer_length_le hf
    simp only [Except.ok.injEq, Prod.mk.injEq] at h
    rw [← h.2, List.length_cons]
    omega
  | case4 => simp at h
  | case5 => simp at h
  | case6 => simp at h
  | case7 => simp at h
  | case8 lineStart indent name loc tail g hg later rest' hb ih =>
    simp only [Except.ok.injEq, Prod.mk.injEq] at h
    have := ih hb
    rw [← h.2, List.length_cons]
    omega
  | case9 => simp at h
  | case10 lineStart token loc tail h1 h2 h3 later rest' hb ih =>
    simp only [Except.ok.injEq, Prod.mk.injEq] at h
    have := ih hb
    rw [← h.2, List.length_cons]
    omega

theorem chunk_length_lt {finish loc : Location} {kind : ChunkKind} {c : Chunk}
    {tokens rest : List Placed} (h : chunk finish kind loc tokens = .ok (c, rest)) :
    rest.length < tokens.length := by
  simp only [chunk, bind, Except.bind] at h
  split at h
  · simp at h
  · rename_i p hp
    split at h
    · simp at h
    · rename_i q hq
      simp only [pure, Except.pure, Except.ok.injEq, Prod.mk.injEq] at h
      have := header_length_lt hp
      have := body_length_le hq
      rw [← h.2]
      omega

/-- The chunks of a document. A directive has to start its line. -/
def chunks (finish : Location) (lineStart : Bool) : List Placed → Traced (List Chunk)
  | [] => pure []
  | ⟨.opening kind, loc⟩ :: rest =>
    if lineStart then
      match _h : chunk finish kind loc rest with
      | .error e => .fail (.source e)
      | .ok (c, rest) => do
        .report (.chunkRead c.kind c.name c.loc c.content.length)
        let later ← chunks finish true rest
        return c :: later
    else .fail (.source ⟨loc, .notAtLineStart (.opening kind)⟩)
  | ⟨.closing, loc⟩ :: _ => .fail (.source ⟨loc, .nothingOpen⟩)
  | ⟨.reference indent name, loc⟩ :: rest =>
    match reference indent name loc with
    | .error e => .fail (.source e)
    | .ok g => do
      let later ← chunks finish false rest
      return .wrapper g loc :: later
  | ⟨token, loc⟩ :: rest => do
    let later ← chunks finish token.isBreak rest
    return .wrapper (.text token.literal) loc :: later
termination_by tokens => tokens.length
decreasing_by
  · have := chunk_length_lt _h
    simp only [List.length_cons]
    omega
  · simp
  · simp

end Literate.Read

namespace Literate.Document

/-- Reads a document. `path` is what its locations name as the source. -/
def read (path : Option Text) (source : Text) : Traced Document := do
  let source := source.unifyBreaks
  let tokens ← Token.scan path source
  let chunks ← Read.chunks ((Location.start path).advance source) true tokens
  .report (.documentRead chunks.length)
  return { chunks, path }

end Literate.Document
