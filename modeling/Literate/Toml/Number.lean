import Literate.Toml.Quoted

namespace Literate.Toml

/-- The digits after the first one. An underscore stands between two digits. -/
def moreDigits (base : Nat) : Text → Option (Text × Text)
  | [] => some ([], [])
  | '_' :: c :: rest =>
    if isDigit base c then (moreDigits base rest).map fun (ds, rest) => (c :: ds, rest) else none
  | ['_'] => none
  | c :: rest =>
    if isDigit base c then (moreDigits base rest).map fun (ds, rest) => (c :: ds, rest)
    else some ([], c :: rest)

def digits? (base : Nat) : Text → Option (Text × Text)
  | c :: rest =>
    if isDigit base c then (moreDigits base rest).map fun (ds, rest) => (c :: ds, rest) else none
  | [] => none

structure Decimal where
  negative : Bool
  digits : Text

/-- A decimal integer, without a zero in front. -/
def decimal? (t : Text) : Option (Decimal × Text) :=
  let (negative, body) := match t with
    | '-' :: rest => (true, rest)
    | '+' :: rest => (false, rest)
    | _ => (false, t)
  match body with
  | '0' :: rest => some (⟨negative, ['0']⟩, rest)
  | _ => (digits? 10 body).map fun (ds, rest) => (⟨negative, ds⟩, rest)

/-- Integers have 64 bits and a sign. -/
def inRange (n : Int) : Bool := -0x8000000000000000 ≤ n && n < 0x8000000000000000

def radix? (base : Nat) (t : Text) : Option (Int × Text) :=
  (digits? base t).bind fun (ds, rest) =>
    let n : Int := numeral base ds
    if inRange n then some (n, rest) else none

def exponent? : Text → Option (Int × Text)
  | c :: rest =>
    if c == 'e' || c == 'E' then
      let (negative, body) := match rest with
        | '-' :: rest => (true, rest)
        | '+' :: rest => (false, rest)
        | _ => (false, rest)
      (digits? 10 body).map fun (ds, rest) =>
        let n : Int := numeral 10 ds
        (if negative then -n else n, rest)
    else some (0, c :: rest)
  | [] => some (0, [])

/-- Whether `n * 10 ^ e` is too large for a float of 64 bits: it is no nearer to the largest one than
to the next power of two. -/
def overflows (n : Nat) (e : Int) : Bool :=
  let limit := Nat.pow 2 1024 - Nat.pow 2 970
  let size : Int := (toString n).length
  if n = 0 || size + e < 309 then false
  else if 310 < size + e then true
  else if 0 ≤ e then limit ≤ n * Nat.pow 10 e.toNat
  else limit * Nat.pow 10 (-e).toNat ≤ n

inductive Number where
  | integer (n : Int)
  | float (written : Text)

def taken (t rest : Text) : Text := t.take (t.length - rest.length)

def float? (t : Text) (whole : Decimal) (rest : Text) : Option (Number × Text) := do
  let (fraction, rest) ← match rest with
    | '.' :: rest => digits? 10 rest
    | _ => some ([], rest)
  let (e, rest) ← exponent? rest
  let n := numeral 10 (whole.digits ++ fraction)
  if !whole.negative && overflows n (e - fraction.length) then none
  else some (.float (taken t rest), rest)

def number? (t : Text) : Option (Number × Text) :=
  match t with
  | '0' :: 'x' :: rest => (radix? 16 rest).map fun (n, rest) => (.integer n, rest)
  | '0' :: 'o' :: rest => (radix? 8 rest).map fun (n, rest) => (.integer n, rest)
  | '0' :: 'b' :: rest => (radix? 2 rest).map fun (n, rest) => (.integer n, rest)
  | _ => do
    let (whole, rest) ← decimal? t
    match rest with
    | '.' :: _ | 'e' :: _ | 'E' :: _ => float? t whole rest
    | _ =>
      let n : Int := numeral 10 whole.digits
      let n := if whole.negative then -n else n
      if inRange n then some (.integer n, rest) else none

def special? (t : Text) : Option (Number × Text) :=
  let body := match t with
    | '-' :: rest => rest
    | '+' :: rest => rest
    | _ => t
  match body with
  | 'i' :: 'n' :: 'f' :: rest => some (.float (taken t rest), rest)
  | 'n' :: 'a' :: 'n' :: rest => some (.float (taken t rest), rest)
  | _ => none

def pair? (low high : Nat) : Text → Option (Nat × Text)
  | a :: b :: rest =>
    let n := numeral 10 [a, b]
    if isDigit 10 a && isDigit 10 b && low ≤ n && n ≤ high then some (n, rest) else none
  | _ => none

def expect? (c : Char) : Text → Option Text
  | d :: rest => if d = c then some rest else none
  | [] => none

def startsDate : Text → Bool
  | a :: b :: c :: d :: '-' :: _ => [a, b, c, d].all (isDigit 10)
  | _ => false

def startsTime : Text → Bool
  | a :: b :: ':' :: _ => isDigit 10 a && isDigit 10 b
  | _ => false

def daysIn (year month : Nat) : Nat :=
  let leap := year % 4 = 0 && (year % 100 ≠ 0 || year % 400 = 0)
  if month = 2 then (if leap then 29 else 28)
  else if [4, 6, 9, 11].contains month then 30
  else 31

def date? (t : Text) : Option Text := do
  let year := numeral 10 (t.take 4)
  let (month, rest) ← pair? 1 12 (t.drop 5)
  let rest ← expect? '-' rest
  let (_, rest) ← pair? 1 (daysIn year month) rest
  return rest

/-- The text after a time. A minute may have sixty-one seconds. -/
def time? (t : Text) : Option Text := do
  let (_, rest) ← pair? 0 23 t
  let rest ← expect? ':' rest
  let (_, rest) ← pair? 0 59 rest
  let rest ← expect? ':' rest
  let (_, rest) ← pair? 0 60 rest
  match rest with
  | '.' :: c :: more => if isDigit 10 c then some (more.dropWhile (isDigit 10)) else some rest
  | _ => some rest

def offset? : Text → Option Text
  | 'Z' :: rest => some rest
  | 'z' :: rest => some rest
  | c :: rest =>
    if c == '+' || c == '-' then do
      let (_, rest) ← pair? 0 23 rest
      let rest ← expect? ':' rest
      let (_, rest) ← pair? 0 59 rest
      return rest
    else some (c :: rest)
  | [] => some []

def moment? (t : Text) : Option (Text × Text) :=
  if startsDate t then do
    let rest ← date? t
    let rest ← match rest with
      | c :: more =>
        if (c == 'T' || c == 't' || c == ' ') && startsTime more then time? more >>= offset?
        else some rest
      | [] => some rest
    return (taken t rest, rest)
  else if startsTime t then do
    let rest ← time? t
    return (taken t rest, rest)
  else none

end Literate.Toml
