import HardwareDesign.Json

namespace HardwareDesign.Json

inductive Token where
  | openList
  | closeList
  | openObject
  | closeObject
  | comma
  | colon
  | text (s : String)
  | scalar (j : Json)

namespace Token

def isBlank (c : Char) : Bool := c = ' ' || c = '\t' || c = '\n' || c = '\r'

def hexValue (c : Char) : Option Nat :=
  if '0' ≤ c ∧ c ≤ '9' then some (c.toNat - '0'.toNat)
  else if 'a' ≤ c ∧ c ≤ 'f' then some (c.toNat - 'a'.toNat + 10)
  else if 'A' ≤ c ∧ c ≤ 'F' then some (c.toNat - 'A'.toNat + 10)
  else none

def hexNumber (cs : List Char) : Option Nat :=
  cs.foldlM (fun n c => (hexValue c).map (n * 16 + ·)) 0

def isHighSurrogate (n : Nat) : Bool := 0xD800 ≤ n && n < 0xDC00

def isLowSurrogate (n : Nat) : Bool := 0xDC00 ≤ n && n < 0xE000

def escaped : Char → Option Char
  | '"' => some '"'
  | '\\' => some '\\'
  | '/' => some '/'
  | 'b' => some '\x08'
  | 'f' => some '\x0c'
  | 'n' => some '\n'
  | 'r' => some '\r'
  | 't' => some '\t'
  | _ => none

def stringBody (acc : List Char) : List Char → Option (String × List Char)
  | [] => none
  | '"' :: rest => some (String.ofList acc.reverse, rest)
  | '\\' :: 'u' :: a :: b :: c :: d :: '\\' :: 'u' :: e :: f :: g :: h :: rest =>
    (hexNumber [a, b, c, d]).bind fun n =>
      if isHighSurrogate n then
        (hexNumber [e, f, g, h]).bind fun m =>
          if isLowSurrogate m then
            stringBody (Char.ofNat (0x10000 + (n - 0xD800) * 0x400 + (m - 0xDC00)) :: acc) rest
          else none
      else if isLowSurrogate n then none
      else stringBody (Char.ofNat n :: acc) ('\\' :: 'u' :: e :: f :: g :: h :: rest)
  | '\\' :: 'u' :: a :: b :: c :: d :: rest =>
    (hexNumber [a, b, c, d]).bind fun n =>
      if isHighSurrogate n || isLowSurrogate n then none else stringBody (Char.ofNat n :: acc) rest
  | '\\' :: c :: rest => (escaped c).bind fun e => stringBody (e :: acc) rest
  | c :: rest => if c.toNat < 0x20 then none else stringBody (c :: acc) rest

def digitsValue (cs : List Char) : Nat := cs.foldl (fun n c => n * 10 + (c.toNat - '0'.toNat)) 0

/-- From here on a decimal is nearer to no finite double than to the first power of two above them. -/
def doubleLimit : Nat := Nat.pow 2 1024 - Nat.pow 2 970

def fitsDouble (mantissa : Nat) (exponent : Int) : Bool :=
  if mantissa = 0 then true
  else if 310 < exponent then false
  else if 0 ≤ exponent then mantissa * Nat.pow 10 exponent.toNat < doubleLimit
  else mantissa < doubleLimit * Nat.pow 10 exponent.natAbs

structure Numeral where
  negative : Bool
  whole : List Char
  fraction : Option (List Char)
  exponent : Option (Bool × List Char)

namespace Numeral

def exponentValue (n : Numeral) : Int :=
  match n.exponent with
  | none => 0
  | some (true, ds) => -(digitsValue ds : Int)
  | some (false, ds) => digitsValue ds

def clamp (bound : Int) (e : Int) : Int := max (-bound) (min bound e)

def toJson? (n : Numeral) : Option Json :=
  match n.negative, n.fraction, n.exponent with
  | false, none, none =>
    if digitsValue n.whole < UInt64.size then some (.nat (digitsValue n.whole))
    else if fitsDouble (digitsValue n.whole) 0 then some (.decimal (String.ofList n.whole))
    else none
  | _, _, _ =>
    let fraction := n.fraction.getD []
    let places : Int := fraction.length
    let bound : Int := (n.whole.length + fraction.length + 400 : Nat)
    if fitsDouble (digitsValue (n.whole ++ fraction)) (clamp bound (n.exponentValue - places)) then
      some (.decimal ((if n.negative then "-" else "") ++ String.ofList n.whole ++
        (match n.fraction with
          | none => ""
          | some ds => "." ++ String.ofList ds) ++
        (match n.exponent with
          | none => ""
          | some (negative, ds) => "e" ++ (if negative then "-" else "") ++ String.ofList ds)))
    else none

end Numeral

def digits (cs : List Char) : Option (List Char × List Char) :=
  match cs.takeWhile Char.isDigit with
  | [] => none
  | ds => some (ds, cs.dropWhile Char.isDigit)

def wholePart : List Char → Option (List Char × List Char)
  | '0' :: rest => if (rest.takeWhile Char.isDigit).isEmpty then some (['0'], rest) else none
  | cs => digits cs

def fractionPart : List Char → Option (Option (List Char) × List Char)
  | '.' :: rest => (digits rest).map fun (ds, rest) => (some ds, rest)
  | cs => some (none, cs)

def exponentDigits : List Char → Option ((Bool × List Char) × List Char)
  | '+' :: rest => (digits rest).map fun (ds, rest) => ((false, ds), rest)
  | '-' :: rest => (digits rest).map fun (ds, rest) => ((true, ds), rest)
  | cs => (digits cs).map fun (ds, rest) => ((false, ds), rest)

def exponentPart : List Char → Option (Option (Bool × List Char) × List Char)
  | 'e' :: rest => (exponentDigits rest).map fun (e, rest) => (some e, rest)
  | 'E' :: rest => (exponentDigits rest).map fun (e, rest) => (some e, rest)
  | cs => some (none, cs)

def unsignedNumber (negative : Bool) (cs : List Char) : Option (Json × List Char) := do
  let (whole, cs) ← wholePart cs
  let (fraction, cs) ← fractionPart cs
  let (exponent, cs) ← exponentPart cs
  return (← Numeral.toJson? ⟨negative, whole, fraction, exponent⟩, cs)

def number : List Char → Option (Json × List Char)
  | '-' :: cs => unsignedNumber true cs
  | cs => unsignedNumber false cs

def next : List Char → Option (Token × List Char)
  | '[' :: rest => some (openList, rest)
  | ']' :: rest => some (closeList, rest)
  | '\x7b' :: rest => some (openObject, rest)
  | '\x7d' :: rest => some (closeObject, rest)
  | ',' :: rest => some (comma, rest)
  | ':' :: rest => some (colon, rest)
  | '"' :: rest => (stringBody [] rest).map fun (s, rest) => (text s, rest)
  | 'n' :: 'u' :: 'l' :: 'l' :: rest => some (scalar null, rest)
  | 't' :: 'r' :: 'u' :: 'e' :: rest => some (scalar (bool true), rest)
  | 'f' :: 'a' :: 'l' :: 's' :: 'e' :: rest => some (scalar (bool false), rest)
  | cs => (number cs).map fun (j, rest) => (scalar j, rest)

def upTo : Nat → List Char → Option (List Token)
  | 0, cs => if (cs.dropWhile isBlank).isEmpty then some [] else none
  | fuel + 1, cs =>
    match cs.dropWhile isBlank with
    | [] => some []
    | cs => do
      let (token, rest) ← next cs
      return token :: (← upTo fuel rest)

def all (s : String) : Option (List Token) := upTo s.toList.length s.toList

end Token

end HardwareDesign.Json
