import HardwareDesign.Json.Token

namespace HardwareDesign.Toml

def digitRun (isDigit : Char → Bool) : List Char → Option (List Char)
  | [] => none
  | [c] => if isDigit c then some [c] else none
  | c :: '_' :: rest => if isDigit c then (digitRun isDigit rest).map (c :: ·) else none
  | c :: rest => if isDigit c then (digitRun isDigit rest).map (c :: ·) else none

def baseDigit (base : Nat) (c : Char) : Bool :=
  match Json.Token.hexValue c with
  | some n => n < base
  | none => false

def baseValue (base : Nat) (cs : List Char) : Nat :=
  cs.foldl (fun n c => n * base + (Json.Token.hexValue c).getD 0) 0

/-- The sign of a base counts as a number even if no digit follows, but as one that has no value. -/
inductive Numeral where
  | based (base : Nat) (digits : List Char)
  | whole (negative : Bool) (digits : List Char)
  | float (digits : List Char) (exponent : Int)
  | special

def basedNumeral? (base : Nat) (cs : List Char) : Option Numeral :=
  if cs.isEmpty then some (.based base []) else (digitRun (baseDigit base) cs).map (.based base)

def wholeDigits (cs : List Char) : Option (List Char) := do
  match ← digitRun Char.isDigit cs with
  | '0' :: _ :: _ => none
  | ds => some ds

def splitSign : List Char → Bool × List Char
  | '-' :: rest => (true, rest)
  | '+' :: rest => (false, rest)
  | cs => (false, cs)

def splitExponent (cs : List Char) : List Char × Option (List Char) :=
  match cs.dropWhile (fun c => c ≠ 'e' && c ≠ 'E') with
  | [] => (cs, none)
  | _ :: rest => (cs.takeWhile (fun c => c ≠ 'e' && c ≠ 'E'), some rest)

def splitPoint (cs : List Char) : List Char × Option (List Char) :=
  match cs.dropWhile (· ≠ '.') with
  | [] => (cs, none)
  | _ :: rest => (cs.takeWhile (· ≠ '.'), some rest)

def exponentValue? : Option (List Char) → Option Int
  | none => some 0
  | some cs => do
    let (negative, ds) := splitSign cs
    let n : Int := Json.Token.digitsValue (← digitRun Char.isDigit ds)
    return if negative then -n else n

def fractionDigits? : Option (List Char) → Option (List Char)
  | none => some []
  | some cs => digitRun Char.isDigit cs

def decimalNumeral? (negative : Bool) (cs : List Char) : Option Numeral := do
  let (mantissa, exponent) := splitExponent cs
  let (whole, fraction) := splitPoint mantissa
  let ws ← wholeDigits whole
  let fs ← fractionDigits? fraction
  let e ← exponentValue? exponent
  if fraction.isSome || exponent.isSome then some (.float (ws ++ fs) (e - (fs.length : Int)))
  else some (.whole negative ws)

def numeral? : List Char → Option Numeral
  | '0' :: 'x' :: rest => basedNumeral? 16 rest
  | '0' :: 'o' :: rest => basedNumeral? 8 rest
  | '0' :: 'b' :: rest => basedNumeral? 2 rest
  | cs =>
    let (negative, unsigned) := splitSign cs
    if unsigned = ['i', 'n', 'f'] || unsigned = ['n', 'a', 'n'] then some .special
    else decimalNumeral? negative unsigned

/-- An integer takes at most 128 bits, and a float is finite unless it says that it is not. -/
def Numeral.hasValue : Numeral → Bool
  | .based base digits => !digits.isEmpty && baseValue base digits < Nat.pow 2 128
  | .whole negative digits =>
    let n := Json.Token.digitsValue digits
    if negative then n ≤ Nat.pow 2 127 else n < Nat.pow 2 128
  | .float digits exponent =>
    let bound : Int := (digits.length + 400 : Nat)
    Json.Token.fitsDouble (Json.Token.digitsValue digits) (Json.Token.Numeral.clamp bound exponent)
  | .special => true

def twoDigits? (a b : Char) : Option Nat :=
  if a.isDigit && b.isDigit then some (Json.Token.digitsValue [a, b]) else none

def daysIn (year month : Nat) : Nat :=
  if month = 2 then if year % 4 = 0 && (year % 100 ≠ 0 || year % 400 = 0) then 29 else 28
  else if month = 4 || month = 6 || month = 9 || month = 11 then 30
  else 31

def date : List Char → Option (List Char)
  | a :: b :: c :: d :: '-' :: e :: f :: '-' :: g :: h :: rest => do
    let year := (← twoDigits? a b) * 100 + (← twoDigits? c d)
    let month ← twoDigits? e f
    let day ← twoDigits? g h
    if 1 ≤ month && month ≤ 12 && 1 ≤ day && day ≤ daysIn year month then some rest else none
  | _ => none

def fraction : List Char → Option (List Char)
  | '.' :: rest =>
    if (rest.takeWhile Char.isDigit).isEmpty then none else some (rest.dropWhile Char.isDigit)
  | cs => some cs

def time : List Char → Option (List Char)
  | a :: b :: ':' :: c :: d :: rest => do
    let hour ← twoDigits? a b
    let minute ← twoDigits? c d
    if hour < 24 && minute < 60 then
      match rest with
      | ':' :: e :: f :: rest => do
        let second ← twoDigits? e f
        if second ≤ 60 then fraction rest else none
      | ':' :: _ => none
      | rest => some rest
    else none
  | _ => none

def isOffset : List Char → Bool
  | [] => true
  | ['Z'] => true
  | ['z'] => true
  | sign :: a :: b :: ':' :: c :: d :: [] =>
    (sign = '+' || sign = '-') &&
      match twoDigits? a b, twoDigits? c d with
      | some hour, some minute => hour < 24 && minute < 60
      | _, _ => false
  | _ => false

def isMoment (cs : List Char) : Bool :=
  match date cs with
  | some [] => true
  | some (delimiter :: rest) =>
    (delimiter = 'T' || delimiter = 't' || delimiter = ' ') && (time rest).any isOffset
  | none => time cs = some []

def isDelimiter (c : Char) : Bool := " \t\r\n#,[]\x7b\x7d=\"'".toList.contains c

def scalarText (cs : List Char) : List Char × List Char :=
  let first := cs.takeWhile (!isDelimiter ·)
  match date first, cs.drop first.length with
  | some [], ' ' :: c :: rest =>
    if c.isDigit then
      let second := (c :: rest).takeWhile (!isDelimiter ·)
      (first ++ ' ' :: second, (c :: rest).drop second.length)
    else (first, ' ' :: c :: rest)
  | _, rest => (first, rest)

def scalarValue (cs : List Char) : Option Json :=
  if cs = "true".toList then some (.bool true)
  else if cs = "false".toList then some (.bool false)
  else if (numeral? cs).isSome then some (.decimal (String.ofList cs))
  else if isMoment cs then some (.obj [("moment", .str (String.ofList cs))])
  else none

mutual

def isReadable : Json → Bool
  | .decimal text => (numeral? text.toList).any Numeral.hasValue
  | .arr items => areReadable items
  | .obj members => membersAreReadable members
  | _ => true

def areReadable : List Json → Bool
  | [] => true
  | j :: rest => isReadable j && areReadable rest

def membersAreReadable : List (String × Json) → Bool
  | [] => true
  | (_, j) :: rest => isReadable j && membersAreReadable rest

end

end HardwareDesign.Toml
