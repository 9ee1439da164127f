import HardwareDesign.Json.Token
import HardwareDesign.Toml.Blank

namespace HardwareDesign.Toml

def isScalarValue (n : Nat) : Bool := n < 0xD800 || (0xE000 ≤ n && n < 0x110000)

def codePoint (digits rest : List Char) : Option (Char × List Char) := do
  let n ← Json.Token.hexNumber digits
  if isScalarValue n then some (Char.ofNat n, rest) else none

def escape : Reader Char
  | 'b' :: rest => some ('\x08', rest)
  | 't' :: rest => some ('\t', rest)
  | 'n' :: rest => some ('\n', rest)
  | 'f' :: rest => some ('\x0c', rest)
  | 'r' :: rest => some ('\r', rest)
  | 'e' :: rest => some ('\x1b', rest)
  | '"' :: rest => some ('"', rest)
  | '\\' :: rest => some ('\\', rest)
  | 'x' :: a :: b :: rest => codePoint [a, b] rest
  | 'u' :: a :: b :: c :: d :: rest => codePoint [a, b, c, d] rest
  | 'U' :: a :: b :: c :: d :: e :: f :: g :: h :: rest => codePoint [a, b, c, d, e, f, g, h] rest
  | _ => none

def finish (acc rest : List Char) : Option (String × List Char) := some (String.ofList acc.reverse, rest)

def basicBody : Nat → List Char → Reader String
  | 0, _, _ => none
  | _, acc, '"' :: rest => finish acc rest
  | fuel + 1, acc, '\\' :: rest => (escape rest).bind fun (c, rest) => basicBody fuel (c :: acc) rest
  | fuel + 1, acc, c :: rest => if isText c then basicBody fuel (c :: acc) rest else none
  | _, _, [] => none

def literalBody : Reader String := fun cs =>
  match cs.dropWhile (fun c => c ≠ '\'' && isText c) with
  | '\'' :: rest => some (String.ofList (cs.takeWhile fun c => c ≠ '\'' && isText c), rest)
  | _ => none

def isLineEnd : List Char → Bool
  | '\n' :: _ => true
  | '\r' :: '\n' :: _ => true
  | _ => false

def dropLineEnd : List Char → List Char
  | '\n' :: rest => rest
  | '\r' :: '\n' :: rest => rest
  | cs => cs

def skipSpace : List Char → List Char
  | '\n' :: rest => skipSpace rest
  | '\r' :: '\n' :: rest => skipSpace rest
  | c :: rest => if isBlank c then skipSpace rest else c :: rest
  | [] => []

/-- One or two quotes may stand before the three that close the text. A backslash at the end of a line drops all
space up to the next character. -/
def multilineBasicBody : Nat → List Char → Reader String
  | 0, _, _ => none
  | _, acc, '"' :: '"' :: '"' :: '"' :: '"' :: rest => finish ('"' :: '"' :: acc) rest
  | _, acc, '"' :: '"' :: '"' :: '"' :: rest => finish ('"' :: acc) rest
  | _, acc, '"' :: '"' :: '"' :: rest => finish acc rest
  | fuel + 1, acc, '\\' :: rest =>
    if isLineEnd (skipBlank rest) then multilineBasicBody fuel acc (skipSpace rest)
    else (escape rest).bind fun (c, rest) => multilineBasicBody fuel (c :: acc) rest
  | fuel + 1, acc, '\r' :: '\n' :: rest => multilineBasicBody fuel ('\n' :: '\r' :: acc) rest
  | fuel + 1, acc, c :: rest =>
    if isText c || c = '\n' then multilineBasicBody fuel (c :: acc) rest else none
  | _, _, [] => none

def multilineLiteralBody (acc : List Char) : Reader String
  | '\'' :: '\'' :: '\'' :: '\'' :: '\'' :: rest => finish ('\'' :: '\'' :: acc) rest
  | '\'' :: '\'' :: '\'' :: '\'' :: rest => finish ('\'' :: acc) rest
  | '\'' :: '\'' :: '\'' :: rest => finish acc rest
  | '\r' :: '\n' :: rest => multilineLiteralBody ('\n' :: '\r' :: acc) rest
  | c :: rest => if isText c || c = '\n' then multilineLiteralBody (c :: acc) rest else none
  | [] => none

def string : Reader String
  | '"' :: '"' :: '"' :: rest => multilineBasicBody (rest.length + 1) [] (dropLineEnd rest)
  | '"' :: rest => basicBody (rest.length + 1) [] rest
  | '\'' :: '\'' :: '\'' :: rest => multilineLiteralBody [] (dropLineEnd rest)
  | '\'' :: rest => literalBody rest
  | _ => none

def isBareKey (c : Char) : Bool := c.isAlphanum || c = '_' || c = '-'

def simpleKey : Reader String
  | '"' :: rest => basicBody (rest.length + 1) [] rest
  | '\'' :: rest => literalBody rest
  | cs =>
    match cs.takeWhile isBareKey with
    | [] => none
    | key => some (String.ofList key, cs.dropWhile isBareKey)

def keyUpTo : Nat → Reader (List String)
  | 0, _ => none
  | fuel + 1, cs => do
    let (part, rest) ← simpleKey (skipBlank cs)
    match skipBlank rest with
    | '.' :: rest => do
      let (parts, rest) ← keyUpTo fuel rest
      return (part :: parts, rest)
    | rest => return ([part], rest)

def nestingLimit : Nat := 80

def key : Reader (List String) := keyUpTo nestingLimit

end HardwareDesign.Toml
