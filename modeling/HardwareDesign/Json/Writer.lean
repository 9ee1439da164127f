import HardwareDesign.Json

namespace HardwareDesign.Json

namespace Writer

def hexDigit (n : Nat) : Char := Char.ofNat (if n < 10 then '0'.toNat + n else 'a'.toNat + (n - 10))

def escape (c : Char) : List Char :=
  if c = '"' then ['\\', '"']
  else if c = '\\' then ['\\', '\\']
  else if c.toNat < 0x20 then ['\\', 'u', '0', '0', hexDigit (c.toNat / 16), hexDigit (c.toNat % 16)]
  else [c]

def quoted (s : String) : String := "\"" ++ String.ofList (s.toList.flatMap escape) ++ "\""

end Writer

mutual

def render : Json → String
  | null => "null"
  | bool b => if b then "true" else "false"
  | nat n => toString n
  | decimal text => text
  | str s => Writer.quoted s
  | arr items => "[" ++ renderItems items ++ "]"
  | obj members => "\x7b" ++ renderMembers members ++ "\x7d"

def renderItems : List Json → String
  | [] => ""
  | [j] => j.render
  | j :: js => j.render ++ "," ++ renderItems js

def renderMembers : List (String × Json) → String
  | [] => ""
  | [(k, j)] => Writer.quoted k ++ ":" ++ j.render
  | (k, j) :: ms => Writer.quoted k ++ ":" ++ j.render ++ "," ++ renderMembers ms

end

end HardwareDesign.Json
