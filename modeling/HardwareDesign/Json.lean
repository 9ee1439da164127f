
namespace HardwareDesign

/-- A number is kept by value if it is natural and below `2 ^ 64`, and by its text otherwise. -/
inductive Json where
  | null
  | bool (b : Bool)
  | nat (n : Nat)
  | decimal (text : String)
  | str (s : String)
  | arr (items : List Json)
  | obj (members : List (String × Json))

namespace Json

instance : Inhabited Json := ⟨null⟩

def option {α : Type} (f : α → Json) : Option α → Json
  | none => null
  | some a => f a

def member (members : List (String × Json)) (name : String) : Option Json := members.lookup name

def fields (names : List String) : Json → Option (List (Option Json))
  | obj members => some (names.map (member members))
  | arr items => if items.length = names.length then some (items.map some) else none
  | _ => none

def str? : Json → Option String
  | str s => some s
  | _ => none

def bool? : Json → Option Bool
  | bool b => some b
  | _ => none

def natBelow? (bound : Nat) : Json → Option Nat
  | nat n => if n < bound then some n else none
  | _ => none

def word? (j : Json) : Option UInt64 := (j.natBelow? UInt64.size).map UInt64.ofNat

def list? {α : Type} (f : Json → Option α) : Json → Option (List α)
  | arr items => items.mapM f
  | _ => none

def nullable? {α : Type} (f : Json → Option α) : Option Json → Option (Option α)
  | none => some none
  | some null => some none
  | some j => (f j).map some

def required? {α : Type} (f : Json → Option α) (j : Option Json) : Option α := j.bind f

end Json

end HardwareDesign
