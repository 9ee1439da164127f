
namespace HardwareDesign

def candidate (base : String) : Nat → String
  | 0 => base
  | i + 1 => base ++ "_" ++ toString (i + 1)

def firstFree (taken : List String) (base : String) : Nat → Nat → Nat
  | 0, i => i
  | fuel + 1, i => if candidate base i ∈ taken then firstFree taken base fuel (i + 1) else i

/-- As many refusals as there are taken names are enough, because the candidates are all different. -/
def freshIndex (taken : List String) (base : String) : Nat := firstFree taken base taken.length 0

def freshName (taken : List String) (base : String) : String := candidate base (freshIndex taken base)

def triedNames (taken : List String) (base : String) : List String :=
  (List.range (freshIndex taken base + 1)).map (candidate base)

structure Names where
  taken : List String := []

namespace Names

def ofList (names : List String) : Names := ⟨names.reverse.eraseDups⟩

def assign (names : Names) (base : String) : String × Names :=
  (freshName names.taken base, ⟨freshName names.taken base :: names.taken⟩)

def assignAll : Names → List String → List String × Names
  | names, [] => ([], names)
  | names, base :: bases =>
    let (name, names) := names.assign base
    let (rest, names) := names.assignAll bases
    (name :: rest, names)

def toSortedList (names : Names) : List String := names.taken.eraseDups.mergeSort (fun a b => decide (a ≤ b))

end Names

end HardwareDesign
