import HardwareDesign.Table
import HardwareDesign.Toml.Scalar
import HardwareDesign.Toml.Text

namespace HardwareDesign.Toml

inductive Style where
  | implicit
  | explicit
  | dotted
  | closed
deriving DecidableEq

inductive Item where
  | value (j : Json)
  | table (style : Style) (entries : List (String × Item))
  | tables (newestFirst : List (List (String × Item)))

abbrev Entries := List (String × Item)

mutual

def Item.toJson : Item → Json
  | .value j => j
  | .table _ entries => .obj (entriesToJson entries)
  | .tables ts => .arr (tablesToJson ts).reverse

def entriesToJson : List (String × Item) → List (String × Json)
  | [] => []
  | (k, i) :: rest => (k, i.toJson) :: entriesToJson rest

def tablesToJson : List (List (String × Item)) → List Json
  | [] => []
  | t :: rest => .obj (entriesToJson t) :: tablesToJson rest

end

def replace (k : String) (i : Item) (entries : Entries) : Entries := Table.insertIn k i entries

def descend (dotted : Bool) (change : Style → Entries → Option Entries) :
    List String → Style → Entries → Option Entries
  | [], style, entries => change style entries
  | k :: path, _, entries =>
    match entries.lookup k with
    | none => do
      let style := if dotted then .dotted else .implicit
      return replace k (.table style (← descend dotted change path style [])) entries
    | some (.table style inner) =>
      if style = .closed || (dotted && style = .explicit) then none
      else do
        let style := if dotted then .dotted else style
        return replace k (.table style (← descend dotted change path style inner)) entries
    | some (.tables (newest :: earlier)) => do
      return replace k (.tables ((← descend dotted change path .explicit newest) :: earlier)) entries
    | some _ => none

def define (path : List String) (k : String) (i : Item) (style : Style) (entries : Entries) : Option Entries :=
  descend true (fun style entries =>
    if (style = .dotted) = path.isEmpty || (entries.lookup k).isSome then none else some (entries ++ [(k, i)]))
    path style entries

/-- A table that came about below the path of another header may still get its own. -/
def openTable (k : String) (_ : Style) (entries : Entries) : Option Entries :=
  match entries.lookup k with
  | none => some (entries ++ [(k, .table .explicit [])])
  | some (.table .implicit inner) => some (replace k (.table .explicit inner) entries)
  | some _ => none

def openElement (k : String) (_ : Style) (entries : Entries) : Option Entries :=
  match entries.lookup k with
  | none => some (entries ++ [(k, .tables [[]])])
  | some (.tables ts) => some (replace k (.tables ([] :: ts)) entries)
  | some _ => none

def splitKey (parts : List String) : Option (List String × String) := parts.getLast?.map (parts.dropLast, ·)

def members {α : Type} (member : Reader α) (close : Char) : Nat → Reader (List α)
  | 0, _ => none
  | fuel + 1, cs => do
    match ← skipLines false cs with
    | [] => none
    | c :: rest =>
      if c = close then return ([], rest)
      let (a, rest) ← member (c :: rest)
      match ← skipLines false rest with
      | ',' :: rest => do
        let (as, rest) ← members member close fuel rest
        return (a :: as, rest)
      | d :: rest => if d = close then return ([a], rest) else none
      | [] => none

def entry (skip : List Char → Option (List Char)) (value : Reader Item) : Reader (List String × Item) := fun cs => do
  let (parts, rest) ← key cs
  match ← skip rest with
  | '=' :: rest => do
    let (i, rest) ← value (← skip rest)
    return ((parts, i), rest)
  | _ => none

def defineAll : List (List String × Item) → Entries → Option Entries
  | [], entries => some entries
  | (parts, i) :: rest, entries => do
    let (path, k) ← splitKey parts
    defineAll rest (← define path k i .explicit entries)

def value : Nat → Reader Item
  | 0, '[' :: _ => none
  | 0, '\x7b' :: _ => none
  | depth + 1, '[' :: rest => do
    let (items, rest) ← members (value depth) ']' (rest.length + 1) rest
    return (.value (.arr (items.map Item.toJson)), rest)
  | depth + 1, '\x7b' :: rest => do
    let (entries, rest) ← members (entry (skipLines false) (value depth)) '\x7d' (rest.length + 1) rest
    return (.table .closed (← defineAll entries []), rest)
  | _, cs =>
    match cs with
    | '"' :: _ => (string cs).map fun (s, rest) => (.value (.str s), rest)
    | '\'' :: _ => (string cs).map fun (s, rest) => (.value (.str s), rest)
    | _ =>
      let (text, rest) := scalarText cs
      (scalarValue text).map fun j => (.value j, rest)

structure Progress where
  root : Entries := []
  header : List String := []

def header (isElement : Bool) (p : Progress) (cs : List Char) : Option (Progress × List Char) := do
  let (parts, rest) ← key cs
  let (path, k) ← splitKey parts
  let change := if isElement then openElement k else openTable k
  let root ← descend false change path .explicit p.root
  match isElement, skipBlank rest with
  | false, ']' :: rest => some (⟨root, parts⟩, rest)
  | true, ']' :: ']' :: rest => some (⟨root, parts⟩, rest)
  | _, _ => none

def statement (p : Progress) : List Char → Option (Progress × List Char)
  | '[' :: '[' :: rest => header true p rest
  | '[' :: rest => header false p rest
  | cs => do
    let ((parts, i), rest) ← entry (some ∘ skipBlank) (value nestingLimit) cs
    let (path, k) ← splitKey parts
    let root ← descend false (define path k i) p.header .explicit p.root
    some ({ p with root }, rest)

def statements : Nat → Progress → List Char → Option Progress
  | 0, _, _ => none
  | fuel + 1, p, cs => do
    match ← skipLines false cs with
    | [] => some p
    | cs => do
      let (p, rest) ← statement p cs
      statements fuel p (← endLine rest)

def skipMark : List Char → List Char
  | '\uFEFF' :: rest => rest
  | cs => cs

/-- Each statement takes at least one character, so the length of the text bounds their number. -/
def parse? (text : String) : Option Json := do
  let cs := skipMark text.toList
  let p ← statements (cs.length + 1) {} cs
  return .obj (entriesToJson p.root)

end HardwareDesign.Toml
