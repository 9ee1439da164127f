
namespace HardwareDesign

structure Table (κ ν : Type) where
  entries : List (κ × ν) := []

namespace Table

variable {κ ν : Type} [DecidableEq κ]

def empty : Table κ ν := ⟨[]⟩

instance : Inhabited (Table κ ν) := ⟨empty⟩

def findIn (k : κ) : List (κ × ν) → Option ν
  | [] => none
  | e :: es => if e.1 = k then some e.2 else findIn k es

def find? (t : Table κ ν) (k : κ) : Option ν := findIn k t.entries

def contains (t : Table κ ν) (k : κ) : Bool := (t.find? k).isSome

def keys (t : Table κ ν) : List κ := t.entries.map Prod.fst

def values (t : Table κ ν) : List ν := t.entries.map Prod.snd

def size (t : Table κ ν) : Nat := t.entries.length

def insertIn (k : κ) (v : ν) : List (κ × ν) → List (κ × ν)
  | [] => [(k, v)]
  | e :: es => if e.1 = k then (k, v) :: es else e :: insertIn k v es

/-- A key that is present keeps its place and gets the new value; a new key goes last. -/
def insert (t : Table κ ν) (k : κ) (v : ν) : Table κ ν := ⟨insertIn k v t.entries⟩

def insertNew (t : Table κ ν) (k : κ) (v : ν) : Table κ ν := if t.contains k then t else t.insert k v

def erase (t : Table κ ν) (k : κ) : Table κ ν := ⟨t.entries.filter (fun e => e.1 ≠ k)⟩

def modify (t : Table κ ν) (k : κ) (f : ν → ν) : Table κ ν :=
  ⟨t.entries.map (fun e => if e.1 = k then (e.1, f e.2) else e)⟩

def ofListFirst (es : List (κ × ν)) : Table κ ν := es.foldl (fun t e => t.insertNew e.1 e.2) empty

theorem findIn_insertIn_self (k : κ) (v : ν) (es : List (κ × ν)) : findIn k (insertIn k v es) = some v := by
  induction es with
  | nil => simp [insertIn, findIn]
  | cons e es ih => by_cases h : e.1 = k <;> simp [insertIn, findIn, h, ih]

theorem findIn_insertIn_of_ne {k l : κ} (v : ν) (h : k ≠ l) (es : List (κ × ν)) :
    findIn l (insertIn k v es) = findIn l es := by
  induction es with
  | nil => simp [insertIn, findIn, h]
  | cons e es ih =>
    by_cases he : e.1 = k
    · simp [insertIn, findIn, he, h]
    · simp [insertIn, findIn, he, ih]

@[simp] theorem find?_insert_self (t : Table κ ν) (k : κ) (v : ν) : (t.insert k v).find? k = some v :=
  findIn_insertIn_self k v t.entries

theorem find?_insert_of_ne (t : Table κ ν) {k l : κ} (v : ν) (h : k ≠ l) :
    (t.insert k v).find? l = t.find? l :=
  findIn_insertIn_of_ne v h t.entries

theorem find?_insert (t : Table κ ν) (k l : κ) (v : ν) :
    (t.insert k v).find? l = if k = l then some v else t.find? l := by
  by_cases h : k = l
  · subst h; simp
  · simp [h, find?_insert_of_ne t v h]

theorem find?_insertNew (t : Table κ ν) (k l : κ) (v : ν) :
    (t.insertNew k v).find? l = if k = l then some ((t.find? k).getD v) else t.find? l := by
  by_cases hc : t.contains k = true
  · obtain ⟨w, hw⟩ := Option.isSome_iff_exists.mp hc
    by_cases h : k = l
    · subst h; simp [insertNew, hc, hw]
    · simp [insertNew, hc, h]
  · have hn : t.find? k = none := by simpa [contains] using hc
    simp [insertNew, hc, hn, find?_insert]

theorem findIn_filter_ne (k l : κ) (es : List (κ × ν)) :
    findIn l (es.filter (fun e => e.1 ≠ k)) = if k = l then none else findIn l es := by
  induction es with
  | nil => simp [findIn]
  | cons e es ih =>
    rw [List.filter_cons]
    by_cases he : e.1 = k <;> by_cases h : k = l <;> by_cases hl : e.1 = l <;> simp_all [findIn]

theorem find?_erase (t : Table κ ν) (k l : κ) :
    (t.erase k).find? l = if k = l then none else t.find? l :=
  findIn_filter_ne k l t.entries

theorem findIn_map_modify (k l : κ) (f : ν → ν) (es : List (κ × ν)) :
    findIn l (es.map (fun e => if e.1 = k then (e.1, f e.2) else e)) =
      if k = l then (findIn l es).map f else findIn l es := by
  induction es with
  | nil => simp [findIn]
  | cons e es ih =>
    by_cases he : e.1 = k <;> by_cases hl : e.1 = l <;> by_cases h : k = l <;>
      simp_all [findIn]

theorem find?_modify (t : Table κ ν) (k l : κ) (f : ν → ν) :
    (t.modify k f).find? l = if k = l then (t.find? l).map f else t.find? l :=
  findIn_map_modify k l f t.entries

end Table

end HardwareDesign
