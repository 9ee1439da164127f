import Mathlib.Data.List.Induction
import Mathlib.Data.List.Nodup
import Mathlib.Tactic.Lemma
import HardwareDesign.Table

namespace HardwareDesign.Table

variable {κ ν : Type} [DecidableEq κ]

lemma findIn_append (k : κ) (xs ys : List (κ × ν)) : findIn k (xs ++ ys) = (findIn k xs).or (findIn k ys) := by
  induction xs with
  | nil => rfl
  | cons e es ih => by_cases h : e.1 = k <;> simp [findIn, h, ih]

lemma mem_of_findIn {k : κ} {v : ν} {es : List (κ × ν)} (h : findIn k es = some v) : (k, v) ∈ es := by
  induction es with
  | nil => simp [findIn] at h
  | cons e es ih =>
    by_cases he : e.1 = k
    · obtain rfl : e.2 = v := by simpa [findIn, he] using h
      exact he ▸ List.mem_cons_self
    · exact List.mem_cons_of_mem _ (ih (by simpa [findIn, he] using h))

lemma findIn_isSome {k : κ} {es : List (κ × ν)} : (findIn k es).isSome ↔ k ∈ es.map Prod.fst := by
  induction es with
  | nil => simp [findIn]
  | cons e es ih =>
    by_cases he : e.1 = k
    · simp [findIn, he]
    · simp [findIn, he, ih, Ne.symm he]

lemma findIn_of_mem {k : κ} {v : ν} {es : List (κ × ν)} (hn : (es.map Prod.fst).Nodup) (h : (k, v) ∈ es) :
    findIn k es = some v := by
  induction es with
  | nil => simp at h
  | cons e es ih =>
    obtain ⟨hk, hn⟩ := List.nodup_cons.mp hn
    rcases List.mem_cons.mp h with rfl | h
    · simp [findIn]
    · have hne : e.1 ≠ k := by
        intro he
        exact hk (he ▸ List.mem_map_of_mem (f := Prod.fst) h)
      simpa [findIn, hne] using ih hn h

lemma mem_of_find? {t : Table κ ν} {k : κ} {v : ν} (h : t.find? k = some v) : (k, v) ∈ t.entries := mem_of_findIn h

lemma contains_iff {t : Table κ ν} {k : κ} : t.contains k = true ↔ k ∈ t.keys := findIn_isSome

lemma contains_eq_false {t : Table κ ν} {k : κ} : t.contains k = false ↔ k ∉ t.keys := by
  rw [← contains_iff, Bool.not_eq_true]

lemma contains_eq_false_of_nodup {t : Table κ ν} {ks : List κ} (hn : (t.keys ++ ks).Nodup) {k : κ} (hk : k ∈ ks) :
    t.contains k = false := by
  apply contains_eq_false.mpr
  intro hm
  exact (List.nodup_append.mp hn).2.2 _ hm _ hk rfl

lemma find?_of_mem {t : Table κ ν} (hn : t.keys.Nodup) {k : κ} {v : ν} (h : (k, v) ∈ t.entries) :
    t.find? k = some v :=
  findIn_of_mem hn h

lemma exists_find?_of_mem_values {t : Table κ ν} (hn : t.keys.Nodup) {v : ν} (h : v ∈ t.values) :
    ∃ k, t.find? k = some v := by
  obtain ⟨⟨k, _⟩, he, rfl⟩ := List.mem_map.mp h
  exact ⟨k, find?_of_mem hn he⟩

lemma contains_of_find? {t : Table κ ν} {k : κ} {v : ν} (h : t.find? k = some v) : t.contains k = true := by
  simp [contains, h]

lemma find?_eq_none {t : Table κ ν} {k : κ} (h : t.contains k = false) : t.find? k = none := by
  simpa [contains] using h

lemma exists_of_contains {t : Table κ ν} {k : κ} (h : t.contains k = true) : ∃ v, t.find? k = some v :=
  Option.isSome_iff_exists.mp h

lemma insertIn_of_notMem {k : κ} (v : ν) {es : List (κ × ν)} (h : k ∉ es.map Prod.fst) :
    insertIn k v es = es ++ [(k, v)] := by
  induction es with
  | nil => rfl
  | cons e es ih =>
    rw [List.map_cons, List.mem_cons, not_or] at h
    simp [insertIn, Ne.symm h.1, ih h.2]

lemma map_fst_insertIn_of_mem {k : κ} (v : ν) {es : List (κ × ν)} (h : k ∈ es.map Prod.fst) :
    (insertIn k v es).map Prod.fst = es.map Prod.fst := by
  induction es with
  | nil => simp at h
  | cons e es ih =>
    by_cases he : e.1 = k
    · simp [insertIn, he]
    · rw [List.map_cons, List.mem_cons] at h
      simp [insertIn, he, ih (h.resolve_left (Ne.symm he))]

lemma entries_insert {t : Table κ ν} {k : κ} (v : ν) (h : t.contains k = false) :
    (t.insert k v).entries = t.entries ++ [(k, v)] :=
  insertIn_of_notMem v (contains_eq_false.mp h)

lemma keys_insert {t : Table κ ν} {k : κ} (v : ν) (h : t.contains k = false) :
    (t.insert k v).keys = t.keys ++ [k] := by
  simp [keys, entries_insert v h]

lemma mem_keys_insert {t : Table κ ν} {k l : κ} (v : ν) : l ∈ (t.insert k v).keys ↔ l ∈ t.keys ∨ l = k := by
  rw [← contains_iff, ← contains_iff, contains, contains, find?_insert]
  by_cases h : k = l
  · simp [h]
  · simp [h, Ne.symm h]

lemma nodup_keys_insert {t : Table κ ν} (k : κ) (v : ν) (h : t.keys.Nodup) : (t.insert k v).keys.Nodup := by
  cases hc : t.contains k with
  | true =>
    have hk : (t.insert k v).keys = t.keys := map_fst_insertIn_of_mem v (contains_iff.mp hc)
    exact hk ▸ h
  | false =>
    rw [keys_insert v hc, ← List.concat_eq_append]
    exact h.concat (contains_eq_false.mp hc)

lemma keys_modify (t : Table κ ν) (k : κ) (f : ν → ν) : (t.modify k f).keys = t.keys := by
  simp only [keys, modify, List.map_map]
  congr 1
  funext e
  by_cases h : e.1 = k <;> simp [h]

lemma nodup_keys_erase {t : Table κ ν} (k : κ) (h : t.keys.Nodup) : (t.erase k).keys.Nodup :=
  h.sublist (List.filter_sublist.map Prod.fst)

lemma insertNew_of_contains {t : Table κ ν} {k : κ} (v : ν) (h : t.contains k = true) : t.insertNew k v = t := by
  simp [insertNew, h]

lemma insertNew_of_not_contains {t : Table κ ν} {k : κ} (v : ν) (h : t.contains k = false) :
    t.insertNew k v = t.insert k v := by
  simp [insertNew, h]

lemma nodup_keys_insertNew {t : Table κ ν} (k : κ) (v : ν) (h : t.keys.Nodup) : (t.insertNew k v).keys.Nodup := by
  cases hc : t.contains k with
  | true => rwa [insertNew_of_contains v hc]
  | false => exact insertNew_of_not_contains v hc ▸ nodup_keys_insert k v h

lemma ofListFirst_concat (es : List (κ × ν)) (e : κ × ν) :
    ofListFirst (es ++ [e]) = (ofListFirst es).insertNew e.1 e.2 := by
  simp [ofListFirst]

lemma find?_ofListFirst (es : List (κ × ν)) (k : κ) : (ofListFirst es).find? k = findIn k es := by
  induction es using List.reverseRecOn with
  | nil => rfl
  | append_singleton es e ih =>
    rw [ofListFirst_concat, find?_insertNew, findIn_append]
    by_cases h : e.1 = k
    · subst h
      cases hf : findIn e.1 es <;> simp [ih, hf, findIn]
    · simp [findIn, ih, h]

lemma nodup_keys_ofListFirst (es : List (κ × ν)) : (ofListFirst es).keys.Nodup := by
  induction es using List.reverseRecOn with
  | nil => exact List.nodup_nil
  | append_singleton es e ih => exact ofListFirst_concat es e ▸ nodup_keys_insertNew _ _ ih

lemma contains_ofListFirst {es : List (κ × ν)} {k : κ} :
    (ofListFirst es).contains k = true ↔ k ∈ es.map Prod.fst := by
  rw [contains, find?_ofListFirst]
  exact findIn_isSome

lemma find?_ofListFirst_append {es : List (κ × ν)} {k : κ} {v : ν} (more : List (κ × ν))
    (h : (ofListFirst es).find? k = some v) : (ofListFirst (es ++ more)).find? k = some v := by
  rw [find?_ofListFirst] at h ⊢
  simp [findIn_append, h]

end HardwareDesign.Table
