import Mathlib.Tactic.Lemma
import HardwareDesign.Placement.SubPath

namespace HardwareDesign.SubPath

def pieces (text : String) : List String := (text.split '|').toList.map (·.copy)

def stored (subPath : SubPath) : String := subPath.getD ""

variable {parts others : List String}

lemma joined_cons (part : String) (parts : List String) : joined (part :: parts) = "|" ++ part ++ joined parts := by
  rw [joined, joined, List.map_cons, String.join_cons]

lemma joined_append (parts others : List String) : joined (parts ++ others) = joined parts ++ joined others := by
  rw [joined, joined, joined, List.map_append, String.join_append]

lemma joined_eq_empty : joined parts = "" ↔ parts = [] := by
  cases parts with
  | nil => exact ⟨fun _ => rfl, fun _ => rfl⟩
  | cons part parts =>
    refine ⟨fun h => ?_, fun h => by cases h⟩
    rw [joined_cons, String.append_assoc] at h
    exact absurd (String.append_eq_empty_iff.mp h).1 (by decide)

lemma intercalate_joined (part : String) (parts : List String) :
    "|".intercalate (part :: parts) = part ++ joined parts := by
  induction parts generalizing part with
  | nil => rw [String.intercalate_singleton, joined, List.map_nil, String.join_nil, String.append_empty]
  | cons next parts ih =>
    calc "|".intercalate (part :: next :: parts) = part ++ "|" ++ (next ++ joined parts) := by
          rw [String.intercalate_cons_cons, ih]
      _ = part ++ ("|" ++ next ++ joined parts) := by rw [String.append_assoc, String.append_assoc]
      _ = part ++ joined (next :: parts) := by rw [joined_cons]

lemma pieces_joined (h : ∀ part ∈ parts, '|' ∉ part.toList) : pieces (joined parts) = "" :: parts := by
  have hplain : ∀ part ∈ "" :: parts, '|' ∉ part.toList := by
    intro part hm
    rcases List.mem_cons.mp hm with rfl | hm
    · simp
    · exact h part hm
  have hjoined : joined parts = (String.singleton '|').intercalate ("" :: parts) := by
    rw [show String.singleton '|' = "|" from rfl, intercalate_joined, String.empty_append]
  rw [pieces, hjoined, String.toList_split_intercalate hplain, if_neg (List.cons_ne_nil _ _)]

lemma ofParts_eq_none : ofParts parts = none ↔ parts = [] := by
  simp [ofParts, joined_eq_empty]

lemma ofParts_of_ne_nil (h : parts ≠ []) : ofParts parts = some (joined parts) := by
  simp [ofParts, joined_eq_empty, h]

lemma stored_ofParts (parts : List String) : stored (ofParts parts) = joined parts := by
  by_cases h : parts = []
  · subst h
    rfl
  · rw [ofParts_of_ne_nil h]
    rfl

/-- Parts without a bar can be told from their stored form, empty ones included. The form of two paths in a row is the
one of the first followed by that of the second, with or without bars. -/
theorem parts_split (hparts : ∀ part ∈ parts, '|' ∉ part.toList) (hothers : ∀ part ∈ others, '|' ∉ part.toList)
    (xs ys : List String) :
    (ofParts parts = none ↔ parts = []) ∧ (parts ≠ [] → ∃ text, ofParts parts = some text ∧ pieces text = "" :: parts) ∧
      (ofParts parts = ofParts others → parts = others) ∧
      stored (ofParts (xs ++ ys)) = stored (ofParts xs) ++ stored (ofParts ys) := by
  refine ⟨ofParts_eq_none, fun h => ⟨_, ofParts_of_ne_nil h, pieces_joined hparts⟩, fun h => ?_, ?_⟩
  · have hpieces : "" :: parts = "" :: others :=
      calc "" :: parts = pieces (stored (ofParts parts)) := by rw [stored_ofParts, pieces_joined hparts]
        _ = pieces (stored (ofParts others)) := by rw [h]
        _ = "" :: others := by rw [stored_ofParts, pieces_joined hothers]
    exact List.tail_eq_of_cons_eq hpieces
  · rw [stored_ofParts, stored_ofParts, stored_ofParts, joined_append]

theorem parts_split_empty : ∃ text, ofParts ["a", "", "b", ""] = some text ∧ pieces text = ["", "a", "", "b", ""] ∧
    ofParts ["a", "", "b", ""] ≠ ofParts ["a", "", "b"] ∧
    stored (ofParts ["a", "", "b", ""]) = stored (ofParts ["a", ""]) ++ stored (ofParts ["b", ""]) := by
  obtain ⟨_, hsplit, hinjective, happend⟩ := parts_split (by decide : ∀ part ∈ ["a", "", "b", ""], '|' ∉ part.toList)
    (by decide : ∀ part ∈ ["a", "", "b"], '|' ∉ part.toList) ["a", ""] ["b", ""]
  obtain ⟨text, htext, hpieces⟩ := hsplit (by decide)
  exact ⟨text, htext, hpieces, fun h => absurd (hinjective h) (by decide), happend⟩

end HardwareDesign.SubPath
