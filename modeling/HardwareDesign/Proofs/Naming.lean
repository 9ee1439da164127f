import Mathlib.Data.Finset.Card
import Mathlib.Tactic.Lemma
import HardwareDesign.Name

namespace HardwareDesign

def IsFresh (taken : List String) (base name : String) : Prop :=
  ∃ i, name = candidate base i ∧ name ∉ taken ∧ ∀ j < i, candidate base j ∈ taken

lemma toString_injective {m n : Nat} (h : toString m = toString n) : m = n := by
  have hd : Nat.toDigits 10 m = Nat.toDigits 10 n := by
    simpa [Nat.toString_eq_repr, Nat.toList_repr] using congrArg String.toList h
  calc m = Nat.ofDigitChars 10 (Nat.toDigits 10 m) 0 := Nat.ofDigitChars_ten_toDigits.symm
    _ = Nat.ofDigitChars 10 (Nat.toDigits 10 n) 0 := by rw [hd]
    _ = n := Nat.ofDigitChars_ten_toDigits

lemma base_ne_suffixed (base : String) (i : Nat) : base ≠ base ++ "_" ++ toString (i + 1) := by
  intro h
  have hl := congrArg String.length h
  simp only [String.length_append] at hl
  have hu : "_".length = 1 := rfl
  omega

lemma candidate_injective {base : String} {i j : Nat} (h : candidate base i = candidate base j) : i = j := by
  cases i with
  | zero =>
    cases j with
    | zero => rfl
    | succ j => exact (base_ne_suffixed base j h).elim
  | succ i =>
    cases j with
    | zero => exact (base_ne_suffixed base i h.symm).elim
    | succ j => exact toString_injective ((String.append_right_inj _).mp h)

lemma firstFree_spec (taken : List String) (base : String) (fuel i : Nat) :
    i ≤ firstFree taken base fuel i ∧ firstFree taken base fuel i ≤ i + fuel ∧
      (∀ j, i ≤ j → j < firstFree taken base fuel i → candidate base j ∈ taken) ∧
      (firstFree taken base fuel i < i + fuel → candidate base (firstFree taken base fuel i) ∉ taken) := by
  induction fuel generalizing i with
  | zero =>
    refine ⟨Nat.le_refl _, Nat.le_refl _, ?_, fun h => (Nat.lt_irrefl _ h).elim⟩
    intro j hj hlt
    exact absurd hlt (Nat.not_lt.mpr hj)
  | succ fuel ih =>
    by_cases hm : candidate base i ∈ taken
    · obtain ⟨hle, hub, ht, hf⟩ := ih (i + 1)
      simp only [firstFree, hm, if_true]
      refine ⟨by omega, by omega, ?_, fun h => hf (by omega)⟩
      intro j hj hlt
      rcases Nat.eq_or_lt_of_le hj with rfl | hj
      · exact hm
      · exact ht j hj hlt
    · simp only [firstFree, hm, if_false]
      refine ⟨Nat.le_refl _, Nat.le_add_right _ _, ?_, fun _ => not_false⟩
      intro j hj hlt
      exact absurd hlt (Nat.not_lt.mpr hj)

lemma candidate_taken {taken : List String} {base : String} {j : Nat} (h : j < freshIndex taken base) :
    candidate base j ∈ taken :=
  (firstFree_spec taken base taken.length 0).2.2.1 j (Nat.zero_le _) h

/-- The candidates are all different, so no more of them are taken than there are taken names. -/
lemma le_card_of_taken {taken : List String} {base : String} {k : Nat} (h : ∀ j < k, candidate base j ∈ taken) :
    k ≤ taken.toFinset.card := by
  have hsub : (Finset.range k).image (candidate base) ⊆ taken.toFinset := by
    intro name hn
    obtain ⟨j, hj, rfl⟩ := Finset.mem_image.mp hn
    exact List.mem_toFinset.mpr (h j (Finset.mem_range.mp hj))
  calc k = ((Finset.range k).image (candidate base)).card := by
        rw [Finset.card_image_of_injective _ fun _ _ => candidate_injective, Finset.card_range]
    _ ≤ taken.toFinset.card := Finset.card_le_card hsub

lemma freshIndex_le_card (taken : List String) (base : String) : freshIndex taken base ≤ taken.toFinset.card :=
  le_card_of_taken fun _ => candidate_taken

lemma freshName_not_mem (taken : List String) (base : String) : freshName taken base ∉ taken := by
  intro hm
  have hlen : taken.length ≤ freshIndex taken base := by
    by_contra hlt
    exact (firstFree_spec taken base taken.length 0).2.2.2 (by simpa [freshIndex] using hlt) hm
  have htaken : ∀ j < freshIndex taken base + 1, candidate base j ∈ taken := by
    intro j hj
    rcases Nat.eq_or_lt_of_le (Nat.le_of_lt_succ hj) with rfl | hlt
    · exact hm
    · exact candidate_taken hlt
  -- one more candidate than there are taken names
  have hle := (le_card_of_taken htaken).trans (List.toFinset_card_le taken)
  omega

lemma isFresh_freshName (taken : List String) (base : String) : IsFresh taken base (freshName taken base) :=
  ⟨freshIndex taken base, rfl, freshName_not_mem taken base, fun _ h => candidate_taken h⟩

lemma IsFresh.congr {taken taken' : List String} {base name : String} (h : IsFresh taken base name)
    (ht : ∀ x, x ∈ taken ↔ x ∈ taken') : IsFresh taken' base name := by
  obtain ⟨i, hname, hnew, hold⟩ := h
  exact ⟨i, hname, fun hm => hnew ((ht name).mpr hm), fun j hj => (ht _).mp (hold j hj)⟩

lemma Names.mem_ofList {names : List String} {name : String} : name ∈ (Names.ofList names).taken ↔ name ∈ names := by
  simp [Names.ofList]

end HardwareDesign
