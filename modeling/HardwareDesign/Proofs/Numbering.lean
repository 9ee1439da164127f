import Mathlib.Algebra.Group.Nat.Defs
import HardwareDesign.Proofs.Naming

namespace HardwareDesign

/-- The search from a candidate on, with the names that it asks about and the one that it ends with. The suffix is
counted in 32 bits with a sign, and there is no search beyond the last number. -/
inductive Searches (taken : List String) (base : String) : Nat → List String → String → Prop
  | free {i} : candidate base i ∉ taken → Searches taken base i [candidate base i] (candidate base i)
  | refused {i asked name} : candidate base i ∈ taken → i + 1 < 2 ^ 31 → Searches taken base (i + 1) asked name →
      Searches taken base i (candidate base i :: asked) name

variable {taken : List String} {base : String} {i k n : Nat}

lemma Searches.unique {asked asked' : List String} {name name' : String} (h : Searches taken base i asked name)
    (h' : Searches taken base i asked' name') : asked = asked' ∧ name = name' := by
  induction h generalizing asked' with
  | free hnew =>
    cases h' with
    | free => exact ⟨rfl, rfl⟩
    | refused hold => exact absurd hold hnew
  | refused hold _ _ ih =>
    cases h' with
    | free hnew => exact absurd hold hnew
    | refused _ _ hrest =>
      obtain ⟨rfl, rfl⟩ := ih hrest
      exact ⟨rfl, rfl⟩

lemma searches_of_free (hold : ∀ j < k, candidate base j ∈ taken) (hnew : candidate base k ∉ taken) (hk : k < 2 ^ 31)
    (hn : i + n = k) : Searches taken base i ((List.range' i (n + 1)).map (candidate base)) (candidate base k) := by
  induction n generalizing i with
  | zero =>
    obtain rfl : i = k := hn
    exact .free hnew
  | succ n ih => exact .refused (hold i (by omega)) (by omega) (ih (by omega))

lemma searches_of_few (hold : ∀ j < k, candidate base j ∈ taken) (hnew : candidate base k ∉ taken)
    (hfew : taken.toFinset.card < 2 ^ 31 - 1) :
    Searches taken base 0 ((List.range (k + 1)).map (candidate base)) (candidate base k) := by
  have hk : k ≤ taken.toFinset.card := le_card_of_taken hold
  rw [List.range_eq_range']
  exact searches_of_free hold hnew (by omega) (Nat.zero_add k)

namespace Names

def handedOut (initial bases : List String) : List String := ((ofList initial).assignAll bases).1

def takenAt (initial bases : List String) (i : Nat) : List String := initial ++ (handedOut initial bases).take i

variable {names : Names} {bases : List String} {name : String}

lemma assignAll_cons (names : Names) (base : String) (bases : List String) :
    (names.assignAll (base :: bases)).1 =
      freshName names.taken base :: (assignAll ⟨freshName names.taken base :: names.taken⟩ bases).1 := rfl

lemma length_assignAll (names : Names) (bases : List String) : (names.assignAll bases).1.length = bases.length := by
  induction bases generalizing names with
  | nil => rfl
  | cons base bases ih => rw [assignAll_cons, List.length_cons, List.length_cons, ih]

lemma new_of_assignAll (h : name ∈ (names.assignAll bases).1) : name ∉ names.taken := by
  induction bases generalizing names with
  | nil => cases h
  | cons base bases ih =>
    rw [assignAll_cons] at h
    rcases List.mem_cons.mp h with rfl | h
    · exact freshName_not_mem names.taken base
    · exact fun hm => ih h (List.mem_cons_of_mem _ hm)

lemma nodup_assignAll (names : Names) (bases : List String) : (names.assignAll bases).1.Nodup := by
  induction bases generalizing names with
  | nil => exact List.nodup_nil
  | cons base bases ih =>
    rw [assignAll_cons, List.nodup_cons]
    exact ⟨fun hm => new_of_assignAll hm List.mem_cons_self, ih _⟩

lemma isFresh_assignAll (names : Names) (hb : bases[i]? = some base) :
    ∃ name, (names.assignAll bases).1[i]? = some name ∧
      IsFresh ((names.assignAll bases).1.take i ++ names.taken) base name := by
  induction bases generalizing names i with
  | nil => cases hb
  | cons first bases ih =>
    rw [assignAll_cons]
    cases i with
    | zero =>
      obtain rfl : first = base := by simpa using hb
      exact ⟨_, rfl, isFresh_freshName names.taken first⟩
    | succ i =>
      obtain ⟨name, hname, hfresh⟩ := ih ⟨freshName names.taken first :: names.taken⟩ hb
      refine ⟨name, hname, hfresh.congr fun x => ?_⟩
      simp only [List.take_succ_cons, List.mem_append, List.mem_cons]
      tauto

lemma isFresh_handedOut (initial : List String) (hb : bases[i]? = some base) :
    ∃ name, (handedOut initial bases)[i]? = some name ∧ IsFresh (takenAt initial bases i) base name := by
  obtain ⟨name, hname, hfresh⟩ := isFresh_assignAll (ofList initial) hb
  refine ⟨name, hname, hfresh.congr fun x => ?_⟩
  rw [takenAt, List.mem_append, List.mem_append, mem_ofList, or_comm]
  rfl

end Names

/-- The candidates are asked about in order up to the first free one, and there are no more refusals than taken names.
Names that are handed out in turn are the first candidates that neither the initial names nor the earlier ones have. -/
theorem names_numbered (hfew : taken.toFinset.card < 2 ^ 31 - 1) (base : String) (initial bases : List String) :
    (∃ refusals ≤ taken.toFinset.card, (∀ i < refusals, candidate base i ∈ taken) ∧
        candidate base refusals ∉ taken ∧ freshName taken base = candidate base refusals ∧
        triedNames taken base = (List.range (refusals + 1)).map (candidate base) ∧
        ∀ asked name, Searches taken base 0 asked name ↔ asked = triedNames taken base ∧ name = freshName taken base) ∧
      (Names.handedOut initial bases).length = bases.length ∧ (Names.handedOut initial bases).Nodup ∧
      (∀ name ∈ Names.handedOut initial bases, name ∉ initial) ∧
      ∀ i b, bases[i]? = some b → ∃ name, (Names.handedOut initial bases)[i]? = some name ∧
        IsFresh (Names.takenAt initial bases i) b name ∧
        ((Names.takenAt initial bases i).toFinset.card < 2 ^ 31 - 1 →
          ∃ asked, Searches (Names.takenAt initial bases i) b 0 asked name) := by
  refine ⟨⟨freshIndex taken base, freshIndex_le_card taken base, fun _ => candidate_taken,
    freshName_not_mem taken base, rfl, rfl, fun asked name => ?_⟩, Names.length_assignAll _ bases,
    Names.nodup_assignAll _ bases, fun name hm hi => ?_, fun i b hb => ?_⟩
  · have hsearch : Searches taken base 0 (triedNames taken base) (freshName taken base) :=
      searches_of_few (fun _ => candidate_taken) (freshName_not_mem taken base) hfew
    constructor
    · exact fun h => h.unique hsearch
    · rintro ⟨rfl, rfl⟩
      exact hsearch
  · exact Names.new_of_assignAll hm (Names.mem_ofList.mpr hi)
  · obtain ⟨name, hname, hfresh⟩ := Names.isFresh_handedOut initial hb
    refine ⟨name, hname, hfresh, fun hfew => ?_⟩
    obtain ⟨k, rfl, hnew, hold⟩ := hfresh
    exact ⟨_, searches_of_few hold hnew hfew⟩

theorem names_numbered_suffixed :
    freshName ["a", "a_1", "a_1_1"] "a" = "a_2" ∧ triedNames ["a", "a_1", "a_1_1"] "a" = ["a", "a_1", "a_2"] ∧
      Searches ["a", "a_1", "a_1_1"] "a" 0 ["a", "a_1", "a_2"] "a_2" ∧
      Names.handedOut ["a"] ["a_1", "a", "a_1", "a"] = ["a_1", "a_2", "a_1_1", "a_3"] ∧
      (Names.handedOut ["a"] ["a_1", "a", "a_1", "a"]).Nodup := by
  have hfew : ["a", "a_1", "a_1_1"].toFinset.card < 2 ^ 31 - 1 := by decide
  obtain ⟨⟨_, _, _, _, _, _, hsearch⟩, _, hnodup, _⟩ := names_numbered hfew "a" ["a"] ["a_1", "a", "a_1", "a"]
  have htried : triedNames ["a", "a_1", "a_1_1"] "a" = ["a", "a_1", "a_2"] := by decide
  have hname : freshName ["a", "a_1", "a_1_1"] "a" = "a_2" := by decide
  exact ⟨hname, htried, (hsearch _ _).mpr ⟨htried.symm, hname.symm⟩, by decide, hnodup⟩

end HardwareDesign
