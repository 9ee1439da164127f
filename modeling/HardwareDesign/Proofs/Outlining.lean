import HardwareDesign.Proofs.Histories

namespace HardwareDesign.Graph

variable {g : Graph} {origin : Option RecordId} {id k : RecordId} {r : Record} {h : Handle}
  {seen next ids : List RecordId} {fuel : Nat}

def bodyOf (g : Graph) (id : RecordId) : List RecordId := ((g.records.find? id).map (·.body)).getD []

lemma bodyOf_of_holds (hr : g.Holds id r) : g.bodyOf id = r.body := by
  simp only [bodyOf, show g.records.find? id = some r from hr, Option.map_some, Option.getD_some]

lemma Forest.parent_of_mem_bodyOf (hg : g.Forest) (hk : k ∈ g.bodyOf id) : g.Parent id k := by
  cases hr : g.records.find? id with
  | none => simp [bodyOf, hr] at hk
  | some r =>
    rw [bodyOf_of_holds hr] at hk
    exact hg.body_child hr hk

lemma Forest.lt_of_parent (hg : g.Forest) (hp : g.Parent id k) : id.index < k.index ∧ k.index ≤ g.lastId := by
  obtain ⟨r, hr, hparent⟩ := hp
  exact ⟨(hg.child_body hr hparent).1, hg.bound hr⟩

lemma Forest.lt_of_inside (hg : g.Forest) (hi : g.Inside id k) : id.index < k.index := by
  induction hi with
  | single hp => exact (hg.lt_of_parent hp).1
  | tail _ hp ih => exact Nat.lt_trans ih (hg.lt_of_parent hp).1

/-- What is nested in a record: each record of its body, followed by what is nested in that one. Ids go up from a
record to those in its body, so that this ends. -/
def Forest.outline (hg : g.Forest) (id : RecordId) : List RecordId :=
  (g.bodyOf id).attach.flatMap fun k => k.1 :: hg.outline k.1
termination_by g.lastId - id.index
decreasing_by
  have hlt := hg.lt_of_parent (hg.parent_of_mem_bodyOf k.2)
  omega

lemma Forest.outline_of_holds (hg : g.Forest) (hr : g.Holds id r) :
    hg.outline id = r.body.flatMap fun k => k :: hg.outline k := by
  rw [outline, bodyOf_of_holds hr]
  simp

inductive Visits (g : Graph) : List RecordId → List RecordId → Prop
  | done : Visits g [] []
  | next {id r next rest} : g.Holds id r → Visits g (r.body ++ next) rest → Visits g (id :: next) (id :: rest)

lemma visits_of_preorder (h : g.preorder fuel next = .ok ids) : g.Visits next ids := by
  induction fuel generalizing next ids with
  | zero =>
    cases next with
    | nil =>
      obtain rfl := Except.ok.inj h
      exact .done
    | cons id next => cases h
  | succ fuel ih =>
    cases next with
    | nil =>
      obtain rfl := Except.ok.inj h
      exact .done
    | cons id next =>
      cases hr : g.records.find? id with
      | none => simp [preorder, recordOf, hr, bind, Except.bind] at h
      | some r =>
        rw [preorder, recordOf_of_holds hr] at h
        cases hrest : g.preorder fuel (r.body ++ next) with
        | error e => simp [hrest, bind, Except.bind] at h
        | ok rest =>
          obtain rfl : id :: rest = ids := by simpa [hrest, bind, Except.bind, pure, Except.pure] using h
          exact .next hr (ih hrest)

namespace Visits

lemma outline (hg : g.Forest) (h : g.Visits next ids) : ids = next.flatMap fun k => k :: hg.outline k := by
  induction h with
  | done => rfl
  | next hr _ ih => rw [ih, List.flatMap_append, List.flatMap_cons, hg.outline_of_holds hr, List.cons_append]

lemma nodup (hg : g.Forest) (h : g.Visits next ids) (hv : g.Visit origin seen next) : (seen ++ ids).Nodup := by
  induction h generalizing seen with
  | done => exact hv.nodup
  | next hr _ ih => simpa using ih (hv.step hg hr)

end Visits

section Descendants

lemma Forest.descendants_outline (hg : g.Forest) (hr : g.record h = .ok r) :
    g.descendants h = .ok ((hg.outline h.record).map g.handle) ∧ g.Visits r.body (hg.outline h.record) ∧
      (hg.outline h.record).Nodup ∧ ∀ k, k ∈ hg.outline h.record ↔ g.Inside h.record k := by
  obtain ⟨he, hh⟩ := holds_of_record hr
  obtain ⟨ids, hids, hdescendants, hmem⟩ := descendants_preorder hg he hh
  have hvisits := visits_of_preorder hids
  obtain rfl : ids = hg.outline h.record := (hvisits.outline hg).trans (hg.outline_of_holds hh).symm
  exact ⟨hdescendants, hvisits, hvisits.nodup hg (.start hg hh), hmem⟩

lemma Forest.outline_of_bodiless (hg : g.Forest) (hr : g.Holds id r) (hb : r.payload.hasBody = false) :
    hg.outline id = [] := by
  rw [hg.outline_of_holds hr, hg.bodiless hr hb, List.flatMap_nil]

end Descendants

/-- The visit below a record that a handle is good for comes to its end, finds all that it looks up on the way, and
lists what is nested in the record, at any depth, once and in the order of the recursion. -/
theorem descendants_in_preorder (hg : g.Reachable) (hr : g.record h = .ok r) :
    g.Visits r.body (hg.forest.outline h.record) ∧
      g.descendants h = .ok ((hg.forest.outline h.record).map g.handle) ∧
      (∀ {id r}, g.Holds id r → hg.forest.outline id = r.body.flatMap fun k => k :: hg.forest.outline k) ∧
      (hg.forest.outline h.record).Nodup ∧ (∀ k, k ∈ hg.forest.outline h.record ↔ g.Inside h.record k) ∧
      (r.payload.hasBody = false → g.descendants h = .ok []) := by
  obtain ⟨hdescendants, hvisits, hnodup, hmem⟩ := hg.forest.descendants_outline hr
  refine ⟨hvisits, hdescendants, fun hr => hg.forest.outline_of_holds hr, hnodup, hmem, fun hb => ?_⟩
  rw [hdescendants, hg.forest.outline_of_bodiless (holds_of_record hr).2 hb]
  rfl

def nestedTwice : Graph :=
  (empty 0).run [.create none (.hierarchy "m"), .create (some ⟨⟨1⟩, 0, 0⟩) (.dynamicInstance ⟨"m", "a"⟩),
    .create (some ⟨⟨1⟩, 0, 0⟩) (.dynamicInstance ⟨"m", "b"⟩), .create (some ⟨⟨2⟩, 0, 0⟩) (.verbatim "x" "1" none)]

lemma reachable_nestedTwice : nestedTwice.Reachable := ⟨0, _, rfl⟩

theorem descendants_in_preorder_nested :
    nestedTwice.record ⟨⟨1⟩, 0, 0⟩ = .ok ⟨.hierarchy "m", none, [⟨2⟩, ⟨3⟩]⟩ ∧
      nestedTwice.descendants ⟨⟨1⟩, 0, 0⟩ = .ok [⟨⟨2⟩, 0, 0⟩, ⟨⟨4⟩, 0, 0⟩, ⟨⟨3⟩, 0, 0⟩] := by
  have hr : nestedTwice.record ⟨⟨1⟩, 0, 0⟩ = .ok ⟨.hierarchy "m", none, [⟨2⟩, ⟨3⟩]⟩ := rfl
  obtain ⟨_, hdescendants, hrecursion, _⟩ := descendants_in_preorder reachable_nestedTwice hr
  have h₁ : nestedTwice.Holds ⟨1⟩ ⟨.hierarchy "m", none, [⟨2⟩, ⟨3⟩]⟩ := rfl
  have h₂ : nestedTwice.Holds ⟨2⟩ ⟨.dynamicInstance ⟨"m", "a"⟩, some ⟨1⟩, [⟨4⟩]⟩ := rfl
  have h₃ : nestedTwice.Holds ⟨3⟩ ⟨.dynamicInstance ⟨"m", "b"⟩, some ⟨1⟩, []⟩ := rfl
  have h₄ : nestedTwice.Holds ⟨4⟩ ⟨.verbatim "x" "1" none, some ⟨2⟩, []⟩ := rfl
  rw [hdescendants, hrecursion h₁]
  simp only [List.flatMap_cons, List.flatMap_nil, hrecursion h₂, hrecursion h₃, hrecursion h₄]
  exact ⟨hr, rfl⟩

end HardwareDesign.Graph
