import Mathlib.Data.List.Perm.Subperm
import Mathlib.Logic.Relation
import HardwareDesign.Placement.Index
import HardwareDesign.Proofs.Views

/-!
A visit of the records below another one meets each of them, and no record twice, so that it ends within as many steps
as there are records.
-/

namespace HardwareDesign.Graph

variable {g : Graph} {origin : Option RecordId} {seen next : List RecordId}

lemma nodup_of_sorted {ids : List RecordId} (h : ids.Pairwise fun a b => a.index < b.index) : ids.Nodup :=
  h.imp fun hlt he => Nat.ne_of_lt hlt (congrArg RecordId.index he)

lemma Forest.nodup_body (hg : g.Forest) {id : RecordId} {r : Record} (hr : g.Holds id r) : r.body.Nodup :=
  nodup_of_sorted (hg.body_sorted hr)

def Parent (g : Graph) (p k : RecordId) : Prop := ∃ r, g.Holds k r ∧ r.parent = some p

abbrev Inside (g : Graph) : RecordId → RecordId → Prop := Relation.TransGen g.Parent

abbrev Encloses (g : Graph) : RecordId → RecordId → Prop := Relation.ReflTransGen g.Parent

lemma Forest.mem_body (hg : g.Forest) {p k : RecordId} {r : Record} (hr : g.Holds p r) : k ∈ r.body ↔ g.Parent p k := by
  constructor
  · exact hg.body_child hr
  · rintro ⟨rk, hrk, hpar⟩
    obtain ⟨_, rp, hrp, hm⟩ := hg.child_body hrk hpar
    obtain rfl : r = rp := hr.unique hrp
    exact hm

lemma Inside.held {p k : RecordId} (h : g.Inside p k) : ∃ r, g.Holds k r := by
  obtain ⟨_, _, r, hr, _⟩ := Relation.TransGen.tail'_iff.mp h
  exact ⟨r, hr⟩

/-- All records that have been visited, or will be next, are below the origin. Their parents have been visited. -/
structure Visit (g : Graph) (origin : Option RecordId) (seen next : List RecordId) : Prop where
  nodup : (seen ++ next).Nodup
  parent : ∀ k ∈ seen ++ next, ∃ r, g.Holds k r ∧ (r.parent = origin ∨ ∃ p ∈ seen, r.parent = some p)
  below : ∀ k ∈ seen ++ next, ∀ p, origin = some p → p.index < k.index

namespace Visit

lemma start (hg : g.Forest) {p : RecordId} {r : Record} (hr : g.Holds p r) : g.Visit (some p) [] r.body where
  nodup := hg.nodup_body hr
  parent := by
    intro k hk
    obtain ⟨rk, hrk, hpar⟩ := hg.body_child hr hk
    exact ⟨rk, hrk, .inl hpar⟩
  below := by
    rintro k hk _ ⟨⟩
    obtain ⟨rk, hrk, hpar⟩ := hg.body_child hr hk
    exact (hg.child_body hrk hpar).1

lemma not_visited (hg : g.Forest) {id : RecordId} {r : Record} (hv : g.Visit origin seen (id :: next))
    (hr : g.Holds id r) {k : RecordId} (hk : k ∈ r.body) : k ∉ seen ++ id :: next := by
  intro hm
  obtain ⟨rk, hrk, hpar⟩ := hg.body_child hr hk
  obtain ⟨rk', hrk', hparent⟩ := hv.parent k hm
  obtain rfl : rk = rk' := hrk.unique hrk'
  rcases hparent with horigin | ⟨p, hp, hparent⟩
  · have hid : id ∈ seen ++ id :: next := by simp
    exact Nat.lt_irrefl _ (hv.below id hid id (horigin.symm.trans hpar))
  · obtain rfl : p = id := Option.some.inj (hparent.symm.trans hpar)
    exact (List.nodup_append.mp hv.nodup).2.2 _ hp _ List.mem_cons_self rfl

lemma step (hg : g.Forest) {id : RecordId} {r : Record} (hv : g.Visit origin seen (id :: next)) (hr : g.Holds id r) :
    g.Visit origin (seen ++ [id]) (r.body ++ next) := by
  have hperm : (seen ++ [id] ++ (r.body ++ next)).Perm (r.body ++ (seen ++ id :: next)) := by
    simpa using List.perm_append_comm_assoc (seen ++ [id]) r.body next
  constructor
  · rw [hperm.nodup_iff, List.nodup_append]
    refine ⟨hg.nodup_body hr, hv.nodup, ?_⟩
    rintro k hk _ hm rfl
    exact hv.not_visited hg hr hk hm
  · intro k hk
    rcases List.mem_append.mp (hperm.mem_iff.mp hk) with hk | hk
    · obtain ⟨rk, hrk, hpar⟩ := hg.body_child hr hk
      exact ⟨rk, hrk, .inr ⟨id, by simp, hpar⟩⟩
    · obtain ⟨rk, hrk, hparent⟩ := hv.parent k hk
      refine ⟨rk, hrk, hparent.imp_right ?_⟩
      rintro ⟨p, hp, hpar⟩
      exact ⟨p, List.mem_append_left _ hp, hpar⟩
  · intro k hk p hp
    rcases List.mem_append.mp (hperm.mem_iff.mp hk) with hk | hk
    · obtain ⟨rk, hrk, hpar⟩ := hg.body_child hr hk
      exact Nat.lt_trans (hv.below id (by simp) p hp) (hg.child_body hrk hpar).1
    · exact hv.below k hk p hp

lemma length_le (hv : g.Visit origin seen next) : seen.length + next.length ≤ g.size := by
  have hsub : seen ++ next ⊆ g.records.keys := by
    intro k hk
    obtain ⟨r, hr, _⟩ := hv.parent k hk
    exact Table.contains_iff.mp (Table.contains_of_find? hr)
  have hle := (List.subperm_of_subset hv.nodup hsub).length_le
  rwa [List.length_append, Table.keys, List.length_map] at hle

end Visit

lemma preorder_ok (hg : g.Forest) {fuel : Nat} (hv : g.Visit origin seen next) (hf : g.size ≤ fuel + seen.length) :
    ∃ ids, g.preorder fuel next = .ok ids ∧ ∀ k, k ∈ ids ↔ ∃ n ∈ next, Relation.ReflTransGen g.Parent n k := by
  induction fuel generalizing seen next with
  | zero =>
    have hle := hv.length_le
    obtain rfl : next = [] := List.eq_nil_of_length_eq_zero (by omega)
    exact ⟨[], rfl, by simp⟩
  | succ fuel ih =>
    cases next with
    | nil => exact ⟨[], rfl, by simp⟩
    | cons id next =>
      obtain ⟨r, hr, _⟩ := hv.parent id (by simp)
      obtain ⟨ids, hids, hmem⟩ := ih (hv.step hg hr) (by simp; omega)
      refine ⟨id :: ids, ?_, fun k => ?_⟩
      · rw [preorder, recordOf_of_holds hr]
        simp only [bind, Except.bind, hids, pure, Except.pure]
      · constructor
        · intro hk
          rcases List.mem_cons.mp hk with rfl | hk
          · exact ⟨k, List.mem_cons_self, .refl⟩
          · obtain ⟨n, hn, hnk⟩ := (hmem k).mp hk
            rcases List.mem_append.mp hn with hn | hn
            · exact ⟨id, List.mem_cons_self, .head ((hg.mem_body hr).mp hn) hnk⟩
            · exact ⟨n, List.mem_cons_of_mem _ hn, hnk⟩
        · rintro ⟨n, hn, hnk⟩
          rcases List.mem_cons.mp hn with rfl | hn
          · rcases Relation.ReflTransGen.cases_head hnk with rfl | ⟨m, hm, hmk⟩
            · exact List.mem_cons_self
            · exact List.mem_cons_of_mem _ ((hmem k).mpr ⟨m, List.mem_append_left _ ((hg.mem_body hr).mpr hm), hmk⟩)
          · exact List.mem_cons_of_mem _ ((hmem k).mpr ⟨n, List.mem_append_right _ hn, hnk⟩)

lemma descendants_preorder (hg : g.Forest) {h : Handle} {r : Record} (he : h.epoch = g.epoch)
    (hr : g.Holds h.record r) : ∃ ids : List RecordId, g.preorder g.size r.body = .ok ids ∧
      g.descendants h = .ok (ids.map g.handle) ∧ ∀ k, k ∈ ids ↔ g.Inside h.record k := by
  have hsize : g.size ≤ g.size + ([] : List RecordId).length := Nat.le_refl _
  obtain ⟨ids, hids, hmem⟩ := preorder_ok hg (.start hg hr) hsize
  refine ⟨ids, hids, ?_, fun k => ?_⟩
  · simp only [descendants, record_of_holds he hr, bind, Except.bind, hids, pure, Except.pure]
  · simp only [hmem, hg.mem_body hr, Inside, Relation.TransGen.head'_iff]

lemma descendants_ok (hg : g.Forest) {h : Handle} {r : Record} (he : h.epoch = g.epoch) (hr : g.Holds h.record r) :
    ∃ ids : List RecordId, g.descendants h = .ok (ids.map g.handle) ∧ ∀ k, k ∈ ids ↔ g.Inside h.record k := by
  obtain ⟨ids, _, hids⟩ := descendants_preorder hg he hr
  exact ⟨ids, hids⟩

def Places (g : Graph) (l : Location) (c : Claim) : Prop :=
  ∃ r, g.Holds c.record r ∧ (l, c.subPath) ∈ r.payload.placements

def IsHierarchy (g : Graph) (id : RecordId) : Prop := ∃ r top, g.Holds id r ∧ r.payload = .hierarchy top

lemma claimsAmong_ok {ids : List RecordId} (hi : g.AllHeld ids) :
    ∃ claims, g.claimsAmong (ids.map g.handle) = .ok claims ∧
      ∀ l c, (l, c) ∈ claims ↔ c.record ∈ ids ∧ g.Places l c := by
  induction ids with
  | nil => exact ⟨[], rfl, by simp⟩
  | cons id ids ih =>
    obtain ⟨r, hr⟩ := hi id List.mem_cons_self
    obtain ⟨claims, hc, hmem⟩ := ih fun k hk => hi k (List.mem_cons_of_mem _ hk)
    rw [List.map_cons, claimsAmong, payload_handle hr, hc]
    refine ⟨_, rfl, fun l c => ?_⟩
    have hown : (l, c) ∈ r.payload.placements.map (fun p => (p.1, (⟨id, p.2⟩ : Claim))) ↔
        c.record = id ∧ g.Places l c := by
      rw [List.mem_map]
      constructor
      · rintro ⟨p, hp, ⟨⟩⟩
        exact ⟨rfl, r, hr, hp⟩
      · rintro ⟨rfl, r', hr', hp⟩
        obtain rfl : r = r' := hr.unique hr'
        exact ⟨_, hp, rfl⟩
    rw [List.mem_append, hmem, List.mem_cons, or_and_right]
    exact or_congr hown Iff.rfl

lemma claimsBelow_ok (hg : g.Forest) {ids : List RecordId} (hi : g.AllHeld ids) :
    ∃ claims, g.claimsBelow (ids.map g.handle) = .ok claims ∧
      ∀ l c, (l, c) ∈ claims ↔ g.Places l c ∧ ∃ id ∈ ids, g.IsHierarchy id ∧ g.Inside id c.record := by
  induction ids with
  | nil => exact ⟨[], rfl, by simp⟩
  | cons id ids ih =>
    obtain ⟨r, hr⟩ := hi id List.mem_cons_self
    obtain ⟨claims, hc, hmem⟩ := ih fun k hk => hi k (List.mem_cons_of_mem _ hk)
    obtain ⟨below, hbelow, hinside⟩ := descendants_ok hg (h := g.handle id) rfl hr
    obtain ⟨more, hmore, hmem'⟩ := claimsAmong_ok fun k hk => ((hinside k).mp hk).held
    rw [List.map_cons, claimsBelow, payload_handle hr, hc]
    simp only [List.mem_cons, or_and_right, exists_or, exists_eq_left, and_or_left]
    cases hp : r.payload with
    | hierarchy top =>
      simp only [bind, Except.bind, hbelow, hmore]
      refine ⟨_, rfl, fun l c => ?_⟩
      have hid : g.IsHierarchy id := ⟨r, top, hr, hp⟩
      have hown : (l, c) ∈ more ↔ g.Places l c ∧ g.Inside id c.record := by
        rw [hmem', hinside, and_comm]
        rfl
      rw [List.mem_append, hmem, hown]
      simp only [hid, true_and]
    | _ =>
      refine ⟨claims, rfl, fun l c => ?_⟩
      have hid : ¬ g.IsHierarchy id := by
        rintro ⟨r', top, hr', hp'⟩
        obtain rfl : r = r' := hr.unique hr'
        cases hp.symm.trans hp'
      rw [hmem]
      simp only [hid, false_and, and_false, false_or]

lemma placementIndex_ok (hg : g.Forest) (device : Option Device) :
    ∃ index, PlacementIndex.ofGraph device g = .ok index := by
  obtain ⟨claims, hc, _⟩ := claimsBelow_ok hg hg.allHeld_top
  have hclaims : g.claims = .ok claims := hc
  rw [PlacementIndex.ofGraph, hclaims]
  exact ⟨_, rfl⟩

end HardwareDesign.Graph
