import HardwareDesign.Graph
import HardwareDesign.Proofs.Table

/-!
The records of a design graph form a forest: the parent of a record and the bodies and the top level say the same,
and all lists are in the order of creation.
-/

namespace HardwareDesign.Graph

abbrev Holds (g : Graph) (id : RecordId) (r : Record) : Prop := g.records.find? id = some r

lemma Holds.unique {g : Graph} {id : RecordId} {r r' : Record} (h : g.Holds id r) (h' : g.Holds id r') : r = r' :=
  Option.some.inj (h.symm.trans h')

structure Forest (g : Graph) : Prop where
  keys : g.records.keys.Nodup
  bound : ∀ {id r}, g.Holds id r → id.index ≤ g.lastId
  top_root : ∀ {id}, id ∈ g.top → ∃ r, g.Holds id r ∧ r.parent = none
  root_top : ∀ {id r}, g.Holds id r → r.parent = none → id ∈ g.top
  body_child : ∀ {p rp id}, g.Holds p rp → id ∈ rp.body → ∃ r, g.Holds id r ∧ r.parent = some p
  child_body : ∀ {id r p}, g.Holds id r → r.parent = some p →
    p.index < id.index ∧ ∃ rp, g.Holds p rp ∧ id ∈ rp.body
  bodiless : ∀ {id r}, g.Holds id r → r.payload.hasBody = false → r.body = []
  top_sorted : g.top.Pairwise fun a b => a.index < b.index
  body_sorted : ∀ {id r}, g.Holds id r → r.body.Pairwise fun a b => a.index < b.index

lemma forest_empty (source : Nat) : (empty source).Forest where
  keys := List.nodup_nil
  bound h := by cases h
  top_root h := by cases h
  root_top h := by cases h
  body_child h := by cases h
  child_body h := by cases h
  bodiless h := by cases h
  top_sorted := .nil
  body_sorted h := by cases h

lemma Forest.nextEpoch {g : Graph} (hg : g.Forest) : g.nextEpoch.Forest :=
  ⟨hg.keys, hg.bound, hg.top_root, hg.root_top, hg.body_child, hg.child_body, hg.bodiless, hg.top_sorted,
    hg.body_sorted⟩

lemma Forest.not_held_next {g : Graph} (hg : g.Forest) {r : Record} : ¬ g.Holds g.nextId r := by
  intro h
  have hb : g.lastId + 1 ≤ g.lastId := hg.bound h
  omega

lemma Forest.ne_next {g : Graph} (hg : g.Forest) {id : RecordId} {r : Record} (h : g.Holds id r) : id ≠ g.nextId := by
  rintro rfl
  exact hg.not_held_next h

lemma Forest.top_held {g : Graph} (hg : g.Forest) {id : RecordId} (h : id ∈ g.top) : ∃ r, g.Holds id r := by
  obtain ⟨r, hr, _⟩ := hg.top_root h
  exact ⟨r, hr⟩

lemma Forest.body_held {g : Graph} (hg : g.Forest) {p id : RecordId} {rp : Record} (hp : g.Holds p rp)
    (h : id ∈ rp.body) : ∃ r, g.Holds id r := by
  obtain ⟨r, hr, _⟩ := hg.body_child hp h
  exact ⟨r, hr⟩

lemma Forest.not_mem_of_parent_ne {g : Graph} (hg : g.Forest) {p id : RecordId} {r rp : Record}
    (hr : g.Holds id r) (hp : g.Holds p rp) (hn : r.parent ≠ some p) : id ∉ rp.body := by
  intro hm
  obtain ⟨r', hr', hpar⟩ := hg.body_child hp hm
  obtain rfl : r = r' := hr.unique hr'
  exact hn hpar

def Accepts (g : Graph) : Option RecordId → Prop
  | none => True
  | some p => ∃ r, g.Holds p r ∧ r.payload.hasBody = true

lemma accepts_top (g : Graph) : g.Accepts none := trivial

lemma Forest.accepts_parent {g : Graph} (hg : g.Forest) {id : RecordId} {r : Record} (hr : g.Holds id r) :
    g.Accepts r.parent := by
  cases hp : r.parent with
  | none => exact g.accepts_top
  | some p =>
    obtain ⟨_, rp, hrp, hm⟩ := hg.child_body hr hp
    refine ⟨rp, hrp, ?_⟩
    by_contra hb
    simp [hg.bodiless hrp (by simpa using hb)] at hm

def created (g : Graph) (payload : Payload) : Option RecordId → Graph
  | none => (g.createTop payload).2
  | some p => (g.added (some p) payload).appendTo p g.nextId

section Created

variable (g : Graph) (payload : Payload) (parent : Option RecordId)

@[simp] lemma created_epoch : (g.created payload parent).epoch = g.epoch := by cases parent <;> rfl

@[simp] lemma created_source : (g.created payload parent).source = g.source := by cases parent <;> rfl

@[simp] lemma created_lastId : (g.created payload parent).lastId = g.lastId + 1 := by cases parent <;> rfl

@[simp] lemma created_handle (id : RecordId) : (g.created payload parent).handle id = g.handle id := by
  simp [handle]

lemma created_top : (g.created payload parent).top = g.top ++ if parent = none then [g.nextId] else [] := by
  cases parent <;> simp [created, createTop, added, appendTo]

variable {g payload parent}

lemma holds_created (hg : g.Forest) (ha : g.Accepts parent) {id : RecordId} {r : Record} :
    (g.created payload parent).Holds id r ↔
      (id = g.nextId ∧ r = ⟨payload, parent, []⟩) ∨
      ∃ r₀, g.Holds id r₀ ∧ r = { r₀ with body := r₀.body ++ if parent = some id then [g.nextId] else [] } := by
  have hnone : g.records.find? g.nextId = none := by
    cases h : g.records.find? g.nextId with
    | none => rfl
    | some r => exact (hg.not_held_next h).elim
  cases parent with
  | none =>
    by_cases hid : id = g.nextId
    · subst hid
      simp [created, createTop, added, Holds, hnone, eq_comm]
    · simp [created, createTop, added, Holds, Table.find?_insert, hid, Ne.symm hid, eq_comm]
  | some p =>
    obtain ⟨rp, hrp, _⟩ := ha
    have hpn : p ≠ g.nextId := hg.ne_next hrp
    by_cases hid : id = g.nextId
    · subst hid
      simp [created, added, appendTo, Holds, Table.find?_modify, hpn, hnone, eq_comm]
    · have hf : (g.created payload (some p)).records.find? id = (g.records.find? id).map
          fun r => { r with body := r.body ++ if some p = some id then [g.nextId] else [] } := by
        by_cases hp : p = id
        · simp [created, added, appendTo, Table.find?_modify, Table.find?_insert, Ne.symm hid, hp]
        · simp [created, added, appendTo, Table.find?_modify, Table.find?_insert, Ne.symm hid, hp]
      simp only [Holds, hf, hid, false_and, false_or, Option.map_eq_some_iff]
      exact exists_congr fun r₀ => and_congr_right fun _ => eq_comm

lemma holds_created_next (hg : g.Forest) (ha : g.Accepts parent) :
    (g.created payload parent).Holds g.nextId ⟨payload, parent, []⟩ :=
  (holds_created hg ha).mpr (.inl ⟨rfl, rfl⟩)

lemma holds_created_of_holds (hg : g.Forest) (ha : g.Accepts parent) {id : RecordId} {r : Record} (h : g.Holds id r) :
    (g.created payload parent).Holds id { r with body := r.body ++ if parent = some id then [g.nextId] else [] } :=
  (holds_created hg ha).mpr (.inr ⟨r, h, rfl⟩)

lemma nodup_keys_created (h : g.records.keys.Nodup) : (g.created payload parent).records.keys.Nodup := by
  cases parent with
  | none => exact Table.nodup_keys_insert _ _ h
  | some p =>
    have hk := Table.keys_modify (g.records.insert g.nextId ⟨payload, some p, []⟩) p
      fun r => { r with body := r.body ++ [g.nextId] }
    exact hk ▸ Table.nodup_keys_insert _ _ h

lemma sorted_concat_next {ids : List RecordId} (hb : ∀ id ∈ ids, id.index ≤ g.lastId)
    (hs : ids.Pairwise fun a b => a.index < b.index) (c : Prop) [Decidable c] :
    (ids ++ if c then [g.nextId] else []).Pairwise fun a b => a.index < b.index := by
  by_cases hc : c
  · rw [if_pos hc, List.pairwise_append]
    refine ⟨hs, List.pairwise_singleton _ _, ?_⟩
    intro a ha b hb'
    obtain rfl := List.mem_singleton.mp hb'
    exact Nat.lt_succ_of_le (hb a ha)
  · simpa [hc] using hs

lemma Forest.created (hg : g.Forest) (ha : g.Accepts parent) : (g.created payload parent).Forest where
  keys := nodup_keys_created hg.keys
  bound := by
    intro id r h
    rw [created_lastId]
    rcases (holds_created hg ha).mp h with ⟨rfl, _⟩ | ⟨r₀, h₀, _⟩
    · exact Nat.le_refl _
    · exact Nat.le_succ_of_le (hg.bound h₀)
  top_root := by
    intro id h
    rw [created_top] at h
    rcases List.mem_append.mp h with h | h
    · obtain ⟨r, hr, hp⟩ := hg.top_root h
      exact ⟨_, holds_created_of_holds hg ha hr, hp⟩
    · obtain ⟨hp, h⟩ := List.mem_ite_nil_right.mp h
      obtain rfl := List.mem_singleton.mp h
      exact ⟨_, holds_created_next hg ha, hp⟩
  root_top := by
    intro id r h hp
    rw [created_top]
    rcases (holds_created hg ha).mp h with ⟨rfl, rfl⟩ | ⟨r₀, h₀, rfl⟩
    · simp [show parent = none from hp]
    · exact List.mem_append_left _ (hg.root_top h₀ hp)
  body_child := by
    intro p rp id h hm
    rcases (holds_created hg ha).mp h with ⟨rfl, rfl⟩ | ⟨r₀, h₀, rfl⟩
    · cases hm
    · rcases List.mem_append.mp hm with hm | hm
      · obtain ⟨r, hr, hpar⟩ := hg.body_child h₀ hm
        exact ⟨_, holds_created_of_holds hg ha hr, hpar⟩
      · obtain ⟨hp, hm⟩ := List.mem_ite_nil_right.mp hm
        obtain rfl := List.mem_singleton.mp hm
        exact ⟨_, holds_created_next hg ha, hp⟩
  child_body := by
    intro id r p h hpar
    rcases (holds_created hg ha).mp h with ⟨rfl, rfl⟩ | ⟨r₀, h₀, rfl⟩
    · obtain rfl : parent = some p := hpar
      have ⟨rp, hrp, _⟩ := ha
      exact ⟨Nat.lt_succ_of_le (hg.bound hrp), _, holds_created_of_holds hg ha hrp, by simp⟩
    · obtain ⟨hlt, rp, hrp, hm⟩ := hg.child_body h₀ hpar
      exact ⟨hlt, _, holds_created_of_holds hg ha hrp, List.mem_append_left _ hm⟩
  bodiless := by
    intro id r h hb
    rcases (holds_created hg ha).mp h with ⟨rfl, rfl⟩ | ⟨r₀, h₀, rfl⟩
    · rfl
    · have hp : parent ≠ some id := by
        rintro rfl
        obtain ⟨rp, hrp, hbody⟩ := ha
        obtain rfl : r₀ = rp := Option.some.inj (h₀.symm.trans hrp)
        simp [show r₀.payload.hasBody = false from hb] at hbody
      simp [hp, hg.bodiless h₀ hb]
  top_sorted := by
    rw [created_top]
    refine sorted_concat_next (fun id h => ?_) hg.top_sorted _
    obtain ⟨r, hr⟩ := hg.top_held h
    exact hg.bound hr
  body_sorted := by
    intro id r h
    rcases (holds_created hg ha).mp h with ⟨rfl, rfl⟩ | ⟨r₀, h₀, rfl⟩
    · exact .nil
    · refine sorted_concat_next (fun k hk => ?_) (hg.body_sorted h₀) _
      obtain ⟨rk, hrk⟩ := hg.body_held h₀ hk
      exact hg.bound hrk

lemma recordOf_of_holds {id : RecordId} {r : Record} (hr : g.Holds id r) : g.recordOf id = .ok r := by
  simp only [recordOf, show g.records.find? id = some r from hr]

lemma bodyIds_of_holds {h : Handle} {r : Record} (he : h.epoch = g.epoch) (hr : g.Holds h.record r) :
    g.bodyIds h = if r.payload.hasBody then .ok r.body else .error (.noBody h.record r.payload.kind) := by
  simp only [bodyIds, record, he, if_pos, recordOf_of_holds hr]
  rfl

lemma createIn_of_holds {h : Handle} {r : Record} (he : h.epoch = g.epoch) (hr : g.Holds h.record r)
    (hb : r.payload.hasBody = true) :
    g.createIn h payload = .ok (g.handle g.nextId, g.created payload (some h.record)) := by
  simp only [createIn, bodyIds_of_holds he hr, hb, if_pos]
  rfl

lemma holds_of_record {h : Handle} {r : Record} (hr : g.record h = .ok r) : h.epoch = g.epoch ∧ g.Holds h.record r := by
  unfold record recordOf at hr
  split at hr
  case isFalse => cases hr
  case isTrue he =>
    cases hf : g.records.find? h.record with
    | none => simp [hf] at hr
    | some r' =>
      obtain rfl : r' = r := by simpa [hf] using hr
      exact ⟨he, hf⟩

lemma record_of_holds {h : Handle} {r : Record} (he : h.epoch = g.epoch) (hr : g.Holds h.record r) :
    g.record h = .ok r := by
  simp only [record, he, if_pos, recordOf_of_holds hr]

lemma createIn_ok {h k : Handle} {g' : Graph} (hc : g.createIn h payload = .ok (k, g')) :
    h.epoch = g.epoch ∧ (∃ r, g.Holds h.record r ∧ r.payload.hasBody = true) ∧ k = g.handle g.nextId ∧
      g' = g.created payload (some h.record) := by
  cases hr : g.record h with
  | error e =>
    have hb : g.bodyIds h = .error e := by simp [bodyIds, hr, bind, Except.bind]
    simp [createIn, hb, bind, Except.bind] at hc
  | ok r =>
    obtain ⟨he, hh⟩ := holds_of_record hr
    cases hb : r.payload.hasBody with
    | false =>
      have hi := bodyIds_of_holds he hh
      simp [createIn, hi, hb, bind, Except.bind] at hc
    | true =>
      have hc' := (createIn_of_holds he hh hb).symm.trans hc
      obtain ⟨rfl, rfl⟩ := Prod.mk.inj (Except.ok.inj hc')
      exact ⟨he, ⟨r, hh, hb⟩, rfl, rfl⟩

lemma create_ok {at? : Option Handle} {k : Handle} {g' : Graph} (hc : g.create at? payload = .ok (k, g')) :
    g.Accepts (at?.map (·.record)) ∧ k = g.handle g.nextId ∧ g' = g.created payload (at?.map (·.record)) := by
  cases at? with
  | none =>
    obtain ⟨rfl, rfl⟩ := Prod.mk.inj (Except.ok.inj hc)
    exact ⟨trivial, rfl, rfl⟩
  | some h =>
    obtain ⟨_, hh, hk, hg'⟩ := createIn_ok hc
    exact ⟨hh, hk, hg'⟩

end Created

end HardwareDesign.Graph
