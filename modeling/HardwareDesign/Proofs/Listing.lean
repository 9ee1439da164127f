import HardwareDesign.Proofs.Descending
import HardwareDesign.Proofs.Editing

namespace HardwareDesign

/-- The operations of a graph by themselves. Any handle will do, also one that is stale, or from another graph. -/
inductive GraphCall where
  | create (parent : Option Handle) (payload : Payload)
  | erase (h : Handle)
  | lookup (id : RecordId)
  | nextEpoch
deriving DecidableEq

def GraphCall.edit : GraphCall → Edit (Except GraphError (Option Handle))
  | create parent payload => .create parent payload fun r => .done (r.map some)
  | erase h => .erase h fun r => .done (r.map fun _ => none)
  | lookup id => .inspect fun g => .done (.ok (g.lookup id))
  | nextEpoch => .nextEpoch (.done (.ok none))

namespace Graph

def answer (g : Graph) (c : GraphCall) : Except GraphError (Option Handle) := (c.edit.run g).1

def after (g : Graph) (c : GraphCall) : Graph := (c.edit.run g).2

def run (g : Graph) (calls : List GraphCall) : Graph := calls.foldl after g

section InPlace

variable {α : Type}

def reading (f : Graph → Except GraphError α) : EStateM GraphError Graph α := fun g =>
  match f g with
  | .ok a => .ok a g
  | .error e => .error e g

def editing (f : Graph → Except GraphError Graph) : EStateM GraphError Graph Unit := fun g =>
  match f g with
  | .ok g' => .ok () g'
  | .error e => .error e g

def listIn (id : RecordId) : Option RecordId → Graph → Except GraphError Graph
  | none, g => .ok { g with top := g.top ++ [id] }
  | some p, g => do
    let r ← g.recordOf p
    if r.payload.hasBody then return g.appendTo p id else throw (.erased p)

/-- A creation with its changes one after another. If the last one failed, the others would stay. -/
def createInPlace (parent : Option Handle) (payload : Payload) : EStateM GraphError Graph Handle := do
  if let some h := parent then
    let _ ← reading (·.bodyIds h)
  let h ← reading fun g => .ok (g.handle g.nextId)
  modify (·.added (parent.map (·.record)) payload)
  editing (listIn h.record (parent.map (·.record)))
  return h

def eraseInPlace (h : Handle) : EStateM GraphError Graph Unit := do
  let r ← reading (·.record h)
  editing (·.detach h.record r.parent)
  modify fun g => { g with records := removeAll (bodyCount g.records + 1) [h.record] g.records }

end InPlace

def listed (g : Graph) : List RecordId := g.top ++ g.records.values.flatMap (·.body)

structure Linked (g : Graph) : Prop where
  once : g.listed.Nodup
  listed : ∀ {id}, id ∈ g.listed ↔ g.contains id = true
  body : ∀ {p rp id r}, g.Holds p rp → g.Holds id r → (id ∈ rp.body ↔ r.parent = some p)
  top : ∀ {id r}, g.Holds id r → (id ∈ g.top ↔ r.parent = none)
  parent : ∀ {id r p}, g.Holds id r → r.parent = some p → p.index < id.index ∧ g.Accepts (some p)
  top_sorted : g.top.Pairwise fun a b => a.index < b.index
  body_sorted : ∀ {id r}, g.Holds id r → r.body.Pairwise fun a b => a.index < b.index
  bound : ∀ {id}, g.contains id = true → id.index ≤ g.lastId

/-- Operations fail for what is wrong with the handle they are given, and for nothing else. The parent still has its
body when the new record goes there, and a check finds every record that it looks up. A creation and an erasure that
fail do so before their first change. -/
structure Dependable (g : Graph) : Prop where
  create : ∀ {h ids payload}, g.bodyIds h = .ok ids → (g.added (some h.record) payload).Accepts (some h.record)
  erase : ∀ {h e}, g.erase h = .error e ↔ g.record h = .error e
  namedChildren : ∀ {h e}, g.namedChildren h = .error e ↔ g.bodyIds h = .error e
  descendants : ∀ {h e}, g.descendants h = .error e ↔ g.record h = .error e
  validate : ∀ {id}, id ∈ g.top → ∃ r, g.Holds id r ∧ g.AllHeld r.body
  failed : ∀ {c e}, g.answer c = .error e → g.after c = g
  created_in_place : ∀ parent payload, createInPlace parent payload g =
    match g.create parent payload with
    | .ok (h, g') => .ok h g'
    | .error e => .error e g
  erased_in_place : ∀ h, eraseInPlace h g =
    match g.erase h with
    | .ok g' => .ok () g'
    | .error e => .error e g

variable {g : Graph}

lemma Forest.mem_listed (hg : g.Forest) {id : RecordId} : id ∈ g.listed ↔ g.contains id = true := by
  simp only [listed, List.mem_append, List.mem_flatMap]
  constructor
  · rintro (hm | ⟨rp, hrp, hm⟩)
    · obtain ⟨r, hr⟩ := hg.top_held hm
      exact Table.contains_of_find? hr
    · obtain ⟨p, hp⟩ := Table.exists_find?_of_mem_values hg.keys hrp
      obtain ⟨r, hr⟩ := hg.body_held hp hm
      exact Table.contains_of_find? hr
  · intro hc
    obtain ⟨r, hr⟩ := Table.exists_of_contains hc
    cases hp : r.parent with
    | none => exact .inl (hg.root_top hr hp)
    | some p =>
      obtain ⟨_, rp, hrp, hm⟩ := hg.child_body hr hp
      exact .inr ⟨rp, List.mem_map_of_mem (Table.mem_of_find? hrp), hm⟩

lemma Forest.nodup_listed (hg : g.Forest) : g.listed.Nodup := by
  have hheld : ∀ {e}, e ∈ g.records.entries → g.Holds e.1 e.2 := fun he => Table.find?_of_mem hg.keys he
  rw [listed, List.nodup_append, Table.values, List.flatMap_map, List.nodup_flatMap]
  refine ⟨nodup_of_sorted hg.top_sorted, ⟨fun e he => hg.nodup_body (hheld he), ?_⟩, ?_⟩
  -- a record in two bodies would have two parents
  · refine (List.pairwise_map.mp hg.keys).imp_of_mem ?_
    intro a b ha hb hne id hma hmb
    obtain ⟨r, hr, hpa⟩ := hg.body_child (hheld ha) hma
    obtain ⟨r', hr', hpb⟩ := hg.body_child (hheld hb) hmb
    obtain rfl : r = r' := hr.unique hr'
    exact hne (Option.some.inj (hpa.symm.trans hpb))
  · rintro id ht _ hm rfl
    obtain ⟨e, he, hm⟩ := List.mem_flatMap.mp hm
    obtain ⟨r, hr, hroot⟩ := hg.top_root ht
    exact hg.not_mem_of_parent_ne hr (hheld he) (by simp [hroot]) hm

lemma Forest.linked (hg : g.Forest) : g.Linked where
  once := hg.nodup_listed
  listed := hg.mem_listed
  body := by
    intro p rp id r hp hr
    rw [hg.mem_body hp]
    constructor
    · rintro ⟨r', hr', hpar⟩
      exact hr.unique hr' ▸ hpar
    · exact fun hpar => ⟨r, hr, hpar⟩
  top := by
    intro id r hr
    constructor
    · intro hm
      obtain ⟨r', hr', hroot⟩ := hg.top_root hm
      exact hr.unique hr' ▸ hroot
    · exact hg.root_top hr
  parent := by
    intro id r p hr hp
    exact ⟨(hg.child_body hr hp).1, hp ▸ hg.accepts_parent hr⟩
  top_sorted := hg.top_sorted
  body_sorted := hg.body_sorted
  bound := by
    intro id hc
    obtain ⟨r, hr⟩ := Table.exists_of_contains hc
    exact hg.bound hr

section Failing

variable {h : Handle} {e : GraphError}

lemma Forest.erase_error (hg : g.Forest) : g.erase h = .error e ↔ g.record h = .error e := by
  cases hr : g.record h with
  | error e' => simp [Graph.erase, hr, bind, Except.bind]
  | ok r =>
    obtain ⟨g', hd⟩ := hg.exists_detach (holds_of_record hr).2
    simp [Graph.erase, hr, hd, bind, Except.bind, pure, Except.pure]

lemma Forest.namedChildren_error (hg : g.Forest) : g.namedChildren h = .error e ↔ g.bodyIds h = .error e := by
  cases hr : g.record h with
  | error e' => simp [namedChildren, bodyIds, hr, bind, Except.bind]
  | ok r =>
    obtain ⟨he, hh⟩ := holds_of_record hr
    cases hb : r.payload.hasBody with
    | true => simp [namedChildren_eq hg he hh hb, bodyIds_of_holds he hh, hb]
    | false => simp [namedChildren, bodyIds_of_holds he hh, hb, bind, Except.bind]

lemma Forest.descendants_error (hg : g.Forest) : g.descendants h = .error e ↔ g.record h = .error e := by
  cases hr : g.record h with
  | error e' => simp [Graph.descendants, hr, bind, Except.bind]
  | ok r =>
    obtain ⟨he, hh⟩ := holds_of_record hr
    obtain ⟨ids, hids, _⟩ := descendants_ok hg he hh
    simp [hids]

lemma Forest.accepts_added (hg : g.Forest) {ids : List RecordId} {payload : Payload} (hb : g.bodyIds h = .ok ids) :
    (g.added (some h.record) payload).Accepts (some h.record) := by
  cases hr : g.record h with
  | error e => simp [bodyIds, hr, bind, Except.bind] at hb
  | ok r =>
    obtain ⟨he, hh⟩ := holds_of_record hr
    have hbody : r.payload.hasBody = true := by
      by_contra hbody
      simp [bodyIds_of_holds he hh, hbody] at hb
    refine ⟨r, ?_, hbody⟩
    rw [Holds, added, Table.find?_insert_of_ne _ _ (hg.ne_next hh).symm]
    exact hh

end Failing

section InPlace

lemma createInPlace_below (h : Handle) (payload : Payload) :
    createInPlace (some h) payload g =
      match g.bodyIds h with
      | .error e => .error e g
      | .ok _ =>
        match listIn g.nextId (some h.record) (g.added (some h.record) payload) with
        | .ok g' => .ok (g.handle g.nextId) g'
        | .error e => .error e (g.added (some h.record) payload) := by
  have hedit : ∀ g₁ : Graph, (editing (listIn g.nextId (some h.record)) >>= fun _ => pure (g.handle g.nextId)) g₁ =
      match listIn g.nextId (some h.record) g₁ with
      | .ok g' => .ok (g.handle g.nextId) g'
      | .error e => .error e g₁ := by
    intro g₁
    simp only [editing, bind, EStateM.bind]
    cases listIn g.nextId (some h.record) g₁ <;> rfl
  cases hb : g.bodyIds h with
  | error e => simp only [createInPlace, reading, hb, bind, EStateM.bind]
  | ok ids =>
    simp only [createInPlace, reading, hb, bind, EStateM.bind]
    exact hedit (g.added (some h.record) payload)

lemma Forest.createInPlace_eq (hg : g.Forest) (parent : Option Handle) (payload : Payload) :
    createInPlace parent payload g =
      match g.create parent payload with
      | .ok (h, g') => .ok h g'
      | .error e => .error e g := by
  cases parent with
  | none => rfl
  | some h =>
    rw [createInPlace_below]
    cases hb : g.bodyIds h with
    | error e => simp only [Graph.create, createIn, hb, bind, Except.bind]
    | ok ids =>
      have ha : (g.added (some h.record) payload).Accepts (some h.record) := hg.accepts_added hb
      obtain ⟨r, hr, hbody⟩ := ha
      simp only [Graph.create, createIn, hb, listIn, recordOf_of_holds hr, hbody, if_true, bind, Except.bind]
      rfl

lemma Forest.eraseInPlace_eq (hg : g.Forest) (h : Handle) :
    eraseInPlace h g =
      match g.erase h with
      | .ok g' => .ok () g'
      | .error e => .error e g := by
  cases hr : g.record h with
  | error e => simp only [eraseInPlace, Graph.erase, reading, hr, bind, EStateM.bind, Except.bind]
  | ok r =>
    obtain ⟨g', hd⟩ := hg.exists_detach (holds_of_record hr).2
    simp only [eraseInPlace, Graph.erase, reading, editing, hr, hd, bind, EStateM.bind, Except.bind]
    rfl

end InPlace

section Calling

lemma answer_create (g : Graph) (parent : Option Handle) (payload : Payload) :
    g.answer (.create parent payload) = (g.create parent payload).map fun found => some found.1 := by
  cases hc : g.create parent payload <;> simp [answer, GraphCall.edit, Edit.run, hc, Except.map]

lemma answer_erase (g : Graph) (h : Handle) : g.answer (.erase h) = (g.erase h).map fun _ => none := by
  cases he : g.erase h <;> simp [answer, GraphCall.edit, Edit.run, he, Except.map]

lemma after_create {parent : Option Handle} {payload : Payload} {h : Handle} {g' : Graph}
    (hc : g.create parent payload = .ok (h, g')) : g.after (.create parent payload) = g' := by
  simp only [after, GraphCall.edit, Edit.run, hc]

lemma after_erase {h : Handle} {g' : Graph} (he : g.erase h = .ok g') : g.after (.erase h) = g' := by
  simp only [after, GraphCall.edit, Edit.run, he]

lemma after_of_error {c : GraphCall} {e : GraphError} (h : g.answer c = .error e) : g.after c = g := by
  cases c with
  | create parent payload =>
    rw [answer_create] at h
    cases hc : g.create parent payload with
    | ok found => simp [hc, Except.map] at h
    | error e' => simp only [after, GraphCall.edit, Edit.run, hc]
  | erase k =>
    rw [answer_erase] at h
    cases he : g.erase k with
    | ok g' => simp [he, Except.map] at h
    | error e' => simp only [after, GraphCall.edit, Edit.run, he]
  | lookup id => rfl
  | nextEpoch => cases h

end Calling

lemma Forest.dependable (hg : g.Forest) : g.Dependable where
  create := hg.accepts_added
  erase := hg.erase_error
  namedChildren := hg.namedChildren_error
  descendants := hg.descendants_error
  validate := by
    intro id hm
    obtain ⟨r, hr⟩ := hg.top_held hm
    exact ⟨r, hr, hg.allHeld_body hr⟩
  failed := after_of_error
  created_in_place := hg.createInPlace_eq
  erased_in_place := hg.eraseInPlace_eq

lemma Forest.run (hg : g.Forest) (calls : List GraphCall) : (g.run calls).Forest := by
  induction calls generalizing g with
  | nil => exact hg
  | cons c calls ih => exact ih ((c.edit.edits hg).forest hg)

theorem records_listed_once (source : Nat) (calls : List GraphCall) :
    ((empty source).run calls).Linked ∧ ((empty source).run calls).Dependable := by
  have hg : ((empty source).run calls).Forest := (forest_empty source).run calls
  exact ⟨hg.linked, hg.dependable⟩

end Graph

end HardwareDesign
