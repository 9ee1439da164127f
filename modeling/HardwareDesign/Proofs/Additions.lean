import HardwareDesign.Proofs.Runs

namespace HardwareDesign

namespace Graph

def recordBefore (id : RecordId) (r : Record) : Record := { r with body := r.body.filter (·.index < id.index) }

def recordsBefore (id : RecordId) (records : Table RecordId Record) : Table RecordId Record :=
  ⟨(records.entries.filter (·.1.index < id.index)).map fun e => (e.1, recordBefore id e.2)⟩

/-- The graph as it was when the record with this id came: the records with smaller ids, and what was in their bodies
by then. -/
def before (g : Graph) (id : RecordId) : Graph :=
  { g with
    lastId := id.index - 1
    records := recordsBefore id g.records
    top := g.top.filter (·.index < id.index) }

variable {g : Graph} {payload : Payload} {parent : Option RecordId} {id k : RecordId} {ids : List RecordId}

lemma filter_concat (h : id.index ≤ k.index) :
    (ids ++ [k]).filter (·.index < id.index) = ids.filter (·.index < id.index) := by
  rw [List.filter_append, List.filter_singleton, decide_eq_false (Nat.not_lt.mpr h)]
  exact List.append_nil _

lemma recordsBefore_insert {records : Table RecordId Record} (r : Record) (hnew : records.contains k = false)
    (h : id.index ≤ k.index) : recordsBefore id (records.insert k r) = recordsBefore id records := by
  rw [recordsBefore, Table.entries_insert r hnew, List.filter_append, List.filter_singleton,
    decide_eq_false (Nat.not_lt.mpr h)]
  exact congrArg (fun es : List (RecordId × Record) => Table.mk (es.map _)) (List.append_nil _)

lemma recordsBefore_modify {f : Record → Record} (p : RecordId) (records : Table RecordId Record)
    (hf : ∀ r, recordBefore id (f r) = recordBefore id r) :
    recordsBefore id (records.modify p f) = recordsBefore id records := by
  have hkey : ∀ e : RecordId × Record, (if e.1 = p then (e.1, f e.2) else e).1 = e.1 := by
    intro e
    split <;> rfl
  have hrecord : ∀ e : RecordId × Record,
      recordBefore id (if e.1 = p then (e.1, f e.2) else e).2 = recordBefore id e.2 := by
    intro e
    split
    · exact hf e.2
    · rfl
  simp only [recordsBefore, Table.modify, List.filter_map, List.map_map, Function.comp_def, hkey, hrecord]

lemma Forest.before_next (hg : g.Forest) : g.before g.nextId = g := by
  have hids : ∀ {ids}, g.AllHeld ids → ids.filter (·.index < g.nextId.index) = ids := by
    intro ids hi
    refine List.filter_eq_self.mpr fun k hk => ?_
    obtain ⟨r, hr⟩ := hi k hk
    exact decide_eq_true (Nat.lt_succ_of_le (hg.bound hr))
  have hheld : ∀ e ∈ g.records.entries, g.Holds e.1 e.2 := fun e he => Table.find?_of_mem hg.keys he
  have hrecords : recordsBefore g.nextId g.records = g.records := by
    have hall : g.records.entries.filter (·.1.index < g.nextId.index) = g.records.entries :=
      List.filter_eq_self.mpr fun e he => decide_eq_true (Nat.lt_succ_of_le (hg.bound (hheld e he)))
    have hsame : ∀ e ∈ g.records.entries, (e.1, recordBefore g.nextId e.2) = e := by
      intro e he
      rw [recordBefore, hids (hg.allHeld_body (hheld e he))]
    rw [recordsBefore, hall, List.map_congr_left hsame, List.map_id']
  rw [before, hrecords, hids hg.allHeld_top]
  rfl

lemma Forest.before_created (hg : g.Forest) (h : id.index ≤ g.nextId.index) :
    (g.created payload parent).before id = g.before id := by
  have hnew : g.records.contains g.nextId = false := by
    refine Bool.eq_false_iff.mpr fun hc => ?_
    obtain ⟨r, hr⟩ := Table.exists_of_contains hc
    exact hg.not_held_next hr
  cases parent with
  | none => simp only [before, Graph.created, createTop, added, recordsBefore_insert _ hnew h, filter_concat h]
  | some p =>
    have hbody : ∀ r : Record, recordBefore id { r with body := r.body ++ [g.nextId] } = recordBefore id r := by
      intro r
      rw [recordBefore, filter_concat h]
      rfl
    simp only [before, Graph.created, appendTo, added, recordsBefore_modify p _ hbody, recordsBefore_insert _ hnew h]

end Graph

namespace Design

variable {resolving : Prop} {s t : Design} {payload : Payload} {parent : Option RecordId} {id : RecordId} {r : Record}

inductive Adds (s : Design) : Payload → Option RecordId → Prop
  | module {d x} (external : Bool) : s.resolveSymbol d = none → x ∉ s.takenSymbols →
      Adds s (modulePayload external x) none
  | site {d m name payload kind} : s.Filling d m → (s.siteTable d).contains name = false →
      payload.symbolName = some name → payload.hasBody = false → s.nodeKind (.ofPayload payload) = .ok kind →
      Adds s payload (some m.record)
  | unnamed {d m payload} : s.Filling d m → payload.symbolName = none → payload.hasBody = false →
      Adds s payload (some m.record)
  | hierarchy {d x} : s.resolveSymbol d = some x → d ∉ s.records.rooted → s.graph.hierarchies.contains x = false →
      Adds s (.hierarchy x) none
  | dynamic {i n owner site} : s.Nesting i n owner site → (s.graph.nestedTable owner.record).contains site = false →
      Adds s (.dynamicInstance site) (some owner.record)
  | note {i} {owner : Handle} {payload} : s.StandsFor owner.record i → payload.symbolName = none → payload.hasBody = false →
      Adds s payload (some owner.record)

lemma Adds.accepts (h : s.Adds payload parent) : s.graph.Accepts parent := by
  cases h with
  | module => exact s.graph.accepts_top
  | site hf => exact hf.accepts
  | unnamed hf => exact hf.accepts
  | hierarchy => exact s.graph.accepts_top
  | dynamic hn =>
    obtain ⟨_, _, hstands⟩ := hn.owner
    exact hstands.accepts
  | note hi => exact hi.accepts

lemma Change.adds (hc : Change resolving s t) :
    t.graph = s.graph ∨ ∃ payload parent, s.Adds payload parent ∧ t.graph = s.graph.created payload parent := by
  cases hc with
  | scan hscan => exact .inl hscan.graph
  | build _ hd hx => exact .inr ⟨_, _, .module _ hd hx, built_graph _⟩
  | site hf hn hp hb hk => exact .inr ⟨_, _, .site hf hn hp hb hk, rfl⟩
  | unnamed hf hn hb => exact .inr ⟨_, _, .unnamed hf hn hb, rfl⟩
  | hierarchy hx hd hn => exact .inr ⟨_, _, .hierarchy hx hd hn, rfl⟩
  | nest hn hnew => exact .inr ⟨_, _, .dynamic hn hnew, rfl⟩
  | note hi _ hn hb => exact .inr ⟨_, _, .note hi hn hb, rfl⟩
  | _ => exact .inl rfl

/-- On the way from `s` to `t`, the record comes between `u` and `v`. -/
structure Creation (resolving : Prop) (s t : Design) (id : RecordId) (r : Record) (u v : Design) : Prop where
  starts : Changes resolving s u
  creates : Change resolving u v
  ends : Changes resolving v t
  adds : u.Adds r.payload r.parent
  next : u.graph.nextId = id
  graph : v.graph = u.graph.created r.payload r.parent

lemma Changes.before (hc : Changes resolving s t) (hs : s.Coherent) (hid : id.index ≤ s.graph.nextId.index) :
    t.graph.before id = s.graph.before id := by
  induction hc with
  | refl => rfl
  | @tail v t hrun hlast ih =>
    obtain ⟨hv, hext⟩ := Changes.coherent hrun hs
    rcases hlast.adds with hsame | ⟨payload, parent, hadds, hgraph⟩
    · rw [hsame, ih]
    · rw [hgraph, hv.forest.before_created ?_, ih]
      exact hid.trans (Nat.succ_le_succ hext.graph.lastId)

lemma Changes.added (hc : Changes resolving s t) (hs : s.Coherent) (hr : t.graph.Holds id r)
    (hnew : s.graph.lastId < id.index) : ∃ u v, Creation resolving s t id r u v := by
  induction hc generalizing r with
  | refl => exact absurd (hs.forest.bound hr) (Nat.not_le_of_lt hnew)
  | @tail w t hrun hlast ih =>
    obtain ⟨hw, _⟩ := Changes.coherent hrun hs
    have hold : ∀ {r₀}, w.graph.Holds id r₀ → r.payload = r₀.payload → r.parent = r₀.parent →
        ∃ u v, Creation resolving s t id r u v := by
      intro r₀ h₀ hp hparent
      obtain ⟨u, v, h⟩ := ih h₀
      exact ⟨u, v, h.starts, h.creates, h.ends.tail hlast, by rw [hp, hparent]; exact h.adds, h.next,
        by rw [hp, hparent]; exact h.graph⟩
    rcases hlast.adds with hsame | ⟨payload, parent, hadds, hgraph⟩
    · exact hold (hsame ▸ hr) rfl rfl
    · have hr' := hr
      rw [hgraph] at hr'
      rcases (Graph.holds_created hw.forest hadds.accepts).mp hr' with ⟨rfl, rfl⟩ | ⟨r₀, h₀, rfl⟩
      · exact ⟨w, t, hrun, hlast, .refl, hadds, rfl, hgraph⟩
      · exact hold h₀ rfl rfl

lemma Creation.before {u v : Design} (h : Creation resolving s t id r u v) (hs : s.Coherent) :
    u.graph = t.graph.before id := by
  obtain ⟨hu, _⟩ := h.starts.coherent hs
  obtain ⟨hv, _⟩ := h.creates.coherent hu
  have hnext : id.index ≤ v.graph.nextId.index := by
    rw [← h.next, h.graph]
    exact Nat.succ_le_succ (Nat.le_of_lt (by rw [Graph.created_lastId]; exact Nat.lt_succ_self _))
  rw [h.ends.before hv hnext, h.graph, ← h.next, hu.forest.before_created (Nat.le_refl _), hu.forest.before_next]

end Design

end HardwareDesign
