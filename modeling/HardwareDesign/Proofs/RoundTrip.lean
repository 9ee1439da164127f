import HardwareDesign.Proofs.Runs

namespace HardwareDesign.Design

variable {s t : Design} {i : InstanceId} {n : Node} {h : Handle}

lemma Coherent.contains_name (hs : s.Coherent) (hn : s.tree.node i = .ok n) {name : String}
    (hname : n.name = some name) : (s.siteTable n.insideOf).contains name = true := by
  rcases hs.shaped.nodes (InstanceTree.node_eq.mp hn).2 with hroot | ⟨_, p, np, c, hc⟩
  · simp [hroot.name] at hname
  · obtain rfl := Option.some.inj (hc.name.symm.trans hname)
    have hkeys : c.keys = (s.siteTable n.insideOf).keys :=
      keys_of_siteChildren (hs.matched hc.above hc.children hc.insideOf)
    rw [Table.contains_iff, ← hkeys]
    exact Table.contains_iff.mp (Table.contains_of_find? hc.found)

lemma recordUpTo_remembered (hs : s.Coherent) (hn : s.tree.node i = .ok n) {p : InstanceId} (hp : n.parent = some p)
    (hf : s.records.instances.find? i = some h) (fuel : Nat) :
    ∃ t, recordUpTo (fuel + 1) i s = .ok h t ∧ s.Scanned t := by
  rcases hs.shaped.nodes (InstanceTree.node_eq.mp hn).2 with hroot | ⟨name, q, nq, c, hc⟩
  · simp [hroot.parent] at hp
  · obtain ⟨x, hx⟩ := hs.targets hc.above hc.insideOf
    obtain ⟨t, ht, hscan⟩ := sitesOf_built hs hx
    refine ⟨t, ?_, hscan⟩
    rw [recordUpTo, bind_of_ok (Action.read_ok hn), hc.parent, hc.name]
    apply (bind_of_ok ht).trans
    rw [if_pos (hs.contains_name hn hc.name), get_bind, hscan.instances, hf]
    rfl

lemma recordUpTo_root (hs : s.Coherent) (hn : s.tree.node i = .ok n) (hp : n.parent = none) {x : String}
    (hx : s.resolveSymbol n.insideOf = some x) (hf : s.graph.hierarchies.find? x = some h) (fuel : Nat) :
    recordUpTo (fuel + 1) i s = .ok h (s.setHierarchies s.graph.hierarchies) := by
  rcases hs.shaped.nodes (InstanceTree.node_eq.mp hn).2 with hroot | ⟨name, q, nq, c, hc⟩
  · rw [recordUpTo, bind_of_ok (Action.read_ok hn), hroot.parent, hroot.name]
    apply (bind_of_ok (hierarchyRecord_built hs.views hx)).trans
    rw [hf]
    rfl
  · simp [hc.parent] at hp

lemma hierarchy_of_recordUpTo (hs : s.Coherent) (hn : s.tree.node i = .ok n) (hp : n.parent = none) {fuel : Nat}
    (hr : recordUpTo (fuel + 1) i s = .ok h t) :
    ∃ x, s.resolveSymbol n.insideOf = some x ∧ s.graph.hierarchies.find? x = some h := by
  rcases hs.shaped.nodes (InstanceTree.node_eq.mp hn).2 with hroot | ⟨name, q, nq, c, hc⟩
  · obtain ⟨x, hx⟩ := hs.targets (InstanceTree.node_eq.mp hn).2 (by rw [hroot.kind]; rfl)
    refine ⟨x, hx, ?_⟩
    cases hf : s.graph.hierarchies.find? x with
    | some k =>
      have hk := (recordUpTo_root hs hn hp hx hf _).symm.trans hr
      cases hk
      rfl
    | none =>
      rw [recordUpTo, bind_of_ok (Action.read_ok hn), hroot.parent, hroot.name] at hr
      have hr := (bind_of_ok (hierarchyRecord_built hs.views hx)).symm.trans hr
      rw [hf] at hr
      have hkeeps : Keeps False _ (fun _ _ => False) _ :=
        keeps_doesNotExist (α := Handle) (i := i) (s := s.setHierarchies s.graph.hierarchies)
      exact (hkeeps.post hr).elim
  · simp [hc.parent] at hp

lemma hierarchy_of_getOrCreateRecord (hs : s.Coherent) (hn : s.tree.node i = .ok n) (hp : n.parent = none)
    (hr : getOrCreateRecord i s = .ok h t) :
    ∃ x, s.resolveSymbol n.insideOf = some x ∧ s.graph.hierarchies.find? x = some h :=
  hierarchy_of_recordUpTo hs hn hp hr

lemma node_of_recordUpTo {fuel : Nat} (hr : recordUpTo (fuel + 1) i s = .ok h t) : ∃ n, s.tree.node i = .ok n := by
  cases hn : s.tree.node i with
  | ok n => exact ⟨n, rfl⟩
  | error e =>
    rw [recordUpTo, bind_of_error (Action.read_error hn)] at hr
    cases hr

lemma node_of_getOrCreateRecord (hr : getOrCreateRecord i s = .ok h t) : ∃ n, s.tree.node i = .ok n :=
  node_of_recordUpTo hr

lemma recorded_of_recordUpTo (hs : s.Coherent) {fuel : Nat} (hr : recordUpTo fuel i s = .ok h t) :
    s.Recorded i h t ∧ t.Coherent ∧ s.Extends t := by
  have hkeeps : Keeps False s _ _ := keeps_recordUpTo hs fuel i
  obtain ⟨hc, hrec⟩ := hkeeps.ended hr
  exact ⟨hrec, hc.coherent hs⟩

lemma recorded_of_getOrCreateRecord (hs : s.Coherent) (hr : getOrCreateRecord i s = .ok h t) :
    s.Recorded i h t ∧ t.Coherent ∧ s.Extends t :=
  recorded_of_recordUpTo hs hr

lemma getOrCreateRecord_again (hs : s.Coherent) (hr : getOrCreateRecord i s = .ok h t) {u : Design} (hu : u.Coherent)
    (he : t.Extends u) : ∃ v, getOrCreateRecord i u = .ok h v := by
  obtain ⟨hrec, ht, hst⟩ := recorded_of_getOrCreateRecord hs hr
  obtain ⟨n, hn⟩ := node_of_getOrCreateRecord hr
  obtain ⟨_, hnu, _⟩ := (hst.trans he).node hn
  cases hp : n.parent with
  | some p =>
    obtain ⟨v, hv, _⟩ := recordUpTo_remembered hu hnu hp (he.instances (hrec.remembered hn hp)) _
    exact ⟨v, hv⟩
  | none =>
    obtain ⟨x, hx, hf⟩ := hierarchy_of_getOrCreateRecord hs hn hp hr
    have hfu := Graph.find?_hierarchies_grows hs.forest (hst.trans he).graph hf
    exact ⟨_, recordUpTo_root hu hnu hp ((hst.trans he).symbols hx) hfu _⟩

/-- In every later state of the same generation, the record that a node has got leads back to the node without a
change of the graph, the node gets it again, and no other node gets it. -/
theorem record_round_trip {s s₁ s₂ : Design} (hs : s.Reachable) {i : InstanceId} {h : Handle}
    (hr : getOrCreateRecord i s = .ok h s₁) (hlater : s₁.Reaches s₂)
    (hgen : s₂.tree.generation = s₁.tree.generation) :
    (∃ t, resolveNode h s₂ = .ok i t ∧ t.graph = s₂.graph) ∧ (∃ t, getOrCreateRecord i s₂ = .ok h t) ∧
      ∀ {j k t}, getOrCreateRecord j s₂ = .ok k t → k.record = h.record → j = i := by
  have hs := hs.coherent
  obtain ⟨hrec, h₁, _⟩ := recorded_of_getOrCreateRecord hs hr
  obtain ⟨h₂, _⟩ := Reaches.coherent hlater h₁
  have he := Reaches.extends_of_generation hlater h₁ hgen
  have hstands := he.standsFor hrec.stands
  refine ⟨resolveNode_of_standsFor h₂.forest hstands (hrec.epoch.trans he.graph.epoch.symm),
    getOrCreateRecord_again hs hr h₂ he, ?_⟩
  intro j k t hj hk
  obtain ⟨hrec', _, he'⟩ := recorded_of_getOrCreateRecord h₂ hj
  exact (hk ▸ hrec'.stands).unique (he'.standsFor hstands)

theorem record_round_trip_register :
    getOrCreateRecord ⟨1, 0⟩ lateRegister = .ok ⟨⟨4⟩, 0, 0⟩ (lateRegister.after (.record ⟨1, 0⟩)) ∧
      ∃ t, resolveNode ⟨⟨4⟩, 0, 0⟩ ((lateRegister.after (.record ⟨1, 0⟩)).run [.call (.define "N" .external)]) =
        .ok ⟨1, 0⟩ t := by
  have hr : getOrCreateRecord ⟨1, 0⟩ lateRegister = .ok ⟨⟨4⟩, 0, 0⟩ (lateRegister.after (.record ⟨1, 0⟩)) := rfl
  have hlater := reaches_run (lateRegister.after (.record ⟨1, 0⟩)) [.call (.define "N" .external)]
  obtain ⟨⟨t, ht, _⟩, _⟩ := record_round_trip reachable_lateRegister hr hlater (by decide +kernel)
  exact ⟨hr, t, ht⟩

end HardwareDesign.Design
