import HardwareDesign.Proofs.Recording

namespace HardwareDesign

namespace Graph

variable {g g' : Graph}

inductive Lineage (g : Graph) : RecordId → String → List (String × Handle) → Prop
  | hierarchy {id r top} : g.Holds id r → r.payload = .hierarchy top → Lineage g id top []
  | dynamic {h r site p top steps} : g.Holds h.record r → h.epoch = g.epoch → r.payload = .dynamicInstance site →
      r.parent = some p → Lineage g p top steps → Lineage g h.record top (steps ++ [(site.name, h)])

lemma Lineage.grows (hg : g.Grows g') {id : RecordId} {top : String} {steps : List (String × Handle)}
    (h : g.Lineage id top steps) : g'.Lineage id top steps := by
  induction h with
  | hierarchy hr hp =>
    obtain ⟨_, hr'⟩ := hg.records hr
    exact .hierarchy hr' hp
  | dynamic hr he hp hpar _ ih =>
    obtain ⟨_, hr'⟩ := hg.records hr
    exact .dynamic hr' (he.trans hg.epoch.symm) hp hpar ih

lemma parent_of_holds {h : Handle} {r : Record} (he : h.epoch = g.epoch) (hr : g.Holds h.record r) :
    g.parent h = .ok (r.parent.map g.handle) := by
  simp [parent, record_of_holds he hr, bind, Except.bind, pure, Except.pure]

lemma holds_of_payload {h : Handle} {p : Payload} (hp : g.payload h = .ok p) :
    h.epoch = g.epoch ∧ ∃ r, g.Holds h.record r ∧ r.payload = p := by
  cases hr : g.record h with
  | error e => simp [payload, hr, bind, Except.bind] at hp
  | ok r =>
    obtain ⟨he, hh⟩ := holds_of_record hr
    simp only [payload, hr, bind, Except.bind, pure, Except.pure] at hp
    exact ⟨he, r, hh, Except.ok.inj hp⟩

lemma lineage_ok {fuel : Nat} {h : Handle} {top : String} {steps : List (String × Handle)}
    (hl : g.lineage fuel h = .ok (top, steps)) : h.epoch = g.epoch ∧ g.Lineage h.record top steps := by
  induction fuel generalizing h top steps with
  | zero => cases hl
  | succ fuel ih =>
    cases hp : g.payload h with
    | error e => simp [lineage, hp] at hl
    | ok payload =>
      obtain ⟨he, r, hr, hpay⟩ := holds_of_payload hp
      cases payload with
      | hierarchy top' =>
        simp only [lineage, hp] at hl
        obtain ⟨rfl, rfl⟩ := Prod.mk.inj (Except.ok.inj hl)
        exact ⟨he, .hierarchy hr hpay⟩
      | dynamicInstance site =>
        simp only [lineage, hp, parent_of_holds he hr] at hl
        cases hpar : r.parent with
        | none => simp [hpar] at hl
        | some p =>
          simp only [hpar, Option.map_some] at hl
          cases hrest : g.lineage fuel (g.handle p) with
          | error e => simp [hrest, bind, Except.bind] at hl
          | ok found =>
            obtain ⟨top', rest⟩ := found
            simp only [hrest, bind, Except.bind, pure, Except.pure] at hl
            obtain ⟨rfl, rfl⟩ := Prod.mk.inj (Except.ok.inj hl)
            exact ⟨he, .dynamic hr he hpay hpar (ih hrest).2⟩
      | _ => simp [lineage, hp] at hl

lemma lineage_hierarchy {h : Handle} {r : Record} {top : String} (he : h.epoch = g.epoch) (hr : g.Holds h.record r)
    (hp : r.payload = .hierarchy top) (fuel : Nat) : g.lineage (fuel + 1) h = .ok (top, []) := by
  rw [lineage, payload_of_holds he hr, hp]

lemma lineage_dynamic {h : Handle} {r : Record} {site : SiteRef} {p : RecordId} {fuel : Nat} {top : String}
    {steps : List (String × Handle)} (he : h.epoch = g.epoch) (hr : g.Holds h.record r)
    (hp : r.payload = .dynamicInstance site) (hpar : r.parent = some p)
    (hl : g.lineage fuel (g.handle p) = .ok (top, steps)) :
    g.lineage (fuel + 1) h = .ok (top, steps ++ [(site.name, h)]) := by
  rw [lineage, payload_of_holds he hr, hp]
  simp only [parent_of_holds he hr, hpar, Option.map_some, hl, bind, Except.bind, pure, Except.pure]

end Graph

namespace Design

variable {s t : Design} {i : InstanceId} {h : Handle}

lemma setRecordIfNew_of_some {k : Handle} (hk : s.records.instances.find? i = some k) : s.setRecordIfNew i h = s := by
  simp only [setRecordIfNew, Table.insertNew_of_contains _ (Table.contains_of_find? hk)]

lemma setRecordIfNew_of_none (hk : s.records.instances.find? i = none) : s.setRecordIfNew i h = s.setRecord i h := by
  have hc : s.records.instances.contains i = false := by simp [Table.contains, hk]
  simp only [setRecordIfNew, setRecord, Table.insertNew_of_not_contains _ hc]

lemma keeps_stepDown (hs : s.Coherent) {p : InstanceId} {q : RecordId} {r : Record} {site : SiteRef}
    (hp : s.StandsFor q p) (hr : s.graph.Holds h.record r) (he : h.epoch = s.graph.epoch)
    (hpay : r.payload = .dynamicInstance site) (hpar : r.parent = some q) :
    Keeps True s (fun i t => t.StandsFor h.record i) (stepDown p (site.name, h) s) := by
  apply (keeps_child hs p site.name).guarded.bind
  rintro i t hc ⟨n, c, hn, hchildren, hf⟩
  obtain ⟨ht, hext⟩ := hc.coherent hs
  obtain ⟨_, hr'⟩ := hext.graph.records hr
  have hi : t.StandsFor h.record i := .child hr' hpay hpar (hext.standsFor hp) hn hchildren hf
  rw [modify_bind]
  cases hk : t.records.instances.find? i with
  | some k =>
    rw [setRecordIfNew_of_some hk]
    exact .pure hi
  | none =>
    rw [setRecordIfNew_of_none hk]
    have hmeet : Change True t (t.setRecord i h) := .meet trivial hi (he.trans hext.graph.epoch.symm) hk
    exact .ok (.one hmeet) ((hmeet.coherent ht).2.standsFor hi)

lemma stepDown_set {p j : InstanceId} {n : Node} {c : Children} {name : String} (hn : s.tree.node p = .ok n)
    (hc : n.children = some c) (hf : c.find? name = some j) :
    stepDown p (name, h) s = .ok j (s.setRecordIfNew j h) := by
  rw [stepDown, liftM_eq, bind_of_ok (Action.guarded_ok (child_set hn hc hf))]
  rfl

lemma keeps_stepsDown (hs : s.Coherent) {id : RecordId} {top : String} {steps : List (String × Handle)}
    (hl : s.graph.Lineage id top steps) {d : DefId} {root : InstanceId} (hd : s.registry.definitionOf top = some d)
    (hroot : s.tree.roots.find? d = some root) :
    Keeps True s (fun i t => t.StandsFor id i) (steps.foldlM stepDown root s) := by
  induction hl with
  | hierarchy hr hp => exact .pure (.root hr hp hd hroot)
  | dynamic hr he hp hpar _ ih =>
    rw [List.foldlM_append]
    apply (ih hd).bind
    intro p t hc hstands
    obtain ⟨ht, hext⟩ := hc.coherent hs
    obtain ⟨_, hr'⟩ := hext.graph.records hr
    rw [List.foldlM_cons]
    apply (keeps_stepDown ht hstands hr' (he.trans hext.graph.epoch.symm) hp hpar).bind
    intro j u _ hj
    exact .pure hj

lemma keeps_resolveNode (hs : s.Coherent) (h : Handle) :
    Keeps True s (fun i t => t.StandsFor h.record i) (resolveNode h s) := by
  rw [resolveNode, get_bind]
  cases hl : s.graph.lineage (h.record.index + 1) h with
  | error e => exact .error .refl
  | ok found =>
    obtain ⟨top, steps⟩ := found
    obtain ⟨_, hl⟩ := Graph.lineage_ok hl
    refine (Keeps.read (fun s => s.resolveDefinition top)).guarded.bind ?_
    rintro d _ - ⟨rfl, hd⟩
    have hd : s.registry.definitionOf top = some d := by
      cases hd' : s.registry.definitionOf top with
      | none => simp [resolveDefinition, hd'] at hd
      | some e =>
        simp only [resolveDefinition, hd'] at hd
        rw [Except.ok.inj hd]
    apply (keeps_getInstance hs d).bind
    intro root t hc hroot
    obtain ⟨ht, hext⟩ := hc.coherent hs
    exact keeps_stepsDown ht (hl.grows hext.graph) (hext.definitions hd) hroot

lemma StandsFor.resolves (hg : s.graph.Forest) {id : RecordId} (hi : s.StandsFor id i) {fuel : Nat}
    (hk : h.record = id) (he : h.epoch = s.graph.epoch) (hf : id.index < fuel) :
    ∃ top d root steps, s.graph.lineage fuel h = .ok (top, steps) ∧ s.registry.definitionOf top = some d ∧
      s.tree.roots.find? d = some root ∧
      ∃ t, steps.foldlM stepDown root s = .ok i t ∧ t.graph = s.graph ∧ t.tree = s.tree := by
  induction hi generalizing h fuel with
  | root hr hp hd hroot =>
    subst hk
    obtain ⟨fuel, rfl⟩ := Nat.exists_eq_add_of_lt hf
    exact ⟨_, _, _, _, Graph.lineage_hierarchy he hr hp _, hd, hroot, s, rfl, rfl, rfl⟩
  | child hr hp hpar _ hn hc hj ih =>
    subst hk
    obtain ⟨fuel, rfl⟩ := Nat.exists_eq_add_of_lt hf
    obtain ⟨hlt, _⟩ := hg.child_body hr hpar
    obtain ⟨top, d, root, steps, hl, hd, hroot, t, ht, hgraph, htree⟩ :=
      ih (h := s.graph.handle _) rfl rfl (by omega : _ < h.record.index + fuel)
    refine ⟨top, d, root, _, Graph.lineage_dynamic he hr hp hpar hl, hd, hroot, ?_⟩
    rw [List.foldlM_append, bind_of_ok ht, List.foldlM_cons, bind_of_ok (stepDown_set (htree ▸ hn) hc hj)]
    exact ⟨_, rfl, hgraph, htree⟩

lemma resolveNode_of_standsFor (hg : s.graph.Forest) (hi : s.StandsFor h.record i) (he : h.epoch = s.graph.epoch) :
    ∃ t, resolveNode h s = .ok i t ∧ t.graph = s.graph := by
  obtain ⟨top, d, root, steps, hl, hd, hroot, t, ht, hgraph, _⟩ := hi.resolves hg rfl he (Nat.lt_succ_self _)
  have hread : s.resolveDefinition top = .ok d := by simp only [resolveDefinition, hd]
  refine ⟨t, ?_, hgraph⟩
  rw [resolveNode, get_bind, hl]
  apply (bind_of_ok (Action.guarded_ok (Action.read_ok hread))).trans
  rw [bind_of_ok (getInstance_of_root hroot), ht]

end Design

end HardwareDesign
