import HardwareDesign.Proofs.Expanding
import HardwareDesign.Proofs.Siting

namespace HardwareDesign.Design

variable {s t : Design}

lemma Extends.of_eq (hg : t.graph = s.graph) (hr : t.registry = s.registry) (ht : t.tree = s.tree)
    (hi : t.records.instances = s.records.instances) : s.Extends t where
  graph := hg ▸ .refl _
  tree := ht ▸ .refl _
  symbols h := (resolveSymbol_congr hr _).trans h
  definitions h := by simpa only [hr] using h
  instances h := hi ▸ h

lemma Coherent.of_eq (hs : s.Coherent) (hv : t.Views) (hg : t.graph = s.graph) (hr : t.registry = s.registry)
    (ht : t.tree = s.tree) (hi : t.records.instances = s.records.instances) : t.Coherent :=
  hs.carry (.of_eq hg hr ht hi) (hg ▸ hs.forest) (hr ▸ hs.paired) hv ht hi fun _ => siteTable_congr hg hr _

section Records

variable {i : InstanceId} {n : Node} {owner h : Handle} {site : SiteRef}

lemma Coherent.setRecord (hs : s.Coherent) (hi : s.StandsFor h.record i) (hepoch : h.epoch = s.graph.epoch)
    (hnew : s.records.instances.find? i = none) : (s.setRecord i h).Coherent ∧ s.Extends (s.setRecord i h) := by
  have he : s.Extends (s.setRecord i h) := by
    refine ⟨.refl _, .refl _, fun h => h, fun h => h, fun {j k} hk => ?_⟩
    have hne : i ≠ j := by
      rintro rfl
      simp [hnew] at hk
    exact (Table.find?_insert_of_ne _ _ hne).trans hk
  have hv := hs.views
  refine ⟨⟨hs.forest, hs.paired, ⟨hv.known, hv.hierarchies, hv.sites, hv.nested⟩, hs.shaped, hs.targets, ?_, ?_⟩, he⟩
  · intro k n c d hk hc hd
    exact (hs.matched hk hc hd).imp fun _ _ => he.siteChild
  · intro j k hk
    have hf : (s.records.instances.insert i h).find? j = some k := hk
    rw [Table.find?_insert] at hf
    by_cases hij : i = j
    · subst hij
      obtain rfl : h = k := by simpa using hf
      exact ⟨hepoch, he.standsFor hi⟩
    · obtain ⟨hk', hj⟩ := hs.backed (by simpa [hij] using hf)
      exact ⟨hk', he.standsFor hj⟩

lemma Nesting.standsFor (hs : s.Coherent) (hn : s.Nesting i n owner site)
    (hf : (s.graph.nestedTable owner.record).find? site = some h) :
    s.StandsFor h.record i ∧ h.epoch = s.graph.epoch := by
  obtain ⟨hh, r, hr, hp, hpar⟩ := Graph.holds_of_find?_nestedTable hs.forest hf
  obtain ⟨p, hparent, hstands⟩ := hn.owner
  obtain ⟨hg, hi⟩ := InstanceTree.node_eq.mp hn.node
  rcases hs.shaped.nodes hi with hroot | ⟨name, q, nq, c, hc⟩
  · cases hparent.symm.trans hroot.parent
  · obtain rfl : name = site.name := Option.some.inj (hc.name.symm.trans hn.name)
    obtain rfl : p = s.tree.idAt q := Option.some.inj (hparent.symm.trans hc.parent)
    have hfound := hc.found
    rw [InstanceTree.idAt_index hg] at hfound
    refine ⟨.child hr hp hpar hstands (InstanceTree.node_idAt.mpr hc.above) hc.children hfound, ?_⟩
    rw [hh]
    rfl

end Records

/-- What holds of a coherent design before a change holds after it. -/
lemma Change.coherent {resolving : Prop} (hc : Change resolving s t) (hs : s.Coherent) :
    t.Coherent ∧ s.Extends t := by
  have hv := hs.views
  have same : ∀ {u : Design}, u.Views → u.graph = s.graph → u.registry = s.registry → u.tree = s.tree →
      u.records.instances = s.records.instances → u.Coherent ∧ s.Extends u :=
    fun hu hg hr ht hi => ⟨hs.of_eq hu hg hr ht hi, .of_eq hg hr ht hi⟩
  cases hc with
  | scan h => exact same h.views h.graph h.registry h.tree h.instances
  | define => exact same ⟨hv.known, hv.hierarchies, hv.sites, hv.nested⟩ rfl rfl rfl rfl
  | dequeue => exact same ⟨hv.known, hv.hierarchies, hv.sites, hv.nested⟩ rfl rfl rfl rfl
  | promote => exact same ⟨hv.known, hv.hierarchies, hv.sites, hv.nested⟩ rfl rfl rfl rfl
  | refuse => exact same ⟨hv.known, hv.hierarchies, hv.sites, hv.nested⟩ rfl rfl rfl rfl
  | database => exact same ⟨hv.known, hv.hierarchies, hv.sites, hv.nested⟩ rfl rfl rfl rfl
  | build _ hd hx => exact hs.built hd hx _
  | site hf hn hp hb hk => exact hs.sited hf hn hp hb hk
  | unnamed hf hn hb => exact hs.filled hf hn hb
  | root hx hn => exact hs.addRoot hx hn
  | hierarchy _ _ hnew => exact hs.withHierarchy hnew
  | expand hn hcn hk => exact hs.expanded hn hcn hk
  | nest hn hnew => exact hs.nested hn hnew
  | back hn hf hnew =>
    obtain ⟨hi, hepoch⟩ := hn.standsFor hs hf
    exact hs.setRecord hi hepoch hnew
  | meet _ hi hepoch hnew => exact hs.setRecord hi hepoch hnew
  | note hi _ hn hb => exact hs.noted hi hn hb

end HardwareDesign.Design
