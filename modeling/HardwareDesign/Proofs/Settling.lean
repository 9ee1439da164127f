import HardwareDesign.Proofs.Retaining

/-!
Every record of an instance is at the end of a path, whether the instance tree has the instance or not. Where it has,
the same path leads to the instance.
-/

namespace HardwareDesign.Design

variable {resolving : Prop} {s t : Design} {d : DefId} {path : List String} {name : String} {kind : NodeKind}
  {i : InstanceId} {id : RecordId}

section Matching

lemma find?_siteChildren {sites : List (String × Site)} {children : List (String × InstanceId)} {site : Site}
    (h : List.Forall₂ s.SiteChild sites children) (hf : Table.findIn name sites = some site) :
    ∃ j n, Table.findIn name children = some j ∧ s.tree.node j = .ok n ∧ s.nodeKind site.kind = .ok n.kind := by
  induction h with
  | nil => cases hf
  | @cons e f sites children hef _ ih =>
    rw [Table.findIn, hef.name]
    by_cases hname : e.1 = name
    · obtain ⟨n, hn, hk⟩ := hef.kind
      rw [Table.findIn, if_pos hname] at hf
      obtain rfl := Option.some.inj hf
      exact ⟨f.2, n, if_pos hname, hn, hk⟩
    · rw [Table.findIn, if_neg hname] at hf
      rw [if_neg hname]
      exact ih hf

lemma Coherent.child_of_site (hs : s.Coherent) {n : Node} {c : Children} {e : DefId} {site : Site}
    (hn : s.tree.node i = .ok n) (hc : n.children = some c) (he : n.kind.target = some e)
    (hsite : (s.siteTable e).find? name = some site) :
    ∃ j m, c.find? name = some j ∧ s.tree.node j = .ok m ∧ s.nodeKind site.kind = .ok m.kind :=
  find?_siteChildren (hs.matched (InstanceTree.node_eq.mp hn).2 hc he) hsite

lemma Leads.node (hs : s.Coherent) (h : s.Leads d path kind id) (hi : s.tree.Found d path i) :
    s.StandsFor id i ∧ ∃ n, s.tree.node i = .ok n ∧ n.kind = kind := by
  induction h generalizing i with
  | root hx _ hf =>
    obtain ⟨hg, n, hn, hp, rfl⟩ := hs.shaped.roots hi.of_nil
    rcases hs.shaped.nodes hn with hroot | ⟨_, _, _, _, hc⟩
    · exact ⟨(StandsFor.of_root hs hg hroot hx hf).1, n, InstanceTree.node_eq.mpr ⟨hg, hn⟩, hroot.kind⟩
    · simp [hc.parent] at hp
  | child _ hb ih =>
    obtain ⟨he, _, hsite, hk, hf⟩ := hb
    obtain ⟨p, n, c, hp, hn, hc, hj⟩ := hi.of_concat
    obtain ⟨hstands, m, hm, rfl⟩ := ih hp
    obtain rfl := Except.ok.inj (hn.symm.trans hm)
    obtain ⟨_, r, hr, hpay, hpar⟩ := Graph.holds_of_find?_nestedTable hs.forest hf
    obtain ⟨j, l, hj', hl, hkind⟩ := hs.child_of_site hn hc he hsite
    obtain rfl := Option.some.inj (hj.symm.trans hj')
    exact ⟨.child hr hpay hpar hstands hn hc hj, l, hl, Except.ok.inj (hkind.symm.trans hk)⟩

lemma Leads.found (hs : s.Coherent) (h : s.Leads d path kind id) (hi : s.StandsFor id i) :
    s.tree.Found d path i := by
  induction h generalizing i with
  | root hx _ hf =>
    obtain ⟨_, _, r, hr, hp⟩ := Graph.holds_of_find?_hierarchies hf
    cases hi with
    | root hr' hp' hd hi =>
      obtain rfl := hr.unique hr'
      obtain rfl := Payload.hierarchy.inj (hp.symm.trans hp')
      obtain rfl := Option.some.inj (((hs.paired _ _).mp hx).symm.trans hd)
      exact .root hi
    | child hr' hp' =>
      obtain rfl := hr.unique hr'
      cases hp.symm.trans hp'
  | child _ hb ih =>
    obtain ⟨_, _, _, _, hf⟩ := hb
    obtain ⟨_, r, hr, hp, hpar⟩ := Graph.holds_of_find?_nestedTable hs.forest hf
    cases hi with
    | root hr' hp' =>
      obtain rfl := hr.unique hr'
      cases hp.symm.trans hp'
    | child hr' hp' hpar' hq hn hc hj =>
      obtain rfl := hr.unique hr'
      obtain rfl := Payload.dynamicInstance.inj (hp.symm.trans hp')
      obtain rfl := Option.some.inj (hpar.symm.trans hpar')
      exact .child (ih hq) hn hc hj

end Matching

structure Settled (s : Design) : Prop where
  led : ∀ {id r}, s.graph.Holds id r → r.payload.hasBody = true → (∀ x, r.payload ≠ .module x) →
    ∃ d path kind, s.Leads d path kind id
  targets : ∀ {id r name x}, s.graph.Holds id r → r.payload = .instantiation name x →
    ∃ d, s.registry.definitionOf x = some d

namespace Settled

lemma leads (h : s.Settled) (hi : s.StandsFor id i) : ∃ d path kind, s.Leads d path kind id := by
  obtain ⟨r, hr, hb, hp⟩ := hi.holds
  exact h.led hr hb hp

lemma nodeKind (h : s.Settled) {site : Site} (hf : (s.siteTable d).find? name = some site) :
    ∃ kind, s.nodeKind site.kind = .ok kind := by
  obtain ⟨m, _, hf⟩ := moduleOf_of_find?_siteTable hf
  obtain ⟨id, r, hr, rfl⟩ := Graph.holds_of_find?_siteTable hf
  cases hp : r.payload with
  | instantiation name x =>
    obtain ⟨d, hd⟩ := h.targets hr hp
    exact ⟨.module d, nodeKind_module.mpr ⟨d, hd, rfl⟩⟩
  | register name type => exact ⟨_, rfl⟩
  | _ => exact ⟨_, rfl⟩

section Created

variable {payload : Payload} {parent : Option RecordId}

lemma created (hs : s.Coherent) (h : s.Settled) (ha : s.graph.Accepts parent)
    (hgraph : t.graph = s.graph.created payload parent) (he : s.Extends t)
    (hrooted : ∀ {d}, d ∈ s.records.rooted → d ∈ t.records.rooted)
    (hled : payload.hasBody = true → (∀ x, payload ≠ .module x) → ∃ d path kind, t.Leads d path kind s.graph.nextId)
    (htarget : ∀ {name x}, payload = .instantiation name x → ∃ d, s.registry.definitionOf x = some d) : t.Settled where
  led := by
    intro id r hr hb hp
    rw [hgraph] at hr
    rcases (Graph.holds_created hs.forest ha).mp hr with ⟨rfl, rfl⟩ | ⟨r₀, h₀, rfl⟩
    · exact hled hb hp
    · obtain ⟨d, path, kind, hl⟩ := h.led h₀ hb hp
      exact ⟨d, path, kind, hl.grows hs.forest he hrooted⟩
  targets := by
    intro id r name x hr hp
    rw [hgraph] at hr
    have hold : ∃ d, s.registry.definitionOf x = some d := by
      rcases (Graph.holds_created hs.forest ha).mp hr with ⟨rfl, rfl⟩ | ⟨r₀, h₀, rfl⟩
      · exact htarget hp
      · exact h.targets h₀ hp
    obtain ⟨d, hd⟩ := hold
    exact ⟨d, he.definitions hd⟩

lemma created_bodiless (hs : s.Coherent) (h : s.Settled) (ha : s.graph.Accepts parent)
    (hgraph : t.graph = s.graph.created payload parent) (he : s.Extends t)
    (hrooted : ∀ {d}, d ∈ s.records.rooted → d ∈ t.records.rooted) (hb : payload.hasBody = false)
    (htarget : ∀ {name x}, payload = .instantiation name x → ∃ d, s.registry.definitionOf x = some d) : t.Settled :=
  h.created hs ha hgraph he hrooted (fun hb' => by simp [hb] at hb') htarget

lemma same (hs : s.Coherent) (h : s.Settled) (he : s.Extends t) (hgraph : t.graph = s.graph)
    (hrooted : ∀ {d}, d ∈ s.records.rooted → d ∈ t.records.rooted) : t.Settled where
  led := by
    intro id r hr hb hp
    obtain ⟨d, path, kind, hl⟩ := h.led (hgraph ▸ hr) hb hp
    exact ⟨d, path, kind, hl.grows hs.forest he hrooted⟩
  targets := by
    intro id r name x hr hp
    obtain ⟨d, hd⟩ := h.targets (hgraph ▸ hr) hp
    exact ⟨d, he.definitions hd⟩

end Created

lemma withHierarchy (hs : s.Coherent) (h : s.Settled) {x : String} (hx : s.resolveSymbol d = some x)
    (hnew : s.graph.hierarchies.contains x = false) : (s.withHierarchy d x).Settled := by
  have ha := s.graph.accepts_top
  have he := (hs.withHierarchy (d := d) hnew).2
  apply h.created hs ha rfl he (List.mem_cons_of_mem _)
  · intro _ _
    refine ⟨d, [], .root d, .root (he.symbols hx) List.mem_cons_self (h := s.graph.handle s.graph.nextId) ?_⟩
    have hgraph : (s.withHierarchy d x).graph = s.graph.created (.hierarchy x) none := rfl
    rw [hgraph, Graph.hierarchies_created hs.forest ha]
    simp [Graph.hierarchyEntry, Table.addEntry, Table.find?_insertNew, Table.find?_eq_none hnew]
  · intro _ _ hp
    cases hp

lemma nested (hs : s.Coherent) (h : s.Settled) {n : Node} {owner : Handle} {site : SiteRef}
    (hn : s.Nesting i n owner site) (hnew : (s.graph.nestedTable owner.record).contains site = false) :
    (s.nested owner site).Settled := by
  obtain ⟨q, hq, hstands⟩ := hn.owner
  have he := (hs.nested hn hnew).2
  apply h.created hs hstands.accepts rfl he id
  · intro _ _
    obtain ⟨d, path, kind, hl⟩ := h.leads hstands
    obtain ⟨_, m, hm, rfl⟩ := hl.node hs (hl.found hs hstands)
    obtain ⟨e, hsite⟩ := Table.exists_of_contains hn.sited
    obtain ⟨kind, hkind⟩ := h.nodeKind hsite
    refine ⟨d, path ++ [site.name], kind, .child (hl.grows hs.forest he id) ?_⟩
    exact .site (hs.shaped.insideOf hn.node hq hm) (he.symbols hn.symbol) (he.find?_siteTable hs.forest hsite)
      (he.nodeKind hkind) (find?_nested hs hstands.accepts (Table.find?_eq_none hnew))
  · intro _ _ hp
    cases hp

end Settled

lemma Change.settled (hc : Change resolving s t) (hs : s.Coherent) (h : s.Settled) : t.Settled := by
  have he := (hc.coherent hs).2
  have hrooted : ∀ {d}, d ∈ s.records.rooted → d ∈ t.records.rooted := hc.rooted
  cases hc with
  | scan hscan => exact h.same hs he hscan.graph hrooted
  | @build d x definition =>
    apply h.created hs s.graph.accepts_top (built_graph _) he hrooted
    · intro hb hp
      cases hext : definition.body.isExternal with
      | true => simp [hext, modulePayload, Payload.hasBody] at hb
      | false => exact (hp x (by rw [hext]; rfl)).elim
    · intro _ _ hp
      cases hext : definition.body.isExternal <;> simp [hext, modulePayload] at hp
  | site hf _ _ hb hk =>
    apply h.created_bodiless hs hf.accepts rfl he hrooted hb
    rintro _ target rfl
    obtain ⟨e, he, _⟩ := nodeKind_module.mp hk
    exact ⟨e, he⟩
  | unnamed hf hn hb =>
    apply h.created_bodiless hs hf.accepts rfl he hrooted hb
    rintro _ _ rfl
    cases hn
  | hierarchy hx _ hnew => exact h.withHierarchy hs hx hnew
  | nest hn hnew => exact h.nested hs hn hnew
  | note hi _ hn hb =>
    apply h.created_bodiless hs hi.accepts rfl he hrooted hb
    rintro _ _ rfl
    cases hn
  | _ => exact h.same hs he rfl hrooted

lemma Changes.settled (hc : Changes resolving s t) (hs : s.Coherent) (h : s.Settled) : t.Settled :=
  hc.invariant hs h fun hu hc' => hc'.settled hu

lemma settled_new (config : Config) (source : Nat) : (new config source).Settled :=
  ⟨fun h => (by cases h), fun h => (by cases h)⟩

lemma Settled.invalidate (h : s.Settled) (held : List Handle) : (s.invalidate held).2.Settled := by
  obtain ⟨issues, hi⟩ := invalidate_eq s held
  rw [hi]
  refine ⟨fun hr hb hp => ?_, fun hr hp => h.targets hr hp⟩
  obtain ⟨d, path, kind, hl⟩ := h.led hr hb hp
  exact ⟨d, path, kind, hl.nextEpoch rfl rfl rfl⟩

lemma Settled.run (hs : s.Coherent) (h : s.Settled) (ops : List Operation) : (s.run ops).Settled :=
  run_invariant hs h (fun hu hc => hc.settled hu) Settled.invalidate ops

end HardwareDesign.Design
