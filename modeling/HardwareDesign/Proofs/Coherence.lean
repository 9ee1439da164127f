import HardwareDesign.Proofs.Tree
import HardwareDesign.Proofs.Views

/-!
When a design is coherent: its views hold what the graph says, the children of an instance are the sites of its
target, and a remembered record stands for its instance.
-/

namespace HardwareDesign

namespace Registry

variable {r : Registry}

def Paired (r : Registry) : Prop := ∀ d x, r.symbolOf d = some x ↔ r.definitionOf x = some d

lemma Paired.add (h : r.Paired) {d : DefId} {x : String} (hd : r.symbolOf d = none) (hx : r.definitionOf x = none) :
    (r.add d x).Paired := by
  intro e y
  have he := h e y
  simp only [symbolOf, definitionOf] at hd hx he
  simp only [symbolOf, definitionOf, Registry.add, Table.find?_insert]
  by_cases hde : d = e
  · subst hde
    by_cases hxy : x = y
    · simp [hxy]
    · simp [hxy, ← he, hd]
  · by_cases hxy : x = y
    · subst hxy
      simp [hde, he, hx]
    · simpa [hde, hxy] using he

lemma symbolOf_add {d e : DefId} {x y : String} (hd : r.symbolOf d = none) (h : r.symbolOf e = some y) :
    (r.add d x).symbolOf e = some y := by
  have hne : d ≠ e := by
    rintro rfl
    simp [hd] at h
  exact (Table.find?_insert_of_ne _ _ hne).trans h

lemma definitionOf_add {d e : DefId} {x y : String} (hx : r.definitionOf x = none) (h : r.definitionOf y = some e) :
    (r.add d x).definitionOf y = some e := by
  have hne : x ≠ y := by
    rintro rfl
    simp [hx] at h
  exact (Table.find?_insert_of_ne _ _ hne).trans h

end Registry

namespace Design

variable {s t : Design}

structure Views (s : Design) : Prop where
  known : ∀ {index}, s.symbols.known = some index → index = s.graph.namedTop
  hierarchies : ∀ {index}, s.records.hierarchies = some index → index = s.graph.hierarchies
  sites : ∀ {id sites}, s.sites.find? id = some sites → sites = s.graph.siteTable id ∧ ∃ r, s.graph.Holds id r
  nested : ∀ {id index}, s.records.nested.find? id = some index →
    index = s.graph.nestedTable id ∧ s.graph.Accepts (some id)

def moduleOf (s : Design) (d : DefId) : Option Handle := (s.resolveSymbol d).bind s.graph.namedTop.find?

def siteTable (s : Design) (d : DefId) : Sites :=
  match s.moduleOf d with
  | some m => s.graph.siteTable m.record
  | none => {}

/-- A record stands for an instance if the same names lead to both, from a hierarchy and from the root of its
definition. -/
inductive StandsFor (s : Design) : RecordId → InstanceId → Prop
  | root {id r top d i} : s.graph.Holds id r → r.payload = .hierarchy top → s.registry.definitionOf top = some d →
      s.tree.roots.find? d = some i → StandsFor s id i
  | child {id r site p i n c j} : s.graph.Holds id r → r.payload = .dynamicInstance site → r.parent = some p →
      StandsFor s p i → s.tree.node i = .ok n → n.children = some c → c.find? site.name = some j → StandsFor s id j

structure SiteChild (s : Design) (e : String × Site) (c : String × InstanceId) : Prop where
  name : c.1 = e.1
  kind : ∃ n, s.tree.node c.2 = .ok n ∧ s.nodeKind e.2.kind = .ok n.kind

structure Coherent (s : Design) : Prop where
  forest : s.graph.Forest
  paired : s.registry.Paired
  views : s.Views
  shaped : s.tree.Shaped
  targets : ∀ {k n d}, s.tree.At k n → n.kind.target = some d → ∃ x, s.resolveSymbol d = some x
  matched : ∀ {k n c d}, s.tree.At k n → n.children = some c → n.kind.target = some d →
    List.Forall₂ s.SiteChild (s.siteTable d).entries c.entries
  backed : ∀ {i h}, s.records.instances.find? i = some h → h.epoch = s.graph.epoch ∧ s.StandsFor h.record i

/-- Nothing that the first design answers is taken back by the second one. -/
structure Extends (s t : Design) : Prop where
  graph : s.graph.Grows t.graph
  tree : s.tree.Grows t.tree
  symbols : ∀ {d x}, s.resolveSymbol d = some x → t.resolveSymbol d = some x
  definitions : ∀ {d x}, s.registry.definitionOf x = some d → t.registry.definitionOf x = some d
  instances : ∀ {i h}, s.records.instances.find? i = some h → t.records.instances.find? i = some h

lemma Extends.refl (s : Design) : s.Extends s := ⟨.refl _, .refl _, fun h => h, fun h => h, fun h => h⟩

lemma Extends.trans {s t u : Design} (h : s.Extends t) (h' : t.Extends u) : s.Extends u :=
  ⟨h.graph.trans h'.graph, h.tree.trans h'.tree, fun hx => h'.symbols (h.symbols hx),
    fun hx => h'.definitions (h.definitions hx), fun hi => h'.instances (h.instances hi)⟩

lemma Extends.node (h : s.Extends t) {i : InstanceId} {n : Node} (hn : s.tree.node i = .ok n) :
    ∃ c, t.tree.node i = .ok { n with children := c } ∧ ∀ {c₀}, n.children = some c₀ →
      ∃ c₁, c = some c₁ ∧ ∀ {name j}, c₀.find? name = some j → c₁.find? name = some j :=
  h.tree.node hn

lemma nodeKind_module {x : String} {kind : NodeKind} :
    s.nodeKind (.module x) = .ok kind ↔ ∃ d, s.registry.definitionOf x = some d ∧ kind = .module d := by
  cases hd : s.registry.definitionOf x with
  | none => simp [nodeKind, resolveDefinition, hd, bind, Except.bind]
  | some d => simp [nodeKind, resolveDefinition, hd, bind, Except.bind, pure, Except.pure, eq_comm]

lemma Extends.nodeKind (h : s.Extends t) {k : SiteKind} {kind : NodeKind} (hk : s.nodeKind k = .ok kind) :
    t.nodeKind k = .ok kind := by
  cases k with
  | module x =>
    obtain ⟨d, hd, rfl⟩ := nodeKind_module.mp hk
    exact nodeKind_module.mpr ⟨d, h.definitions hd, rfl⟩
  | _ => exact hk

lemma target_of_nodeKind (hp : s.registry.Paired) {k : SiteKind} {kind : NodeKind} {e : DefId}
    (hk : s.nodeKind k = .ok kind) (he : kind.target = some e) : ∃ x, s.resolveSymbol e = some x := by
  cases k with
  | module x =>
    obtain ⟨d, hx, rfl⟩ := nodeKind_module.mp hk
    obtain rfl := Option.some.inj he
    exact ⟨x, (hp _ x).mpr hx⟩
  | _ =>
    obtain rfl := Except.ok.inj hk
    cases he

lemma Extends.siteChild (h : s.Extends t) {e : String × Site} {c : String × InstanceId} (hc : s.SiteChild e c) :
    t.SiteChild e c := by
  obtain ⟨n, hn, hk⟩ := hc.kind
  obtain ⟨x, hx, _⟩ := h.node hn
  exact ⟨hc.name, _, hx, h.nodeKind hk⟩

lemma keys_of_siteChildren {sites : List (String × Site)} {c : List (String × InstanceId)}
    (h : List.Forall₂ s.SiteChild sites c) : c.map Prod.fst = sites.map Prod.fst := by
  induction h with
  | nil => rfl
  | cons hc _ ih => simp [hc.name, ih]

lemma Extends.standsFor (h : s.Extends t) {id : RecordId} {i : InstanceId} (hi : s.StandsFor id i) :
    t.StandsFor id i := by
  induction hi with
  | root hr hp hd hi =>
    obtain ⟨_, hr'⟩ := h.graph.records hr
    exact .root hr' hp (h.definitions hd) (h.tree.roots hi)
  | child hr hp hpar _ hn hc hj ih =>
    obtain ⟨_, hr'⟩ := h.graph.records hr
    obtain ⟨x, hn', hext⟩ := h.node hn
    obtain ⟨c₁, rfl, hf⟩ := hext hc
    exact .child hr' hp hpar ih hn' rfl (hf hj)

lemma StandsFor.unique {id : RecordId} {i j : InstanceId} (hi : s.StandsFor id i) (hj : s.StandsFor id j) : i = j := by
  induction hi generalizing j with
  | root hr hp hd hi =>
    cases hj with
    | root hr' hp' hd' hj =>
      obtain rfl := hr.unique hr'
      obtain rfl := Payload.hierarchy.inj (hp.symm.trans hp')
      obtain rfl := Option.some.inj (hd.symm.trans hd')
      exact Option.some.inj (hi.symm.trans hj)
    | child hr' hp' =>
      obtain rfl := hr.unique hr'
      cases hp.symm.trans hp'
  | child hr hp hpar _ hn hc hi ih =>
    cases hj with
    | root hr' hp' =>
      obtain rfl := hr.unique hr'
      cases hp.symm.trans hp'
    | child hr' hp' hpar' hk hn' hc' hj =>
      obtain rfl := hr.unique hr'
      obtain rfl := Payload.dynamicInstance.inj (hp.symm.trans hp')
      obtain rfl := Option.some.inj (hpar.symm.trans hpar')
      obtain rfl := ih hk
      obtain rfl := Except.ok.inj (hn.symm.trans hn')
      obtain rfl := Option.some.inj (hc.symm.trans hc')
      exact Option.some.inj (hi.symm.trans hj)

lemma StandsFor.holds {id : RecordId} {i : InstanceId} (h : s.StandsFor id i) :
    ∃ r, s.graph.Holds id r ∧ r.payload.hasBody = true ∧ ∀ x, r.payload ≠ .module x := by
  cases h with
  | root hr hp => exact ⟨_, hr, by rw [hp]; rfl, by simp [hp]⟩
  | child hr hp => exact ⟨_, hr, by rw [hp]; rfl, by simp [hp]⟩

lemma StandsFor.accepts {id : RecordId} {i : InstanceId} (h : s.StandsFor id i) : s.graph.Accepts (some id) := by
  obtain ⟨r, hr, hb, _⟩ := h.holds
  exact ⟨r, hr, hb⟩

lemma StandsFor.not_module {id : RecordId} {i : InstanceId} (h : s.StandsFor id i) {r : Record}
    (hr : s.graph.Holds id r) (x : String) : r.payload ≠ .module x := by
  obtain ⟨r', hr', _, hno⟩ := h.holds
  obtain rfl := hr.unique hr'
  exact hno x

lemma StandsFor.dynamic (ht : s.tree.Shaped) {id : RecordId} {i p : InstanceId} {n : Node} (h : s.StandsFor id i)
    (hn : s.tree.node i = .ok n) (hp : n.parent = some p) :
    ∃ r site q, s.graph.Holds id r ∧ r.payload = .dynamicInstance site ∧ r.parent = some q ∧
      n.name = some site.name ∧ s.StandsFor q p := by
  cases h with
  | root hr hp' hd hi =>
    obtain ⟨m, hm, hpar, _⟩ := ht.node_of_root hi
    obtain rfl := Except.ok.inj (hn.symm.trans hm)
    simp [hpar] at hp
  | child hr hp' hpar hq hnp hc hj =>
    obtain ⟨m, hm, hparent, hname⟩ := ht.node_of_child hnp hc hj
    obtain rfl := Except.ok.inj (hn.symm.trans hm)
    obtain rfl := Option.some.inj (hparent.symm.trans hp)
    exact ⟨_, _, _, hr, hp', hpar, hname, hq⟩

section Modules

variable {d e : DefId} {m k : Handle} {x : String}

lemma moduleOf_eq_some : s.moduleOf d = some m ↔ ∃ x, s.resolveSymbol d = some x ∧ s.graph.namedTop.find? x = some m :=
  Option.bind_eq_some_iff

lemma siteTable_of_moduleOf (h : s.moduleOf d = some m) : s.siteTable d = s.graph.siteTable m.record := by
  simp only [siteTable, h]

lemma siteTable_of_none (h : s.moduleOf d = none) : s.siteTable d = {} := by
  simp only [siteTable, h]

lemma moduleOf_of_find?_siteTable {name : String} {site : Site} (h : (s.siteTable d).find? name = some site) :
    ∃ m, s.moduleOf d = some m ∧ (s.graph.siteTable m.record).find? name = some site := by
  cases hm : s.moduleOf d with
  | none =>
    rw [siteTable_of_none hm] at h
    cases h
  | some m => exact ⟨m, rfl, siteTable_of_moduleOf hm ▸ h⟩

lemma module_of_moduleOf {r : Record} {y : String} (hx : s.resolveSymbol d = some x) (hm : s.moduleOf d = some m)
    (hr : s.graph.Holds m.record r) (hp : r.payload = .module y) : y = x := by
  obtain ⟨z, hz, htop⟩ := moduleOf_eq_some.mp hm
  obtain rfl : x = z := Option.some.inj (hx.symm.trans hz)
  obtain ⟨_, _, r', hr', hname⟩ := Graph.holds_of_find?_namedTop htop
  obtain rfl := hr.unique hr'
  simpa [hp, Payload.symbolName] using hname

lemma moduleOf_injective (hp : s.registry.Paired) (hd : s.moduleOf d = some m) (he : s.moduleOf e = some k)
    (h : m.record = k.record) : d = e := by
  obtain ⟨x, hx, hm⟩ := moduleOf_eq_some.mp hd
  obtain ⟨y, hy, hk⟩ := moduleOf_eq_some.mp he
  obtain ⟨_, _, r, hr, hn⟩ := Graph.holds_of_find?_namedTop hm
  obtain ⟨_, _, r', hr', hn'⟩ := Graph.holds_of_find?_namedTop hk
  rw [← h] at hr'
  obtain rfl := hr.unique hr'
  obtain rfl := Option.some.inj (hn.symm.trans hn')
  exact Option.some.inj (((hp d x).mp hx).symm.trans ((hp e x).mp hy))

lemma resolveSymbol_congr (hr : t.registry = s.registry) (d : DefId) : t.resolveSymbol d = s.resolveSymbol d := by
  rw [resolveSymbol, resolveSymbol, hr]

lemma siteTable_congr (hg : t.graph = s.graph) (hr : t.registry = s.registry) (d : DefId) :
    t.siteTable d = s.siteTable d := by
  simp only [siteTable, moduleOf, resolveSymbol_congr hr, hg]

lemma nodup_keys_siteTable (s : Design) (d : DefId) : (s.siteTable d).keys.Nodup := by
  unfold siteTable
  split
  · exact Graph.nodup_keys_siteTable _ _
  · exact List.nodup_nil

lemma Extends.moduleOf (hg : s.graph.Forest) (h : s.Extends t) (hm : s.moduleOf d = some m) :
    t.moduleOf d = some m := by
  obtain ⟨x, hx, hf⟩ := moduleOf_eq_some.mp hm
  exact moduleOf_eq_some.mpr ⟨x, h.symbols hx, Graph.find?_namedTop_grows hg h.graph hf⟩

lemma Extends.find?_siteTable (hg : s.graph.Forest) (h : s.Extends t) {name : String} {site : Site}
    (hf : (s.siteTable d).find? name = some site) : (t.siteTable d).find? name = some site := by
  obtain ⟨m, hm, hf⟩ := moduleOf_of_find?_siteTable hf
  rw [siteTable_of_moduleOf (h.moduleOf hg hm)]
  exact Graph.find?_siteTable_grows hg h.graph hf

end Modules

namespace Coherent

lemma node (hs : s.Coherent) {id : RecordId} {i : InstanceId} (h : s.StandsFor id i) : ∃ n, s.tree.node i = .ok n := by
  cases h with
  | root _ _ _ hi =>
    obtain ⟨n, hn, _⟩ := hs.shaped.node_of_root hi
    exact ⟨n, hn⟩
  | child _ _ _ _ hn hc hj =>
    obtain ⟨m, hm, _⟩ := hs.shaped.node_of_child hn hc hj
    exact ⟨m, hm⟩

lemma carryBacked (hs : s.Coherent) (he : s.Extends t) (hi : t.records.instances = s.records.instances)
    {i : InstanceId} {h : Handle} (hf : t.records.instances.find? i = some h) :
    h.epoch = t.graph.epoch ∧ t.StandsFor h.record i := by
  obtain ⟨hepoch, hstands⟩ := hs.backed (hi ▸ hf)
  exact ⟨hepoch.trans he.graph.epoch.symm, he.standsFor hstands⟩

lemma carry (hs : s.Coherent) (he : s.Extends t) (hforest : t.graph.Forest) (hpaired : t.registry.Paired)
    (hviews : t.Views) (htree : t.tree = s.tree) (hinstances : t.records.instances = s.records.instances)
    (hsites : ∀ {d x}, s.resolveSymbol d = some x → t.siteTable d = s.siteTable d) : t.Coherent where
  forest := hforest
  paired := hpaired
  views := hviews
  shaped := htree ▸ hs.shaped
  targets := by
    intro k n d hn hd
    obtain ⟨x, hx⟩ := hs.targets (htree ▸ hn) hd
    exact ⟨x, he.symbols hx⟩
  matched := by
    intro k n c d hn hc hd
    have hn : s.tree.At k n := htree ▸ hn
    obtain ⟨x, hx⟩ := hs.targets hn hd
    rw [hsites hx]
    exact (hs.matched hn hc hd).imp fun _ _ => he.siteChild
  backed := hs.carryBacked he hinstances

end Coherent

end Design

end HardwareDesign
