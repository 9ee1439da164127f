import HardwareDesign.Proofs.Change

/-!
New records. A design stays coherent, because the views that know of the body take in the entry of the record, and the
others forget the body.
-/

namespace HardwareDesign.Design

variable {s t : Design}

section Created

variable {payload : Payload} {parent : Option RecordId}

lemma Views.created (hv : s.Views) (hg : s.graph.Forest) (ha : s.graph.Accepts parent)
    (hgraph : t.graph = s.graph.created payload parent)
    (hknown : ∀ {index}, t.symbols.known = some index → index = s.graph.namedTop.addEntry
      (if parent = none then Graph.symbolEntry (s.graph.handle s.graph.nextId) payload else none))
    (hhierarchies : ∀ {index}, t.records.hierarchies = some index → index = s.graph.hierarchies.addEntry
      (if parent = none then Graph.hierarchyEntry (s.graph.handle s.graph.nextId) payload else none))
    (hsites : ∀ {id sites}, t.sites.find? id = some sites → s.sites.find? id = some sites ∧
      (parent = some id → ∀ r x, s.graph.Holds id r → r.payload ≠ .module x))
    (hnested : ∀ {id index}, t.records.nested.find? id = some index → s.graph.Accepts (some id) ∧
      index = (s.graph.nestedTable id).addEntry
        (if parent = some id then Graph.nestedEntry (s.graph.handle s.graph.nextId) payload else none)) :
    t.Views where
  known h := by rw [hgraph, Graph.namedTop_created hg ha, hknown h]
  hierarchies h := by rw [hgraph, Graph.hierarchies_created hg ha, hhierarchies h]
  sites := by
    intro id sites h
    obtain ⟨hs, hp⟩ := hsites h
    obtain ⟨rfl, r, hr⟩ := hv.sites hs
    rw [hgraph]
    exact ⟨(Graph.siteTable_created_of_ne hg ha hr fun hid x => hp hid r x hr).symm, _,
      Graph.holds_created_of_holds hg ha hr⟩
  nested := by
    intro id index h
    obtain ⟨⟨r, hr, hb⟩, rfl⟩ := hnested h
    rw [hgraph]
    exact ⟨(Graph.nestedTable_created hg ha hr).symm, _, Graph.holds_created_of_holds hg ha hr, hb⟩

lemma Extends.created (hg : s.graph.Forest) (ha : s.graph.Accepts parent)
    (hgraph : t.graph = s.graph.created payload parent) (hr : t.registry = s.registry) (ht : t.tree = s.tree)
    (hi : t.records.instances = s.records.instances) : s.Extends t where
  graph := hgraph ▸ hg.grows ha
  tree := ht ▸ .refl _
  symbols h := (resolveSymbol_congr hr _).trans h
  definitions h := by simpa only [hr] using h
  instances h := hi ▸ h

lemma siteTable_created_of_ne (hg : s.graph.Forest) (ha : s.graph.Accepts parent)
    (hgraph : t.graph = s.graph.created payload parent) {d : DefId} (hm : t.moduleOf d = s.moduleOf d)
    (hp : ∀ {m r x}, s.moduleOf d = some m → s.graph.Holds m.record r → r.payload = .module x →
      parent = some m.record → payload.symbolName = none) :
    t.siteTable d = s.siteTable d := by
  cases h : s.moduleOf d with
  | none => rw [siteTable_of_none h, siteTable_of_none (hm.trans h)]
  | some m =>
    rw [siteTable_of_moduleOf h, siteTable_of_moduleOf (hm.trans h), hgraph]
    obtain ⟨x, _, hf⟩ := moduleOf_eq_some.mp h
    obtain ⟨_, _, r, hr, _⟩ := Graph.holds_of_find?_namedTop hf
    by_cases hx : ∃ x, r.payload = .module x
    · obtain ⟨x, hx⟩ := hx
      rw [Graph.siteTable_created hg ha hr hx]
      by_cases hid : parent = some m.record
      · simp [hid, Graph.siteEntry, hp h hr hx hid, Table.addEntry]
      · simp [hid, Table.addEntry]
    · exact Graph.siteTable_created_of_ne hg ha hr fun _ x hxr => hx ⟨x, hxr⟩

lemma moduleOf_created (hg : s.graph.Forest) (ha : s.graph.Accepts parent)
    (hgraph : t.graph = s.graph.created payload parent) (hr : t.registry = s.registry)
    (hn : parent = none → payload.symbolName = none) (d : DefId) : t.moduleOf d = s.moduleOf d := by
  have he : (if parent = none then Graph.symbolEntry (s.graph.handle s.graph.nextId) payload else none) = none := by
    by_cases hp : parent = none
    · simp [hp, Graph.symbolEntry, hn hp]
    · simp [hp]
  simp only [moduleOf, resolveSymbol, hr, hgraph, Graph.namedTop_created hg ha, he, Table.addEntry]

lemma Coherent.created (hs : s.Coherent) (ha : s.graph.Accepts parent)
    (hgraph : t.graph = s.graph.created payload parent) (hn : payload.symbolName = none) (hv : t.Views)
    (hr : t.registry = s.registry) (ht : t.tree = s.tree) (hi : t.records.instances = s.records.instances) :
    t.Coherent ∧ s.Extends t := by
  have he : s.Extends t := .created hs.forest ha hgraph hr ht hi
  refine ⟨hs.carry he (hgraph ▸ hs.forest.created ha) (hr ▸ hs.paired) hv ht hi fun _ => ?_, he⟩
  exact siteTable_created_of_ne hs.forest ha hgraph (moduleOf_created hs.forest ha hgraph hr (fun _ => hn) _)
    fun _ _ _ _ => hn

end Created

section Build

variable {d : DefId} {x : String}

lemma Views.scanned (hv : s.Views) : s.symbols.scanned s.graph = s.graph.namedTop := by
  cases hk : s.symbols.known with
  | none => simp [SymbolTable.scanned, hk]
  | some index => simp [SymbolTable.scanned, hk, hv.known hk]

lemma not_taken (hv : s.Views) (hx : x ∉ s.takenSymbols) :
    s.graph.namedTop.contains x = false ∧ s.registry.definitionOf x = none := by
  simp only [takenSymbols, hv.scanned, List.mem_append, not_or] at hx
  obtain ⟨⟨htop, _⟩, hreg⟩ := hx
  exact ⟨Table.contains_eq_false.mpr htop, Table.find?_eq_none (Table.contains_eq_false.mpr hreg)⟩

lemma symbolName_modulePayload (external : Bool) : (modulePayload external x).symbolName = some x := by
  cases external <;> rfl

lemma built_graph (external : Bool) :
    (s.built d x external).graph = s.graph.created (modulePayload external x) none := by
  cases external <;> rfl

lemma built_registry (external : Bool) : (s.built d x external).registry = s.registry.add d x := by
  cases external <;> rfl

lemma built_tree (external : Bool) : (s.built d x external).tree = s.tree := by
  cases external <;> rfl

lemma built_records (external : Bool) : (s.built d x external).records = s.records := by
  cases external <;> rfl

lemma built_sites (external : Bool) : (s.built d x external).sites = s.sites := by
  cases external <;> rfl

lemma built_known (external : Bool) :
    (s.built d x external).symbols.known =
      some ((s.symbols.scanned s.graph).insert x (s.graph.handle s.graph.nextId)) := by
  cases external <;> rfl

lemma Extends.built (hs : s.Coherent) (hd : s.resolveSymbol d = none) (hx : x ∉ s.takenSymbols) (external : Bool) :
    s.Extends (s.built d x external) where
  graph := built_graph external ▸ hs.forest.grows s.graph.accepts_top
  tree := built_tree external ▸ .refl _
  symbols h := by
    rw [resolveSymbol, built_registry]
    exact Registry.symbolOf_add hd h
  definitions h := by
    rw [built_registry]
    exact Registry.definitionOf_add (not_taken hs.views hx).2 h
  instances h := by
    rw [built_records]
    exact h

lemma Views.built (hs : s.Coherent) (hx : x ∉ s.takenSymbols) (external : Bool) : (s.built d x external).Views := by
  obtain ⟨htop, _⟩ := not_taken hs.views hx
  apply hs.views.created hs.forest s.graph.accepts_top (built_graph external)
  · intro index h
    rw [built_known, hs.views.scanned] at h
    simp only [Graph.symbolEntry, symbolName_modulePayload, Table.addEntry, if_true, Option.map_some]
    rw [Table.insertNew_of_not_contains _ htop]
    exact (Option.some.inj h).symm
  · intro index h
    rw [built_records] at h
    cases external <;> exact hs.views.hierarchies h
  · intro id sites h
    rw [built_sites] at h
    exact ⟨h, fun hp => by cases hp⟩
  · intro id index h
    rw [built_records] at h
    obtain ⟨hi, hr⟩ := hs.views.nested h
    exact ⟨hr, hi⟩

lemma siteTable_built (hs : s.Coherent) (hd : s.resolveSymbol d = none) (hx : x ∉ s.takenSymbols) (external : Bool)
    {e : DefId} {y : String} (hy : s.resolveSymbol e = some y) :
    (s.built d x external).siteTable e = s.siteTable e := by
  obtain ⟨htop, hreg⟩ := not_taken hs.views hx
  refine siteTable_created_of_ne hs.forest s.graph.accepts_top (built_graph external) ?_ fun _ _ _ hp => by cases hp
  -- the new symbol is not the one under which the sites are found
  have hne : x ≠ y := by
    rintro rfl
    simp [(hs.paired e x).mp hy] at hreg
  simp only [moduleOf, hy, (Extends.built hs hd hx external).symbols hy, Option.bind_some, built_graph,
    Graph.namedTop_created hs.forest s.graph.accepts_top, Graph.symbolEntry, symbolName_modulePayload, Table.addEntry,
    if_true, Option.map_some]
  rw [Table.insertNew_of_not_contains _ htop, Table.find?_insert_of_ne _ _ hne]

lemma Coherent.built (hs : s.Coherent) (hd : s.resolveSymbol d = none) (hx : x ∉ s.takenSymbols) (external : Bool) :
    (s.built d x external).Coherent ∧ s.Extends (s.built d x external) := by
  obtain ⟨_, hreg⟩ := not_taken hs.views hx
  have he := Extends.built hs hd hx external
  refine ⟨hs.carry he (built_graph external ▸ hs.forest.created s.graph.accepts_top)
    (built_registry external ▸ hs.paired.add hd hreg) (.built hs hx external) (built_tree external)
    (congrArg RecordCache.instances (built_records external)) ?_, he⟩
  intro e y hy
  exact siteTable_built hs hd hx external hy

lemma Coherent.withHierarchy (hs : s.Coherent)
    (hnew : s.graph.hierarchies.contains x = false) :
    (s.withHierarchy d x).Coherent ∧ s.Extends (s.withHierarchy d x) := by
  refine hs.created s.graph.accepts_top rfl rfl ?_ rfl rfl rfl
  apply hs.views.created hs.forest s.graph.accepts_top rfl hs.views.known
  · intro index h
    simp only [if_true, Graph.hierarchyEntry, Table.addEntry, Table.insertNew_of_not_contains _ hnew]
    exact (Option.some.inj h).symm
  · intro id sites h
    exact ⟨h, fun hid => by cases hid⟩
  · intro id index h
    obtain ⟨rfl, hr⟩ := hs.views.nested h
    exact ⟨hr, rfl⟩

end Build

section Fill

variable {d : DefId} {m owner : Handle} {i : InstanceId} {n : Node} {site : SiteRef} {payload : Payload}

lemma Filling.accepts (hf : s.Filling d m) : s.graph.Accepts (some m.record) := by
  obtain ⟨r, x, hr, hp⟩ := hf.module
  exact ⟨r, hr, by rw [hp]; rfl⟩

lemma nestedEntry_of_no_body (h : Handle) (hb : payload.hasBody = false) : Graph.nestedEntry h payload = none := by
  cases payload with
  | dynamicInstance => cases hb
  | _ => rfl

lemma Views.filled (hs : s.Coherent) (hf : s.Filling d m) (hb : payload.hasBody = false) :
    (s.filled m payload).Views := by
  refine hs.views.created hs.forest hf.accepts rfl hs.views.known hs.views.hierarchies ?_ ?_
  · intro id sites h
    have h : (s.sites.erase m.record).find? id = some sites := h
    rw [Table.find?_erase] at h
    split at h
    case isTrue => cases h
    case isFalse hne => exact ⟨h, fun hp => (hne (Option.some.inj hp)).elim⟩
  · intro id index h
    obtain ⟨rfl, hr⟩ := hs.views.nested h
    exact ⟨hr, by simp [nestedEntry_of_no_body _ hb, Table.addEntry]⟩

lemma Coherent.filled (hs : s.Coherent) (hf : s.Filling d m) (hn : payload.symbolName = none)
    (hb : payload.hasBody = false) : (s.filled m payload).Coherent ∧ s.Extends (s.filled m payload) :=
  hs.created hf.accepts rfl hn (.filled hs hf hb) rfl rfl rfl

lemma Coherent.nested (hs : s.Coherent) (hn : s.Nesting i n owner site)
    (hnew : (s.graph.nestedTable owner.record).contains site = false) :
    (s.nested owner site).Coherent ∧ s.Extends (s.nested owner site) := by
  obtain ⟨p, _, hstands⟩ := hn.owner
  refine hs.created hstands.accepts rfl rfl ?_ rfl rfl rfl
  refine hs.views.created hs.forest hstands.accepts rfl hs.views.known hs.views.hierarchies ?_ ?_
  · intro id sites h
    refine ⟨h, fun hid r x hr => ?_⟩
    obtain rfl := Option.some.inj hid
    exact hstands.not_module hr x
  · intro id index h
    have hf : (s.records.nested.insert owner.record ((s.graph.nestedTable owner.record).insert site
        (s.graph.handle s.graph.nextId))).find? id = some index := h
    rw [Table.find?_insert] at hf
    by_cases hid : owner.record = id
    · subst hid
      simp only [if_true] at hf
      refine ⟨hstands.accepts, ?_⟩
      simp only [if_true, Graph.nestedEntry, Table.addEntry, Table.insertNew_of_not_contains _ hnew]
      exact (Option.some.inj hf).symm
    · rw [if_neg hid] at hf
      obtain ⟨rfl, hr'⟩ := hs.views.nested hf
      exact ⟨hr', by simp [hid, Table.addEntry]⟩

lemma Coherent.noted (hs : s.Coherent) (hi : s.StandsFor owner.record i) (hn : payload.symbolName = none)
    (hb : payload.hasBody = false) : (s.noted owner payload).Coherent ∧ s.Extends (s.noted owner payload) := by
  refine hs.created hi.accepts rfl hn ?_ rfl rfl rfl
  refine hs.views.created hs.forest hi.accepts rfl hs.views.known hs.views.hierarchies ?_ ?_
  · intro id sites h
    refine ⟨h, fun hid r x hr => ?_⟩
    obtain rfl := Option.some.inj hid
    exact hi.not_module hr x
  · intro id index h
    obtain ⟨rfl, hr'⟩ := hs.views.nested h
    exact ⟨hr', by simp [nestedEntry_of_no_body _ hb, Table.addEntry]⟩

end Fill

end HardwareDesign.Design
