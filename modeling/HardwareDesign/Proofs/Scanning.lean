import HardwareDesign.Proofs.Keeping

namespace HardwareDesign.Design

variable {s t : Design} {d : DefId} {x : String}

namespace Scanned

lemma coherent (hs : s.Coherent) (h : s.Scanned t) : t.Coherent := ((Change.scan h : Change False s t).coherent hs).1

variable (h : s.Scanned t)
include h

lemma grows : s.Extends t := .of_eq h.graph h.registry h.tree h.instances

lemma resolveSymbol (d : DefId) : t.resolveSymbol d = s.resolveSymbol d := resolveSymbol_congr h.registry d

lemma siteTable (d : DefId) : t.siteTable d = s.siteTable d := siteTable_congr h.graph h.registry d

end Scanned

lemma builtSymbol_built (hx : s.resolveSymbol d = some x) : s.builtSymbol d = .ok x := by simp only [builtSymbol, hx]

lemma builtSymbol_unbuilt (hx : s.resolveSymbol d = none) : s.builtSymbol d = .error (.notFound (.unbuilt d)) := by
  simp only [builtSymbol, hx]

lemma resolveSymbol_of_builtSymbol (h : s.builtSymbol d = .ok x) : s.resolveSymbol d = some x := by
  cases hx : s.resolveSymbol d with
  | none => simp [builtSymbol_unbuilt hx] at h
  | some y =>
    rw [builtSymbol_built hx] at h
    rw [Except.ok.inj h]

lemma scanned_scanSymbols (hv : s.Views) : s.Scanned s.scanSymbols := by
  refine ⟨rfl, ⟨?_, hv.hierarchies, hv.sites, hv.nested⟩⟩
  intro index h
  exact (Option.some.inj h).symm.trans hv.scanned

section Sites

lemma moduleRecord_built (hv : s.Views) (hx : s.resolveSymbol d = some x) :
    moduleRecord d s = .ok (s.moduleOf d) s.scanSymbols := by
  rw [moduleRecord, bind_of_ok (Action.read_ok (builtSymbol_built hx))]
  simp only [lookupSymbol, hv.scanned, moduleOf, hx, Option.bind_some]

lemma moduleRecord_unbuilt (hx : s.resolveSymbol d = none) :
    moduleRecord d s = .error (.notFound (.unbuilt d)) s := by
  rw [moduleRecord, bind_of_error (Action.read_error (builtSymbol_unbuilt hx))]

lemma holds_of_moduleOf {m : Handle} (h : s.moduleOf d = some m) :
    m.epoch = s.graph.epoch ∧ ∃ r x, s.graph.Holds m.record r ∧ r.payload.symbolName = some x := by
  obtain ⟨x, _, hf⟩ := moduleOf_eq_some.mp h
  obtain ⟨hm, _, r, hr, hn⟩ := Graph.holds_of_find?_namedTop hf
  refine ⟨?_, r, x, hr, hn⟩
  rw [hm]
  rfl

lemma scanned_sites (hv : s.Views) {id : RecordId} (hr : ∃ r, s.graph.Holds id r) :
    s.Scanned { s with sites := s.sites.insert id (s.graph.siteTable id) } := by
  refine ⟨rfl, ⟨hv.known, hv.hierarchies, ?_, hv.nested⟩⟩
  intro k sites h
  have hf : (s.sites.insert id (s.graph.siteTable id)).find? k = some sites := h
  rw [Table.find?_insert] at hf
  by_cases hk : id = k
  · subst hk
    obtain rfl : s.graph.siteTable id = sites := by simpa using hf
    exact ⟨rfl, hr⟩
  · exact hv.sites (by simpa [hk] using hf)

lemma sitesOf_built (hs : s.Coherent) (hx : s.resolveSymbol d = some x) :
    ∃ t, sitesOf d s = .ok (s.siteTable d) t ∧ s.Scanned t := by
  have hscan := scanned_scanSymbols hs.views
  rw [sitesOf, bind_of_ok (moduleRecord_built hs.views hx)]
  cases hm : s.moduleOf d with
  | none =>
    rw [siteTable_of_none hm]
    exact ⟨_, rfl, hscan⟩
  | some m =>
    obtain ⟨he, r, _, hr, _⟩ := holds_of_moduleOf hm
    have hm' : s.scanSymbols.moduleOf d = some m := hm
    rw [siteTable_of_moduleOf hm]
    dsimp only
    rw [get_bind]
    cases hf : s.scanSymbols.sites.find? m.record with
    | some sites =>
      obtain ⟨rfl, _⟩ := hs.views.sites hf
      exact ⟨_, rfl, hscan⟩
    | none =>
      have hi : s.scanSymbols.graph.sitesIn m = .ok (s.graph.siteTable m.record) :=
        Graph.sitesIn_eq hs.forest he hr
      refine ⟨_, bind_of_ok (Action.readGraph_ok hi), ?_⟩
      exact hscan.trans (scanned_sites hscan.views ⟨r, hr⟩)

lemma sitesOf_unbuilt (hx : s.resolveSymbol d = none) : sitesOf d s = .error (.notFound (.unbuilt d)) s := by
  rw [sitesOf, bind_of_error (moduleRecord_unbuilt hx)]

end Sites

section Hierarchies

lemma Views.scannedHierarchies (hv : s.Views) : s.scannedHierarchies = s.graph.hierarchies := by
  cases hh : s.records.hierarchies with
  | none => simp [Design.scannedHierarchies, hh]
  | some index => simp [Design.scannedHierarchies, hh, hv.hierarchies hh]

lemma scanned_hierarchies (hv : s.Views) : s.Scanned (s.setHierarchies s.graph.hierarchies) := by
  refine ⟨rfl, ⟨hv.known, ?_, hv.sites, hv.nested⟩⟩
  intro index h
  exact (Option.some.inj h).symm

lemma hierarchyRecord_built (hv : s.Views) (hx : s.resolveSymbol d = some x) :
    hierarchyRecord d s = .ok (s.graph.hierarchies.find? x) (s.setHierarchies s.graph.hierarchies) := by
  rw [hierarchyRecord, bind_of_ok (Action.read_ok (builtSymbol_built hx)), ← hv.scannedHierarchies]
  rfl

lemma hierarchyRecord_unbuilt (hx : s.resolveSymbol d = none) :
    hierarchyRecord d s = .error (.notFound (.unbuilt d)) s := by
  rw [hierarchyRecord, bind_of_error (Action.read_error (builtSymbol_unbuilt hx))]

end Hierarchies

section Nested

variable {owner h : Handle} {site : SiteRef}

lemma scanned_nested (hv : s.Views) {id : RecordId} (hr : s.graph.Accepts (some id)) :
    s.Scanned (s.setNested id (s.graph.nestedTable id)) := by
  refine ⟨rfl, ⟨hv.known, hv.hierarchies, hv.sites, ?_⟩⟩
  intro k index h
  have hf : (s.records.nested.insert id (s.graph.nestedTable id)).find? k = some index := h
  rw [Table.find?_insert] at hf
  by_cases hk : id = k
  · subst hk
    obtain rfl : s.graph.nestedTable id = index := by simpa using hf
    exact ⟨rfl, hr⟩
  · exact hv.nested (by simpa [hk] using hf)

lemma nestedIndex_eq (hs : s.Coherent) (he : owner.epoch = s.graph.epoch) (ha : s.graph.Accepts (some owner.record)) :
    ∃ t, nestedIndex owner s = .ok (s.graph.nestedTable owner.record) t ∧ s.Scanned t := by
  obtain ⟨r, hr, hb⟩ := ha
  rw [nestedIndex, get_bind]
  cases hf : s.records.nested.find? owner.record with
  | some index =>
    obtain ⟨rfl, _⟩ := hs.views.nested hf
    exact ⟨s, rfl, .refl hs.views⟩
  | none =>
    refine ⟨_, bind_of_ok (Action.readGraph_ok (Graph.nestedIn_eq hs.forest he hr hb)), ?_⟩
    exact scanned_nested hs.views ⟨r, hr, hb⟩

lemma nestedRecord_found (hs : s.Coherent) (he : owner.epoch = s.graph.epoch)
    (ha : s.graph.Accepts (some owner.record)) (hf : (s.graph.nestedTable owner.record).find? site = some h) :
    ∃ t, nestedRecord owner site s = .ok h t ∧ s.Scanned t := by
  obtain ⟨t, ht, hscan⟩ := nestedIndex_eq hs he ha
  refine ⟨t, ?_, hscan⟩
  rw [nestedRecord, bind_of_ok ht, hf]
  rfl

lemma nestedRecord_missing (hs : s.Coherent) (he : owner.epoch = s.graph.epoch)
    (ha : s.graph.Accepts (some owner.record)) (hf : (s.graph.nestedTable owner.record).find? site = none) :
    ∃ t, nestedRecord owner site s = .ok (t.graph.handle t.graph.nextId) (t.nested owner site) ∧ s.Scanned t := by
  obtain ⟨t, ht, hscan⟩ := nestedIndex_eq hs he ha
  rw [← hscan.graph] at he ha ht hf
  refine ⟨t, ?_, hscan⟩
  rw [nestedRecord, bind_of_ok ht, hf]
  exact Action.createIn_bind he ha _ _

lemma exists_nestedRecord (hs : s.Coherent) (he : owner.epoch = s.graph.epoch)
    (ha : s.graph.Accepts (some owner.record)) (site : SiteRef) : ∃ h t, nestedRecord owner site s = .ok h t := by
  cases hf : (s.graph.nestedTable owner.record).find? site with
  | some h =>
    obtain ⟨t, ht, _⟩ := nestedRecord_found hs he ha hf
    exact ⟨h, t, ht⟩
  | none =>
    obtain ⟨t, ht, _⟩ := nestedRecord_missing hs he ha hf
    exact ⟨_, _, ht⟩

end Nested

end HardwareDesign.Design
