import HardwareDesign.Proofs.Exactness
import HardwareDesign.Proofs.Paths

/-!
Where a path leads by the graph alone, without an instance tree. It keeps leading there as long as no passes are run,
whatever is forgotten of the graph.
-/

namespace HardwareDesign

namespace Graph

variable {g : Graph} {id : RecordId}

lemma find?_namedTop_nextEpoch (g : Graph) (x : String) :
    g.nextEpoch.namedTop.find? x = (g.namedTop.find? x).map fun h => g.nextEpoch.handle h.record := by
  rw [find?_namedTop, find?_namedTop, Option.map_map]
  rfl

lemma find?_hierarchies_nextEpoch (g : Graph) (x : String) :
    g.nextEpoch.hierarchies.find? x = (g.hierarchies.find? x).map fun h => g.nextEpoch.handle h.record := by
  rw [find?_hierarchies, find?_hierarchies, Option.map_map]
  rfl

lemma find?_nestedTable_nextEpoch {site : SiteRef} {h : Handle} (hf : (g.nestedTable id).find? site = some h) :
    (g.nextEpoch.nestedTable id).find? site = some (g.nextEpoch.handle h.record) := by
  obtain ⟨r, hr⟩ := held_of_find?_nestedTable hf
  rw [find?_nestedTable hr] at hf
  rw [find?_nestedTable (g := g.nextEpoch) hr]
  obtain ⟨k, hk, rfl⟩ := Option.map_eq_some_iff.mp hf
  exact Option.map_eq_some_iff.mpr ⟨k, hk, rfl⟩

lemma find?_siteTable_nextEpoch {name : String} {site : Site} (h : (g.siteTable id).find? name = some site) :
    ∃ record, (g.nextEpoch.siteTable id).find? name = some { site with record } := by
  obtain ⟨r, x, hr, hp⟩ := module_of_find?_siteTable h
  rw [find?_siteTable hr hp] at h
  rw [find?_siteTable (g := g.nextEpoch) hr hp]
  obtain ⟨k, hk, h⟩ := Option.bind_eq_some_iff.mp h
  obtain ⟨rk, hrk, rfl⟩ := Option.map_eq_some_iff.mp h
  exact ⟨g.nextEpoch.handle k, Option.bind_eq_some_iff.mpr ⟨k, hk, Option.map_eq_some_iff.mpr ⟨rk, hrk, rfl⟩⟩⟩

end Graph

namespace Design

inductive Below (s : Design) : NodeKind → RecordId → String → NodeKind → RecordId → Prop
  | site {kind p name kind' e x site h} : kind.target = some e → s.resolveSymbol e = some x →
      (s.siteTable e).find? name = some site → s.nodeKind site.kind = .ok kind' →
      (s.graph.nestedTable p).find? ⟨x, name⟩ = some h → Below s kind p name kind' h.record

inductive Leads (s : Design) (d : DefId) : List String → NodeKind → RecordId → Prop
  | root {x h} : s.resolveSymbol d = some x → d ∈ s.records.rooted → s.graph.hierarchies.find? x = some h →
      Leads s d [] (.root d) h.record
  | child {path kind p name kind' id} : Leads s d path kind p → s.Below kind p name kind' id →
      Leads s d (path ++ [name]) kind' id

variable {resolving : Prop} {s t : Design} {d : DefId} {path : List String} {name : String} {kind kind' : NodeKind}
  {p id : RecordId}

namespace Leads

lemma of_nil (h : s.Leads d [] kind id) : kind = .root d ∧ d ∈ s.records.rooted ∧
    ∃ x k, s.resolveSymbol d = some x ∧ s.graph.hierarchies.find? x = some k ∧ k.record = id := by
  generalize hnil : [] = path at h
  cases h with
  | root hx hd hf => exact ⟨rfl, hd, _, _, hx, hf, rfl⟩
  | child => simp at hnil

lemma of_concat (h : s.Leads d (path ++ [name]) kind' id) :
    ∃ kind p, s.Leads d path kind p ∧ s.Below kind p name kind' id := by
  generalize hpath : path ++ [name] = whole at h
  cases h with
  | root => simp at hpath
  | child hp hb =>
    obtain ⟨rfl, hname⟩ := List.append_inj' hpath rfl
    obtain rfl := List.singleton_inj.mp hname
    exact ⟨_, _, hp, hb⟩

end Leads

lemma Below.unique {kind₁ kind₂ : NodeKind} {id₁ id₂ : RecordId} (h : s.Below kind p name kind₁ id₁)
    (h' : s.Below kind p name kind₂ id₂) : kind₁ = kind₂ ∧ id₁ = id₂ := by
  obtain ⟨he, hx, hsite, hk, hf⟩ := h
  obtain ⟨he', hx', hsite', hk', hf'⟩ := h'
  obtain rfl := Option.some.inj (he.symm.trans he')
  obtain rfl := Option.some.inj (hx.symm.trans hx')
  obtain rfl := Option.some.inj (hsite.symm.trans hsite')
  obtain rfl := Option.some.inj (hf.symm.trans hf')
  exact ⟨Except.ok.inj (hk.symm.trans hk'), rfl⟩

lemma Leads.unique {kind₁ kind₂ : NodeKind} {id₁ id₂ : RecordId} (h : s.Leads d path kind₁ id₁)
    (h' : s.Leads d path kind₂ id₂) : kind₁ = kind₂ ∧ id₁ = id₂ := by
  induction h generalizing kind₂ id₂ with
  | root hx _ hf =>
    obtain ⟨rfl, _, x, k, hx', hf', rfl⟩ := h'.of_nil
    obtain rfl := Option.some.inj (hx.symm.trans hx')
    obtain rfl := Option.some.inj (hf.symm.trans hf')
    exact ⟨rfl, rfl⟩
  | child _ hb ih =>
    obtain ⟨k, p, hp, hb'⟩ := h'.of_concat
    obtain ⟨rfl, rfl⟩ := ih hp
    exact hb.unique hb'

section Keeping

lemma Below.grows (hg : s.graph.Forest) (he : s.Extends t) (h : s.Below kind p name kind' id) :
    t.Below kind p name kind' id := by
  obtain ⟨hd, hx, hsite, hk, hf⟩ := h
  exact .site hd (he.symbols hx) (he.find?_siteTable hg hsite) (he.nodeKind hk)
    (Graph.find?_nestedTable_grows hg he.graph hf)

lemma Leads.grows (hg : s.graph.Forest) (he : s.Extends t) (hr : d ∈ s.records.rooted → d ∈ t.records.rooted)
    (h : s.Leads d path kind id) : t.Leads d path kind id := by
  induction h with
  | root hx hd hf => exact .root (he.symbols hx) (hr hd) (Graph.find?_hierarchies_grows hg he.graph hf)
  | child _ hb ih => exact .child ih (hb.grows hg he)

lemma Change.rooted (hc : Change resolving s t) (hd : d ∈ s.records.rooted) : d ∈ t.records.rooted := by
  cases hc with
  | scan h =>
    have hrooted : t.records.rooted = s.records.rooted := congrArg (fun u => u.records.rooted) h.core
    rwa [hrooted]
  | build => rwa [built_records]
  | refuse => exact List.mem_cons_of_mem _ hd
  | hierarchy => exact List.mem_cons_of_mem _ hd
  | _ => exact hd

lemma Change.leads (hc : Change resolving s t) (hs : s.Coherent) (h : s.Leads d path kind id) :
    t.Leads d path kind id :=
  h.grows hs.forest (hc.coherent hs).2 hc.rooted

lemma Changes.leads (hc : Changes resolving s t) (hs : s.Coherent) (h : s.Leads d path kind id) :
    t.Leads d path kind id :=
  hc.invariant hs h fun hu hc' => hc'.leads hu

section NextEpoch

variable (hgraph : t.graph = s.graph.nextEpoch) (hr : t.registry = s.registry)
include hgraph hr

lemma find?_siteTable_nextEpoch {site : Site} (h : (s.siteTable d).find? name = some site) :
    ∃ record, (t.siteTable d).find? name = some { site with record } := by
  obtain ⟨m, hm, h⟩ := moduleOf_of_find?_siteTable h
  obtain ⟨x, hx, hf⟩ := moduleOf_eq_some.mp hm
  have hm' : t.moduleOf d = some (s.graph.nextEpoch.handle m.record) := by
    rw [moduleOf, resolveSymbol_congr hr, hx, hgraph, Option.bind_some, Graph.find?_namedTop_nextEpoch, hf]
    rfl
  rw [siteTable_of_moduleOf hm', hgraph]
  exact Graph.find?_siteTable_nextEpoch h

lemma Below.nextEpoch (h : s.Below kind p name kind' id) : t.Below kind p name kind' id := by
  obtain ⟨hd, hx, hsite, hk, hf⟩ := h
  obtain ⟨record, hsite'⟩ := find?_siteTable_nextEpoch hgraph hr hsite
  refine .site hd ((resolveSymbol_congr hr _).trans hx) hsite' ((nodeKind_congr hr _).trans hk)
    (h := t.graph.handle _) ?_
  rw [hgraph]
  exact Graph.find?_nestedTable_nextEpoch hf

lemma Leads.nextEpoch (hrooted : t.records.rooted = s.records.rooted) (h : s.Leads d path kind id) :
    t.Leads d path kind id := by
  induction h with
  | root hx hd hf =>
    refine .root ((resolveSymbol_congr hr _).trans hx) (hrooted ▸ hd) (h := t.graph.handle _) ?_
    rw [hgraph, Graph.find?_hierarchies_nextEpoch, hf]
    rfl
  | child _ hb ih => exact .child ih (hb.nextEpoch hgraph hr)

end NextEpoch

lemma Leads.invalidate (h : s.Leads d path kind id) (held : List Handle) :
    (s.invalidate held).2.Leads d path kind id := by
  obtain ⟨issues, hi⟩ := invalidate_eq s held
  rw [hi]
  exact h.nextEpoch rfl rfl rfl

lemma Leads.run (hs : s.Coherent) (h : s.Leads d path kind id) (ops : List Operation) :
    (s.run ops).Leads d path kind id :=
  run_invariant hs h (fun hu hc => hc.leads hu) Leads.invalidate ops

end Keeping

end Design

end HardwareDesign
