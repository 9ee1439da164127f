import HardwareDesign.Proofs.Additions
import HardwareDesign.Proofs.Defects
import HardwareDesign.Proofs.Validity

namespace HardwareDesign.Design

/-- A module record has been built at the top level, passes have left no record with its symbol there, and none has
come since. -/
inductive Lost (x : String) : Design → Prop
  | passes {σ : Type} {u : Design} {d : DefId} (passes : List (Pass σ)) (held : List Handle) (st : σ) :
      u.Reachable → u.resolveSymbol d = some x → x ∈ u.graph.names u.graph.top →
      x ∉ (u.runPasses passes held st).2.2.graph.names (u.runPasses passes held st).2.2.graph.top →
      Lost x (u.runPasses passes held st).2.2
  | step {u v : Design} : Lost x u → u.Step v → x ∉ v.graph.names v.graph.top → Lost x v

variable {resolving : Prop} {s t u : Design} {d : DefId} {x : String}

lemma sited_of_contains {name : String} (hx : s.resolveSymbol d = some x)
    (hsited : (s.siteTable d).contains name = true) : s.graph.Sited ⟨x, name⟩ := by
  obtain ⟨site, hf⟩ := Table.exists_of_contains hsited
  obtain ⟨m, hm, hf⟩ := moduleOf_of_find?_siteTable hf
  obtain ⟨y, hy, htop⟩ := moduleOf_eq_some.mp hm
  obtain rfl : x = y := Option.some.inj (hx.symm.trans hy)
  obtain ⟨r, z, hr, hz⟩ := Graph.module_of_find?_siteTable hf
  rw [Graph.find?_namedTop] at htop
  obtain ⟨k, hk, rfl⟩ := Option.map_eq_some_iff.mp htop
  exact ⟨k, r, hk, hr, by rw [hz]; rfl, (Graph.mem_names_body hr hz).mpr (Table.contains_of_find? hf)⟩

section Names

lemma names_grows {g g' : Graph} (hg : g.Forest) (h : g.Grows g') (hx : x ∈ g.names g.top) : x ∈ g'.names g'.top := by
  obtain ⟨k, hk⟩ := Table.exists_of_contains (Graph.mem_names_top.mp hx)
  exact Graph.mem_names_top.mpr (Table.contains_of_find? (Graph.find?_namedTop_grows hg h hk))

lemma mem_names_created {g : Graph} {payload : Payload} {parent : Option RecordId} (hg : g.Forest)
    (ha : g.Accepts parent) :
    x ∈ (g.created payload parent).names (g.created payload parent).top ↔
      x ∈ g.names g.top ∨ parent = none ∧ payload.symbolName = some x := by
  rw [Graph.created_top, Graph.names_created_next hg ha hg.allHeld_top, List.mem_append, List.mem_ite_nil_right,
    Option.mem_toList]

lemma Change.registered (hc : Change resolving s t) (hs : s.Coherent) (hx : t.resolveSymbol d = some x) :
    s.resolveSymbol d = some x ∨ x ∈ t.graph.names t.graph.top := by
  cases hc with
  | scan hscan => exact .inl ((hscan.resolveSymbol d).symm.trans hx)
  | @build e y definition =>
    rw [resolveSymbol, built_registry] at hx
    have hfind : (s.registry.symbols.insert e y).find? d = some x := hx
    rw [Table.find?_insert] at hfind
    split at hfind
    case isTrue =>
      obtain rfl := Option.some.inj hfind
      rw [built_graph]
      exact .inr ((mem_names_created hs.forest s.graph.accepts_top).mpr (.inr ⟨rfl, symbolName_modulePayload _⟩))
    case isFalse => exact .inl hfind
  | _ => exact .inl hx

lemma Change.named_cases (hc : Change resolving s t) (hs : s.Coherent) (hx : x ∈ t.graph.names t.graph.top) :
    x ∈ s.graph.names s.graph.top ∨ s.registry.definitionOf x = none := by
  rcases hc.adds with hsame | ⟨payload, parent, hadds, hgraph⟩
  · exact .inl (hsame ▸ hx)
  · rw [hgraph, mem_names_created hs.forest hadds.accepts] at hx
    refine hx.imp_right ?_
    rintro ⟨rfl, hname⟩
    cases hadds with
    | module external _ hnew =>
      obtain rfl := Option.some.inj ((symbolName_modulePayload external).symm.trans hname)
      exact (not_taken hs.views hnew).2
    | hierarchy => cases hname

lemma Changes.registered (hc : Changes resolving s t) (hs : s.Coherent) (hx : t.resolveSymbol d = some x) :
    s.resolveSymbol d = some x ∨ x ∈ t.graph.names t.graph.top := by
  induction hc with
  | refl => exact .inl hx
  | tail hrun hlast ih =>
    have hm := (Changes.coherent hrun hs).1
    rcases hlast.registered hm hx with hold | hnew
    · exact (ih hold).imp_right (names_grows hm.forest (hlast.coherent hm).2.graph)
    · exact .inr hnew

lemma Changes.named_cases (hc : Changes resolving s t) (hs : s.Coherent) (hx : x ∈ t.graph.names t.graph.top) :
    x ∈ s.graph.names s.graph.top ∨ s.registry.definitionOf x = none := by
  induction hc with
  | refl => exact .inl hx
  | tail hrun hlast ih =>
    obtain ⟨hm, hext⟩ := Changes.coherent hrun hs
    rcases hlast.named_cases hm hx with hold | hnew
    · exact ih hold
    · refine .inr (Option.eq_none_iff_forall_ne_some.mpr fun e he => ?_)
      cases hnew.symm.trans (hext.definitions he)

end Names

section Losing

lemma Lost.not_named (h : s.Lost x) : x ∉ s.graph.names s.graph.top := by
  cases h with
  | passes _ _ _ _ _ _ hx => exact hx
  | step _ _ hx => exact hx

lemma Lost.reachable (h : s.Lost x) : s.Reachable := by
  induction h with
  | passes passes held st hu => exact hu.trans (.single (.passes passes held st))
  | step _ hstep _ ih => exact ih.trans (.single hstep)

lemma runPasses_registry {σ : Type} (s : Design) (passes : List (Pass σ)) (held : List Handle) (st : σ) :
    (s.runPasses passes held st).2.2.registry = s.registry := by
  cases hp : s.passed with
  | true => rw [runPasses_passed hp]
  | false =>
    obtain ⟨issues, passed, hdropped⟩ := runPasses_dropped hp passes held st
    rw [hdropped]
    rfl

lemma Step.symbols (h : s.Step t) (hs : s.Coherent) (hx : s.resolveSymbol d = some x) : t.resolveSymbol d = some x := by
  cases h with
  | operation o =>
    cases o with
    | call c => exact ((changes_after hs c).coherent hs).2.symbols hx
    | invalidate held =>
      obtain ⟨issues, hi⟩ := invalidate_eq s held
      rw [perform, hi]
      exact hx
  | passes passes held st => exact (resolveSymbol_congr (runPasses_registry s passes held st) d).trans hx

lemma Lost.registered (h : s.Lost x) : ∃ d, s.resolveSymbol d = some x := by
  induction h with
  | passes passes held st _ hx => exact ⟨_, (resolveSymbol_congr (runPasses_registry _ passes held st) _).trans hx⟩
  | step hu hstep _ ih =>
    obtain ⟨d, hx⟩ := ih
    exact ⟨d, hstep.symbols hu.reachable.coherent hx⟩

lemma Reachable.named_iff (hs : s.Reachable) (hx : s.resolveSymbol d = some x) :
    x ∈ s.graph.names s.graph.top ↔ ¬ s.Lost x := by
  refine ⟨fun h hlost => hlost.not_named h, fun h => ?_⟩
  by_contra hnot
  refine h ?_
  clear h
  obtain ⟨config, source, hr⟩ := hs
  induction hr with
  | refl => cases hx
  | @tail u t hrun hlast ih =>
    have hu : u.Reachable := ⟨config, source, hrun⟩
    have hg := hu.coherent.forest
    -- either the symbol was missing before, or it has gone with the last step
    have hstep : u.resolveSymbol d = some x → x ∉ u.graph.names u.graph.top → t.Lost x :=
      fun hx hno => .step (ih hx hno) hlast hnot
    cases hlast with
    | operation o =>
      cases o with
      | call c =>
        have hc := changes_after hu.coherent c
        rcases hc.registered hu.coherent hx with hold | hnew
        · exact hstep hold fun hm => hnot (names_grows hg (hc.coherent hu.coherent).2.graph hm)
        · exact (hnot hnew).elim
      | invalidate held =>
        obtain ⟨issues, hi⟩ := invalidate_eq u held
        rw [perform, hi] at hx hnot
        exact hstep hx hnot
    | passes passes held st =>
      rw [resolveSymbol_congr (runPasses_registry u passes held st)] at hx
      by_cases hm : x ∈ u.graph.names u.graph.top
      · exact .passes passes held st hu hx hm hnot
      · exact hstep hx hm

lemma Changes.named_iff (hc : Changes resolving s t) (hs : s.Reachable) (hx : t.resolveSymbol d = some x) :
    x ∈ t.graph.names t.graph.top ↔ ¬ s.Lost x := by
  have hcoherent := hs.coherent
  constructor
  · intro hm hlost
    obtain ⟨e, he⟩ := hlost.registered
    rcases hc.named_cases hcoherent hm with hold | hnone
    · exact hlost.not_named hold
    · cases hnone.symm.trans ((hcoherent.paired e x).mp he)
  · intro hlost
    rcases hc.registered hcoherent hx with hold | hnew
    · exact names_grows hcoherent.forest (hc.coherent hcoherent).2.graph ((hs.named_iff hold).mpr hlost)
    · exact hnew

end Losing

lemma Adds.sited {site : SiteRef} {parent : Option RecordId} (h : s.Adds (.dynamicInstance site) parent) :
    (∃ p, parent = some p) ∧ s.graph.Sited site := by
  generalize hp : Payload.dynamicInstance site = payload at h
  cases h with
  | module external => cases external <;> cases hp
  | hierarchy => cases hp
  | dynamic hn =>
    obtain rfl := Payload.dynamicInstance.inj hp
    exact ⟨⟨_, rfl⟩, sited_of_contains hn.symbol hn.sited⟩
  | site _ _ _ hb => simp [← hp, Payload.hasBody] at hb
  | unnamed _ _ hb => simp [← hp, Payload.hasBody] at hb
  | note _ _ hb => simp [← hp, Payload.hasBody] at hb

lemma Adds.top {top : String} {parent : Option RecordId} (h : s.Adds (.hierarchy top) parent) :
    parent = none ∧ ∃ d, s.resolveSymbol d = some top := by
  generalize hp : Payload.hierarchy top = payload at h
  cases h with
  | module external => cases external <;> cases hp
  | hierarchy hx =>
    obtain rfl := Payload.hierarchy.inj hp
    exact ⟨rfl, _, hx⟩
  | dynamic => cases hp
  | site _ _ _ hb => simp [← hp, Payload.hasBody] at hb
  | unnamed _ _ hb => simp [← hp, Payload.hasBody] at hb
  | note _ _ hb => simp [← hp, Payload.hasBody] at hb

/-- A record that a call creates comes between two designs that the call passes through, and the graph at this moment
holds the records with smaller ids. A dynamic instance is for a site that is there then, and it is no defect. The top of
a hierarchy is at the top level then if its module record has not been lost to passes, and only then; otherwise the
hierarchy is a defect. -/
theorem creations_dangle (hs : s.Reachable) (c : Call) {id : RecordId} {r : Record}
    (hr : (s.after c).graph.Holds id r) (hnew : s.graph.lastId < id.index) :
    ∃ u v, Creation c.resolves s (s.after c) id r u v ∧ u.graph = (s.after c).graph.before id ∧
      s.graph.Grows u.graph ∧ v.graph.Grows (s.after c).graph ∧
      (∀ site, r.payload = .dynamicInstance site → u.graph.Sited site ∧ v.graph.defects = u.graph.defects) ∧
      ∀ top, r.payload = .hierarchy top → (top ∈ u.graph.names u.graph.top ↔ ¬ s.Lost top) ∧
        ∃ before after, u.graph.defects = before ++ after ∧ v.graph.defects =
          before ++ (if top ∈ u.graph.names u.graph.top then [] else [.unknownHierarchyTop top]) ++ after := by
  have hcoherent := hs.coherent
  obtain ⟨u, v, h⟩ := (changes_after hcoherent c).added hcoherent hr hnew
  obtain ⟨hu, hext⟩ := h.starts.coherent hcoherent
  have hv := (h.creates.coherent hu).1
  refine ⟨u, v, h, h.before hcoherent, hext.graph, (h.ends.coherent hv).2.graph, fun site hp => ?_, fun top hp => ?_⟩
  · have hadds := h.adds
    rw [hp] at hadds
    obtain ⟨⟨p, hparent⟩, hsited⟩ := hadds.sited
    have ha : u.graph.Accepts (some p) := hparent ▸ hadds.accepts
    rw [h.graph, hp, hparent]
    exact ⟨hsited, Graph.defects_created_dynamic hu.forest ha hsited⟩
  · have hadds := h.adds
    rw [hp] at hadds
    obtain ⟨hparent, d, hx⟩ := hadds.top
    rw [h.graph, hp, hparent]
    exact ⟨h.starts.named_iff hs hx, Graph.defects_created_hierarchy hu.forest top⟩

def eraseModule : Pass Unit :=
  ⟨"erase", fun _ => .inspect fun g => .erase (g.handle ⟨1⟩) fun _ => .done (.ok (), ())⟩

def builtModule : Design := (new {} 0).run [.call (.define "M" .external), .call (.addTop ⟨0⟩)]

def unbuiltModule : Design := (builtModule.runPasses [eraseModule] [] ()).2.2

def rootedAnyway : Design := unbuiltModule.after (.root ⟨0⟩)

theorem creations_dangle_erased :
    unbuiltModule.Lost "M" ∧ rootedAnyway.graph.Holds ⟨2⟩ ⟨.hierarchy "M", none, []⟩ ∧
      "M" ∉ (rootedAnyway.graph.before ⟨2⟩).names (rootedAnyway.graph.before ⟨2⟩).top ∧
        unbuiltModule.graph.defects = [] ∧ rootedAnyway.graph.defects = [.unknownHierarchyTop "M"] := by
  have hbuilt : builtModule.Reachable := reachable_run _ _ _
  have hlost : unbuiltModule.Lost "M" :=
    .passes (d := ⟨0⟩) [eraseModule] [] () hbuilt (by decide) (by decide) (by decide)
  have hr : rootedAnyway.graph.Holds ⟨2⟩ ⟨.hierarchy "M", none, []⟩ := rfl
  obtain ⟨u, v, _, hbefore, _, _, _, htop⟩ := creations_dangle hlost.reachable (.root ⟨0⟩) hr (by decide)
  obtain ⟨hiff, _⟩ := htop "M" rfl
  have hmissing : "M" ∉ u.graph.names u.graph.top := fun hm => hiff.mp hm hlost
  exact ⟨hlost, hr, hbefore ▸ hmissing, by decide, by decide⟩

end HardwareDesign.Design
