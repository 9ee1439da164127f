import HardwareDesign.Proofs.Restricting
import HardwareDesign.Proofs.Retaining
import HardwareDesign.Proofs.Violations

/-!
One hierarchy for each definition in a whole run: definitions that have been rooted are marked for ever, and every
hierarchy there is belongs to one of them.
-/

namespace HardwareDesign

def Payload.NotHierarchy (p : Payload) : Prop := ∀ top, p ≠ .hierarchy top

namespace Graph

variable {g g' : Graph} {id : RecordId} {x : String}

lemma hierarchyTop_eq_some : g.hierarchyTop id = some x ↔ ∃ r, g.Holds id r ∧ r.payload = .hierarchy x := by
  cases hr : g.records.find? id with
  | none => simp [hierarchyTop, Holds, hr]
  | some r =>
    obtain ⟨payload, parent, body⟩ := r
    cases payload <;> simp [hierarchyTop, Holds, hr]

lemma hierarchyTop_created (hg : g.Forest) {payload : Payload} {parent : Option RecordId} (ha : g.Accepts parent)
    (h : (g.created payload parent).hierarchyTop id = some x) :
    g.hierarchyTop id = some x ∨ id = g.nextId ∧ payload = .hierarchy x := by
  obtain ⟨r, hr, hp⟩ := hierarchyTop_eq_some.mp h
  rcases (holds_created hg ha).mp hr with ⟨rfl, rfl⟩ | ⟨r₀, h₀, rfl⟩
  · exact .inr ⟨rfl, hp⟩
  · exact .inl (hierarchyTop_eq_some.mpr ⟨r₀, h₀, hp⟩)

lemma hierarchyTop_created_other (hg : g.Forest) {payload : Payload} {parent : Option RecordId} (ha : g.Accepts parent)
    (hp : payload.NotHierarchy) (h : (g.created payload parent).hierarchyTop id = some x) :
    g.hierarchyTop id = some x := by
  rcases hierarchyTop_created hg ha h with hold | ⟨_, hnew⟩
  · exact hold
  · exact (hp x hnew).elim

lemma Derives.hierarchyTop (h : g.Derives (fun payload _ => payload.NotHierarchy) g')
    (ht : g'.hierarchyTop id = some x) :
    g.hierarchyTop id = some x := by
  obtain ⟨r, hr, hp⟩ := hierarchyTop_eq_some.mp ht
  rcases h.records hr with ⟨r₀, h₀, hsame, _⟩ | ⟨_, hnew⟩
  · exact hierarchyTop_eq_some.mpr ⟨r₀, h₀, hsame.symm.trans hp⟩
  · exact (hnew x hp).elim

end Graph

namespace Design

structure Covered (s : Design) : Prop where
  marked : ∀ {id x}, s.graph.hierarchyTop id = some x → ∃ d ∈ s.records.rooted, s.resolveSymbol d = some x
  once : ∀ {id id' x}, s.graph.hierarchyTop id = some x → s.graph.hierarchyTop id' = some x → id = id'

structure Roots (s t : Design) : Prop where
  symbols : ∀ {d x}, s.resolveSymbol d = some x → t.resolveSymbol d = some x
  rooted : ∀ {d}, d ∈ s.records.rooted → d ∈ t.records.rooted
  fresh : ∀ {id x}, t.graph.hierarchyTop id = some x →
    s.graph.hierarchyTop id = some x ∨ ∃ d, t.resolveSymbol d = some x ∧ d ∉ s.records.rooted

variable {resolving : Prop} {s t u : Design} {d : DefId} {k k' : RecordId} {x : String}

lemma Roots.refl (s : Design) : s.Roots s := ⟨fun h => h, fun h => h, .inl⟩

lemma Roots.trans (h : s.Roots t) (h' : t.Roots u) : s.Roots u where
  symbols hx := h'.symbols (h.symbols hx)
  rooted hd := h'.rooted (h.rooted hd)
  fresh := by
    intro id x hid
    rcases h'.fresh hid with hold | ⟨d, hd, hnew⟩
    · rcases h.fresh hold with hold | ⟨d, hd, hnew⟩
      · exact .inl hold
      · exact .inr ⟨d, h'.symbols hd, hnew⟩
    · exact .inr ⟨d, hd, fun hm => hnew (h.rooted hm)⟩

lemma symbol_injective (hp : s.registry.Paired) {e : DefId} (hd : s.resolveSymbol d = some x)
    (he : s.resolveSymbol e = some x) : d = e :=
  Option.some.inj (((hp d x).mp hd).symm.trans ((hp e x).mp he))

lemma Covered.same (h : s.Covered) (hr : s.Roots t) (hp : t.registry.Paired) (hk : s.graph.hierarchyTop k = some x)
    (hk' : t.graph.hierarchyTop k' = some x) : k = k' := by
  rcases hr.fresh hk' with hold | ⟨d, hd, hnew⟩
  · exact h.once hk hold
  -- a new hierarchy is one of a definition without a mark, but the old one has left a mark on its definition
  · obtain ⟨e, he, hx⟩ := h.marked hk
    obtain rfl := symbol_injective hp hd (hr.symbols hx)
    exact (hnew he).elim

lemma covered_new (config : Config) (source : Nat) : (new config source).Covered :=
  ⟨fun h => (by cases h), fun h => (by cases h)⟩

section Changes

lemma Change.hierarchyTop (hc : Change resolving s t) (hs : s.Coherent) (h : t.graph.hierarchyTop k = some x) :
    s.graph.hierarchyTop k = some x ∨ k = s.graph.nextId ∧
      ∃ d, s.resolveSymbol d = some x ∧ d ∉ s.records.rooted ∧ d ∈ t.records.rooted := by
  have hg := hs.forest
  have hbodiless : ∀ {payload : Payload}, payload.hasBody = false → payload.NotHierarchy := by
    rintro _ hb top rfl
    cases hb
  cases hc with
  | scan hscan => exact .inl (hscan.graph ▸ h)
  | @build _ _ definition =>
    rw [built_graph] at h
    refine .inl (Graph.hierarchyTop_created_other hg s.graph.accepts_top ?_ h)
    cases definition.body.isExternal <;> exact fun top => by simp [modulePayload]
  | site hf _ _ hb => exact .inl (Graph.hierarchyTop_created_other hg hf.accepts (hbodiless hb) h)
  | unnamed hf _ hb => exact .inl (Graph.hierarchyTop_created_other hg hf.accepts (hbodiless hb) h)
  | @hierarchy d y hy hd _ =>
    rcases Graph.hierarchyTop_created hg s.graph.accepts_top h with hold | ⟨hid, hnew⟩
    · exact .inl hold
    · obtain rfl := Payload.hierarchy.inj hnew
      exact .inr ⟨hid, d, hy, hd, List.mem_cons_self⟩
  | nest hn _ =>
    obtain ⟨_, _, hstands⟩ := hn.owner
    exact .inl (Graph.hierarchyTop_created_other hg hstands.accepts (fun top => by simp) h)
  | note hi _ _ hb => exact .inl (Graph.hierarchyTop_created_other hg hi.accepts (hbodiless hb) h)
  | _ => exact .inl h

lemma Change.roots (hc : Change resolving s t) (hs : s.Coherent) : s.Roots t := by
  have he := (hc.coherent hs).2
  refine ⟨he.symbols, hc.rooted, ?_⟩
  intro id x hid
  rcases hc.hierarchyTop hs hid with hold | ⟨_, d, hd, hnew, _⟩
  · exact .inl hold
  · exact .inr ⟨d, he.symbols hd, hnew⟩

lemma Change.covered (hc : Change resolving s t) (hs : s.Coherent) (h : s.Covered) : t.Covered where
  marked := by
    intro id x hid
    have he := (hc.coherent hs).2
    rcases hc.hierarchyTop hs hid with hold | ⟨_, d, hd, _, hm⟩
    · obtain ⟨d, hm, hd⟩ := h.marked hold
      exact ⟨d, hc.rooted hm, he.symbols hd⟩
    · exact ⟨d, hm, he.symbols hd⟩
  once := by
    intro id id' x hid hid'
    have hp := (hc.coherent hs).1.paired
    rcases hc.hierarchyTop hs hid with hold | ⟨hnext, _⟩
    · exact h.same (hc.roots hs) hp hold hid'
    · rcases hc.hierarchyTop hs hid' with hold' | ⟨hnext', _⟩
      · exact (h.same (hc.roots hs) hp hold' hid).symm
      · exact hnext.trans hnext'.symm

end Changes

lemma Rewritten.roots (h : s.Rewritten Payload.NotHierarchy t) (hg : s.graph.Forest) : s.Roots t := by
  have hd := h.derives hg
  obtain ⟨issues, passed, _, _⟩ := h
  exact ⟨fun hx => hx, fun hm => hm, fun hid => .inl (hd.hierarchyTop hid)⟩

lemma Rewritten.covered (h : s.Rewritten Payload.NotHierarchy t) (hg : s.graph.Forest) (hs : s.Covered) :
    t.Covered := by
  have hd := h.derives hg
  obtain ⟨issues, passed, _, _⟩ := h
  exact ⟨fun hid => hs.marked (hd.hierarchyTop hid),
    fun hid hid' => hs.once (hd.hierarchyTop hid) (hd.hierarchyTop hid')⟩

lemma ReachesWith.covered (h : s.ReachesWith Payload.NotHierarchy t) (hs : s.Coherent) (hc : s.Covered) :
    t.Covered ∧ s.Roots t := by
  refine ReachesWith.invariant (P := fun u => u.Covered ∧ s.Roots u) h hs ⟨hc, .refl s⟩ ?_ ?_
  · intro u hu hp c
    refine Changes.invariant (P := fun u => u.Covered ∧ s.Roots u) (changes_after hu c) hu hp fun hv hchange hp => ?_
    exact ⟨hchange.covered hv hp.1, hp.2.trans (hchange.roots hv)⟩
  · intro u v hu hrewrite hp
    exact ⟨hrewrite.covered hu.forest hp.1, hp.2.trans (hrewrite.roots hu.forest)⟩

lemma Covered.not_violated (h : s.Covered) (hs : s.Coherent) (d : DefId) (v : Violation) :
    failed id (getInstance d s) ≠ some (.violation v) := by
  intro hv
  obtain ⟨_, hnew, x, hx, hc, _⟩ := (getInstance_violates hs).mp hv
  obtain ⟨k, hk⟩ := Table.exists_of_contains hc
  obtain ⟨_, _, r, hr, hp⟩ := Graph.holds_of_find?_hierarchies hk
  obtain ⟨e, he, hx'⟩ := h.marked (Graph.hierarchyTop_eq_some.mpr ⟨r, hr, hp⟩)
  obtain rfl := symbol_injective hs.paired hx hx'
  exact hnew he

def HierarchyOf (s : Design) (d : DefId) (k : RecordId) : Prop :=
  ∃ x, s.resolveSymbol d = some x ∧ s.graph.hierarchyTop k = some x

/-- If no pass creates hierarchies: a root is never refused for a hierarchy that is there, no definition ever gets a
second one, also after the first one is gone, and no two have the same module, not even at different times. -/
theorem hierarchy_once (hs : s.ReachableWith Payload.NotHierarchy) :
    (∀ d v, s.failure? (.root d) ≠ some (.violation v)) ∧
      (∀ c x, s.failure? c ≠ some (.violation (.secondHierarchy x))) ∧
      (∀ {t d k k'}, s.ReachesWith Payload.NotHierarchy t → s.HierarchyOf d k → t.HierarchyOf d k' → k = k') ∧
      ∀ {t k k' x}, s.ReachesWith Payload.NotHierarchy t → s.graph.hierarchyTop k = some x →
        t.graph.hierarchyTop k' = some x → k = k' := by
  have hc := hs.reachable.coherent
  have hcovered : s.Covered := by
    obtain ⟨config, source, hr⟩ := hs
    exact (ReachesWith.covered hr (coherent_new config source) (covered_new config source)).1
  refine ⟨hcovered.not_violated hc, ?_, ?_, ?_⟩
  · intro c x hx
    obtain ⟨d, hd⟩ := getInstance_of_second hx
    exact hcovered.not_violated hc d _ hd
  · rintro t d k k' ht ⟨x, hx, hk⟩ ⟨x', hx', hk'⟩
    obtain ⟨_, hroots⟩ := ReachesWith.covered ht hc hcovered
    obtain rfl := Option.some.inj ((hroots.symbols hx).symm.trans hx')
    exact hcovered.same hroots (hs.trans ht).reachable.coherent.paired hk hk'
  · intro t k k' x ht hk hk'
    exact hcovered.same (ReachesWith.covered ht hc hcovered).2 (hs.trans ht).reachable.coherent.paired hk hk'

def rootedModule : Design :=
  (new {} 0).run [.call (.define "M" .external), .call (.addTop ⟨0⟩), .call (.root ⟨0⟩)]

def eraseHierarchy : Pass Unit :=
  ⟨"erase", fun _ => .inspect fun g => .erase (g.handle ⟨2⟩) fun _ => .done (.ok (), ())⟩

def rootedAgain : Design := (rootedModule.runPasses [eraseHierarchy] [] ()).2.2.run [.call (.root ⟨0⟩)]

lemma reachable_rootedModule : rootedModule.ReachableWith Payload.NotHierarchy :=
  ⟨{}, 0, reachesWith_run _ _⟩

lemma rootedModule_rootedAgain : rootedModule.ReachesWith Payload.NotHierarchy rootedAgain := by
  refine .head (.passes [eraseHierarchy] [] () ?_) (reachesWith_run _ _)
  intro payload hm
  cases hm

theorem hierarchy_once_erased :
    rootedModule.HierarchyOf ⟨0⟩ ⟨2⟩ ∧ rootedAgain.graph.hierarchyTop ⟨2⟩ = none ∧
      rootedAgain.tree.roots.find? ⟨0⟩ = some ⟨0, 1⟩ ∧ ∀ k, rootedAgain.HierarchyOf ⟨0⟩ k → ⟨2⟩ = k := by
  have hm : rootedModule.HierarchyOf ⟨0⟩ ⟨2⟩ := ⟨"M", by decide, by decide⟩
  obtain ⟨_, _, honce, _⟩ := hierarchy_once reachable_rootedModule
  exact ⟨hm, by decide, by decide, fun k hk => honce rootedModule_rootedAgain hm hk⟩

end Design

end HardwareDesign
