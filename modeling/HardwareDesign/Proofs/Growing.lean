import HardwareDesign.Proofs.Identity
import HardwareDesign.Proofs.Moving
import HardwareDesign.Proofs.Resting

namespace HardwareDesign

/-- Every record is still there with what it holds and where it is, and nothing has been put before or between the
records of a list. -/
structure Graph.Continues (g g' : Graph) : Prop where
  records : ∀ {id r}, g.Holds id r → ∃ r', g'.Holds id r' ∧ r'.payload = r.payload ∧ r'.parent = r.parent ∧
    r.body <+: r'.body
  top : g.top <+: g'.top

instance : IsTrans Graph Graph.Continues := by
  refine ⟨fun g₁ g₂ g₃ h h' => ⟨?_, h.top.trans h'.top⟩⟩
  intro id r hr
  obtain ⟨r', hr', hp, hparent, hbody⟩ := h.records hr
  obtain ⟨r'', hr'', hp', hparent', hbody'⟩ := h'.records hr'
  exact ⟨r'', hr'', hp'.trans hp, hparent'.trans hparent, hbody.trans hbody'⟩

lemma Graph.Grows.continues {g g' : Graph} (h : g.Grows g') : g.Continues g' where
  records := by
    intro id r hr
    obtain ⟨more, hr'⟩ := h.records hr
    exact ⟨_, hr', rfl, rfl, List.prefix_append _ _⟩
  top := by
    obtain ⟨more, htop⟩ := h.top
    exact ⟨more, htop.symm⟩

instance : Std.Refl Graph.Continues := ⟨fun g => (Graph.Grows.refl g).continues⟩

lemma Graph.continues_nextEpoch (g : Graph) : g.Continues g.nextEpoch :=
  ⟨fun hr => ⟨_, hr, rfl, rfl, List.prefix_rfl⟩, List.prefix_rfl⟩

namespace Design

inductive Using (s : Design) : Design → Prop
  | tend {t} : s.Tending t → Using s t
  | invalidate (held : List Handle) : Using s (s.invalidate held).2

variable {s t : Design}

abbrev Uses : Design → Design → Prop := Relation.ReflTransGen Using

abbrev Continuing : Design → Design → Prop := Carries Graph.Continues

lemma Evolves.grows {log : List Allocation} (h : s.Evolves log t) (hg : s.graph.Forest) :
    t.graph.Forest ∧ s.graph.Grows t.graph := by
  induction h with
  | refl => exact ⟨hg, .refl _⟩
  | quiet _ hgraph _ _ _ ih => exact hgraph ▸ ih
  | scan _ ih => exact ih
  | @create _ t owner payload _ _ _ hc ih =>
    obtain ⟨_, ha, _, rfl⟩ := Graph.createIn_ok hc
    have ha : t.graph.Accepts (some owner.record) := ha
    exact ⟨ih.1.created ha, ih.2.trans (ih.1.grows ha)⟩
  | @hierarchy _ t top _ ih =>
    exact ⟨ih.1.created t.graph.accepts_top, ih.2.trans (ih.1.grows t.graph.accepts_top)⟩
  | @build _ t d definition _ _ _ ih =>
    rw [built_graph]
    exact ⟨ih.1.created t.graph.accepts_top, ih.2.trans (ih.1.grows t.graph.accepts_top)⟩

lemma graph_allocateSymbol (s : Design) (d : DefId) : (endState (allocateSymbol d s)).graph = s.graph := by
  rw [allocateSymbol]
  cases s.resolveSymbol d with
  | some x => rfl
  | none => cases s.definition d <;> rfl

lemma Tending.continuing (h : s.Tending t) : Continuing s t := by
  cases h with
  | call c =>
    intro hg
    obtain ⟨ht, hgrows⟩ := (acts_after s c).evolves.grows hg
    exact ⟨ht, hgrows.continues⟩
  | allocate d => exact SameGraph.carries (graph_allocateSymbol s d)
  | install i h => exact SameGraph.carries rfl

lemma graph_invalidate (s : Design) (held : List Handle) : (s.invalidate held).2.graph = s.graph.nextEpoch := by
  obtain ⟨issues, hi⟩ := invalidate_eq s held
  rw [hi]
  rfl

lemma Using.continuing (h : s.Using t) : Continuing s t := by
  cases h with
  | tend h => exact h.continuing
  | invalidate held =>
    intro hg
    rw [graph_invalidate]
    exact ⟨hg.nextEpoch, s.graph.continues_nextEpoch⟩

lemma Uses.continuing (h : s.Uses t) : Continuing s t := by
  induction h with
  | refl => exact refl_of Continuing s
  | tail _ hlast ih => exact trans_of Continuing ih hlast.continuing

lemma Renewal.forest (h : s.Renewal t) (hg : s.graph.Forest) : t.graph.Forest := by
  cases h with
  | invalidate held =>
    rw [graph_invalidate]
    exact hg.nextEpoch
  | passes passes held st _ =>
    rcases runPasses_eq hg passes held st with hsame | ⟨g, issues, passed, hforest, hdropped⟩
    · rw [hsame]
      exact hg
    · rw [hdropped]
      exact hforest

lemma Attainable.forest (h : s.Attainable) : s.graph.Forest := by
  obtain ⟨config, source, hr⟩ := h
  induction hr with
  | refl => exact Graph.forest_empty source
  | tail _ hlast ih =>
    rcases hlast with hlast | hlast
    · exact (hlast.continuing ih).1
    · exact hlast.forest ih

lemma still_children (i : InstanceId) : Moves SameGraph (children i) :=
  fun s => graph_of_reads s (c := .children i) trivial

/-- As long as no passes are run, nothing is taken out of the graph and nothing in it is changed, whatever fails, and
symbols may be allocated and installed in any way. Walks do what their visits do. -/
theorem graph_only_grows (hs : s.Attainable) :
    (∀ {t}, s.Using t → s.graph.Continues t.graph) ∧
      (∀ {σ : Type} {visit : InstanceId → Walk σ Unit}, (∀ i (x : Design × σ), x.1.Uses (endState (visit i x)).1) →
        ∀ depth i st, s.graph.Continues (endState (walk visit depth i (s, st))).1.graph) ∧
      (∀ {c : Call}, c.reads → (s.after c).graph = s.graph) ∧
      (∀ held, (s.invalidate held).2.graph.records = s.graph.records ∧
        (s.invalidate held).2.graph.top = s.graph.top) ∧
      (∀ i, endState (Action.read (·.tree.path i) s) = s) ∧
      (∀ symbol, endState (Action.read (·.resolveDefinition symbol) s) = s) ∧
      ∀ {σ : Type} {visit : InstanceId → Walk σ Unit},
        (∀ i (x : Design × σ), (endState (visit i x)).1.graph = x.1.graph) →
        ∀ depth i st, (endState (walk visit depth i (s, st))).1.graph = s.graph := by
  refine ⟨fun ht => (ht.continuing hs.forest).2, ?_, graph_of_reads s, ?_, ?_, ?_, ?_⟩
  · intro σ visit hv depth i st
    have hvisit : ∀ j, Moves (InvImage Continuing Prod.fst) (visit j) := fun j x => (hv j x).continuing
    have hchildren : ∀ j, Moves Continuing (children j) := fun j => (still_children j).mono SameGraph.carries
    exact (moves_walk hvisit hchildren depth i (s, st) hs.forest).2
  · intro held
    rw [graph_invalidate]
    exact ⟨rfl, rfl⟩
  · exact fun i => (moves_read (R := Eq) _ s).symm
  · exact fun symbol => (moves_read (R := Eq) _ s).symm
  · intro σ visit hv depth i st
    have hvisit : ∀ j, Moves (InvImage SameGraph Prod.fst) (visit j) := hv
    exact moves_walk hvisit still_children depth i (s, st)

theorem graph_only_grows_late :
    lateRegister.graph.Continues (lateRegister.after (.record ⟨1, 0⟩)).graph ∧
      (lateRegister.after (.record ⟨1, 0⟩)).graph.size = lateRegister.graph.size + 1 :=
  ⟨(graph_only_grows reachable_lateRegister.attainable).1 (.tend (.call _)), by decide⟩

end Design

end HardwareDesign
