import HardwareDesign.Proofs.Additions
import HardwareDesign.Proofs.Listing

namespace HardwareDesign

namespace Graph

def Reachable (g : Graph) : Prop := ∃ source calls, g = (empty source).run calls

variable {g : Graph}

lemma reachable_empty (source : Nat) : (empty source).Reachable := ⟨source, [], rfl⟩

lemma Reachable.after (hg : g.Reachable) (c : GraphCall) : (g.after c).Reachable := by
  obtain ⟨source, calls, rfl⟩ := hg
  exact ⟨source, calls ++ [c], by simp only [run, List.foldl_append, List.foldl_cons, List.foldl_nil]⟩

lemma Reachable.forest (hg : g.Reachable) : g.Forest := by
  obtain ⟨source, calls, rfl⟩ := hg
  exact (forest_empty source).run calls

lemma Reachable.nextEpoch (hg : g.Reachable) : g.nextEpoch.Reachable := hg.after .nextEpoch

lemma after_create_accepted {payload : Payload} {parent : Option RecordId} (ha : g.Accepts parent) :
    g.after (.create (parent.map g.handle) payload) = g.created payload parent := by
  cases parent with
  | none => exact after_create rfl
  | some p =>
    obtain ⟨r, hr, hb⟩ := ha
    exact after_create (createIn_of_holds (h := g.handle p) rfl hr hb)

lemma Reachable.created (hg : g.Reachable) {payload : Payload} {parent : Option RecordId} (ha : g.Accepts parent) :
    (g.created payload parent).Reachable :=
  after_create_accepted ha ▸ hg.after _

end Graph

section Rewriting

variable {α σ : Type} {g : Graph}

lemma Edit.reachable (e : Edit α) (hg : g.Reachable) : (e.run g).2.Reachable := by
  induction e generalizing g with
  | done a => exact hg
  | inspect next ih => exact ih g hg
  | create parent payload next ih =>
    rw [Edit.run]
    cases hc : g.create parent payload with
    | ok found => exact ih _ (Graph.after_create hc ▸ hg.after _)
    | error e => exact ih _ hg
  | erase h next ih =>
    rw [Edit.run]
    cases he : g.erase h with
    | ok g' => exact ih _ (Graph.after_erase he ▸ hg.after _)
    | error e => exact ih _ hg
  | nextEpoch next ih => exact ih hg.nextEpoch

lemma Pass.reachable (passes : List (Pass σ)) (st : σ) (hg : g.Reachable) : (runAll passes st g).2.2.Reachable := by
  induction passes generalizing st g with
  | nil => exact hg
  | cons p ps ih =>
    have hp := Edit.reachable (p.run st) hg
    rw [Pass.runAll]
    generalize (p.run st).run g = found at hp ⊢
    obtain ⟨⟨r, st'⟩, g'⟩ := found
    cases r with
    | ok _ => exact ih st' hp
    | error e => exact hp

end Rewriting

namespace Design

variable {resolving : Prop} {s t : Design}

lemma Changes.reachable_graph (hc : Changes resolving s t) (hg : s.graph.Reachable) : t.graph.Reachable := by
  induction hc with
  | refl => exact hg
  | tail _ hlast ih =>
    rcases hlast.adds with hsame | ⟨payload, parent, hadds, hgraph⟩
    · exact hsame ▸ ih
    · exact hgraph ▸ ih.created hadds.accepts

lemma Step.reachable_graph (h : s.Step t) (hs : s.Coherent) (hg : s.graph.Reachable) : t.graph.Reachable := by
  cases h with
  | operation o =>
    cases o with
    | call c => exact (changes_after hs c).reachable_graph hg
    | invalidate held =>
      obtain ⟨issues, hi⟩ := invalidate_eq s held
      rw [perform, hi]
      exact hg.nextEpoch
  | passes passes held st =>
    cases hp : s.passed with
    | true => rwa [runPasses_passed hp]
    | false =>
      obtain ⟨issues, passed, hdropped⟩ := runPasses_dropped hp passes held st
      rw [hdropped]
      exact Pass.reachable passes st hg.nextEpoch

lemma Reachable.graph (h : s.Reachable) : s.graph.Reachable := by
  obtain ⟨config, source, hr⟩ := h
  induction hr with
  | refl => exact Graph.reachable_empty source
  | tail hrun hlast ih => exact hlast.reachable_graph (Reaches.coherent hrun (coherent_new config source)).1 ih

end Design

end HardwareDesign
