import HardwareDesign.Proofs.Allocating
import HardwareDesign.Proofs.Editing

namespace HardwareDesign

def Graph.Siteless (payload : Payload) (parent : Option RecordId) : Prop := payload.symbolName = none ∨ parent = none

namespace Design

structure Rests (s t : Design) : Prop where
  definitions : t.definitions = s.definitions
  queue : t.queue = s.queue
  registry : t.registry = s.registry

variable {powers : Powers} {s t : Design} {log : List Allocation} {c : Call}

namespace Acts

lemma rests (h : s.Acts powers log t) (hworks : ¬ powers.works) : s.Rests t := by
  induction h with
  | refl => exact ⟨rfl, rfl, rfl⟩
  | keep _ ho _ ih =>
    obtain ⟨hdefinitions, hqueue, hregistry⟩ := ih
    exact ⟨(congrArg (fun u => u.definitions) ho).trans hdefinitions, (congrArg (fun u => u.queue) ho).trans hqueue,
      (registry_of_outline ho).trans hregistry⟩
  | work _ _ hw => exact (hworks hw).elim
  | build hw => exact (hworks hw).elim
  | _ =>
    rename_i ih
    exact ⟨ih.definitions, ih.queue, ih.registry⟩

lemma siteless (h : s.Acts powers log t) (hgenerates : ¬ powers.generates) (hg : s.graph.Forest) :
    t.graph.Forest ∧ s.graph.Derives Graph.Siteless t.graph := by
  have hcreated : ∀ {g : Graph} {payload parent}, g.Forest ∧ s.graph.Derives Graph.Siteless g → g.Accepts parent →
      Graph.Siteless payload parent →
      (g.created payload parent).Forest ∧ s.graph.Derives Graph.Siteless (g.created payload parent) :=
    fun hd ha hsiteless => ⟨hd.1.created ha, hd.2.trans (hd.1.derives ha hsiteless)⟩
  induction h with
  | refl => exact ⟨hg, .refl _⟩
  | keep _ ho _ ih => exact graph_of_outline ho ▸ ih
  | create _ hn _ hc _ ih =>
    obtain ⟨_, ha, _, rfl⟩ := Graph.createIn_ok hc
    have ha : Graph.Accepts _ (some _) := ha
    exact hcreated ih ha (.inl (hn.resolve_right hgenerates))
  | hierarchy _ _ _ ih => exact hcreated ih (Graph.accepts_top _) (.inr rfl)
  | build _ _ _ _ _ ih =>
    rw [built_graph]
    exact hcreated ih (Graph.accepts_top _) (.inr rfl)
  | note _ _ hn _ hc ih =>
    obtain ⟨_, ha, _, rfl⟩ := Graph.createIn_ok hc
    have ha : Graph.Accepts _ (some _) := ha
    exact hcreated ih ha (.inl hn)
  | _ => assumption

lemma graph (h : s.Acts powers log t) (hcreates : ¬ powers.creates) : t.graph = s.graph := by
  induction h with
  | refl => rfl
  | keep _ ho _ ih => exact (graph_of_outline ho).trans ih
  | create hc => exact (hcreates hc).elim
  | hierarchy _ hc => exact (hcreates hc).elim
  | build _ hc => exact (hcreates hc).elim
  | note _ hc => exact (hcreates hc).elim
  | _ => assumption

end Acts

lemma rests_after (s : Design) (hc : ¬ c.works) : s.Rests (s.after c) := (acts_after s c).rests hc

lemma derives_siteless (hg : s.graph.Forest) (hc : ¬ c.generates) :
    s.graph.Derives Graph.Siteless (s.after c).graph :=
  ((acts_after s c).siteless hc hg).2

lemma graph_of_reads (s : Design) (hc : c.reads) : (s.after c).graph = s.graph :=
  (acts_after s c).graph fun hcreates => hcreates hc

end Design

end HardwareDesign
