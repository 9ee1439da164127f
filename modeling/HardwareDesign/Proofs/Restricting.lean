import HardwareDesign.Proofs.Runs

namespace HardwareDesign.Design

def madeBy {σ : Type} (s : Design) (passes : List (Pass σ)) (held : List Handle) (st : σ) : List Payload :=
  if s.passed then [] else Pass.made passes st (s.beforePasses held).graph

inductive StepWith (allowed : Payload → Prop) (s : Design) : Design → Prop
  | operation (o : Operation) : StepWith allowed s (s.perform o)
  | passes {σ : Type} (passes : List (Pass σ)) (held : List Handle) (st : σ) :
      (∀ payload ∈ s.madeBy passes held st, allowed payload) →
      StepWith allowed s (s.runPasses passes held st).2.2

abbrev ReachesWith (allowed : Payload → Prop) : Design → Design → Prop := Relation.ReflTransGen (StepWith allowed)

def ReachableWith (allowed : Payload → Prop) (s : Design) : Prop :=
  ∃ config source, ReachesWith allowed (.new config source) s

variable {allowed : Payload → Prop} {s t : Design}

lemma StepWith.step (h : s.StepWith allowed t) : s.Step t := by
  cases h with
  | operation o => exact .operation o
  | passes passes held st _ => exact .passes passes held st

lemma ReachesWith.reaches (h : s.ReachesWith allowed t) : s.Reaches t :=
  Relation.ReflTransGen.mono (fun _ _ => StepWith.step) _ _ h

lemma ReachableWith.reachable (h : s.ReachableWith allowed) : s.Reachable := by
  obtain ⟨config, source, hr⟩ := h
  exact ⟨config, source, ReachesWith.reaches hr⟩

lemma ReachableWith.trans (h : s.ReachableWith allowed) (hr : s.ReachesWith allowed t) : t.ReachableWith allowed := by
  obtain ⟨config, source, h⟩ := h
  exact ⟨config, source, Relation.ReflTransGen.trans h hr⟩

lemma StepWith.mono {allowed' : Payload → Prop} (ha : ∀ payload, allowed payload → allowed' payload)
    (h : s.StepWith allowed t) : s.StepWith allowed' t := by
  cases h with
  | operation o => exact .operation o
  | passes passes held st hmade => exact .passes passes held st fun payload hm => ha payload (hmade payload hm)

lemma ReachesWith.mono {allowed' : Payload → Prop} (ha : ∀ payload, allowed payload → allowed' payload)
    (h : s.ReachesWith allowed t) : s.ReachesWith allowed' t :=
  Relation.ReflTransGen.mono (fun _ _ => StepWith.mono ha) _ _ h

lemma reachesWith_run (s : Design) (ops : List Operation) : s.ReachesWith allowed (s.run ops) := by
  induction ops generalizing s with
  | nil => exact .refl
  | cons o ops ih => exact .head (.operation o) (ih _)

inductive Rewritten (allowed : Payload → Prop) (s : Design) : Design → Prop
  | mk {made g} (issues : IssueSet Advisory) (passed : Bool) : s.graph.nextEpoch.Edits made g →
      (∀ payload ∈ made, allowed payload) → Rewritten allowed s { s.dropViews with graph := g, issues, passed }

lemma rewritten_invalidate (s : Design) (held : List Handle) : s.Rewritten allowed (s.invalidate held).2 := by
  obtain ⟨issues, hi⟩ := invalidate_eq s held
  rw [hi]
  exact .mk (g := s.graph.nextEpoch) issues s.passed .refl (by simp)

lemma rewritten_runPasses {σ : Type} (hg : s.graph.Forest) (hp : s.passed = false) {passes : List (Pass σ)}
    {held : List Handle} {st : σ} (hmade : ∀ payload ∈ s.madeBy passes held st, allowed payload) :
    s.Rewritten allowed (s.runPasses passes held st).2.2 := by
  obtain ⟨issues, passed, hdropped⟩ := runPasses_dropped hp passes held st
  obtain ⟨issues', hb⟩ := beforePasses_eq s held
  have hmade' : s.madeBy passes held st = Pass.made passes st s.graph.nextEpoch := by
    rw [madeBy, hp, if_neg (by simp), hb]
    rfl
  rw [hdropped]
  exact .mk issues passed (Pass.edits passes st hg.nextEpoch) (hmade' ▸ hmade)

lemma Rewritten.derives (h : s.Rewritten allowed t) (hg : s.graph.Forest) :
    s.graph.Derives (fun payload _ => allowed payload) t.graph := by
  obtain ⟨issues, passed, hedits, hmade⟩ := h
  have hd := hedits.derives hg.nextEpoch hmade
  exact ⟨hd.lastId, hd.records⟩

lemma ReachesWith.invariant {P : Design → Prop} (h : s.ReachesWith allowed t) (hs : s.Coherent) (hp : P s)
    (call : ∀ {u}, u.Coherent → P u → ∀ c : Call, P (u.after c))
    (rewrite : ∀ {u v}, u.Coherent → u.Rewritten allowed v → P u → P v) : P t := by
  induction h with
  | refl => exact hp
  | tail hrun hlast ih =>
    have hc := (Reaches.coherent (ReachesWith.reaches hrun) hs).1
    cases hlast with
    | operation o =>
      cases o with
      | call c => exact call hc ih c
      | invalidate held => exact rewrite hc (rewritten_invalidate _ held) ih
    | @passes σ passes held st hmade =>
      cases hpassed : passed _ with
      | true =>
        rw [runPasses_passed hpassed]
        exact ih
      | false => exact rewrite hc (rewritten_runPasses hc.forest hpassed hmade) ih

end HardwareDesign.Design
