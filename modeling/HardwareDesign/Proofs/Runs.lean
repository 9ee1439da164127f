import HardwareDesign.Proofs.Calls
import HardwareDesign.Proofs.Editing

/-!
Runs of a design from its start, in any order of calls, invalidations and passes. What is known of the instances of
one generation of the tree is never taken back while the generation lasts.
-/

namespace HardwareDesign

inductive Operation where
  | call (c : Call)
  | invalidate (held : List Handle)

namespace Design

variable {s t u : Design}

def perform (s : Design) : Operation → Design
  | .call c => s.after c
  | .invalidate held => (s.invalidate held).2

def run (s : Design) (ops : List Operation) : Design := ops.foldl perform s

inductive Step (s : Design) : Design → Prop
  | operation (o : Operation) : Step s (s.perform o)
  | passes {σ : Type} (passes : List (Pass σ)) (held : List Handle) (st : σ) :
      Step s (s.runPasses passes held st).2.2

abbrev Reaches : Design → Design → Prop := Relation.ReflTransGen Step

def Reachable (s : Design) : Prop := ∃ config source, Reaches (.new config source) s

lemma reaches_run (s : Design) (ops : List Operation) : s.Reaches (s.run ops) := by
  induction ops generalizing s with
  | nil => exact .refl
  | cons o ops ih => exact .head (.operation o) (ih _)

structure Dropped (s : Design) : Prop where
  known : s.symbols.known = none
  sites : s.sites = {}
  hierarchies : s.records.hierarchies = none
  instances : s.records.instances = {}
  nested : s.records.nested = {}
  nodes : s.tree.nodes = []
  roots : s.tree.roots = {}

lemma Dropped.coherent (hd : s.Dropped) (hg : s.graph.Forest) (hp : s.registry.Paired) : s.Coherent where
  forest := hg
  paired := hp
  views := by
    refine ⟨?_, ?_, ?_, ?_⟩
    · intro index h
      simp [hd.known] at h
    · intro index h
      simp [hd.hierarchies] at h
    · intro id sites h
      rw [hd.sites] at h
      cases h
    · intro id index h
      rw [hd.nested] at h
      cases h
  shaped := by
    refine ⟨?_, ?_, ?_⟩
    · intro d i h
      rw [hd.roots] at h
      cases h
    · intro k n h
      simp [InstanceTree.At, hd.nodes] at h
    · intro k n c name j h
      simp [InstanceTree.At, hd.nodes] at h
  targets := by
    intro k n d h
    simp [InstanceTree.At, hd.nodes] at h
  matched := by
    intro k n c d h
    simp [InstanceTree.At, hd.nodes] at h
  backed := by
    intro i h hi
    rw [hd.instances] at hi
    cases hi

lemma dropped_new (config : Config) (source : Nat) : (new config source).Dropped := ⟨rfl, rfl, rfl, rfl, rfl, rfl, rfl⟩

lemma coherent_new (config : Config) (source : Nat) : (new config source).Coherent := by
  apply (dropped_new config source).coherent (Graph.forest_empty source)
  intro d x
  constructor
  · intro h
    cases h
  · intro h
    cases h

section Invalidation

variable (s) (held : List Handle)

lemma advise_eq (enabled : Bool) (a : Advisory) : ∃ issues, s.advise enabled a = { s with issues } := by
  cases enabled
  · exact ⟨s.issues, rfl⟩
  · exact ⟨s.issues.add a, rfl⟩

lemma invalidate_eq : ∃ issues, (s.invalidate held).2 = { s.dropViews with issues } := advise_eq s.dropViews _ _

lemma beforePasses_eq : ∃ issues, s.beforePasses held = { s.dropViews with issues } := by
  obtain ⟨issues, ha⟩ := advise_eq s (0 < s.pending && s.config.diagnostics.warnPartialGeneration)
    (.partialGeneration s.pending)
  obtain ⟨issues', hi⟩ := invalidate_eq { s with issues } held
  exact ⟨issues', by rw [beforePasses, ha, hi]; rfl⟩

variable {s held}

lemma runPasses_passed {σ : Type} (hp : s.passed = true) (passes : List (Pass σ)) (held : List Handle) (st : σ) :
    (s.runPasses passes held st).2.2 = s := by
  rw [Design.runPasses, hp]
  rfl

lemma runPasses_dropped {σ : Type} (hp : s.passed = false) (passes : List (Pass σ)) (held : List Handle) (st : σ) :
    ∃ (issues : IssueSet Advisory) (passed : Bool), (s.runPasses passes held st).2.2 =
      { s.dropViews with graph := (Pass.runAll passes st s.graph.nextEpoch).2.2, issues, passed } := by
  obtain ⟨issues, hb⟩ := beforePasses_eq s held
  rw [Design.runPasses, hp, if_neg (by simp), hb]
  generalize hrun : Pass.runAll passes st s.graph.nextEpoch = found
  have hrun' : Pass.runAll passes st ({ s.dropViews with issues } : Design).graph = found := hrun
  obtain ⟨r, st', g⟩ := found
  simp only [hrun']
  cases r with
  | ok _ => exact ⟨issues, true, rfl⟩
  | error e => exact ⟨issues, s.passed, rfl⟩

lemma runPasses_eq {σ : Type} (hg : s.graph.Forest) (passes : List (Pass σ)) (held : List Handle) (st : σ) :
    (s.runPasses passes held st).2.2 = s ∨ ∃ (g : Graph) (issues : IssueSet Advisory) (passed : Bool), g.Forest ∧
      (s.runPasses passes held st).2.2 = { s.dropViews with graph := g, issues, passed } := by
  cases hp : s.passed with
  | true => exact .inl (runPasses_passed hp passes held st)
  | false =>
    obtain ⟨issues, passed, hdropped⟩ := runPasses_dropped hp passes held st
    exact .inr ⟨_, issues, passed, (Pass.edits passes st hg.nextEpoch).forest hg.nextEpoch, hdropped⟩

lemma Coherent.dropped (hs : s.Coherent) {g : Graph} (hg : g.Forest) (issues : IssueSet Advisory) (passed : Bool) :
    ({ s.dropViews with graph := g, issues, passed } : Design).Coherent :=
  Dropped.coherent ⟨rfl, rfl, rfl, rfl, rfl, rfl, rfl⟩ hg hs.paired

lemma Coherent.invalidate (hs : s.Coherent) (held : List Handle) :
    (s.invalidate held).2.Coherent ∧ (s.invalidate held).2.tree.generation = s.tree.generation + 1 := by
  obtain ⟨issues, hi⟩ := invalidate_eq s held
  rw [hi]
  exact ⟨hs.dropped hs.forest.nextEpoch issues s.passed, rfl⟩

lemma Coherent.runPasses {σ : Type} (hs : s.Coherent) (passes : List (Pass σ)) (held : List Handle) (st : σ) :
    (s.runPasses passes held st).2.2.Coherent ∧
      ((s.runPasses passes held st).2.2 = s ∨
        (s.runPasses passes held st).2.2.tree.generation = s.tree.generation + 1) := by
  rcases runPasses_eq hs.forest passes held st with hsame | ⟨g, issues, passed, hg, hdropped⟩
  · rw [hsame]
    exact ⟨hs, .inl rfl⟩
  · rw [hdropped]
    exact ⟨hs.dropped hg issues passed, .inr rfl⟩

end Invalidation

lemma Step.coherent (h : s.Step t) (hs : s.Coherent) :
    t.Coherent ∧ (Changes True s t ∨ s.tree.generation < t.tree.generation) := by
  cases h with
  | operation o =>
    cases o with
    | call c =>
      have hc : Changes True s (s.after c) := (changes_after hs c).mono fun _ => trivial
      exact ⟨(hc.coherent hs).1, .inl hc⟩
    | invalidate held =>
      obtain ⟨ht, hgen⟩ := hs.invalidate held
      exact ⟨ht, .inr (by rw [perform, hgen]; exact Nat.lt_succ_self _)⟩
  | passes passes held st =>
    obtain ⟨ht, hgen⟩ := hs.runPasses passes held st
    refine ⟨ht, ?_⟩
    rcases hgen with hsame | hgen
    · rw [hsame]
      exact .inl .refl
    · rw [hgen]
      exact .inr (Nat.lt_succ_self _)

lemma run_invariant {P : Design → Prop} (hs : s.Coherent) (h : P s)
    (change : ∀ {u v}, u.Coherent → Change True u v → P u → P v)
    (invalidate : ∀ {u}, P u → ∀ held, P (u.invalidate held).2) (ops : List Operation) : P (s.run ops) := by
  induction ops generalizing s with
  | nil => exact h
  | cons o ops ih =>
    apply ih ((Step.operation o).coherent hs).1
    cases o with
    | call c => exact ((changes_after hs c).mono fun _ => trivial).invariant hs h change
    | invalidate held => exact invalidate h held

lemma Changes.generation (hc : Changes True s t) (hs : s.Coherent) : t.tree.generation = s.tree.generation :=
  (hc.coherent hs).2.tree.generation

lemma Reaches.coherent (h : s.Reaches t) (hs : s.Coherent) :
    t.Coherent ∧ (Changes True s t ∨ s.tree.generation < t.tree.generation) := by
  induction h with
  | refl => exact ⟨hs, .inl .refl⟩
  | tail _ hstep ih =>
    obtain ⟨hm, hrun⟩ := ih
    obtain ⟨ht, hlast⟩ := hstep.coherent hm
    refine ⟨ht, ?_⟩
    rcases hrun with hrun | hrun <;> rcases hlast with hlast | hlast
    · exact .inl (hrun.trans hlast)
    · exact .inr (hrun.generation hs ▸ hlast)
    · exact .inr (hlast.generation hm ▸ hrun)
    · exact .inr (Nat.lt_trans hrun hlast)

lemma Reachable.coherent (h : s.Reachable) : s.Coherent := by
  obtain ⟨config, source, hr⟩ := h
  exact (hr.coherent (coherent_new config source)).1

lemma Reachable.trans (h : s.Reachable) (hr : s.Reaches t) : t.Reachable := by
  obtain ⟨config, source, h⟩ := h
  exact ⟨config, source, Relation.ReflTransGen.trans h hr⟩

lemma reachable_run (config : Config) (source : Nat) (ops : List Operation) : ((new config source).run ops).Reachable :=
  ⟨config, source, reaches_run _ ops⟩

/-- A module that gets its register after its root has been asked for its children. -/
def lateRegister : Design :=
  (new {} 0).run [
    .call (.define "M" (.generated fun _ _ => .request (.register "r" (.int 8)) fun _ => .done)),
    .call (.addTop ⟨0⟩), .call (.root ⟨0⟩), .call (.children ⟨0, 0⟩), .call (.generate none)]

lemma reachable_lateRegister : lateRegister.Reachable := reachable_run _ _ _

lemma Reaches.extends_of_generation (h : s.Reaches t) (hs : s.Coherent) (hgen : t.tree.generation = s.tree.generation) :
    s.Extends t := by
  rcases (Reaches.coherent h hs).2 with hc | hlt
  · exact (hc.coherent hs).2
  · exact absurd hgen (Nat.ne_of_gt hlt)

end Design

end HardwareDesign
