import HardwareDesign.Proofs.Resting
import HardwareDesign.Proofs.Runs
import HardwareDesign.Proofs.Targeting

/-!
The queue of the modules that wait for their generators. A module gets into it when it is built, which happens once,
so that it is taken from it once, and a loop that takes from it until it is empty ends.
-/

namespace HardwareDesign

def Event.running : Event → Option DefId
  | started d _ => some d
  | _ => none

namespace Design

def takenUpTo : Nat → Design → List DefId
  | 0, _ => []
  | n + 1, s =>
    match s.queue with
    | [] => []
    | d :: queue =>
      d :: match (runGenerator d { s with queue }).2 with
        | .ok _ s => takenUpTo n s
        | .error _ _ => []

def taken (s : Design) : Call → List DefId
  | .generate limit => takenUpTo (limit.getD s.definitions.length) s
  | _ => []

def emitted (s : Design) : Call → List Event
  | .generate limit => (generate limit s).1
  | _ => []

inductive Takes (s : Design) : List DefId → List Event → Design → Prop
  | refl : Takes s [] [] s
  | call {ds events t} (c : Call) : Takes s ds events t →
      Takes s (ds ++ t.taken c) (events ++ t.emitted c) (t.after c)
  | invalidate {ds events t} (held : List Handle) : Takes s ds events t → Takes s ds events (t.invalidate held).2
  | passes {ds events t} {σ : Type} (passes : List (Pass σ)) (held : List Handle) (st : σ) : Takes s ds events t →
      Takes s ds events (t.runPasses passes held st).2.2

/-- Running generators until the queue is empty or one fails, with what is taken and what is emitted. -/
inductive Drains : Design → List DefId → List Event → EStateM.Result Error Design Unit → Prop
  | done {s} : s.queue = [] → Drains s [] [] (.ok () s)
  | fails {s d queue events e t} : s.queue = d :: queue → runGenerator d { s with queue } = (events, .error e t) →
      Drains s [d] events (.error e t)
  | next {s d queue events t ds more r} : s.queue = d :: queue →
      runGenerator d { s with queue } = (events, .ok () t) → Drains t ds more r →
      Drains s (d :: ds) (events ++ more) r

def BuiltModule (s : Design) (d : DefId) : Prop := (∃ x, s.resolveSymbol d = some x) ∧ s.isExternal d = .ok false

/-- The built modules are those in the queue and those that have been taken from it, and none is among them twice. -/
structure Conserved (s : Design) (taken : List DefId) : Prop where
  nodup : (s.queue ++ taken).Nodup
  built : ∀ d, d ∈ s.queue ++ taken ↔ s.BuiltModule d
  defined : ∀ d x, s.resolveSymbol d = some x → d.index < s.definitions.length

variable {s t : Design} {d e : DefId} {m : Handle} {x : String} {taken ds : List DefId} {events : List Event}

section Runs

lemma Takes.reaches (h : s.Takes taken events t) : s.Reaches t := by
  induction h with
  | refl => exact .refl
  | call c _ ih => exact ih.tail (.operation (.call c))
  | invalidate held _ ih => exact ih.tail (.operation (.invalidate held))
  | passes passes held st _ ih => exact ih.tail (.passes passes held st)

lemma Reaches.takes (h : s.Reaches t) : ∃ taken events, s.Takes taken events t := by
  induction h with
  | refl => exact ⟨[], [], .refl⟩
  | tail _ hlast ih =>
    obtain ⟨taken, events, hrun⟩ := ih
    cases hlast with
    | operation o =>
      cases o with
      | call c => exact ⟨_, _, hrun.call c⟩
      | invalidate held => exact ⟨_, _, hrun.invalidate held⟩
    | passes passes held st => exact ⟨_, _, hrun.passes passes held st⟩

end Runs

section Events

lemma running_run (d : DefId) (m : Handle) (program : Program) (draft : Draft) :
    (Draft.run d m program draft).1.filterMap Event.running = [] := by
  induction program generalizing draft with
  | done => rfl
  | fail e => rfl
  | remark data next ih =>
    rw [Draft.run]
    exact ih draft
  | request r next ih =>
    rw [Draft.run]
    cases Draft.answer d m r draft with
    | ok name draft' => exact ih (.ok name) draft'
    | error e draft' => exact ih (.error e) draft'

lemma running_runGenerator (d : DefId) (s : Design) :
    ((runGenerator d s).1.filterMap Event.running).Sublist [d] := by
  rw [runGenerator]
  cases prepare d s with
  | error e t => exact List.nil_sublist _
  | ok found t =>
    cases found with
    | none => exact List.nil_sublist _
    | some found =>
      obtain ⟨g, symbol, m, names⟩ := found
      simp [Event.running, running_run]

lemma running_generateUpTo (n : Nat) (s : Design) :
    ((generateUpTo n s).1.filterMap Event.running).Sublist (takenUpTo n s) := by
  induction n generalizing s with
  | zero => exact List.nil_sublist _
  | succ n ih =>
    rw [generateUpTo, takenUpTo]
    cases hq : s.queue with
    | nil => exact List.nil_sublist _
    | cons d queue =>
      have hrun := running_runGenerator d { s with queue }
      simp only
      generalize runGenerator d { s with queue } = result at hrun ⊢
      obtain ⟨events, r⟩ := result
      cases r with
      | error e t => exact hrun
      | ok u t =>
        rw [List.filterMap_append]
        exact hrun.append (ih t)

lemma emitted_generate (limit : Option Nat) (s : Design) :
    (generate limit s).1 = (generateUpTo (limit.getD s.definitions.length) s).1 := by
  rw [generate]
  generalize generateUpTo (limit.getD s.definitions.length) s = result
  obtain ⟨events, r⟩ := result
  cases r <;> rfl

lemma running_emitted (s : Design) (c : Call) : ((s.emitted c).filterMap Event.running).Sublist (s.taken c) := by
  cases c with
  | generate limit =>
    rw [emitted, emitted_generate]
    exact running_generateUpTo _ s
  | _ => exact List.nil_sublist _

end Events

section Conservation

lemma index_lt_of_definition {definition : Definition} (h : s.definition d = .ok definition) :
    d.index < s.definitions.length := by
  rw [Design.definition] at h
  cases hd : s.definitions[d.index]? with
  | some found => exact (List.getElem?_eq_some_iff.mp hd).1
  | none =>
    rw [hd] at h
    cases h

lemma conserved_new (config : Config) (source : Nat) : (new config source).Conserved [] where
  nodup := List.nodup_nil
  built d := by
    constructor
    · intro h
      cases h
    · rintro ⟨⟨x, hx⟩, _⟩
      cases hx
  defined d x hx := by cases hx

namespace Conserved

lemma congr (h : s.Conserved taken) (hr : Rests s t) : t.Conserved taken := by
  obtain ⟨hdefinitions, hqueue, hregistry⟩ := hr
  have hsymbol : ∀ d, t.resolveSymbol d = s.resolveSymbol d := fun d => by rw [resolveSymbol, hregistry]; rfl
  have hexternal : ∀ d, t.isExternal d = s.isExternal d := fun d => by simp only [isExternal, definition, hdefinitions]
  refine ⟨hqueue ▸ h.nodup, fun d => ?_, fun d x hx => ?_⟩
  · rw [hqueue, h.built, BuiltModule, BuiltModule, hexternal, hsymbol]
  · exact hdefinitions ▸ h.defined d x (hsymbol d ▸ hx)

lemma define (h : s.Conserved taken) (name : String) (body : DefinitionBody) :
    (s.define name body).2.Conserved taken := by
  have hexternal : ∀ d, d.index < s.definitions.length → (s.define name body).2.isExternal d = s.isExternal d := by
    intro d hd
    simp only [isExternal, definition, Design.define, List.getElem?_append_left hd]
  refine ⟨h.nodup, fun d => (h.built d).trans ?_, fun d x hx => ?_⟩
  · refine and_congr_right fun hbuilt => ?_
    obtain ⟨x, hx⟩ := hbuilt
    rw [hexternal d (h.defined d x hx)]
  · rw [Design.define, List.length_append]
    exact Nat.lt_add_right _ (h.defined d x hx)

lemma dequeue {queue : List DefId} (h : s.Conserved taken) (hq : s.queue = d :: queue) :
    Conserved { s with queue } (taken ++ [d]) := by
  obtain ⟨hnodup, hbuilt, hdefined⟩ := h
  have hperm : (queue ++ (taken ++ [d])).Perm (s.queue ++ taken) := by
    rw [hq, ← List.append_assoc]
    exact List.perm_append_singleton d _
  exact ⟨hperm.nodup_iff.mpr hnodup, fun e => hperm.mem_iff.trans (hbuilt e), hdefined⟩

lemma build {definition : Definition} (h : s.Conserved taken) (hd : s.definition e = .ok definition)
    (hx : s.resolveSymbol e = none) : (s.built e x definition.body.isExternal).Conserved taken := by
  have hsymbol : ∀ d, (s.built e x definition.body.isExternal).resolveSymbol d =
      if e = d then some x else s.resolveSymbol d := fun d => by
    rw [resolveSymbol, built_registry]
    exact Table.find?_insert _ _ _ _
  have hdefinitions : (s.built e x definition.body.isExternal).definitions = s.definitions := by
    cases definition.body <;> rfl
  have hexternal : ∀ d, (s.built e x definition.body.isExternal).isExternal d = s.isExternal d := fun d => by
    simp only [isExternal, Design.definition, hdefinitions]
  have hnot : e ∉ s.queue ++ taken := by
    intro hm
    obtain ⟨⟨y, hy⟩, _⟩ := (h.built e).mp hm
    cases hx.symm.trans hy
  refine ⟨?_, fun d => ?_, fun d y hy => ?_⟩
  · rw [queue_built]
    cases definition.body.isExternal with
    | true => exact h.nodup
    | false => exact List.nodup_cons.mpr ⟨hnot, h.nodup⟩
  · rw [queue_built, BuiltModule, hsymbol, hexternal]
    by_cases hde : e = d
    · subst hde
      rw [isExternal_eq hd]
      cases definition.body.isExternal <;> simp [hnot]
    · have hother := h.built d
      cases definition.body.isExternal <;> simp_all [BuiltModule, Ne.symm hde]
  · rw [hdefinitions]
    by_cases hde : e = d
    · exact hde ▸ index_lt_of_definition hd
    · rw [hsymbol, if_neg hde] at hy
      exact h.defined d y hy

lemma buildDefinition (h : s.Conserved taken) (d : DefId) : (endState (buildDefinition d s)).Conserved taken := by
  cases hx : s.resolveSymbol d with
  | some x =>
    rw [buildDefinition_built hx]
    exact h
  | none =>
    cases hd : s.definition d with
    | error e =>
      rw [buildDefinition_unknown hx hd]
      exact h
    | ok definition =>
      rw [buildDefinition_new hx hd]
      exact h.build hd hx

lemma addTop (h : s.Conserved taken) (d : DefId) : (endState (addTop d s)).Conserved taken := by
  have hbuild := h.buildDefinition d
  rw [Design.addTop]
  cases hr : Design.buildDefinition d s with
  | error e t =>
    rw [hr] at hbuild
    rw [bind_of_error hr]
    exact hbuild
  | ok x t =>
    rw [hr] at hbuild
    rw [bind_of_ok hr, modify_bind]
    refine congr (s := t) hbuild ?_
    cases t.tops.contains d <;> exact ⟨rfl, rfl, rfl⟩

lemma scanned (h : s.Conserved taken) (hscan : s.Scanned t) : t.Conserved taken :=
  h.congr ⟨congrArg (fun u => u.definitions) hscan.core, congrArg (fun u => u.queue) hscan.core, hscan.registry⟩

lemma fills (h : s.Conserved taken) (hf : Fills d m s t) : t.Conserved taken ∧ t.definitions = s.definitions := by
  induction hf with
  | refl => exact ⟨h, rfl⟩
  | tail _ hlast ih =>
    obtain ⟨hu, hdefinitions⟩ := ih
    cases hlast with
    | @build e x definition hd hx _ =>
      refine ⟨hu.build hd hx, ?_⟩
      rw [← hdefinitions]
      cases definition.body <;> rfl
    | site => exact ⟨hu.congr ⟨rfl, rfl, rfl⟩, hdefinitions⟩
    | unnamed => exact ⟨hu.congr ⟨rfl, rfl, rfl⟩, hdefinitions⟩

lemma runGenerator (h : s.Conserved taken) (hs : s.Coherent) (d : DefId) :
    (endState (runGenerator d s).2).Conserved taken ∧
      (endState (runGenerator d s).2).definitions = s.definitions := by
  obtain ⟨u, hscan, hend⟩ := fills_runGenerator hs d
  have hu := h.scanned hscan
  have hdefinitions : u.definitions = s.definitions := congrArg (fun v => v.definitions) hscan.core
  rcases hend with hend | ⟨m, hfills⟩
  · rw [hend]
    exact ⟨hu, hdefinitions⟩
  · obtain ⟨ht, hsame⟩ := hu.fills hfills
    exact ⟨ht, hsame.trans hdefinitions⟩

lemma generateUpTo (h : s.Conserved taken) (hs : s.Coherent) (n : Nat) :
    (endState (generateUpTo n s).2).Conserved (taken ++ takenUpTo n s) := by
  induction n generalizing s taken with
  | zero =>
    rw [takenUpTo, List.append_nil]
    exact h
  | succ n ih =>
    rw [Design.generateUpTo, takenUpTo]
    cases hq : s.queue with
    | nil =>
      simp only [List.append_nil]
      exact h
    | cons d queue =>
      have hdequeue : Change False s { s with queue } := .dequeue hq
      have hc := (hdequeue.coherent hs).1
      have hgen := changes_runGenerator hc d
      have hrun := ((h.dequeue hq).runGenerator hc d).1
      simp only
      generalize Design.runGenerator d { s with queue } = result at hrun hgen ⊢
      obtain ⟨events, r⟩ := result
      cases r with
      | error e t => exact hrun
      | ok u t =>
        have hrest := ih hrun (Changes.coherent hgen hc).1
        exact List.append_cons taken d _ ▸ hrest

lemma generate (h : s.Conserved taken) (hs : s.Coherent) (limit : Option Nat) :
    (endState (generate limit s).2).Conserved (taken ++ takenUpTo (limit.getD s.definitions.length) s) := by
  have hrun := h.generateUpTo hs (limit.getD s.definitions.length)
  rw [Design.generate]
  generalize Design.generateUpTo (limit.getD s.definitions.length) s = result at hrun ⊢
  obtain ⟨events, r⟩ := result
  cases r <;> exact hrun

lemma after (h : s.Conserved taken) (hs : s.Coherent) (c : Call) : (s.after c).Conserved (taken ++ s.taken c) := by
  cases c with
  | generate limit => exact h.generate hs limit
  | define name body => exact (List.append_nil taken).symm ▸ h.define name body
  | addTop d => exact (List.append_nil taken).symm ▸ h.addTop d
  | _ => exact (List.append_nil taken).symm ▸ h.congr (rests_after s id)

end Conserved

lemma Takes.conserved (h : s.Takes ds events t) (hs : s.Coherent) (hc : s.Conserved []) :
    t.Conserved ds ∧ (events.filterMap Event.running).Sublist ds := by
  induction h with
  | refl => exact ⟨hc, .refl _⟩
  | call c hrun ih =>
    obtain ⟨hu, hevents⟩ := ih
    refine ⟨hu.after (hrun.reaches.coherent hs).1 c, ?_⟩
    rw [List.filterMap_append]
    exact hevents.append (running_emitted _ c)
  | invalidate held _ ih =>
    obtain ⟨issues, hi⟩ := invalidate_eq _ held
    exact ⟨hi ▸ ih.1.congr ⟨rfl, rfl, rfl⟩, ih.2⟩
  | @passes _ _ u _ passes held st _ ih =>
    refine ⟨?_, ih.2⟩
    cases hp : u.passed with
    | true =>
      rw [runPasses_passed hp]
      exact ih.1
    | false =>
      obtain ⟨issues, passed, hdropped⟩ := runPasses_dropped hp passes held st
      rw [hdropped]
      exact ih.1.congr ⟨rfl, rfl, rfl⟩

end Conservation

section Draining

lemma Drains.queue {r : EStateM.Result Error Design Unit} (h : s.Drains ds events r) {u : Unit} (hr : r = .ok u t) :
    t.queue = [] := by
  induction h with
  | done hq =>
    cases hr
    exact hq
  | fails => cases hr
  | next _ _ _ ih => exact ih hr

lemma Conserved.length_le (h : s.Conserved taken) : s.queue.length + taken.length ≤ s.definitions.length := by
  have hsub : s.queue ++ taken ⊆ (List.range s.definitions.length).map DefId.mk := by
    intro d hd
    obtain ⟨⟨x, hx⟩, _⟩ := (h.built d).mp hd
    exact List.mem_map.mpr ⟨d.index, List.mem_range.mpr (h.defined d x hx), rfl⟩
  simpa using (h.nodup.subperm hsub).length_le

lemma length_takenUpTo (n : Nat) (s : Design) : (takenUpTo n s).length ≤ n := by
  induction n generalizing s with
  | zero => exact Nat.le_refl _
  | succ n ih =>
    rw [takenUpTo]
    cases s.queue with
    | nil => exact Nat.zero_le _
    | cons d queue =>
      simp only [List.length_cons, Nat.add_le_add_iff_right]
      cases (Design.runGenerator d { s with queue }).2 with
      | ok u t => exact ih t
      | error e t => exact Nat.zero_le _

lemma Conserved.drains {n : Nat} (h : s.Conserved taken) (hs : s.Coherent)
    (hn : s.definitions.length ≤ taken.length + n) :
    s.Drains (takenUpTo n s) (Design.generateUpTo n s).1 (Design.generateUpTo n s).2 := by
  induction n generalizing s taken with
  | zero =>
    have hle := h.length_le
    exact .done (List.eq_nil_of_length_eq_zero (by omega))
  | succ n ih =>
    rw [Design.generateUpTo, takenUpTo]
    cases hq : s.queue with
    | nil => exact .done hq
    | cons d queue =>
      have hdequeue : Change False s { s with queue } := .dequeue hq
      have hc := (hdequeue.coherent hs).1
      have hgen := changes_runGenerator hc d
      obtain ⟨hrun, hdefinitions⟩ := (h.dequeue hq).runGenerator hc d
      simp only
      generalize hr : Design.runGenerator d { s with queue } = result at hrun hgen hdefinitions ⊢
      obtain ⟨events, r⟩ := result
      cases r with
      | error e t => exact .fails hq hr
      | ok u t =>
        refine .next hq hr (ih hrun (Changes.coherent hgen hc).1 ?_)
        have hsame : t.definitions = s.definitions := hdefinitions
        rw [hsame, List.length_append, List.length_singleton]
        omega

end Draining

/-- In each run, the built modules are those that wait in the queue and those that have been taken from it, none is
taken twice, and no generator is run twice. Without a limit, the queue is drained in no more steps than there are
definitions, unless a generator fails. -/
theorem generation_drains {config : Config} {source : Nat} (h : (new config source).Takes taken events s) :
    s.Conserved taken ∧ (events.filterMap Event.running).Nodup ∧ (events.filterMap Event.running).Sublist taken ∧
      ∃ ds r, s.Drains ds (generate none s).1 r ∧ ds.length ≤ s.definitions.length ∧
        ((∃ t, r = .ok () t ∧ t.queue = [] ∧ (generate none s).2 = .ok 0 t) ∨
          ∃ e t, r = .error e t ∧ (generate none s).2 = .error e t) := by
  obtain ⟨hc, hevents⟩ := h.conserved (coherent_new config source) (conserved_new config source)
  have htaken : taken.Nodup := (List.nodup_append.mp hc.nodup).2.1
  have hdrains := hc.drains (h.reaches.coherent (coherent_new config source)).1
    (Nat.le_add_left s.definitions.length taken.length)
  refine ⟨hc, hevents.nodup htaken, hevents, takenUpTo s.definitions.length s,
    (generateUpTo s.definitions.length s).2, emitted_generate none s ▸ hdrains, length_takenUpTo _ s, ?_⟩
  rw [generate, Option.getD_none]
  generalize generateUpTo s.definitions.length s = result at hdrains ⊢
  obtain ⟨more, r⟩ := result
  cases r with
  | ok u t =>
    have hqueue := hdrains.queue rfl
    have hpending : t.pending = 0 := congrArg List.length hqueue
    exact .inl ⟨t, rfl, hqueue, congrArg (EStateM.Result.ok · t) hpending⟩
  | error e t => exact .inr ⟨e, t, rfl, rfl⟩

def ringFirst : Generator := fun d _ =>
  .request (.instantiate "b" ⟨1⟩) fun _ => .request (.instantiate "self" d) fun _ => .done

def ringSecond : Generator := fun _ _ => .request (.instantiate "a" ⟨0⟩) fun _ => .fail (.custom "late")

def ring : Design :=
  (new {} 0).run [.call (.define "A" (.generated ringFirst)), .call (.define "B" (.generated ringSecond)),
    .call (.addTop ⟨0⟩)]

def ringStarted : Design := ring.after (.generate (some 1))

lemma takes_ring : (new {} 0).Takes [] [] ring :=
  ((Takes.refl.call (.define "A" (.generated ringFirst))).call (.define "B" (.generated ringSecond))).call (.addTop ⟨0⟩)

theorem generation_drains_ring : (new {} 0).Takes [⟨0⟩] (ring.emitted (.generate (some 1))) ringStarted ∧
    ringStarted.queue = [⟨1⟩] ∧ ringStarted.Conserved [⟨0⟩] ∧
      ∃ ds t, ringStarted.Drains ds (generate none ringStarted).1 (.error (.custom "late") t) ∧ ds.length ≤ 2 := by
  have htakes : (new {} 0).Takes [⟨0⟩] (ring.emitted (.generate (some 1))) ringStarted :=
    takes_ring.call (.generate (some 1))
  obtain ⟨hconserved, _, _, ds, r, hdrains, hle, hend⟩ := generation_drains htakes
  refine ⟨htakes, rfl, hconserved, ds, ?_⟩
  have hfails : ∃ t, (generate none ringStarted).2 = .error (.custom "late") t := ⟨_, rfl⟩
  obtain ⟨t, ht⟩ := hfails
  obtain ⟨u, rfl, _, hu⟩ | ⟨e, u, rfl, hu⟩ := hend
  · cases ht.symm.trans hu
  · cases ht.symm.trans hu
    exact ⟨_, hdrains, hle⟩

end Design

end HardwareDesign
