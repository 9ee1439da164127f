import HardwareDesign.Proofs.Exactness
import HardwareDesign.Proofs.Finding

/-!
Views that are filled are exact, and the handles in them are good. So a call that is given no handle does not fail for
want of a record, unless a generator makes up such an error.
-/

namespace HardwareDesign

namespace Design

variable {s : Design}

section Building

lemma finds_buildDefinition (s : Design) (d : DefId) : Finds Error.Lost (buildDefinition d s) := by
  cases hx : s.resolveSymbol d with
  | some x =>
    rw [buildDefinition_built hx]
    exact .ok
  | none =>
    have hanswers := answers_definition s d
    cases hd : s.definition d with
    | error e =>
      rw [hd] at hanswers
      rw [buildDefinition_unknown hx hd]
      cases hanswers with
      | error he => exact .error he
    | ok definition =>
      rw [buildDefinition_new hx hd]
      exact .ok

lemma finds_addTop (s : Design) (d : DefId) : Finds Error.Lost (addTop d s) :=
  (finds_buildDefinition s d).bind fun _ => .ok

end Building

end Design

inductive Program.MakesUp (e : Error) : Program → Prop
  | fail : MakesUp e (.fail e)
  | remark {data next} : MakesUp e next → MakesUp e (.remark data next)
  | request {r next a} : Answers a → MakesUp e (next a) → MakesUp e (.request r next)

namespace Draft

open Design

variable {d : DefId} {m : Handle} {draft : Draft}

lemma finds_answer (hr : draft.Ready d m) (r : Request) : Finds Error.Lost (answer d m r draft) := by
  rcases hr.answer_cases r with ⟨_, _, ha, _⟩ | ⟨target, e, t, hb, ha, _⟩
  · rw [ha]
    exact .ok
  · have hfinds := finds_buildDefinition draft.design target
    rw [hb] at hfinds
    rw [ha]
    cases hfinds with
    | error he => exact .error he

lemma finds_run (hr : draft.Ready d m) (program : Program) :
    (∀ a, .answered a ∈ (run d m program draft).1 → Answers a) ∧
      ∀ e end', (run d m program draft).2 = .error e end' → e.Lost → program.MakesUp e := by
  induction program generalizing draft with
  | done =>
    constructor
    · intro a h
      cases h
    · intro e end' h
      cases h
  | fail e =>
    constructor
    · intro a h
      cases h
    · rintro _ _ ⟨⟩ _
      exact .fail
  | remark data next ih =>
    obtain ⟨hevents, hmade⟩ := ih hr
    refine ⟨fun a h => ?_, fun e end' h hlost => .remark (hmade e end' h hlost)⟩
    rcases List.mem_cons.mp h with h | h
    · cases h
    · exact hevents a h
  | request r next ih =>
    have hfinds := finds_answer hr r
    have hstep := hr.answer r
    rw [run]
    cases ha : answer d m r draft with
    | ok name draft' =>
      rw [ha] at hstep
      obtain ⟨hevents, hmade⟩ := ih (.ok name) hstep.ready
      refine ⟨fun a h => ?_, fun e end' h hlost => .request .ok (hmade e end' h hlost)⟩
      rcases List.mem_cons.mp h with h | h
      · cases h
        exact .ok
      · exact hevents a h
    | error e draft' =>
      rw [ha] at hstep hfinds
      cases hfinds with
      | error he =>
        obtain ⟨hevents, hmade⟩ := ih (.error e) hstep.ready
        refine ⟨fun a h => ?_, fun e' end' h hlost => .request (.error he) (hmade e' end' h hlost)⟩
        rcases List.mem_cons.mp h with h | h
        · cases h
          exact .error he
        · exact hevents a h

end Draft

namespace Design

variable {s t : Design} {d : DefId}

def MadeUp (s : Design) (e : Error) : Prop :=
  ∃ d name g x, s.definition d = .ok ⟨name, .generated g⟩ ∧ (g d x).MakesUp e

structure Generates (s : Design) {α : Type} (found : List Event × EStateM.Result Error Design α) : Prop where
  definitions : ∀ {a t}, found.2 = .ok a t → t.definitions = s.definitions
  answers : ∀ {a}, .answered a ∈ found.1 → Answers a
  errors : ∀ {e t}, found.2 = .error e t → e.Lost → s.MadeUp e

lemma definition_congr (h : t.definitions = s.definitions) (d : DefId) : t.definition d = s.definition d := by
  simp only [definition, h]

lemma MadeUp.of_definitions (h : t.definitions = s.definitions) {e : Error} (ht : t.MadeUp e) : s.MadeUp e := by
  obtain ⟨d, name, g, x, hd, hg⟩ := ht
  exact ⟨d, name, g, x, definition_congr h d ▸ hd, hg⟩

lemma Generates.nothing {α : Type} {a : α} (h : t.definitions = s.definitions) : s.Generates ([], .ok a t) where
  definitions := by
    rintro _ _ ⟨⟩
    exact h
  answers hm := by cases hm
  errors hr := by cases hr

lemma finds_namedChildren {h : Handle} {r : Record} (hg : s.graph.Forest) (he : h.epoch = s.graph.epoch)
    (hr : s.graph.Holds h.record r) : Finds Error.Lost (Action.readGraph (·.namedChildren h) s) := by
  cases hb : r.payload.hasBody with
  | true =>
    rw [Action.readGraph_ok (Graph.namedChildren_eq hg he hr hb)]
    exact .ok
  | false =>
    have hnone : s.graph.namedChildren h = .error (.noBody h.record r.payload.kind) := by
      simp [Graph.namedChildren, Graph.bodyIds_of_holds he hr, hb, bind, Except.bind]
    rw [Action.readGraph, hnone]
    refine .error ?_
    rintro ⟨id, hid | hid⟩ <;> cases hid

lemma finds_prepare (hs : s.Coherent) (d : DefId) : Finds Error.Lost (prepare d s) := by
  refine finds_read (answers_definition s d) fun {definition} _ => ?_
  cases definition.body with
  | external => exact .ok
  | generated g =>
    refine finds_read (answers_builtSymbol s d) fun {x} hx => ?_
    refine (congrArg (Finds Error.Lost)
      (bind_of_ok (moduleRecord_built hs.views (resolveSymbol_of_builtSymbol hx)))).mpr ?_
    cases hm : s.moduleOf d with
    | none => exact .error (Error.not_lost (by simp))
    | some m =>
      obtain ⟨he, r, _, hr, _⟩ := holds_of_moduleOf hm
      exact (finds_namedChildren (s := s.scanSymbols) hs.forest he hr).bind fun _ => .ok

lemma generates_runGenerator (hs : s.Coherent) (d : DefId) : s.Generates (runGenerator d s) := by
  have hkeeps := keeps_prepare hs d
  have hfinds := finds_prepare hs d
  rw [runGenerator]
  cases hp : prepare d s with
  | error e t =>
    rw [hp] at hfinds
    cases hfinds with
    | error he =>
      refine ⟨(fun h => by cases h), (fun h => by cases h), ?_⟩
      rintro _ _ ⟨⟩ hlost
      exact (he hlost).elim
  | ok r t =>
    obtain ⟨hdefinitions, hready⟩ := hkeeps.post hp
    cases r with
    | none => exact .nothing hdefinitions
    | some found =>
      obtain ⟨g, symbol, m, names⟩ := found
      obtain ⟨hr, name, hd⟩ := hready rfl
      have hstep := hr.run (g d symbol)
      obtain ⟨hevents, hmade⟩ := Draft.finds_run hr (g d symbol)
      simp only
      generalize Draft.run d m (g d symbol) ⟨t, names⟩ = result at hstep hevents hmade ⊢
      obtain ⟨events, r⟩ := result
      refine ⟨?_, ?_, ?_⟩
      · intro a u hu
        cases r with
        | ok _ draft =>
          cases hu
          exact hstep.definitions.trans hdefinitions
        | error _ _ => cases hu
      · intro a ha
        rcases List.mem_cons.mp ha with ha | ha
        · cases ha
        · exact hevents a ha
      · intro e u hu hlost
        cases r with
        | ok _ _ => cases hu
        | error _ draft =>
          cases hu
          exact ⟨d, name, g, symbol, hd, hmade _ _ rfl hlost⟩

lemma generates_generateUpTo (hs : s.Coherent) (n : Nat) : s.Generates (generateUpTo n s) := by
  induction n generalizing s with
  | zero => exact .nothing rfl
  | succ n ih =>
    rw [generateUpTo]
    cases hq : s.queue with
    | nil => exact .nothing rfl
    | cons d queue =>
      have hdequeue : Change False s { s with queue } := .dequeue hq
      obtain ⟨hq', _⟩ := hdequeue.coherent hs
      have hrun := changes_runGenerator hq' d
      have hgen : s.Generates (runGenerator d { s with queue }) := by
        obtain ⟨hdefinitions, hanswers, herrors⟩ := generates_runGenerator hq' d
        exact ⟨hdefinitions, hanswers, herrors⟩
      simp only
      generalize runGenerator d { s with queue } = result at hrun hgen ⊢
      obtain ⟨events, r⟩ := result
      cases r with
      | error e t => exact ⟨(fun h => by cases h), hgen.answers, hgen.errors⟩
      | ok u t =>
        have hdefinitions : t.definitions = s.definitions := hgen.definitions rfl
        have hmore := ih (Changes.coherent hrun hq').1
        refine ⟨fun h => (hmore.definitions h).trans hdefinitions, ?_, ?_⟩
        · intro a ha
          rcases List.mem_append.mp ha with ha | ha
          · exact hgen.answers ha
          · exact hmore.answers ha
        · intro e u hu hlost
          exact (hmore.errors hu hlost).of_definitions hdefinitions

lemma generates_generate (hs : s.Coherent) (limit : Option Nat) : s.Generates (generate limit s) := by
  obtain ⟨hdefinitions, hanswers, herrors⟩ := generates_generateUpTo hs (limit.getD s.definitions.length)
  rw [generate]
  generalize generateUpTo (limit.getD s.definitions.length) s = result at hdefinitions hanswers herrors ⊢
  obtain ⟨events, r⟩ := result
  cases r with
  | ok u t =>
    refine ⟨?_, hanswers, (fun h => by cases h)⟩
    rintro _ _ ⟨⟩
    exact hdefinitions rfl
  | error e t =>
    refine ⟨(fun h => by cases h), hanswers, ?_⟩
    rintro _ _ ⟨⟩ hlost
    exact herrors rfl hlost

section Failures

variable {ε α : Type}

def failed (f : ε → Failure) : EStateM.Result ε Design α → Option Failure
  | .ok _ _ => none
  | .error e _ => some (f e)

def failure? (s : Design) : Call → Option Failure
  | .define _ _ => none
  | .addTop d => failed .error (addTop d s)
  | .generate limit => failed .error (generate limit s).2
  | .lookupSymbol symbol => failed .error (lookupSymbol symbol s)
  | .moduleRecord d => failed .error (moduleRecord d s)
  | .sites d => failed .error (sitesOf d s)
  | .root d => failed id (getInstance d s)
  | .children i => failed .error (children i s)
  | .child i name => failed .error (child i name s)
  | .hierarchy d => failed .error (hierarchyRecord d s)
  | .record i => failed .error (getOrCreateRecord i s)
  | .resolve h => failed id (resolveNode h s)
  | .placementDatabase device => failed .error (createPlacementDatabase device s)
  | .place i l subPath => failed .error (place i l subPath s)
  | .placeRegister i v => failed .error (placeRegister i v s)
  | .locations i => failed .error (locations i s)
  | .instanceAt l => failed id (instanceAt l s)
  | .addAttribute i name value subPath => failed .error (addAttribute i name value subPath s)
  | .attributes i => failed .error (attributes i s)

lemma Finds.not_failed {r : EStateM.Result Error Design α} (h : Finds Error.Lost r) {e : Error}
    (he : failed .error r = some (.error e)) : ¬ e.Lost := by
  cases h with
  | ok => cases he
  | error hnot =>
    cases he
    exact hnot

lemma Finds.not_failed_guarded {r : EStateM.Result Failure Design α} (h : Finds Failure.Lost r) {e : Error}
    (he : failed id r = some (.error e)) : ¬ e.Lost := by
  cases h with
  | ok => cases he
  | error hnot =>
    cases he
    exact hnot

lemma Coherent.not_lost (hs : s.Coherent) {c : Call} (hc : ∀ h, c ≠ .resolve h) (hg : ∀ limit, c ≠ .generate limit)
    {e : Error} (he : s.failure? c = some (.error e)) : ¬ e.Lost := by
  cases c with
  | define name body => cases he
  | addTop d => exact Finds.not_failed (finds_addTop s d) he
  | generate limit => exact (hg limit rfl).elim
  | lookupSymbol symbol => cases he
  | moduleRecord d => exact Finds.not_failed (finds_moduleRecord hs d) he
  | sites d => exact Finds.not_failed (finds_sitesOf hs d) he
  | root d => exact Finds.not_failed_guarded (finds_getInstance hs d) he
  | children i => exact Finds.not_failed (finds_children hs i) he
  | child i name => exact Finds.not_failed (finds_child hs i name) he
  | hierarchy d => exact Finds.not_failed (finds_hierarchyRecord hs d) he
  | record i => exact Finds.not_failed (finds_getOrCreateRecord hs i) he
  | resolve h => exact (hc h rfl).elim
  | placementDatabase device => exact Finds.not_failed (finds_createPlacementDatabase hs device) he
  | place i l subPath => exact Finds.not_failed (finds_place hs i l subPath) he
  | placeRegister i v => exact Finds.not_failed (finds_placeRegister hs i v) he
  | locations i => exact Finds.not_failed ((finds_payloadsOf hs i).bind fun _ => .ok) he
  | instanceAt l => exact Finds.not_failed_guarded (finds_instanceAt hs l) he
  | addAttribute i name value subPath => exact Finds.not_failed (finds_addAttribute hs i name value subPath) he
  | attributes i => exact Finds.not_failed ((finds_payloadsOf hs i).bind fun _ => .ok) he

end Failures

/-- Whatever has been done to a design and its graph before: the views that are filled are what a scan of the graph
finds now, every handle in them is of this epoch and its record exists, and a call that is given no handle never fails
for want of a record. A generator can fail so by itself only, because none of its requests is answered so. -/
theorem caches_exact (hs : s.Reachable) :
    s.Exact ∧ (∀ h ∈ s.cachedHandles, s.Live h) ∧
      (∀ c e, (∀ h, c ≠ .resolve h) → s.failure? c = some (.error e) → e.Lost →
        (∃ limit, c = .generate limit) ∧ s.MadeUp e) ∧
      ∀ limit e, .answered (.error e) ∈ (generate limit s).1 → ¬ e.Lost := by
  have hc := hs.coherent
  refine ⟨hc.views.exact hc.forest, fun h hm => hs.live hm, ?_, ?_⟩
  · intro c e hno he hlost
    by_cases hg : ∃ limit, c = .generate limit
    · refine ⟨hg, ?_⟩
      obtain ⟨limit, rfl⟩ := hg
      have hgenerates := generates_generate hc limit
      cases hr : (generate limit s).2 with
      | ok a t => simp [failure?, failed, hr] at he
      | error e' t =>
        obtain rfl : e' = e := by simpa [failure?, failed, hr] using he
        exact hgenerates.errors hr hlost
    · exact (hc.not_lost hno (fun limit h => hg ⟨limit, h⟩) he hlost).elim
  · intro limit e hm
    cases (generates_generate hc limit).answers hm with
    | error he => exact he

def lateRecord : Design := lateRegister.after (.record ⟨1, 0⟩)

theorem caches_exact_filled :
    lateRecord.cachedHandles.map (·.record) = [⟨1⟩, ⟨3⟩, ⟨2⟩, ⟨4⟩, ⟨4⟩] ∧ lateRecord.Exact ∧
      (∀ h ∈ lateRecord.cachedHandles, lateRecord.Live h) ∧
      ∀ e, lateRecord.failure? (.locations ⟨1, 0⟩) = some (.error e) → ¬ e.Lost := by
  have hs : lateRecord.Reachable := reachable_lateRegister.trans (.single (.operation (.call (.record ⟨1, 0⟩))))
  obtain ⟨hexact, hlive, hfinds, _⟩ := caches_exact hs
  refine ⟨by decide, hexact, hlive, ?_⟩
  intro e he hlost
  obtain ⟨⟨limit, h⟩, _⟩ := hfinds (.locations ⟨1, 0⟩) e (fun h => by simp) he hlost
  cases h

end Design

end HardwareDesign
