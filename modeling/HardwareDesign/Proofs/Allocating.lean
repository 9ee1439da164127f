import HardwareDesign.Proofs.Effects

namespace HardwareDesign

open Design

namespace Call

def works : Call → Prop
  | define _ _ => True
  | addTop _ => True
  | generate _ => True
  | _ => False

def reads : Call → Prop
  | define _ _ | lookupSymbol _ | moduleRecord _ | sites _ | children _ | child _ _ | hierarchy _ |
    placementDatabase _ => True
  | _ => False

def generates : Call → Prop
  | generate _ => True
  | _ => False

def places : Call → Prop
  | place _ _ _ => True
  | placeRegister _ _ => True
  | _ => False

def powers (c : Call) : Powers where
  works := c.works
  creates := ¬ c.reads
  generates := c.generates
  places := c.places

end Call

def Request.allocations (s : Design) : Request → List Allocation
  | instantiate _ target => s.allocation target
  | _ => []

def Draft.allocations (d : DefId) (m : Handle) : Program → Draft → List Allocation
  | .done, _ => []
  | .fail _, _ => []
  | .remark _ next, draft => allocations d m next draft
  | .request r next, draft =>
    r.allocations draft.design ++
      match answer d m r draft with
      | .ok name draft => allocations d m (next (.ok name)) draft
      | .error e draft => allocations d m (next (.error e)) draft

namespace Design

def generatorAllocations (d : DefId) (s : Design) : List Allocation :=
  match prepare d s with
  | .ok (some (g, symbol, module, names)) s => Draft.allocations d module (g d symbol) ⟨s, names⟩
  | _ => []

def allocationsUpTo : Nat → Design → List Allocation
  | 0, _ => []
  | n + 1, s =>
    match s.queue with
    | [] => []
    | d :: queue =>
      generatorAllocations d { s with queue } ++
        match (runGenerator d { s with queue }).2 with
        | .ok _ s => allocationsUpTo n s
        | .error _ _ => []

def allocations (s : Design) : Call → List Allocation
  | .addTop d => s.allocation d
  | .generate limit => allocationsUpTo (limit.getD s.definitions.length) s
  | _ => []

variable {powers : Powers} {s t : Design} {d : DefId}

section Building

lemma allocation_built {x : String} (hx : s.resolveSymbol d = some x) : s.allocation d = [] := by
  simp only [allocation, allocateSymbol, hx]

lemma allocation_unknown {e : Error} (hx : s.resolveSymbol d = none) (hd : s.definition d = .error e) :
    s.allocation d = [] := by
  simp only [allocation, allocateSymbol, hx, hd]

lemma allocation_new {definition : Definition} (hx : s.resolveSymbol d = none) (hd : s.definition d = .ok definition) :
    s.allocation d = [⟨s, d, freshName s.takenSymbols definition.name⟩] := by
  simp only [allocation, allocateSymbol, hx, hd]
  rfl

variable (hworks : powers.works) (hcreates : powers.creates)
include hworks hcreates

lemma acts_buildDefinition (s : Design) (d : DefId) :
    s.Acts powers (s.allocation d) (endState (buildDefinition d s)) := by
  cases hx : s.resolveSymbol d with
  | some x =>
    rw [allocation_built hx, buildDefinition_built hx]
    exact .refl
  | none =>
    cases hd : s.definition d with
    | error e =>
      rw [allocation_unknown hx hd, buildDefinition_unknown hx hd]
      exact .refl
    | ok definition =>
      rw [allocation_new hx hd, buildDefinition_new hx hd]
      exact Acts.refl.build hworks hcreates hx hd

lemma acts_addTop (s : Design) (d : DefId) : s.Acts powers (s.allocation d) (endState (addTop d s)) := by
  refine acts_bind (acts_buildDefinition hworks hcreates s d) fun {x t} _ => ?_
  rw [modify_bind]
  cases t.tops.contains d with
  | true => exact .refl
  | false => exact Acts.refl.keep rfl id

end Building

end Design

namespace Draft

variable {powers : Powers} {d : DefId} {m : Handle} {draft : Draft}

lemma acts_onDesign {α : Type} {x : Action α} {log : List Allocation}
    (h : draft.design.Acts powers log (endState (x draft.design))) :
    draft.design.Acts powers log (endState (onDesign x draft)).design := by
  rw [onDesign]
  cases hr : x draft.design <;> rw [hr] at h <;> exact h

lemma acts_next {α β : Type} {x : DraftAction α} {f : α → DraftAction β} {log : List Allocation}
    (hx : draft.design.Acts powers log (endState (x draft)).design)
    (hf : ∀ (a : α) (next : Draft), next.design.Acts powers [] (endState (f a next)).design) :
    draft.design.Acts powers log (endState ((x >>= f) draft)).design := by
  cases hr : x draft with
  | ok a next =>
    rw [hr] at hx
    rw [bind_of_ok hr]
    simpa using hx.trans (hf a next)
  | error e next =>
    rw [hr] at hx
    rw [bind_of_error hr]
    exact hx

section Generating

variable (hworks : powers.works) (hcreates : powers.creates) (hgenerates : powers.generates)

section Sites

include hcreates hgenerates

lemma silent_addRecord {s : Design} (payload : Payload) (hp : payload.Plain) :
    Silent powers s (addRecord m payload) :=
  (silent_createIn hcreates m payload hp (.inr hgenerates)).bind fun _ _ =>
    silent_modify (Acts.refl.forget m.record) fun _ => rfl

lemma silent_addSite {s : Design} (name : String) (payload : Payload) (hp : payload.Plain) (kind : NodeKind) :
    Silent powers s (addSite d m name payload kind) :=
  (silent_addRecord hcreates hgenerates payload hp).bind fun _ _ =>
    silent_modify (Acts.refl.attach d name kind) fun _ => rfl

lemma acts_addNamed (draft : Draft) (base : String) (payload : String → Payload)
    (hp : ∀ name, (payload name).Plain) (kind : NodeKind) :
    draft.design.Acts powers [] (endState ((do
      let name ← assign base
      onDesign (addSite d m name (payload name) kind)
      return some name : DraftAction (Option String)) draft)).design := by
  refine acts_next .refl fun name _ => acts_next (acts_onDesign ?_) fun _ _ => .refl
  exact (silent_addSite hcreates hgenerates name (payload name) (hp name) kind).acts

end Sites

include hworks hcreates hgenerates

lemma acts_answer (draft : Draft) (r : Request) :
    draft.design.Acts powers (r.allocations draft.design) (endState (answer d m r draft)).design := by
  cases r with
  | instantiate base target =>
    refine acts_next (acts_onDesign (acts_buildDefinition hworks hcreates draft.design target)) fun x next => ?_
    exact acts_addNamed hcreates hgenerates next base (.instantiation · x) (fun _ => trivial) (.module target)
  | register base type =>
    exact acts_addNamed hcreates hgenerates draft base (.register · type) (fun _ => trivial) (.register type)
  | operation base mnemonic =>
    exact acts_addNamed hcreates hgenerates draft base (fun name => .operation name mnemonic) (fun _ => trivial) .leaf
  | unnamed mnemonic =>
    have hadd : Silent powers draft.design (addRecord m (.operation none mnemonic)) :=
      silent_addRecord hcreates hgenerates _ trivial
    exact acts_next (acts_onDesign hadd.acts) fun _ _ => .refl

lemma acts_run (program : Program) (draft : Draft) :
    draft.design.Acts powers (allocations d m program draft) (endState (run d m program draft).2).design := by
  induction program generalizing draft with
  | done => exact .refl
  | fail e => exact .refl
  | remark data next ih =>
    rw [run, allocations]
    exact ih draft
  | request r next ih =>
    have hstep : draft.design.Acts powers _ (endState (answer d m r draft)).design :=
      acts_answer hworks hcreates hgenerates draft r
    rw [run, allocations]
    cases ha : answer d m r draft with
    | ok name draft' =>
      rw [ha] at hstep
      exact hstep.trans (ih (.ok name) draft')
    | error e draft' =>
      rw [ha] at hstep
      exact hstep.trans (ih (.error e) draft')

end Generating

end Draft

namespace Design

variable {powers : Powers} {s t : Design}

lemma silent_prepare (d : DefId) : Silent powers s (prepare d) := by
  refine (silent_read fun _ => rfl).bind fun definition t => ?_
  cases definition.body with
  | external => exact silent_pure _
  | generated g =>
    refine (silent_read fun _ => rfl).bind fun symbol t => (silent_moduleRecord d).bind fun m t => ?_
    cases m with
    | none => exact silent_throw _
    | some m => exact (silent_readGraph _).bind fun _ _ => silent_pure _

section Generating

variable (hworks : powers.works) (hcreates : powers.creates) (hgenerates : powers.generates)
include hworks hcreates hgenerates

lemma acts_runGenerator (d : DefId) (s : Design) :
    s.Acts powers (generatorAllocations d s) (endState (runGenerator d s).2) := by
  have hprepare : s.Acts powers [] (endState (prepare d s)) := (silent_prepare d).acts
  rw [runGenerator, generatorAllocations]
  cases hp : prepare d s with
  | error e t =>
    rw [hp] at hprepare
    exact hprepare
  | ok r t =>
    rw [hp] at hprepare
    cases r with
    | none => exact hprepare
    | some found =>
      obtain ⟨g, symbol, m, names⟩ := found
      have hrun : t.Acts powers _ (endState (Draft.run d m (g d symbol) ⟨t, names⟩).2).design :=
        Draft.acts_run hworks hcreates hgenerates (g d symbol) ⟨t, names⟩
      have hend : endState (onDraft (Draft.run d m (g d symbol) ⟨t, names⟩).2) =
          (endState (Draft.run d m (g d symbol) ⟨t, names⟩).2).design := by
        cases (Draft.run d m (g d symbol) ⟨t, names⟩).2 <;> rfl
      simp only [hend]
      exact hprepare.trans hrun

lemma acts_generateUpTo (n : Nat) (s : Design) :
    s.Acts powers (allocationsUpTo n s) (endState (generateUpTo n s).2) := by
  induction n generalizing s with
  | zero => exact .refl
  | succ n ih =>
    rw [generateUpTo, allocationsUpTo]
    cases hq : s.queue with
    | nil => exact .refl
    | cons d queue =>
      have hdequeue : s.Acts powers [] { s with queue } := Acts.refl.work s.definitions queue hworks
      have hrun := hdequeue.trans (acts_runGenerator hworks hcreates hgenerates d { s with queue })
      simp only
      generalize hr : runGenerator d { s with queue } = result at hrun ⊢
      obtain ⟨events, r⟩ := result
      cases r with
      | error e t => simpa using hrun
      | ok u t => exact hrun.trans (ih t)

lemma acts_generate (limit : Option Nat) (s : Design) :
    s.Acts powers (allocationsUpTo (limit.getD s.definitions.length) s) (endState (generate limit s).2) := by
  have hrun : s.Acts powers _ (endState (generateUpTo (limit.getD s.definitions.length) s).2) :=
    acts_generateUpTo hworks hcreates hgenerates _ s
  rw [generate]
  generalize generateUpTo (limit.getD s.definitions.length) s = result at hrun ⊢
  obtain ⟨events, r⟩ := result
  cases r with
  | error e t => exact hrun
  | ok u t => exact hrun

end Generating

/-- A call is made of acts and allocates what its trace says, whatever the design is like and however the call ends. -/
lemma acts_after (s : Design) (c : Call) : s.Acts c.powers (s.allocations c) (s.after c) := by
  cases c with
  | define name body =>
    have hworks : (Call.define name body).powers.works := trivial
    exact Acts.refl.work (s.definitions ++ [⟨name, body⟩]) s.queue hworks
  | addTop d => exact acts_addTop trivial id s d
  | generate limit => exact acts_generate trivial id trivial limit s
  | lookupSymbol symbol => exact (silent_lookupSymbol symbol).acts
  | moduleRecord d => exact (silent_moduleRecord d).acts
  | sites d => exact (silent_sitesOf d).acts
  | root d => exact (silent_getInstance id d).acts
  | children i => exact (silent_children i).acts
  | child i name => exact (silent_child i name).acts
  | hierarchy d => exact (silent_hierarchyRecord d).acts
  | record i => exact (silent_getOrCreateRecord id i).acts
  | resolve h => exact (silent_resolveNode id h).acts
  | placementDatabase device => exact acts_createPlacementDatabase device
  | place i l subPath => exact acts_place id trivial i l subPath
  | placeRegister i v => exact acts_placeRegister id trivial i v
  | locations i => exact ((silent_payloadsOf id i).bind fun _ _ => silent_pure _).acts
  | instanceAt l => exact acts_instanceAt id l
  | addAttribute i name value subPath => exact (silent_addAttribute id i name value subPath).acts
  | attributes i => exact ((silent_payloadsOf id i).bind fun _ _ => silent_pure _).acts

end Design

end HardwareDesign
