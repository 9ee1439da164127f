import HardwareDesign.Design.Walking
import HardwareDesign.Proofs.Generating
import HardwareDesign.Proofs.Resolving

namespace HardwareDesign

namespace Design

variable {resolving : Prop} {s t : Design} {i : InstanceId} {owner : Handle} {payload : Payload}

section Placing

lemma recordClaims_nil (s : Design) : s.recordClaims [] = s := by
  cases s with
  | mk config graph definitions queue tops symbols registry sites tree records placements =>
    cases placements <;> rfl

lemma keeps_addLocations (hs : s.Coherent) (i : InstanceId) (hn : payload.symbolName = none)
    (hb : payload.hasBody = false) : Keeps resolving s (fun _ _ => True) (addLocations i payload s) := by
  apply (keeps_getOrCreateRecord hs i).bind
  intro owner t hc ho
  have hnote : Change resolving t (t.noted owner payload) := .note ho.stands ho.epoch hn hb
  refine (congrArg (Keeps resolving t _) (Action.createIn_bind ho.epoch ho.stands.accepts payload _)).mpr ?_
  exact .ok (.one hnote) trivial

lemma addAttribute_eq (i : InstanceId) (name value : String) (subPath : SubPath) :
    addAttribute i name value subPath = addLocations i (.verbatim name value subPath) := by
  have hclaims : (modify (·.recordClaims []) : Action Unit) = pure () := by
    funext s
    exact congrArg (EStateM.Result.ok ()) (recordClaims_nil s)
  exact congrArg (fun last => do
    let owner ← getOrCreateRecord i
    let _ ← Action.editGraph (·.createIn owner (.verbatim name value subPath))
    last) hclaims.symm

lemma keeps_addAttribute (hs : s.Coherent) (i : InstanceId) (name value : String) (subPath : SubPath) :
    Keeps resolving s (fun _ _ => True) (addAttribute i name value subPath s) := by
  rw [addAttribute_eq]
  exact keeps_addLocations hs i rfl rfl

lemma keeps_createPlacementDatabase (s : Design) (device : Option Device) :
    Keeps resolving s (fun _ _ => True) (createPlacementDatabase device s) := by
  rw [createPlacementDatabase, get_bind]
  cases hp : s.placements with
  | some index => exact .pure trivial
  | none =>
    apply (Keeps.readGraph (PlacementIndex.ofGraph device)).bind
    rintro index _ - ⟨rfl, _⟩
    exact .ok (.one (.database index hp)) trivial

lemma keeps_place (hs : s.Coherent) (i : InstanceId) (l : Location) (subPath : SubPath) :
    Keeps resolving s (fun _ _ => True) (place i l subPath s) := by
  apply (Keeps.read _).bind
  rintro _ _ - ⟨rfl, _⟩
  apply (Keeps.read _).bind
  rintro _ _ - ⟨rfl, _⟩
  exact keeps_addLocations hs i rfl rfl

lemma keeps_placeRegister (hs : s.Coherent) (i : InstanceId) (v : LocationVector) :
    Keeps resolving s (fun _ _ => True) (placeRegister i v s) := by
  apply (Keeps.read _).bind
  rintro _ _ - ⟨rfl, _⟩
  apply (Keeps.read _).bind
  rintro _ _ - ⟨rfl, _⟩
  apply (Keeps.read _).bind
  rintro _ _ - ⟨rfl, _⟩
  exact keeps_addLocations hs i rfl rfl

lemma keeps_payloadsOf (hs : s.Coherent) (i : InstanceId) :
    Keeps resolving s (fun _ _ => True) (payloadsOf i s) := by
  apply (keeps_getOrCreateRecord hs i).bind
  intro h t _ _
  exact (Keeps.readGraph _).weaken fun _ _ => trivial

lemma keeps_instanceAt (hs : s.Coherent) (l : Location) : Keeps True s (fun _ _ => True) (instanceAt l s) := by
  refine (Keeps.read (fun s => s.ownerAt l)).guarded.bind ?_
  rintro found _ - ⟨rfl, _⟩
  cases found with
  | none => exact .pure trivial
  | some found =>
    obtain ⟨owner, subPath⟩ := found
    exact (keeps_resolveNode hs owner).bind fun _ _ => .pure trivial

end Placing

end Design

/-- What can be asked of a design. Questions that are answered without looking at the graph are left out. -/
inductive Call where
  | define (name : String) (body : DefinitionBody)
  | addTop (d : DefId)
  | generate (limit : Option Nat)
  | lookupSymbol (symbol : String)
  | moduleRecord (d : DefId)
  | sites (d : DefId)
  | root (d : DefId)
  | children (i : InstanceId)
  | child (i : InstanceId) (name : String)
  | hierarchy (d : DefId)
  | record (i : InstanceId)
  | resolve (h : Handle)
  | placementDatabase (device : Option Device)
  | place (i : InstanceId) (l : Location) (subPath : SubPath)
  | placeRegister (i : InstanceId) (v : LocationVector)
  | locations (i : InstanceId)
  | instanceAt (l : Location)
  | addAttribute (i : InstanceId) (name value : String) (subPath : SubPath)
  | attributes (i : InstanceId)

def Call.resolves : Call → Prop
  | resolve _ => True
  | instanceAt _ => True
  | _ => False

namespace Design

def after (s : Design) : Call → Design
  | .define name body => (s.define name body).2
  | .addTop d => endState (addTop d s)
  | .generate limit => endState (generate limit s).2
  | .lookupSymbol symbol => endState (lookupSymbol symbol s)
  | .moduleRecord d => endState (moduleRecord d s)
  | .sites d => endState (sitesOf d s)
  | .root d => endState (getInstance d s)
  | .children i => endState (children i s)
  | .child i name => endState (child i name s)
  | .hierarchy d => endState (hierarchyRecord d s)
  | .record i => endState (getOrCreateRecord i s)
  | .resolve h => endState (resolveNode h s)
  | .placementDatabase device => endState (createPlacementDatabase device s)
  | .place i l subPath => endState (place i l subPath s)
  | .placeRegister i v => endState (placeRegister i v s)
  | .locations i => endState (locations i s)
  | .instanceAt l => endState (instanceAt l s)
  | .addAttribute i name value subPath => endState (addAttribute i name value subPath s)
  | .attributes i => endState (attributes i s)

section Reading

variable {d : DefId}

lemma changes_moduleRecord (hs : s.Coherent) (d : DefId) : Changes resolving s (endState (moduleRecord d s)) := by
  cases hx : s.resolveSymbol d with
  | none =>
    rw [moduleRecord_unbuilt hx]
    exact .refl
  | some x =>
    rw [moduleRecord_built hs.views hx]
    exact .scan (scanned_scanSymbols hs.views)

lemma changes_sitesOf (hs : s.Coherent) (d : DefId) : Changes resolving s (endState (sitesOf d s)) := by
  cases hx : s.resolveSymbol d with
  | none =>
    rw [sitesOf_unbuilt hx]
    exact .refl
  | some x =>
    obtain ⟨t, ht, hscan⟩ := sitesOf_built hs hx
    rw [ht]
    exact .scan hscan

lemma changes_hierarchyRecord (hs : s.Coherent) (d : DefId) : Changes resolving s (endState (hierarchyRecord d s)) := by
  cases hx : s.resolveSymbol d with
  | none =>
    rw [hierarchyRecord_unbuilt hx]
    exact .refl
  | some x =>
    rw [hierarchyRecord_built hs.views hx]
    exact .scan (scanned_hierarchies hs.views)

end Reading

lemma changes_after (hs : s.Coherent) (c : Call) : Changes c.resolves s (s.after c) := by
  cases c with
  | define name body => exact .one (.define name body)
  | addTop d => exact (keeps_addTop s d).changes
  | generate limit => exact changes_generate hs limit
  | lookupSymbol symbol => exact .scan (scanned_scanSymbols hs.views)
  | moduleRecord d => exact changes_moduleRecord hs d
  | sites d => exact changes_sitesOf hs d
  | root d => exact (keeps_getInstance hs d).changes
  | children i => exact (keeps_children hs i).changes
  | child i name => exact (keeps_child hs i name).changes
  | hierarchy d => exact changes_hierarchyRecord hs d
  | record i => exact (keeps_getOrCreateRecord hs i).changes
  | resolve h => exact (keeps_resolveNode hs h).changes
  | placementDatabase device => exact (keeps_createPlacementDatabase s device).changes
  | place i l subPath => exact (keeps_place hs i l subPath).changes
  | placeRegister i v => exact (keeps_placeRegister hs i v).changes
  | locations i =>
    have hkeeps : Keeps False s (fun _ _ => True) (locations i s) :=
      (keeps_payloadsOf hs i).bind fun _ _ => .pure trivial
    exact hkeeps.changes
  | instanceAt l => exact (keeps_instanceAt hs l).changes
  | addAttribute i name value subPath => exact (keeps_addAttribute hs i name value subPath).changes
  | attributes i =>
    have hkeeps : Keeps False s (fun _ _ => True) (attributes i s) :=
      (keeps_payloadsOf hs i).bind fun _ _ => .pure trivial
    exact hkeeps.changes

end Design

end HardwareDesign
