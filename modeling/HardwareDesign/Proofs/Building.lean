import HardwareDesign.Proofs.Naming
import HardwareDesign.Proofs.Scanning

namespace HardwareDesign.Design

variable {resolving : Prop} {s t : Design} {d : DefId} {x : String}

lemma isExternal_eq {definition : Definition} (h : s.definition d = .ok definition) :
    s.isExternal d = .ok definition.body.isExternal := by
  simp only [isExternal, h, bind, Except.bind, pure, Except.pure]

lemma buildDefinition_built (hx : s.resolveSymbol d = some x) : buildDefinition d s = .ok x s := by
  have ha : allocateSymbol d s = .ok none s := by simp only [allocateSymbol, hx]
  rw [buildDefinition, bind_of_ok ha]
  exact Action.read_ok (builtSymbol_built hx)

lemma buildDefinition_unknown {e : Error} (hx : s.resolveSymbol d = none) (hd : s.definition d = .error e) :
    buildDefinition d s = .error e s := by
  have ha : allocateSymbol d s = .error e s := by simp only [allocateSymbol, hx, hd]
  rw [buildDefinition, bind_of_error ha]

lemma buildDefinition_new {definition : Definition} (hx : s.resolveSymbol d = none)
    (hd : s.definition d = .ok definition) :
    buildDefinition d s = .ok (freshName s.takenSymbols definition.name)
      (s.built d (freshName s.takenSymbols definition.name) definition.body.isExternal) := by
  have ha : allocateSymbol d s =
      .ok (some ⟨d, freshName s.takenSymbols definition.name⟩) (s.reserve definition.name).2 := by
    simp only [allocateSymbol, hx, hd]
    rfl
  have hd' : (s.reserve definition.name).2.definition d = .ok definition := hd
  rw [buildDefinition, bind_of_ok ha]
  apply (bind_of_ok (Action.read_ok (isExternal_eq hd'))).trans
  rfl

lemma keeps_buildDefinition (s : Design) (d : DefId) :
    Keeps resolving s (fun x t => t.resolveSymbol d = some x) (buildDefinition d s) := by
  cases hx : s.resolveSymbol d with
  | some x =>
    rw [buildDefinition_built hx]
    exact .ok .refl hx
  | none =>
    cases hd : s.definition d with
    | error e =>
      rw [buildDefinition_unknown hx hd]
      exact .error .refl
    | ok definition =>
      rw [buildDefinition_new hx hd]
      have hbuild : Change resolving s _ := .build hd hx (freshName_not_mem s.takenSymbols definition.name)
      refine .ok (.one hbuild) ?_
      rw [resolveSymbol, built_registry]
      exact Table.find?_insert_self _ _ _

lemma definitions_buildDefinition (s : Design) (d : DefId) :
    (endState (buildDefinition d s)).definitions = s.definitions := by
  cases hx : s.resolveSymbol d with
  | some x => rw [buildDefinition_built hx, endState]
  | none =>
    cases hd : s.definition d with
    | error e => rw [buildDefinition_unknown hx hd, endState]
    | ok definition =>
      rw [buildDefinition_new hx hd]
      cases definition.body <;> rfl

lemma keeps_addTop (s : Design) (d : DefId) : Keeps resolving s (fun _ _ => True) (addTop d s) := by
  apply (keeps_buildDefinition s d).bind
  intro x t _ hx
  rw [modify_bind]
  by_cases hd : d ∈ t.tops
  · simp only [List.contains_iff_mem.mpr hd, if_true]
    exact .pure trivial
  · have hc : t.tops.contains d = false := by simpa using hd
    simp only [hc, Bool.false_eq_true, if_false]
    exact .ok (.one (.promote hx hd)) trivial

end HardwareDesign.Design
