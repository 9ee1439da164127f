import HardwareDesign.Proofs.Caching

/-!
When rules are broken: a hierarchy is created only for a definition that has never been rooted, and that is against the
rules if the graph has a hierarchy for it all the same.
-/

namespace HardwareDesign

def Failure.Broken : Failure → Prop
  | error _ => False
  | violation _ => True

namespace Graph

inductive InHierarchy (g : Graph) : RecordId → String → Prop
  | hierarchy {id r top} : g.Holds id r → r.payload = .hierarchy top → r.parent = none → InHierarchy g id top
  | dynamic {id r site p top} : g.Holds id r → r.payload = .dynamicInstance site → r.parent = some p →
      InHierarchy g p top → InHierarchy g id top

variable {g : Graph} {id : RecordId} {top : String}

lemma contains_hierarchies (hg : g.Forest) {r : Record} (hr : g.Holds id r) (hp : r.payload = .hierarchy top)
    (hparent : r.parent = none) : g.hierarchies.contains top = true := by
  rw [hierarchies_eq, Table.contains_ofListFirst]
  apply List.mem_map.mpr
  refine ⟨(top, g.handle id), (mem_entries _).mpr ⟨id, hg.root_top hr hparent, r, hr, ?_⟩, rfl⟩
  rw [hp]
  rfl

lemma InHierarchy.contains (hg : g.Forest) (h : g.InHierarchy id top) : g.hierarchies.contains top = true := by
  induction h with
  | hierarchy hr hp hparent => exact contains_hierarchies hg hr hp hparent
  | dynamic _ _ _ _ ih => exact ih

lemma InHierarchy.lineage_ok (hg : g.Forest) {h : Handle} (hh : g.InHierarchy id top) (hk : h.record = id)
    (he : h.epoch = g.epoch) {fuel : Nat} (hf : id.index < fuel) : ∃ steps, g.lineage fuel h = .ok (top, steps) := by
  induction hh generalizing h fuel with
  | hierarchy hr hp _ =>
    subst hk
    obtain ⟨fuel, rfl⟩ := Nat.exists_eq_add_of_lt hf
    exact ⟨[], lineage_hierarchy he hr hp _⟩
  | dynamic hr hp hparent _ ih =>
    subst hk
    obtain ⟨fuel, rfl⟩ := Nat.exists_eq_add_of_lt hf
    obtain ⟨hlt, _⟩ := hg.child_body hr hparent
    obtain ⟨steps, hl⟩ := ih (h := g.handle _) rfl rfl (by omega : _ < h.record.index + fuel)
    exact ⟨_, lineage_dynamic he hr hp hparent hl⟩

lemma lineage_not_second (g : Graph) (fuel : Nat) (h : Handle) (x : String) :
    g.lineage fuel h ≠ .error (.violation (.secondHierarchy x)) := by
  induction fuel generalizing h with
  | zero => simp [lineage]
  | succ fuel ih =>
    rw [lineage]
    split
    case h_1 => simp
    case h_2 => simp
    case h_3 =>
      split
      case h_1 => simp
      case h_2 => simp
      case h_3 parent _ =>
        cases hl : g.lineage fuel parent with
        | ok found => simp [bind, Except.bind, pure, Except.pure]
        | error e =>
          intro he
          cases he
          exact ih parent hl
    case h_4 => simp

end Graph

namespace Design

variable {s t : Design} {d : DefId} {x top : String} {h : Handle} {v : Violation}

section Intact

variable {α : Type}

lemma not_broken_guarded (a : Action α) : Finds Failure.Broken (Action.guarded a s) := by
  rw [Action.guarded]
  cases a s with
  | ok => exact .ok
  | error => exact .error id

lemma not_broken_stepsDown (steps : List (String × Handle)) (i : InstanceId) :
    Finds Failure.Broken (steps.foldlM stepDown i s) := by
  induction steps generalizing i s with
  | nil => exact .ok
  | cons step steps ih =>
    rw [List.foldlM_cons]
    refine Finds.bind ?_ fun _ => ih _
    exact (not_broken_guarded _).bind fun _ => .ok

lemma failed_eq_some {r : EStateM.Result Failure Design α} {f : Failure} :
    failed id r = some f ↔ ∃ t, r = .error f t := by
  cases r with
  | ok a t => simp [failed]
  | error e t => simp [failed]

lemma Finds.not_violated {r : EStateM.Result Failure Design α} (h : Finds Failure.Broken r) :
    failed id r ≠ some (.violation v) := by
  intro hr
  obtain ⟨t, rfl⟩ := failed_eq_some.mp hr
  cases h with
  | error he => exact he trivial

end Intact

lemma getInstance_unbuilt (hr : s.tree.roots.find? d = none) (hx : s.resolveSymbol d = none) :
    getInstance d s = .error (.error (.notFound (.unbuilt d))) s := by
  rw [getInstance, get_bind, hr]
  exact bind_of_error (by rw [liftM_eq, Action.guarded, Action.read_error (builtSymbol_unbuilt hx)])

lemma getInstance_new (hs : s.Coherent) (hr : s.tree.roots.find? d = none) (hx : s.resolveSymbol d = some x) :
    getInstance d s =
      if d ∈ s.records.rooted then .ok s.tree.nextId { s with tree := s.tree.addRoot d }
      else if s.graph.hierarchies.contains x then
        .error (.violation (.secondHierarchy x))
          ((markRooted { s with tree := s.tree.addRoot d } d).setHierarchies s.graph.hierarchies)
      else .ok s.tree.nextId (withHierarchy { s with tree := s.tree.addRoot d } d x) := by
  have ha : Action.guarded (addRoot d) s = .ok s.tree.nextId { s with tree := s.tree.addRoot d } := rfl
  obtain ⟨hs', _⟩ := hs.addRoot hx hr
  have hcreate := createHierarchy_eq hs'.views (d := d) hx
  rw [getInstance, get_bind, hr]
  apply (bind_of_ok (Action.guarded_ok (Action.read_ok (builtSymbol_built hx)))).trans
  rw [liftM_eq, bind_of_ok ha]
  split
  case isTrue hd =>
    refine (bind_of_ok (a := ()) (t := { s with tree := s.tree.addRoot d }) ?_).trans rfl
    rw [rootOnce, get_bind, if_pos (by simpa using hd)]
    rfl
  case isFalse hd =>
    have hrooted : rootOnce d { s with tree := s.tree.addRoot d } =
        createHierarchy d (markRooted { s with tree := s.tree.addRoot d } d) := by
      rw [rootOnce, get_bind, if_neg (by simpa using hd), modify_bind]
    split
    case isTrue hc =>
      rw [if_pos hc] at hcreate
      exact bind_of_error (hrooted.trans hcreate)
    case isFalse hc =>
      rw [if_neg hc] at hcreate
      exact (bind_of_ok (hrooted.trans hcreate)).trans rfl

lemma getInstance_violates (hs : s.Coherent) :
    failed id (getInstance d s) = some (.violation v) ↔
      s.tree.roots.find? d = none ∧ d ∉ s.records.rooted ∧
        ∃ x, s.resolveSymbol d = some x ∧ s.graph.hierarchies.contains x = true ∧ v = .secondHierarchy x := by
  cases hr : s.tree.roots.find? d with
  | some i => simp [getInstance_of_root hr, failed]
  | none =>
    cases hx : s.resolveSymbol d with
    | none => simp [getInstance_unbuilt hr hx, failed]
    | some x =>
      rw [getInstance_new hs hr hx]
      by_cases hd : d ∈ s.records.rooted
      · simp [hd, failed]
      · rw [if_neg hd]
        by_cases hc : s.graph.hierarchies.contains x = true
        · rw [if_pos hc]
          constructor
          · intro hv
            cases hv
            exact ⟨rfl, hd, x, rfl, hc, rfl⟩
          · rintro ⟨_, _, _, ⟨⟩, _, rfl⟩
            rfl
        · simp [hc, failed]

lemma resolveNode_violates (hd : s.registry.definitionOf top = some d) {steps : List (String × Handle)}
    (hl : s.graph.lineage (h.record.index + 1) h = .ok (top, steps)) :
    failed id (resolveNode h s) = some (.violation v) ↔ failed id (getInstance d s) = some (.violation v) := by
  have hread : s.resolveDefinition top = .ok d := by simp only [resolveDefinition, hd]
  have heq : resolveNode h s = (getInstance d >>= fun root => steps.foldlM stepDown root) s := by
    rw [resolveNode, get_bind, hl]
    exact bind_of_ok (Action.guarded_ok (Action.read_ok hread))
  rw [heq]
  cases hi : getInstance d s with
  | ok i t =>
    rw [bind_of_ok hi]
    refine iff_of_false (Finds.not_violated (not_broken_stepsDown steps i)) ?_
    simp [failed]
  | error e t => rw [bind_of_error hi]

lemma resolveNode_unknown (hd : s.registry.definitionOf top = none) {steps : List (String × Handle)}
    (hl : s.graph.lineage (h.record.index + 1) h = .ok (top, steps)) :
    resolveNode h s = .error (.error (.notFound (.symbol top))) s := by
  have hread : s.resolveDefinition top = .error (.notFound (.symbol top)) := by simp only [resolveDefinition, hd]
  rw [resolveNode, get_bind, hl]
  exact bind_of_error (by rw [liftM_eq, Action.guarded, Action.read_error hread])

/-- The hierarchy of a built module is in the graph, but it has not been made for a root of the module. -/
def Unrooted (s : Design) (top : String) : Prop :=
  ∃ d, s.registry.definitionOf top = some d ∧ s.tree.roots.find? d = none ∧ d ∉ s.records.rooted

lemma resolve_violates (hs : s.Coherent) (he : h.epoch = s.graph.epoch) (hh : s.graph.InHierarchy h.record top) :
    failed id (resolveNode h s) = some (.violation v) ↔ v = .secondHierarchy top ∧ s.Unrooted top := by
  obtain ⟨steps, hl⟩ := hh.lineage_ok hs.forest rfl he (Nat.lt_succ_self _)
  cases hd : s.registry.definitionOf top with
  | none =>
    rw [resolveNode_unknown hd hl]
    simp [failed, Unrooted, hd]
  | some d =>
    have hx : s.resolveSymbol d = some top := (hs.paired d top).mpr hd
    rw [resolveNode_violates hd hl, getInstance_violates hs]
    constructor
    · rintro ⟨hr, hrooted, x, hx', _, rfl⟩
      obtain rfl := Option.some.inj (hx.symm.trans hx')
      exact ⟨rfl, d, hd, hr, hrooted⟩
    · rintro ⟨rfl, e, he, hr, hrooted⟩
      obtain rfl := Option.some.inj (hd.symm.trans he)
      exact ⟨hr, hrooted, top, hx, hh.contains hs.forest, rfl⟩

lemma instanceAt_violates {l : Location} {subPath : SubPath} (hl : s.ownerAt l = .ok (some (h, subPath))) :
    failed id (instanceAt l s) = some (.violation v) ↔ failed id (resolveNode h s) = some (.violation v) := by
  have heq : instanceAt l s = (do return some (← resolveNode h, subPath) : GuardedAction _) s := by
    rw [instanceAt, liftM_eq, bind_of_ok (Action.guarded_ok (Action.read_ok hl))]
  rw [heq]
  cases hr : resolveNode h s with
  | ok i t =>
    rw [bind_of_ok hr]
    simp [failed, pure, EStateM.pure]
  | error e t =>
    rw [bind_of_error hr]
    exact .rfl

section Second

variable {α : Type}

lemma failed_error_ne {r : EStateM.Result Error Design α} : failed .error r ≠ some (.violation v) := by
  cases r <;> simp [failed]

lemma resolveNode_second (hr : failed id (resolveNode h s) = some (.violation (.secondHierarchy x))) :
    ∃ d, failed id (getInstance d s) = some (.violation (.secondHierarchy x)) := by
  cases hl : s.graph.lineage (h.record.index + 1) h with
  | error e =>
    rw [resolveNode, get_bind, hl] at hr
    obtain rfl : e = .violation (.secondHierarchy x) := Option.some.inj hr
    exact (Graph.lineage_not_second _ _ _ _ hl).elim
  | ok found =>
    cases hd : s.registry.definitionOf found.1 with
    | some d => exact ⟨d, (resolveNode_violates hd hl).mp hr⟩
    | none =>
      rw [resolveNode_unknown hd hl] at hr
      cases hr

lemma getInstance_of_second {c : Call} (hc : s.failure? c = some (.violation (.secondHierarchy x))) :
    ∃ d, failed id (getInstance d s) = some (.violation (.secondHierarchy x)) := by
  cases c with
  | root d => exact ⟨d, hc⟩
  | resolve h => exact resolveNode_second hc
  | instanceAt l =>
    cases hl : s.ownerAt l with
    | error e =>
      have heq : instanceAt l s = .error (.error e) s :=
        bind_of_error (by rw [liftM_eq, Action.guarded, Action.read_error hl])
      rw [failure?, heq] at hc
      cases hc
    | ok found =>
      cases found with
      | none =>
        have heq : instanceAt l s = .ok none s := by
          rw [instanceAt, liftM_eq, bind_of_ok (Action.guarded_ok (Action.read_ok hl))]
          rfl
        rw [failure?, heq] at hc
        cases hc
      | some found => exact resolveNode_second ((instanceAt_violates hl).mp hc)
  | define => cases hc
  | lookupSymbol => cases hc
  | _ =>
    rw [failure?] at hc
    exact (failed_error_ne hc).elim

end Second

/-- A record in a hierarchy of the top level is resolved or refused, and so is a location that such a record owns,
except in one case. -/
theorem hierarchy_resolution (hs : s.Reachable) :
    (∀ {h top v}, h.epoch = s.graph.epoch → s.graph.InHierarchy h.record top →
      (s.failure? (.resolve h) = some (.violation v) ↔ v = .secondHierarchy top ∧ s.Unrooted top)) ∧
      ∀ {l h subPath top v}, s.ownerAt l = .ok (some (h, subPath)) → s.graph.InHierarchy h.record top →
        (s.failure? (.instanceAt l) = some (.violation v) ↔ v = .secondHierarchy top ∧ s.Unrooted top) := by
  have hc := hs.coherent
  refine ⟨fun he hh => resolve_violates hc he hh, ?_⟩
  intro l h subPath top v hl hh
  exact (instanceAt_violates hl).trans (resolve_violates hc (ownerAt_ok hc.forest hl).1 hh)

def originLocation : Location := ⟨.dsp, 0, 0, 0⟩

def makeHierarchy : Pass Unit :=
  ⟨"place", fun _ => .create none (.hierarchy "M") fun
    | .ok h => .create (some h) (.location originLocation none) fun _ => .done (.ok (), ())
    | .error _ => .done (.ok (), ())⟩

def hierarchyFromPass : Design :=
  (((new {} 0).run [.call (.define "M" .external), .call (.addTop ⟨0⟩)]).runPasses [makeHierarchy] [] ()).2.2.run
    [.call (.placementDatabase none)]

lemma reachable_hierarchyFromPass : hierarchyFromPass.Reachable :=
  (reachable_run {} 0 _).trans (.head (.passes [makeHierarchy] [] ()) (reaches_run _ _))

theorem hierarchy_resolution_pass :
    hierarchyFromPass.failure? (.resolve (hierarchyFromPass.graph.handle ⟨2⟩)) =
        some (.violation (.secondHierarchy "M")) ∧
      hierarchyFromPass.failure? (.instanceAt originLocation) = some (.violation (.secondHierarchy "M")) := by
  have hm : hierarchyFromPass.graph.InHierarchy ⟨2⟩ "M" :=
    .hierarchy (r := ⟨.hierarchy "M", none, [⟨3⟩]⟩) rfl rfl rfl
  have hu : hierarchyFromPass.Unrooted "M" := ⟨⟨0⟩, by decide, by decide, by decide⟩
  have hl : hierarchyFromPass.ownerAt originLocation = .ok (some (hierarchyFromPass.graph.handle ⟨2⟩, none)) := rfl
  obtain ⟨hresolve, hlocation⟩ := hierarchy_resolution reachable_hierarchyFromPass
  exact ⟨(hresolve rfl hm).mpr ⟨rfl, hu⟩, (hlocation hl hm).mpr ⟨rfl, hu⟩⟩

end Design

end HardwareDesign
