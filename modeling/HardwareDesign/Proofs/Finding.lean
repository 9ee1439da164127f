import HardwareDesign.Proofs.Calls
import HardwareDesign.Proofs.Descending

namespace HardwareDesign

def Error.Lost (e : Error) : Prop := ∃ id, e = .graph (.staleHandle id) ∨ e = .graph (.erased id)

def Failure.Lost : Failure → Prop
  | error e => e.Lost
  | violation _ => False

lemma Error.not_lost {e : Error} (h : ∀ g, e ≠ .graph g) : ¬ e.Lost := by
  rintro ⟨id, rfl | rfl⟩
  · exact h _ rfl
  · exact h _ rfl

inductive Finds {ε σ α : Type} (lost : ε → Prop) : EStateM.Result ε σ α → Prop
  | ok {a t} : Finds lost (.ok a t)
  | error {e t} : ¬ lost e → Finds lost (.error e t)

lemma Finds.bind {ε σ α β : Type} {lost : ε → Prop} {x : EStateM ε σ α} {f : α → EStateM ε σ β} {s : σ}
    (hx : Finds lost (x s)) (hf : ∀ {a t}, x s = .ok a t → Finds lost (f a t)) : Finds lost ((x >>= f) s) := by
  cases hr : x s with
  | ok a t =>
    rw [bind_of_ok hr]
    exact hf hr
  | error e t =>
    rw [bind_of_error hr]
    rw [hr] at hx
    cases hx with
    | error he => exact .error he

inductive Answers {α : Type} : Except Error α → Prop
  | ok {a} : Answers (.ok a)
  | error {e} : ¬ e.Lost → Answers (.error e)

namespace Answers

variable {α β : Type}

lemma refuse {e : Error} (h : ∀ g, e ≠ .graph g) : Answers (.error e : Except Error α) := .error (Error.not_lost h)

lemma bind {x : Except Error α} {f : α → Except Error β} (hx : Answers x) (hf : ∀ a, Answers (f a)) :
    Answers (x >>= f) := by
  cases hx with
  | ok => exact hf _
  | error he => exact .error he

lemma mapM {f : α → Except Error β} (hf : ∀ a, Answers (f a)) (xs : List α) : Answers (xs.mapM f) := by
  induction xs with
  | nil => exact .ok
  | cons x xs ih =>
    rw [List.mapM_cons]
    exact (hf x).bind fun _ => ih.bind fun _ => .ok

end Answers

section Tree

variable (t : InstanceTree) (i : InstanceId)

lemma answers_node : Answers (t.node i) := by
  rw [InstanceTree.node]
  split
  · split
    · exact .ok
    · exact .refuse (by simp)
  · exact .refuse (by simp)

lemma answers_pathUpTo (fuel : Nat) : Answers (t.pathUpTo fuel i) := by
  induction fuel generalizing i with
  | zero => exact .refuse (by simp)
  | succ fuel ih =>
    rw [InstanceTree.pathUpTo]
    refine (answers_node t i).bind fun n => ?_
    cases n.parent with
    | none => exact .ok
    | some p => exact (ih p).bind fun _ => .ok

lemma answers_describe : Answers (t.describe i) := by
  refine Answers.bind ?_ fun _ => .ok
  refine (answers_pathUpTo t i _).bind fun path => .mapM (fun j => ?_) path
  exact (answers_node t j).bind fun _ => .ok

end Tree

namespace Graph

def contents (g : Graph) (id : RecordId) : List Payload :=
  match g.records.find? id with
  | some r => r.body.filterMap fun k => (g.records.find? k).map (·.payload)
  | none => []

variable {g : Graph} {id : RecordId} {r : Record} {payload : Payload}

lemma contents_of_holds (hr : g.Holds id r) :
    g.contents id = r.body.filterMap fun k => (g.records.find? k).map (·.payload) := by
  simp only [contents, show g.records.find? id = some r from hr]

lemma mem_contents (hg : g.Forest) (hr : g.Holds id r) :
    payload ∈ g.contents id ↔ ∃ k rk, g.Holds k rk ∧ rk.parent = some id ∧ rk.payload = payload := by
  simp only [contents_of_holds hr, List.mem_filterMap, Option.map_eq_some_iff]
  constructor
  · rintro ⟨k, hk, rk, hheld, rfl⟩
    obtain ⟨rk', hheld', hpar⟩ := hg.body_child hr hk
    obtain rfl := hheld'.unique hheld
    exact ⟨k, rk', hheld, hpar, rfl⟩
  · rintro ⟨k, rk, hheld, hpar, rfl⟩
    obtain ⟨_, r', hr', hk⟩ := hg.child_body hheld hpar
    obtain rfl := hr.unique hr'
    exact ⟨k, hk, rk, hheld, rfl⟩

lemma mapM_payload {ids : List RecordId} (hi : g.AllHeld ids) :
    (ids.map g.handle).mapM g.payload = .ok (ids.filterMap fun k => (g.records.find? k).map (·.payload)) := by
  induction ids with
  | nil => rfl
  | cons id ids ih =>
    obtain ⟨r, hr⟩ := hi id List.mem_cons_self
    rw [List.map_cons, List.mapM_cons, payload_handle hr, ih fun k hk => hi k (List.mem_cons_of_mem _ hk),
      List.filterMap_cons, show g.records.find? id = some r from hr]
    rfl

lemma mapM_body (hg : g.Forest) {h : Handle} (he : h.epoch = g.epoch) (ha : g.Accepts (some h.record)) :
    (do (← g.body h).mapM g.payload) = .ok (g.contents h.record) := by
  obtain ⟨r, hr, hb⟩ := ha
  have hbody : g.body h = .ok (r.body.map g.handle) := by
    simp only [body, bodyIds_of_holds he hr, hb, if_true, bind, Except.bind, pure, Except.pure]
  rw [hbody, contents_of_holds hr]
  exact mapM_payload (hg.allHeld_body hr)

end Graph

namespace Design

variable (s : Design) (d : DefId)

lemma answers_builtSymbol : Answers (s.builtSymbol d) := by
  rw [builtSymbol]
  split
  · exact .ok
  · exact .refuse (by simp)

lemma answers_resolveDefinition (x : String) : Answers (s.resolveDefinition x) := by
  rw [resolveDefinition]
  split
  · exact .ok
  · exact .refuse (by simp)

lemma answers_definition : Answers (s.definition d) := by
  rw [definition]
  split
  · exact .ok
  · exact .refuse (by simp)

lemma answers_nodeKinds (sites : List (String × Site)) : Answers (s.nodeKinds sites) := by
  induction sites with
  | nil => exact .ok
  | cons e sites ih =>
    rw [nodeKinds]
    refine Answers.bind ?_ fun _ => ih.bind fun _ => .ok
    cases e.2.kind with
    | module target => exact (answers_resolveDefinition s target).bind fun _ => .ok
    | _ => exact .ok

lemma answers_kindsFor (n : Node) : Answers (s.kindsFor n) := by
  rw [kindsFor]
  split
  · exact .ok
  · exact answers_nodeKinds s _

lemma answers_expectKind (i : InstanceId) (allowed : List InstanceKind) (action : String) :
    Answers (s.expectKind i allowed action) := by
  refine (answers_node s.tree i).bind fun n => ?_
  dsimp only
  split
  · exact .ok
  · exact .refuse (by simp)

lemma answers_checkLocation (l : Location) : Answers (s.checkLocation l) := by
  rw [checkLocation]
  split
  · exact .refuse (by simp)
  · split
    · exact .ok
    · exact .refuse (by simp)

lemma answers_checkLocations (ls : List Location) : Answers (s.checkLocations ls) := by
  induction ls with
  | nil => exact .ok
  | cons l ls ih => exact (answers_checkLocation s l).bind fun _ => ih

lemma answers_checkWidth (i : InstanceId) (v : LocationVector) : Answers (s.checkWidth i v) := by
  refine (answers_node s.tree i).bind fun n => ?_
  cases n.kind.type with
  | none => exact .ok
  | some type =>
    dsimp only
    split
    · exact .ok
    · exact .refuse (by simp)

lemma answers_ownerAt (l : Location) : Answers (s.ownerAt l) := by
  rw [ownerAt]
  split
  · exact .refuse (by simp)
  · split
    · exact .ok
    · split <;> exact .ok

variable {s} {α β : Type}

lemma finds_read {f : Design → Except Error α} {k : α → Action β} (h : Answers (f s))
    (hk : ∀ {a}, f s = .ok a → Finds Error.Lost (k a s)) : Finds Error.Lost ((Action.read f >>= k) s) := by
  cases hf : f s with
  | ok a =>
    rw [bind_of_ok (Action.read_ok hf)]
    exact hk hf
  | error e =>
    rw [bind_of_error (Action.read_error hf)]
    rw [hf] at h
    cases h with
    | error he => exact .error he

lemma finds_guarded_read {f : Design → Except Error α} {k : α → GuardedAction β} (h : Answers (f s))
    (hk : ∀ {a}, f s = .ok a → Finds Failure.Lost (k a s)) :
    Finds Failure.Lost ((Action.guarded (Action.read f) >>= k) s) := by
  cases hf : f s with
  | ok a =>
    rw [bind_of_ok (Action.guarded_ok (Action.read_ok hf))]
    exact hk hf
  | error e =>
    have hr : Action.guarded (Action.read f) s = .error (.error e) s := by rw [Action.guarded, Action.read_error hf]
    rw [bind_of_error hr]
    rw [hf] at h
    cases h with
    | error he => exact .error he

lemma finds_guarded {x : Action α} (h : Finds Error.Lost (x s)) : Finds Failure.Lost (Action.guarded x s) := by
  rw [Action.guarded]
  generalize x s = r at h
  cases h with
  | ok => exact .ok
  | error he => exact .error he

lemma Keeps.of_ok {resolving : Prop} {ε : Type} {P : α → Design → Prop} {r : EStateM.Result ε Design α} {a : α}
    {t : Design} (h : Keeps resolving s P r) (hr : r = .ok a t) : Changes resolving s t ∧ P a t := by
  subst hr
  exact ⟨h.changes, h.post rfl⟩

section Navigation

variable {i : InstanceId}

lemma finds_unbuilt (d : DefId) :
    Finds Error.Lost (.error (.notFound (.unbuilt d)) s : EStateM.Result Error Design α) :=
  .error (Error.not_lost (by simp))

lemma finds_moduleRecord (hs : s.Coherent) (d : DefId) : Finds Error.Lost (moduleRecord d s) := by
  cases hx : s.resolveSymbol d with
  | none =>
    rw [moduleRecord_unbuilt hx]
    exact finds_unbuilt d
  | some x =>
    rw [moduleRecord_built hs.views hx]
    exact .ok

lemma finds_sitesOf (hs : s.Coherent) (d : DefId) : Finds Error.Lost (sitesOf d s) := by
  cases hx : s.resolveSymbol d with
  | none =>
    rw [sitesOf_unbuilt hx]
    exact finds_unbuilt d
  | some x =>
    obtain ⟨t, ht, _⟩ := sitesOf_built hs hx
    rw [ht]
    exact .ok

lemma finds_children (hs : s.Coherent) (i : InstanceId) : Finds Error.Lost (children i s) := by
  cases hn : s.tree.node i with
  | error e =>
    rw [children_error hn]
    have hanswers := answers_node s.tree i
    rw [hn] at hanswers
    cases hanswers with
    | error he => exact .error he
  | ok n =>
    cases hc : n.children with
    | some c =>
      rw [children_set hn hc]
      exact .ok
    | none =>
      obtain ⟨t, _, heq⟩ := children_unset hs hn hc
      rw [heq]
      have hanswers := answers_kindsFor s n
      generalize s.kindsFor n = r at hanswers
      cases hanswers with
      | ok => exact .ok
      | error he => exact .error he

lemma finds_child (hs : s.Coherent) (i : InstanceId) (name : String) : Finds Error.Lost (child i name s) := by
  refine (finds_children hs i).bind fun {c t} _ => ?_
  cases c.find? name with
  | some j => exact .ok
  | none =>
    exact finds_read (answers_describe t.tree i) fun _ => .error (Error.not_lost (by simp))

lemma finds_rootOnce (hs : s.Coherent) {d : DefId} {x : String} (hx : s.resolveSymbol d = some x) :
    Finds Failure.Lost (rootOnce d s) := by
  rw [rootOnce, get_bind]
  cases s.records.rooted.contains d with
  | true => exact .ok
  | false =>
    rw [if_neg (by simp), modify_bind, createHierarchy_eq hs.views hx]
    split
    · exact .error id
    · exact .ok

lemma finds_getInstance (hs : s.Coherent) (d : DefId) : Finds Failure.Lost (getInstance d s) := by
  cases hr : s.tree.roots.find? d with
  | some i =>
    rw [getInstance_of_root hr]
    exact .ok
  | none =>
    rw [getInstance, get_bind, hr]
    refine finds_guarded_read (answers_builtSymbol s d) fun hb => ?_
    have hx := resolveSymbol_of_builtSymbol hb
    have hroot : Change False s { s with tree := s.tree.addRoot d } := .root hx hr
    have ha : Action.guarded (addRoot d) s = .ok s.tree.nextId { s with tree := s.tree.addRoot d } := rfl
    rw [liftM_eq, bind_of_ok ha]
    exact (finds_rootOnce (hroot.coherent hs).1 hx).bind fun _ => .ok

end Navigation

section Backing

variable {i : InstanceId} {n : Node} {owner : Handle} {site : SiteRef}

lemma finds_hierarchyRecord (hs : s.Coherent) (d : DefId) : Finds Error.Lost (hierarchyRecord d s) := by
  cases hx : s.resolveSymbol d with
  | none =>
    rw [hierarchyRecord_unbuilt hx]
    exact finds_unbuilt d
  | some x =>
    rw [hierarchyRecord_built hs.views hx]
    exact .ok

lemma finds_doesNotExist : Finds Error.Lost (doesNotExist (α := α) i s) :=
  finds_read (answers_describe s.tree i) fun _ => .error (Error.not_lost (by simp))

lemma finds_nestedRecord (hs : s.Coherent) (hn : s.Nesting i n owner site) :
    Finds Error.Lost (nestedRecord owner site s) := by
  obtain ⟨p, _, hstands⟩ := hn.owner
  obtain ⟨h, t, ht⟩ := exists_nestedRecord hs hn.epoch hstands.accepts site
  rw [ht]
  exact .ok

lemma finds_newRecord (hs : s.Coherent) {p : InstanceId} {name : String} {up : Action Handle}
    (hn : s.tree.node i = .ok n) (hp : n.parent = some p) (hname : n.name = some name)
    (hsited : (s.siteTable n.insideOf).contains name = true) (hup : Finds Error.Lost (up s))
    (hkeeps : Keeps False s (s.Recorded p) (up s)) :
    Finds Error.Lost ((do
      let owner ← up
      let symbol ← Action.read (·.builtSymbol n.insideOf)
      let h ← nestedRecord owner ⟨symbol, name⟩
      modify (·.setRecord i h)
      return h : Action Handle) s) := by
  refine hup.bind fun {owner t} ht => ?_
  obtain ⟨hc, ho⟩ := hkeeps.of_ok ht
  obtain ⟨htc, he⟩ := hc.coherent hs
  refine finds_read (answers_builtSymbol t n.insideOf) fun hb => ?_
  obtain ⟨c, hnest⟩ := ho.nesting hs he hn hp hname hsited (resolveSymbol_of_builtSymbol hb)
  exact (finds_nestedRecord htc hnest).bind fun _ => .ok

lemma finds_rootRecord (hs : s.Coherent) (n : Node) :
    Finds Error.Lost ((do
      match ← hierarchyRecord n.insideOf with
      | some h => return h
      | none => doesNotExist i : Action Handle) s) := by
  refine (finds_hierarchyRecord hs n.insideOf).bind fun {h t} _ => ?_
  cases h with
  | some h => exact .ok
  | none => exact finds_doesNotExist

lemma finds_recordUpTo (hs : s.Coherent) (fuel : Nat) (i : InstanceId) : Finds Error.Lost (recordUpTo fuel i s) := by
  induction fuel generalizing s i with
  | zero => exact .error (Error.not_lost (by simp))
  | succ fuel ih =>
    rw [recordUpTo]
    refine finds_read (answers_node s.tree i) fun {n} hnode => ?_
    have hn : s.tree.node i = .ok n := hnode
    rcases hs.shaped.nodes (InstanceTree.node_eq.mp hn).2 with hroot | ⟨name, p, _, _, hc⟩
    · rw [hroot.parent, hroot.name]
      exact finds_rootRecord hs n
    · obtain ⟨x, hx⟩ := hs.targets hc.above hc.insideOf
      obtain ⟨t, ht, hscan⟩ := sitesOf_built hs hx
      have htc := hscan.coherent hs
      have hn' : t.tree.node i = .ok n := hscan.tree ▸ hn
      rw [hc.parent, hc.name]
      refine (congrArg (Finds Error.Lost) (bind_of_ok ht)).mpr ?_
      cases hsited : (s.siteTable n.insideOf).contains name with
      | false => exact finds_doesNotExist
      | true =>
        rw [if_pos rfl, get_bind]
        cases t.records.instances.find? i with
        | some h => exact .ok
        | none =>
          exact finds_newRecord htc hn' hc.parent hc.name (hscan.siteTable _ ▸ hsited) (ih htc _)
            (keeps_recordUpTo htc fuel _)

lemma finds_getOrCreateRecord (hs : s.Coherent) (i : InstanceId) : Finds Error.Lost (getOrCreateRecord i s) :=
  finds_recordUpTo hs _ i

end Backing

section Resolving

variable {h : Handle} {r : Record}

lemma lineage_finds {g : Graph} (hg : g.Forest) {fuel : Nat} (he : h.epoch = g.epoch) (hr : g.Holds h.record r)
    (hf : h.record.index < fuel) {e : Failure} (hl : g.lineage fuel h = .error e) : ¬ e.Lost := by
  induction fuel generalizing h r with
  | zero => exact absurd hf (Nat.not_lt_zero _)
  | succ fuel ih =>
    rw [Graph.lineage, Graph.payload_of_holds he hr] at hl
    cases hp : r.payload with
    | hierarchy top => simp [hp] at hl
    | dynamicInstance site =>
      rw [hp, Graph.parent_of_holds he hr] at hl
      cases hpar : r.parent with
      | none =>
        simp only [hpar, Option.map_none] at hl
        cases hl
        exact id
      | some p =>
        obtain ⟨hlt, rp, hrp, _⟩ := hg.child_body hr hpar
        simp only [hpar, Option.map_some] at hl
        cases hrest : g.lineage fuel (g.handle p) with
        | ok found => simp [hrest, bind, Except.bind, pure, Except.pure] at hl
        | error e' =>
          simp only [hrest, bind, Except.bind] at hl
          cases hl
          exact ih (h := g.handle p) rfl hrp (Nat.lt_of_lt_of_le hlt (Nat.le_of_lt_succ hf)) hrest
    | _ =>
      rw [hp] at hl
      cases hl
      exact id

lemma finds_stepsDown (hs : s.Coherent) {id : RecordId} {top : String} {steps : List (String × Handle)}
    (hl : s.graph.Lineage id top steps) {d : DefId} {root : InstanceId} (hd : s.registry.definitionOf top = some d)
    (hroot : s.tree.roots.find? d = some root) : Finds Failure.Lost (steps.foldlM stepDown root s) := by
  induction hl with
  | hierarchy => exact .ok
  | dynamic _ _ _ _ hrest ih =>
    rw [List.foldlM_append]
    refine (ih hd).bind fun {p t} ht => ?_
    obtain ⟨hc, _⟩ := (keeps_stepsDown hs hrest hd hroot).of_ok ht
    rw [List.foldlM_cons]
    refine Finds.bind ?_ fun _ => .ok
    exact (finds_guarded (finds_child (hc.coherent hs).1 p _)).bind fun _ => .ok

lemma finds_resolveNode (hs : s.Coherent) (he : h.epoch = s.graph.epoch) (hr : s.graph.Holds h.record r) :
    Finds Failure.Lost (resolveNode h s) := by
  rw [resolveNode, get_bind]
  cases hl : s.graph.lineage (h.record.index + 1) h with
  | error e => exact .error (lineage_finds hs.forest he hr (Nat.lt_succ_self _) hl)
  | ok found =>
    obtain ⟨_, hlineage⟩ := Graph.lineage_ok hl
    refine finds_guarded_read (answers_resolveDefinition s found.1) fun {d} hd => ?_
    have hd : s.registry.definitionOf found.1 = some d := by
      rw [resolveDefinition] at hd
      split at hd
      case h_1 heq => rw [heq, Except.ok.inj hd]
      case h_2 => cases hd
    refine (finds_getInstance hs d).bind fun {root t} hroot => ?_
    have hkeeps : Keeps False s _ _ := keeps_getInstance hs d
    obtain ⟨hc, hroot⟩ := hkeeps.of_ok hroot
    obtain ⟨ht, hext⟩ := hc.coherent hs
    exact finds_stepsDown ht (hlineage.grows hext.graph) (hext.definitions hd) hroot

end Resolving

section Placing

variable {payload : Payload}

lemma finds_createPlacementDatabase (hs : s.Coherent) (device : Option Device) :
    Finds Error.Lost (createPlacementDatabase device s) := by
  rw [createPlacementDatabase, get_bind]
  cases s.placements with
  | some index => exact .ok
  | none =>
    obtain ⟨index, hi⟩ := Graph.placementIndex_ok hs.forest device
    refine (congrArg (Finds Error.Lost) (bind_of_ok (Action.readGraph_ok hi))).mpr ?_
    exact .ok

lemma finds_addLocations (hs : s.Coherent) (i : InstanceId) : Finds Error.Lost (addLocations i payload s) := by
  refine (finds_getOrCreateRecord hs i).bind fun {owner t} ht => ?_
  have hkeeps : Keeps False s _ _ := keeps_getOrCreateRecord hs i
  obtain ⟨hc, ho⟩ := hkeeps.of_ok ht
  exact (congrArg (Finds Error.Lost) (Action.createIn_bind ho.epoch ho.stands.accepts payload _)).mpr .ok

lemma finds_addAttribute (hs : s.Coherent) (i : InstanceId) (name value : String) (subPath : SubPath) :
    Finds Error.Lost (addAttribute i name value subPath s) := by
  rw [addAttribute_eq]
  exact finds_addLocations hs i

lemma finds_place (hs : s.Coherent) (i : InstanceId) (l : Location) (subPath : SubPath) :
    Finds Error.Lost (place i l subPath s) :=
  finds_read (answers_expectKind s i _ _) fun _ => finds_read (answers_checkLocation s l) fun _ =>
    finds_addLocations hs i

lemma finds_placeRegister (hs : s.Coherent) (i : InstanceId) (v : LocationVector) :
    Finds Error.Lost (placeRegister i v s) :=
  finds_read (answers_expectKind s i _ _) fun _ => finds_read (answers_checkWidth s i v) fun _ =>
    finds_read (answers_checkLocations s v.placed) fun _ => finds_addLocations hs i

lemma payloadsOf_eq (hs : s.Coherent) {h : Handle} {t : Design} (hr : getOrCreateRecord i s = .ok h t) :
    payloadsOf i s = .ok (t.graph.contents h.record) t := by
  have hkeeps : Keeps False s _ _ := keeps_getOrCreateRecord hs i
  obtain ⟨hc, ho⟩ := hkeeps.of_ok hr
  have hread := Graph.mapM_body (hc.coherent hs).1.forest ho.epoch ho.stands.accepts
  exact (bind_of_ok hr).trans (Action.readGraph_ok hread)

lemma finds_payloadsOf (hs : s.Coherent) (i : InstanceId) : Finds Error.Lost (payloadsOf i s) := by
  have hfinds := finds_getOrCreateRecord hs i
  cases hr : getOrCreateRecord i s with
  | ok h t =>
    rw [payloadsOf_eq hs hr]
    exact .ok
  | error e t =>
    rw [hr] at hfinds
    rw [payloadsOf, bind_of_error hr]
    cases hfinds with
    | error he => exact .error he

lemma ownerAt_ok (hg : s.graph.Forest) {l : Location} {owner : Handle} {subPath : SubPath}
    (h : s.ownerAt l = .ok (some (owner, subPath))) :
    owner.epoch = s.graph.epoch ∧ ∃ r, s.graph.Holds owner.record r := by
  rw [ownerAt] at h
  split at h
  case h_1 => cases h
  case h_2 index _ =>
    split at h
    case h_1 => cases h
    case h_2 claim _ =>
      cases hr : s.graph.records.find? claim.record with
      | none => simp [Graph.recordOf, hr] at h
      | some r =>
        simp only [Graph.recordOf, hr, Except.ok.injEq, Option.map_eq_some_iff, Prod.mk.injEq] at h
        obtain ⟨p, hpar, rfl, _⟩ := h
        obtain ⟨_, rp, hrp, _⟩ := hg.child_body hr hpar
        exact ⟨rfl, rp, hrp⟩

lemma finds_instanceAt (hs : s.Coherent) (l : Location) : Finds Failure.Lost (instanceAt l s) := by
  refine finds_guarded_read (answers_ownerAt s l) fun {found} hfound => ?_
  cases found with
  | none => exact .ok
  | some found =>
    obtain ⟨he, r, hr⟩ := ownerAt_ok hs.forest hfound
    exact (finds_resolveNode hs he hr).bind fun _ => .ok

end Placing

end Design

end HardwareDesign
