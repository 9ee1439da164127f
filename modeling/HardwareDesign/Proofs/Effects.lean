import HardwareDesign.Proofs.Acting

namespace HardwareDesign.Design

variable {powers : Powers} {s t : Design} {log : List Allocation}

def withPlacements (placements : Option PlacementIndex) (s : Design) : Design := { s with placements }

def onState {ε σ α : Type} (f : σ → σ) : EStateM.Result ε σ α → EStateM.Result ε σ α
  | .ok a s => .ok a (f s)
  | .error e s => .error e (f s)

section Combining

variable {ε α β : Type}

def Blind (s : Design) (x : EStateM ε Design α) : Prop :=
  ∀ placements, x (s.withPlacements placements) = onState (withPlacements placements) (x s)

lemma Blind.bind_of {x : EStateM ε Design α} {f : α → EStateM ε Design β} (hx : Blind s x)
    (hf : ∀ {a t}, x s = .ok a t → Blind t (f a)) : Blind s (x >>= f) := by
  intro placements
  have hs := hx placements
  cases hr : x s with
  | ok a t =>
    rw [hr] at hs
    rw [bind_of_ok hr, bind_of_ok hs]
    exact hf hr placements
  | error e t =>
    rw [hr] at hs
    rw [bind_of_error hr, bind_of_error hs]
    rfl

lemma blind_read {f : Design → Except Error α} (hf : ∀ placements, f (s.withPlacements placements) = f s) :
    Blind s (Action.read f) := by
  intro placements
  rw [Action.read, Action.read, hf]
  cases f s <;> rfl

lemma acts_bind {x : EStateM ε Design α} {f : α → EStateM ε Design β} (hx : s.Acts powers log (endState (x s)))
    (hf : ∀ {a t}, x s = .ok a t → t.Acts powers [] (endState (f a t))) :
    s.Acts powers log (endState ((x >>= f) s)) := by
  cases hr : x s with
  | ok a t =>
    rw [hr] at hx
    rw [bind_of_ok hr]
    exact List.append_nil log ▸ hx.trans (hf hr)
  | error e t =>
    rw [hr] at hx
    rw [bind_of_error hr]
    exact hx

lemma acts_read (f : Design → Except Error α) : s.Acts powers [] (endState (Action.read f s)) := by
  rw [Action.read]
  cases f s <;> exact .refl

lemma acts_guarded {x : Action α} (h : s.Acts powers log (endState (x s))) :
    s.Acts powers log (endState (Action.guarded x s)) := by
  rw [Action.guarded]
  cases hr : x s <;> simpa [hr, endState] using h

/-- Whatever the ending is, no symbol has been allocated, and the placement database has made no difference. -/
structure Silent (powers : Powers) (s : Design) (x : EStateM ε Design α) : Prop where
  acts : s.Acts powers [] (endState (x s))
  blind : Blind s x

lemma Silent.bind_of {x : EStateM ε Design α} {f : α → EStateM ε Design β} (hx : Silent powers s x)
    (hf : ∀ {a t}, x s = .ok a t → Silent powers t (f a)) : Silent powers s (x >>= f) :=
  ⟨acts_bind hx.acts fun hr => (hf hr).acts, hx.blind.bind_of fun hr => (hf hr).blind⟩

lemma Silent.bind {x : EStateM ε Design α} {f : α → EStateM ε Design β} (hx : Silent powers s x)
    (hf : ∀ (a : α) (t : Design), Silent powers t (f a)) : Silent powers s (x >>= f) :=
  hx.bind_of fun _ => hf _ _

lemma silent_pure (a : α) : Silent powers s (pure a : EStateM ε Design α) := ⟨.refl, fun _ => rfl⟩

lemma silent_throw (e : ε) : Silent powers s (throw e : EStateM ε Design α) := ⟨.refl, fun _ => rfl⟩

lemma silent_get {f : Design → EStateM ε Design β} (h : Silent powers s (f s))
    (hf : ∀ placements, f (s.withPlacements placements) = f s) : Silent powers s (get >>= f) := by
  refine ⟨h.acts, fun placements => ?_⟩
  rw [get_bind, get_bind, hf]
  exact h.blind placements

lemma silent_modify {f : Design → Design} (h : s.Acts powers [] (f s))
    (hf : ∀ placements, f (s.withPlacements placements) = (f s).withPlacements placements) :
    Silent powers s (modify f : EStateM ε Design PUnit) :=
  ⟨h, fun placements => congrArg (EStateM.Result.ok PUnit.unit) (hf placements)⟩

lemma silent_read {f : Design → Except Error α} (hf : ∀ placements, f (s.withPlacements placements) = f s) :
    Silent powers s (Action.read f) :=
  ⟨acts_read f, blind_read hf⟩

lemma silent_readGraph (f : Graph → Except GraphError α) : Silent powers s (Action.readGraph f) := by
  refine ⟨?_, fun placements => ?_⟩
  · rw [Action.readGraph]
    cases f s.graph <;> exact .refl
  · have hg : (s.withPlacements placements).graph = s.graph := rfl
    rw [Action.readGraph, Action.readGraph, hg]
    cases f s.graph <;> rfl

lemma blind_editGraph (f : Graph → Except GraphError (α × Graph)) : Blind s (Action.editGraph f) := by
  intro placements
  have hg : (s.withPlacements placements).graph = s.graph := rfl
  rw [Action.editGraph, Action.editGraph, hg]
  cases f s.graph <;> rfl

lemma silent_createIn (hcreates : powers.creates) (owner : Handle) (payload : Payload) (hp : payload.Plain)
    (hn : payload.symbolName = none ∨ powers.generates) :
    Silent powers s (Action.editGraph (·.createIn owner payload)) := by
  refine ⟨?_, blind_editGraph _⟩
  rw [Action.editGraph]
  cases hc : s.graph.createIn owner payload with
  | ok found => exact Acts.refl.create hcreates hn hc hp
  | error e => exact .refl

lemma Silent.guarded {x : Action α} (h : Silent powers s x) : Silent powers s (Action.guarded x) := by
  refine ⟨acts_guarded h.acts, fun placements => ?_⟩
  rw [Action.guarded, Action.guarded, h.blind placements]
  cases x s <;> rfl

end Combining

section Navigation

lemma silent_lookupSymbol (symbol : String) : Silent powers s (lookupSymbol symbol) :=
  ⟨Acts.refl.scan, fun _ => rfl⟩

lemma silent_moduleRecord (d : DefId) : Silent powers s (moduleRecord d) :=
  (silent_read fun _ => rfl).bind fun x _ => silent_lookupSymbol x

lemma silent_sitesOf (d : DefId) : Silent powers s (sitesOf d) := by
  refine (silent_moduleRecord d).bind fun m t => ?_
  cases m with
  | none => exact silent_pure _
  | some m =>
    refine silent_get ?_ fun _ => rfl
    cases t.sites.find? m.record with
    | some sites => exact silent_pure _
    | none =>
      refine (silent_readGraph _).bind_of fun hr => ?_
      obtain ⟨rfl, hsites⟩ := Action.of_readGraph hr
      exact (silent_modify (Acts.refl.index hsites) fun _ => rfl).bind fun _ _ => silent_pure _

lemma sitesOf_remembered {d : DefId} {sites : Sites} (h : sitesOf d s = .ok sites t) :
    t.tree = s.tree ∧ (sites = {} ∨ ∃ id, t.sites.find? id = some sites) := by
  obtain ⟨m, t₁, hm, h⟩ := ok_of_bind h
  obtain ⟨x, t₂, hx, hlookup⟩ := ok_of_bind hm
  obtain ⟨rfl, -⟩ := Action.of_read hx
  cases hlookup
  cases hf : (s.symbols.scanned s.graph).find? x with
  | none =>
    rw [hf] at h
    cases h
    exact ⟨rfl, .inl rfl⟩
  | some m =>
    simp only [hf, get_bind] at h
    cases hs : s.scanSymbols.sites.find? m.record with
    | some found =>
      rw [hs] at h
      cases h
      exact ⟨rfl, .inr ⟨m.record, hs⟩⟩
    | none =>
      rw [hs] at h
      obtain ⟨found, t₃, hr, hset⟩ := ok_of_bind h
      obtain ⟨rfl, -⟩ := Action.of_readGraph hr
      cases hset
      exact ⟨rfl, .inr ⟨m.record, Table.find?_insert_self _ _ _⟩⟩

lemma offers_of_sites {n : Node} {sites : Sites} {kinds : List (String × NodeKind)} (hd : n.kind.target.isSome)
    (hs : sites = {} ∨ ∃ id, s.sites.find? id = some sites) (hk : s.nodeKinds sites.entries = .ok kinds) :
    s.Offers n kinds := by
  have hkeys : kinds.map Prod.fst = sites.keys := keys_of_kinds (nodeKinds_ok hk)
  rcases hs with rfl | ⟨id, hid⟩
  · exact .inl (List.map_eq_nil_iff.mp hkeys)
  · exact .inr ⟨hd, id, sites, hid, hkeys⟩

lemma children_new {i : InstanceId} {n : Node} (hn : s.tree.node i = .ok n) (hc : n.children = none) :
    ∃ t, s.Acts powers [] t ∧ ((∃ e, children i s = .error e t) ∨
      t.tree = s.tree ∧ ∃ kinds, t.Offers n kinds ∧ children i s =
        .ok (InstanceTree.addChildren i n.root (n.kind.target.getD n.insideOf) kinds {} t.tree).1
          (t.expanded i n kinds)) := by
  rw [children, bind_of_ok (Action.read_ok hn), hc]
  dsimp only
  cases hd : n.kind.target with
  | none =>
    have hnew : newChildren i n s = .ok {} s := by
      rw [newChildren, hd]
      rfl
    refine ⟨s, .refl, .inr ⟨rfl, [], .inl rfl, ?_⟩⟩
    rw [bind_of_ok hnew, expanded, InstanceTree.extend, hc]
    rfl
  | some d =>
    have hsites : s.Acts powers [] _ := (silent_sitesOf d).acts
    cases hr : sitesOf d s with
    | error e t =>
      have hnew : newChildren i n s = .error e t := by
        rw [newChildren, hd]
        exact bind_of_error hr
      rw [hr] at hsites
      exact ⟨t, hsites, .inl ⟨e, bind_of_error hnew⟩⟩
    | ok sites t =>
      rw [hr] at hsites
      obtain ⟨htree, hremembered⟩ := sitesOf_remembered hr
      refine ⟨t, hsites, ?_⟩
      cases hk : t.nodeKinds sites.entries with
      | error e =>
        have hnew : newChildren i n s = .error e t := by
          rw [newChildren, hd]
          exact (bind_of_ok hr).trans (bind_of_error (Action.read_error hk))
        exact .inl ⟨e, bind_of_error hnew⟩
      | ok kinds =>
        have hnew : newChildren i n s = .ok (InstanceTree.addChildren i n.root d kinds {} t.tree).1
            { t with tree := (InstanceTree.addChildren i n.root d kinds {} t.tree).2 } := by
          rw [newChildren, hd]
          exact (bind_of_ok hr).trans (bind_of_ok (Action.read_ok hk))
        refine .inr ⟨htree, kinds, offers_of_sites (hd ▸ rfl) hremembered hk, ?_⟩
        rw [bind_of_ok hnew, expanded, InstanceTree.extend, hc, hd]
        rfl

lemma acts_children (i : InstanceId) : s.Acts powers [] (endState (children i s)) := by
  cases hn : s.tree.node i with
  | error e =>
    rw [children_error hn]
    exact .refl
  | ok n =>
    cases hc : n.children with
    | some c =>
      rw [children_set hn hc]
      exact .refl
    | none =>
      -- the nodes are made before the parent lists them, so only both together are an act
      obtain ⟨t, ht, ⟨e, he⟩ | ⟨htree, kinds, hk, he⟩⟩ := children_new hn hc
      · rw [he]
        exact ht
      · rw [he]
        exact ht.expand (htree ▸ hn) hc hk

lemma nodeKinds_withPlacements (s : Design) (placements : Option PlacementIndex) (sites : List (String × Site)) :
    (s.withPlacements placements).nodeKinds sites = s.nodeKinds sites := by
  induction sites with
  | nil => rfl
  | cons e sites ih =>
    have hkind : (s.withPlacements placements).nodeKind e.2.kind = s.nodeKind e.2.kind := by
      cases e.2.kind <;> rfl
    rw [nodeKinds, nodeKinds, hkind, ih]

lemma blind_newChildren (i : InstanceId) (n : Node) : Blind s (newChildren i n) := by
  rw [newChildren]
  cases n.kind.target with
  | none => exact fun _ => rfl
  | some target =>
    have hsites : Silent {} s (sitesOf target) := silent_sitesOf target
    refine hsites.blind.bind_of fun {_ t} _ => ?_
    exact (blind_read fun placements => nodeKinds_withPlacements t placements _).bind_of fun _ _ => rfl

lemma silent_children (i : InstanceId) : Silent powers s (children i) := by
  refine ⟨acts_children i, (blind_read fun _ => rfl).bind_of fun {n t} _ => ?_⟩
  cases n.children with
  | some c => exact fun _ => rfl
  | none => exact (blind_newChildren i n).bind_of fun _ _ => rfl

lemma silent_child (i : InstanceId) (name : String) : Silent powers s (child i name) := by
  refine (silent_children i).bind fun c t => ?_
  cases c.find? name with
  | some j => exact silent_pure _
  | none => exact (silent_read fun _ => rfl).bind fun _ _ => silent_throw _

end Navigation

section Backing

lemma silent_hierarchyRecord (d : DefId) : Silent powers s (hierarchyRecord d) :=
  (silent_read fun _ => rfl).bind fun _ _ =>
    silent_get ((silent_modify (Acts.refl.keep rfl id) fun _ => rfl).bind fun _ _ => silent_pure _) fun _ => rfl

lemma silent_doesNotExist {α : Type} (i : InstanceId) : Silent powers s (doesNotExist (α := α) i) :=
  (silent_read fun _ => rfl).bind fun _ _ => silent_throw _

lemma silent_nestedIndex (owner : Handle) : Silent powers s (nestedIndex owner) := by
  refine silent_get ?_ fun _ => rfl
  cases s.records.nested.find? owner.record with
  | some index => exact silent_pure _
  | none =>
    refine (silent_readGraph _).bind fun _ _ => .bind (silent_modify ?_ fun _ => rfl) fun _ _ => silent_pure _
    exact Acts.refl.keep rfl (.setNested _ _)

section Creating

variable (hcreates : powers.creates)
include hcreates

lemma silent_addHierarchy (x : String) (index : Table String Handle) : Silent powers s (addHierarchy x index) := by
  have hcreated : s.Acts powers [] _ := Acts.refl.hierarchy x hcreates
  exact .bind ⟨hcreated, blind_editGraph _⟩ fun _ _ => silent_modify (Acts.refl.keep rfl id) fun _ => rfl

lemma silent_createHierarchy (d : DefId) : Silent powers s (createHierarchy d) := by
  refine (silent_read fun _ => rfl).guarded.bind fun x t => silent_get ?_ fun _ => rfl
  refine (silent_modify (Acts.refl.keep rfl id) fun _ => rfl).bind fun _ u => ?_
  cases t.scannedHierarchies.contains x with
  | true => exact silent_throw _
  | false => exact (silent_addHierarchy hcreates x t.scannedHierarchies).guarded

lemma silent_rootOnce (d : DefId) : Silent powers s (rootOnce d) := by
  refine silent_get ?_ fun _ => rfl
  cases s.records.rooted.contains d with
  | true => exact silent_pure _
  | false =>
    exact (silent_modify (Acts.refl.keep rfl id) fun _ => rfl).bind fun _ _ => silent_createHierarchy hcreates d

lemma silent_getInstance (d : DefId) : Silent powers s (getInstance d) := by
  refine silent_get ?_ fun _ => rfl
  cases hr : s.tree.roots.find? d with
  | some i => exact silent_pure _
  | none =>
    refine (silent_read fun _ => rfl).guarded.bind_of fun {_ t} hx => ?_
    obtain ⟨rfl, -⟩ := Action.of_read (Action.of_guarded hx)
    have hadd : Silent powers s (addRoot d) := ⟨Acts.refl.root hr, fun _ => rfl⟩
    exact hadd.guarded.bind fun _ _ => (silent_rootOnce hcreates d).bind fun _ _ => silent_pure _

lemma silent_nestedRecord (owner : Handle) (site : SiteRef) : Silent powers s (nestedRecord owner site) := by
  refine (silent_nestedIndex owner).bind fun index t => ?_
  cases index.find? site with
  | some h => exact silent_pure _
  | none =>
    refine (silent_createIn hcreates owner (.dynamicInstance site) trivial (.inl rfl)).bind fun _ _ => ?_
    exact (silent_modify (Acts.refl.keep rfl (.setNested _ _)) fun _ => rfl).bind fun _ _ => silent_pure _

lemma silent_recordUpTo (fuel : Nat) (i : InstanceId) : Silent powers s (recordUpTo fuel i) := by
  induction fuel generalizing s i with
  | zero => exact silent_throw _
  | succ fuel ih =>
    refine (silent_read fun _ => rfl).bind fun n t => ?_
    cases n.parent <;> cases n.name
    case some.some parent name =>
      refine (silent_sitesOf n.insideOf).bind fun sites u => ?_
      cases sites.contains name with
      | false => exact silent_doesNotExist i
      | true =>
        refine silent_get ?_ fun _ => rfl
        cases u.records.instances.find? i with
        | some h => exact silent_pure _
        | none =>
          refine (ih parent).bind fun owner u => (silent_read fun _ => rfl).bind fun x u => ?_
          refine (silent_nestedRecord hcreates owner ⟨x, name⟩).bind fun h u => ?_
          refine (silent_modify (Acts.refl.keep rfl fun hu => ?_) fun _ => rfl).bind fun _ _ => silent_pure _
          exact ⟨hu.1, hu.2.1, Table.nodup_keys_insert _ _ hu.2.2⟩
    all_goals
      refine (silent_hierarchyRecord n.insideOf).bind fun h u => ?_
      cases h with
      | some h => exact silent_pure _
      | none => exact silent_doesNotExist i

lemma silent_getOrCreateRecord (i : InstanceId) : Silent powers s (getOrCreateRecord i) :=
  silent_recordUpTo hcreates _ i

omit hcreates in
lemma silent_stepsDown (steps : List (String × Handle)) (i : InstanceId) :
    Silent powers s (steps.foldlM stepDown i) := by
  induction steps generalizing s i with
  | nil => exact silent_pure _
  | cons step steps ih =>
    rw [List.foldlM_cons]
    refine Silent.bind ?_ fun j t => ih j
    refine (silent_child i step.1).guarded.bind fun j t => ?_
    refine (silent_modify (Acts.refl.keep rfl fun ht => ?_) fun _ => rfl).bind fun _ _ => silent_pure _
    exact ⟨ht.1, ht.2.1, Table.nodup_keys_insertNew _ _ ht.2.2⟩

lemma silent_resolveNode (h : Handle) : Silent powers s (resolveNode h) := by
  refine silent_get ?_ fun _ => rfl
  cases s.graph.lineage (h.record.index + 1) h with
  | error e => exact silent_throw _
  | ok found =>
    refine (silent_read fun _ => rfl).guarded.bind fun d t => (silent_getInstance hcreates d).bind fun root u => ?_
    exact silent_stepsDown found.2 root

end Creating

lemma acts_of_getOrCreateRecord {i : InstanceId} {h : Handle} (hr : getOrCreateRecord i s = .ok h t) :
    s.Acts { creates := True } [] t := by
  have hacts : s.Acts { creates := True } [] _ := (silent_getOrCreateRecord trivial i).acts
  rwa [hr] at hacts

end Backing

section Placing

lemma acts_createPlacementDatabase (device : Option Device) :
    s.Acts powers [] (endState (createPlacementDatabase device s)) := by
  rw [createPlacementDatabase, get_bind]
  cases hp : s.placements with
  | some index => exact .refl
  | none =>
    refine acts_bind (silent_readGraph (PlacementIndex.ofGraph device)).acts fun hr => ?_
    obtain ⟨rfl, hi⟩ := Action.of_readGraph hr
    exact Acts.refl.database hp hi

variable (hcreates : powers.creates)
include hcreates

lemma silent_payloadsOf (i : InstanceId) : Silent powers s (payloadsOf i) :=
  (silent_getOrCreateRecord hcreates i).bind fun _ _ => silent_readGraph _

lemma acts_instanceAt (l : Location) : s.Acts powers [] (endState (instanceAt l s)) := by
  refine acts_bind (acts_guarded (acts_read _)) fun {found t} _ => ?_
  cases found with
  | none => exact .refl
  | some found => exact ((silent_resolveNode hcreates found.1).bind fun _ _ => silent_pure _).acts

lemma silent_addAttribute (i : InstanceId) (name value : String) (subPath : SubPath) :
    Silent powers s (addAttribute i name value subPath) :=
  (silent_getOrCreateRecord hcreates i).bind fun owner _ =>
    (silent_createIn hcreates owner (.verbatim name value subPath) trivial (.inl rfl)).bind fun _ _ => silent_pure _

variable (hplaces : powers.places)
include hplaces

lemma acts_addLocations (i : InstanceId) {payload : Payload} (hn : payload.symbolName = none) :
    s.Acts powers [] (endState (addLocations i payload s)) := by
  refine acts_bind (silent_getOrCreateRecord hcreates i).acts fun {owner t} _ => ?_
  cases hc : t.graph.createIn owner payload with
  | ok found =>
    rw [bind_of_ok (Action.editGraph_ok (f := (·.createIn owner payload)) hc)]
    exact Acts.refl.note hplaces hcreates hn hc
  | error e =>
    rw [bind_of_error (Action.editGraph_error (f := (·.createIn owner payload)) hc)]
    exact .refl

lemma acts_place (i : InstanceId) (l : Location) (subPath : SubPath) :
    s.Acts powers [] (endState (place i l subPath s)) :=
  acts_bind (acts_read _) fun _ => acts_bind (acts_read _) fun _ => acts_addLocations hcreates hplaces i rfl

lemma acts_placeRegister (i : InstanceId) (v : LocationVector) :
    s.Acts powers [] (endState (placeRegister i v s)) :=
  acts_bind (acts_read _) fun _ => acts_bind (acts_read _) fun _ => acts_bind (acts_read _) fun _ =>
    acts_addLocations hcreates hplaces i rfl

end Placing

end HardwareDesign.Design
