import HardwareDesign.Proofs.Scanning

namespace HardwareDesign.Design

variable {s t : Design} {i : InstanceId} {n : Node}

lemma nodeKind_congr (hr : t.registry = s.registry) (k : SiteKind) : t.nodeKind k = s.nodeKind k := by
  cases k <;> simp only [nodeKind, resolveDefinition, hr]

lemma nodeKinds_congr (hr : t.registry = s.registry) (sites : List (String × Site)) :
    t.nodeKinds sites = s.nodeKinds sites := by
  induction sites with
  | nil => rfl
  | cons e sites ih => simp only [nodeKinds, nodeKind_congr hr, ih]

lemma Scanned.kindsFor (h : s.Scanned t) (n : Node) : t.kindsFor n = s.kindsFor n := by
  cases hd : n.kind.target with
  | none => simp only [Design.kindsFor, hd]
  | some d => simp only [Design.kindsFor, hd, h.siteTable, nodeKinds_congr h.registry]

section Children

lemma newChildren_eq (hs : s.Coherent) (hn : s.tree.node i = .ok n) :
    ∃ t, s.Scanned t ∧ newChildren i n s =
      match s.kindsFor n with
      | .error e => .error e t
      | .ok kinds => .ok (InstanceTree.addChildren i n.root (n.kind.target.getD n.insideOf) kinds {} t.tree).1
          { t with tree := (InstanceTree.addChildren i n.root (n.kind.target.getD n.insideOf) kinds {} t.tree).2 } := by
  cases hd : n.kind.target with
  | none =>
    refine ⟨s, .refl hs.views, ?_⟩
    simp only [newChildren, kindsFor, hd]
    rfl
  | some d =>
    obtain ⟨x, hx⟩ := hs.targets (InstanceTree.node_eq.mp hn).2 hd
    obtain ⟨t, ht, hscan⟩ := sitesOf_built hs hx
    refine ⟨t, hscan, ?_⟩
    simp only [newChildren, kindsFor, hd]
    rw [bind_of_ok ht]
    cases hk : s.nodeKinds (s.siteTable d).entries with
    | error e => rw [bind_of_error (Action.read_error ((nodeKinds_congr hscan.registry _).trans hk))]
    | ok kinds =>
      rw [bind_of_ok (Action.read_ok ((nodeKinds_congr hscan.registry _).trans hk))]
      rfl

lemma children_set {c : Children} (hn : s.tree.node i = .ok n) (hc : n.children = some c) :
    children i s = .ok c s := by
  rw [children, bind_of_ok (Action.read_ok hn), hc]
  rfl

lemma children_unset (hs : s.Coherent) (hn : s.tree.node i = .ok n) (hc : n.children = none) :
    ∃ t, s.Scanned t ∧ children i s =
      match s.kindsFor n with
      | .error e => .error e t
      | .ok kinds => .ok (t.tree.extended n kinds) (t.expanded i n kinds) := by
  obtain ⟨t, hscan, heq⟩ := newChildren_eq hs hn
  refine ⟨t, hscan, ?_⟩
  rw [children, bind_of_ok (Action.read_ok hn), hc]
  cases hk : s.kindsFor n with
  | error e =>
    rw [hk] at heq
    exact bind_of_error heq
  | ok kinds =>
    rw [hk] at heq
    have hx := extensible (hscan.tree ▸ hn) hc ((hscan.kindsFor n).trans hk)
    have htable := hx.table
    rw [hc] at htable
    apply (bind_of_ok heq).trans
    simp only [expanded, InstanceTree.extend, hc, Option.getD_none, ← htable]
    rfl

lemma children_error {e : Error} (hn : s.tree.node i = .error e) : children i s = .error e s := by
  rw [children, bind_of_error (Action.read_error hn)]

variable {resolving : Prop}

lemma keeps_children (hs : s.Coherent) (i : InstanceId) :
    Keeps resolving s (fun c t => ∃ n, t.tree.node i = .ok n ∧ n.children = some c) (children i s) := by
  cases hn : s.tree.node i with
  | error e =>
    rw [children_error hn]
    exact .error .refl
  | ok n =>
    cases hc : n.children with
    | some c =>
      rw [children_set hn hc]
      exact .ok .refl ⟨n, hn, hc⟩
    | none =>
      obtain ⟨t, hscan, heq⟩ := children_unset hs hn hc
      rw [heq]
      have hn' : t.tree.node i = .ok n := hscan.tree ▸ hn
      cases hk : s.kindsFor n with
      | error e => exact .error (.scan hscan)
      | ok kinds =>
        have hk' : t.kindsFor n = .ok kinds := (hscan.kindsFor n).trans hk
        have hx := extensible hn' hc hk'
        exact .ok ((Changes.scan hscan).tail (.expand hn' hc hk')) ⟨_, hx.node_extend, rfl⟩

lemma keeps_child (hs : s.Coherent) (i : InstanceId) (name : String) :
    Keeps resolving s (fun j t => ∃ n c, t.tree.node i = .ok n ∧ n.children = some c ∧ c.find? name = some j)
      (child i name s) := by
  apply (keeps_children hs i).bind
  rintro c t - ⟨n, hn, hc⟩
  cases hf : c.find? name with
  | some j => exact .pure ⟨n, c, hn, hc, hf⟩
  | none => exact (Keeps.read _).bind fun _ _ => .error .refl

lemma child_set {c : Children} {name : String} {j : InstanceId} (hn : s.tree.node i = .ok n) (hc : n.children = some c)
    (hf : c.find? name = some j) : child i name s = .ok j s := by
  rw [child, bind_of_ok (children_set hn hc), hf]
  rfl

end Children

section Roots

variable {d : DefId} {x : String} {resolving : Prop}

lemma liftM_eq {α : Type} (a : Action α) : (liftM a : GuardedAction α) = Action.guarded a := rfl

lemma createHierarchy_eq (hv : s.Views) (hx : s.resolveSymbol d = some x) :
    createHierarchy d (s.markRooted d) =
      if s.graph.hierarchies.contains x then
        .error (.violation (.secondHierarchy x)) ((s.markRooted d).setHierarchies s.graph.hierarchies)
      else .ok () (s.withHierarchy d x) := by
  have hb : (s.markRooted d).builtSymbol d = .ok x := builtSymbol_built hx
  have hi : (s.markRooted d).scannedHierarchies = s.graph.hierarchies := hv.scannedHierarchies
  rw [createHierarchy, liftM_eq, bind_of_ok (Action.guarded_ok (Action.read_ok hb))]
  rw [get_bind, hi]
  simp only [modify_bind]
  split
  · rfl
  · rfl

lemma keeps_rootOnce (hs : s.Coherent) (hx : s.resolveSymbol d = some x) :
    Keeps resolving s (fun _ _ => True) (rootOnce d s) := by
  rw [rootOnce, get_bind]
  cases hr : s.records.rooted.contains d with
  | true =>
    rw [if_pos rfl]
    exact .pure trivial
  | false =>
    have hnew : d ∉ s.records.rooted := by
      simpa using hr
    rw [if_neg (by simp), modify_bind, createHierarchy_eq hs.views hx]
    cases hc : s.graph.hierarchies.contains x with
    | true =>
      have hm := ((Change.refuse d : Change resolving s _).coherent hs).1
      exact .error ((Changes.one (.refuse d)).tail (.scan (scanned_hierarchies hm.views)))
    | false => exact .ok (.one (.hierarchy hx hnew hc)) trivial

lemma getInstance_of_root (hr : s.tree.roots.find? d = some i) : getInstance d s = .ok i s := by
  rw [getInstance, get_bind, hr]
  rfl

lemma keeps_getInstance (hs : s.Coherent) (d : DefId) :
    Keeps resolving s (fun i t => t.tree.roots.find? d = some i) (getInstance d s) := by
  cases hr : s.tree.roots.find? d with
  | some i =>
    rw [getInstance_of_root hr]
    exact .ok .refl hr
  | none =>
    rw [getInstance, get_bind, hr]
    refine (Keeps.read (fun s => s.builtSymbol d)).guarded.bind ?_
    rintro x _ - ⟨rfl, hx⟩
    have hx := resolveSymbol_of_builtSymbol hx
    have hroot : Change resolving s { s with tree := s.tree.addRoot d } := .root hx hr
    have ha : Action.guarded (addRoot d) s = .ok s.tree.nextId { s with tree := s.tree.addRoot d } := rfl
    obtain ⟨ht, _⟩ := hroot.coherent hs
    rw [liftM_eq, bind_of_ok ha]
    refine Keeps.after (.one hroot) ((keeps_rootOnce ht hx).bind ?_)
    rintro _ t hc -
    exact .pure ((hc.coherent ht).2.tree.roots (Table.find?_insert_self _ _ _))

end Roots

end HardwareDesign.Design
