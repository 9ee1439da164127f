import HardwareDesign.Proofs.Runs

namespace HardwareDesign.Design

variable {s t : Design} {i : InstanceId} {n : Node} {c : Children} {d : DefId}

def childOf (i : InstanceId) (n : Node) (d : DefId) (k : String × NodeKind) : Node :=
  InstanceTree.childNode i n.root d k

def MadeFrom (s : Design) (i : InstanceId) (n : Node) (d : DefId) (k : String × NodeKind) (e : String × InstanceId) :
    Prop :=
  e.1 = k.1 ∧ ∃ children, s.node e.2 = .ok { childOf i n d k with children }

lemma Coherent.nodup_keys (hs : s.Coherent) (hn : s.tree.node i = .ok n) (hc : n.children = some c)
    (hd : n.kind.target = some d) : c.keys = (s.siteTable d).keys ∧ c.keys.Nodup := by
  have hkeys : c.keys = (s.siteTable d).keys :=
    keys_of_siteChildren (hs.matched (InstanceTree.node_eq.mp hn).2 hc hd)
  exact ⟨hkeys, hkeys ▸ nodup_keys_siteTable s d⟩

lemma Coherent.child_node (hs : s.Coherent) (hn : s.tree.node i = .ok n) (hc : n.children = some c)
    (hd : n.kind.target = some d) {name : String} {j : InstanceId} (hj : (name, j) ∈ c.entries) {m : Node}
    (hm : s.tree.node j = .ok m) : m.name = some name ∧ m.parent = some i ∧ m.insideOf = d ∧ m.root = n.root := by
  obtain ⟨hg, hi⟩ := InstanceTree.node_eq.mp hn
  have hf := Table.find?_of_mem (hs.nodup_keys hn hc hd).2 hj
  obtain ⟨_, m', hm', hparent, hname⟩ := hs.shaped.children hi hc hf
  obtain rfl := Option.some.inj ((InstanceTree.node_eq.mp hm).2.symm.trans hm')
  rcases hs.shaped.nodes hm' with hroot | ⟨_, p, np, _, hchild⟩
  · simp [hroot.parent] at hparent
  · obtain rfl : i.index = p := congrArg InstanceId.index (Option.some.inj (hparent.symm.trans hchild.parent))
    obtain rfl := Option.some.inj (hi.symm.trans hchild.above)
    rw [InstanceTree.idAt_index hg] at hparent
    exact ⟨hname, hparent, Option.some.inj (hchild.insideOf.symm.trans hd), hchild.root⟩

lemma madeFrom_of_siteChildren {sites : List (String × Site)} {children : List (String × InstanceId)}
    (h : List.Forall₂ s.SiteChild sites children)
    (hnode : ∀ {name j}, (name, j) ∈ children → ∀ {m}, s.tree.node j = .ok m →
      m.name = some name ∧ m.parent = some i ∧ m.insideOf = d ∧ m.root = n.root) :
    ∃ kinds, s.nodeKinds sites = .ok kinds ∧ List.Forall₂ (s.MadeFrom i n d) kinds children := by
  induction h with
  | nil => exact ⟨[], rfl, .nil⟩
  | @cons e f sites children hef _ ih =>
    obtain ⟨kinds, hkinds, hmade⟩ := ih fun hj => hnode (List.mem_cons_of_mem _ hj)
    obtain ⟨m, hm, hkind⟩ := hef.kind
    obtain ⟨hname, hparent, hinside, hroot⟩ := @hnode f.1 f.2 List.mem_cons_self m hm
    refine ⟨(e.1, m.kind) :: kinds, ?_, .cons ⟨hef.name, m.children, ?_⟩ hmade⟩
    · simp only [nodeKinds, hkind, hkinds, bind, Except.bind, pure, Except.pure]
    · obtain ⟨_, _, _, _, _, _⟩ := m
      obtain rfl := hname
      obtain rfl := hparent
      obtain rfl := hinside
      obtain rfl := hroot
      rw [← hef.name]
      exact hm

lemma keys_addChildren {kinds : List (String × NodeKind)} (hk : (kinds.map Prod.fst).Nodup) (tree : InstanceTree)
    (i root : InstanceId) (d : DefId) :
    (InstanceTree.addChildren i root d kinds {} tree).1.keys = kinds.map Prod.fst := by
  have he := InstanceTree.addChildren_entries i root d kinds {} tree (by simpa [Table.keys] using hk)
  simp only [Table.keys, he, List.nil_append, List.map_map]
  conv_rhs => rw [← List.zipIdx_map_fst tree.nodes.length kinds, List.map_map]
  rfl

/-- The children that an instance of a module has are, in order, the sites that the module has now. Each of them is
the node that would be made for its site now, if all children were made at once. -/
theorem children_are_sites (hs : s.Reachable) (hn : s.node i = .ok n) (hd : n.kind.target = some d)
    (hc : n.children = some c) :
    children i s = .ok c s ∧ ∃ sites t kinds, sitesOf d s = .ok sites t ∧ c.keys = sites.keys ∧
      s.nodeKinds sites.entries = .ok kinds ∧ List.Forall₂ (s.MadeFrom i n d) kinds c.entries ∧
      (InstanceTree.addChildren i n.root d kinds {} s.tree).1.keys = c.keys ∧
      (InstanceTree.addChildren i n.root d kinds {} s.tree).2.nodes = s.tree.nodes ++ kinds.map (childOf i n d) := by
  have hs := hs.coherent
  have hn : s.tree.node i = .ok n := hn
  obtain ⟨_, hi⟩ := InstanceTree.node_eq.mp hn
  obtain ⟨x, hx⟩ := hs.targets hi hd
  obtain ⟨t, ht, _⟩ := sitesOf_built hs hx
  obtain ⟨kinds, hkinds, hmade⟩ := madeFrom_of_siteChildren (hs.matched hi hc hd)
    fun hj _ hm => hs.child_node hn hc hd hj hm
  obtain ⟨hkeys, hnodup⟩ := hs.nodup_keys hn hc hd
  have hnames : kinds.map Prod.fst = c.keys := (keys_of_kinds (nodeKinds_ok hkinds)).trans hkeys.symm
  refine ⟨children_set hn hc, s.siteTable d, t, kinds, ht, hkeys, hkinds, hmade, ?_, ?_⟩
  · rw [keys_addChildren (hnames ▸ hnodup), hnames]
  · rw [InstanceTree.addChildren_tree]
    rfl

theorem children_are_sites_late :
    children ⟨0, 0⟩ lateRegister = .ok ⟨[("r", ⟨1, 0⟩)]⟩ lateRegister ∧
      ∃ sites t, sitesOf ⟨0⟩ lateRegister = .ok sites t ∧ sites.keys = ["r"] := by
  have hn : lateRegister.node ⟨0, 0⟩ = .ok ⟨none, none, ⟨0⟩, ⟨0, 0⟩, .root ⟨0⟩, some ⟨[("r", ⟨1, 0⟩)]⟩⟩ := rfl
  obtain ⟨hchildren, sites, t, _, hsites, hkeys, _⟩ := children_are_sites reachable_lateRegister hn rfl rfl
  exact ⟨hchildren, sites, t, hsites, hkeys.symm⟩

end HardwareDesign.Design
