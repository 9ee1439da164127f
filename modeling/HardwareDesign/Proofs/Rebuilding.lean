import HardwareDesign.Proofs.RoundTrip
import HardwareDesign.Proofs.Settling

namespace HardwareDesign.Design

variable {s t : Design} {d : DefId} {path : List String} {name : String} {kind : NodeKind} {i : InstanceId}
  {n : Node} {owner h : Handle} {id : RecordId}

section Descending

lemma getInstance_rooted {x : String} (hx : s.resolveSymbol d = some x) (hd : d ∈ s.records.rooted) :
    ∃ i t, getInstance d s = .ok i t ∧ t.graph = s.graph := by
  cases hr : s.tree.roots.find? d with
  | some i => exact ⟨i, s, getInstance_of_root hr, rfl⟩
  | none =>
    have hb : Action.guarded (Action.read (·.builtSymbol d)) s = .ok x s :=
      Action.guarded_ok (Action.read_ok (builtSymbol_built hx))
    have ha : Action.guarded (addRoot d) s = .ok s.tree.nextId { s with tree := s.tree.addRoot d } := rfl
    have ho : rootOnce d { s with tree := s.tree.addRoot d } = .ok () { s with tree := s.tree.addRoot d } := by
      rw [rootOnce, get_bind, if_pos (by simpa using hd)]
      rfl
    refine ⟨s.tree.nextId, { s with tree := s.tree.addRoot d }, ?_, rfl⟩
    rw [getInstance, get_bind, hr]
    simp only [liftM_eq]
    rw [bind_of_ok hb, bind_of_ok ha, bind_of_ok ho]
    rfl

lemma exists_nodeKinds {sites : List (String × Site)} (h : ∀ e ∈ sites, ∃ kind, s.nodeKind e.2.kind = .ok kind) :
    ∃ kinds, s.nodeKinds sites = .ok kinds := by
  induction sites with
  | nil => exact ⟨[], rfl⟩
  | cons e sites ih =>
    obtain ⟨kind, hk⟩ := h e List.mem_cons_self
    obtain ⟨kinds, hks⟩ := ih fun f hf => h f (List.mem_cons_of_mem _ hf)
    exact ⟨(e.1, kind) :: kinds, by simp only [nodeKinds, hk, hks, bind, Except.bind, pure, Except.pure]⟩

lemma Settled.kindsFor (h : s.Settled) (n : Node) : ∃ kinds, s.kindsFor n = .ok kinds := by
  cases hd : n.kind.target with
  | none => exact ⟨[], by simp only [Design.kindsFor, hd]⟩
  | some d =>
    simp only [Design.kindsFor, hd]
    apply exists_nodeKinds
    intro e he
    exact h.nodeKind (Table.find?_of_mem (nodup_keys_siteTable s d) he)

lemma Settled.children (hs : s.Coherent) (h : s.Settled) (hn : s.tree.node i = .ok n) :
    ∃ c t, Design.children i s = .ok c t ∧ t.graph = s.graph := by
  cases hc : n.children with
  | some c => exact ⟨c, s, children_set hn hc, rfl⟩
  | none =>
    obtain ⟨t, hscan, heq⟩ := children_unset hs hn hc
    obtain ⟨kinds, hk⟩ := h.kindsFor n
    rw [hk] at heq
    exact ⟨_, _, heq, hscan.graph⟩

lemma Settled.child (hs : s.Coherent) (h : s.Settled) (hn : s.tree.node i = .ok n) {e : DefId} {site : Site}
    (he : n.kind.target = some e) (hsite : (s.siteTable e).find? name = some site) :
    ∃ j t, Design.child i name s = .ok j t ∧ t.graph = s.graph := by
  obtain ⟨c, t, hct, hgraph⟩ := h.children hs hn
  have hkeeps : Keeps False s _ _ := keeps_children hs i
  obtain ⟨hchanges, m, hm, hc⟩ := hkeeps.ended hct
  obtain ⟨ht, hext⟩ := hchanges.coherent hs
  obtain ⟨_, hm', _⟩ := hext.node hn
  obtain rfl := Except.ok.inj (hm.symm.trans hm')
  obtain ⟨j, _, hj, _⟩ := ht.child_of_site hm hc he (hext.find?_siteTable hs.forest hsite)
  refine ⟨j, t, ?_, hgraph⟩
  rw [Design.child, bind_of_ok hct, hj]
  rfl

lemma descend_concat (d : DefId) (path : List String) (name : String) :
    descend d (path ++ [name]) = (do Action.guarded (child (← descend d path) name)) := by
  simp [descend, List.foldlM_append, liftM_eq]

lemma Leads.descends (hs : s.Coherent) (h : s.Settled) (hl : s.Leads d path kind id) :
    ∃ i t, descend d path s = .ok i t ∧ t.graph = s.graph := by
  induction path using List.reverseRecOn generalizing kind id with
  | nil =>
    obtain ⟨_, hd, x, _, hx, _⟩ := hl.of_nil
    obtain ⟨i, t, ht, hgraph⟩ := getInstance_rooted hx hd
    exact ⟨i, t, (bind_of_ok ht).trans rfl, hgraph⟩
  | append_singleton path name ih =>
    obtain ⟨above, p, hp, he, hx, hsite, _⟩ := hl.of_concat
    obtain ⟨i, t, hi, hgraph⟩ := ih hp
    obtain ⟨hc, hfound⟩ := found_of_descend hs hi
    obtain ⟨ht, hext⟩ := hc.coherent hs
    obtain ⟨_, n, hn, rfl⟩ := (hc.leads hs hp).node ht hfound
    obtain ⟨j, u, hj, hgraph'⟩ := (hc.settled hs h).child ht hn he (hext.find?_siteTable hs.forest hsite)
    refine ⟨j, u, ?_, hgraph'.trans hgraph⟩
    rw [descend_concat, bind_of_ok hi, Action.guarded_ok hj]

end Descending

section Recording

lemma Leads.record_of_standsFor (hs : s.Coherent) (hsettled : s.Settled) (hl : s.Leads d path kind id)
    (hi : s.tree.Found d path i) {id' : RecordId} (hi' : s.StandsFor id' i) : id' = id := by
  obtain ⟨_, _, _, hl'⟩ := hsettled.leads hi'
  obtain ⟨rfl, rfl⟩ := (hl'.found hs hi').unique hs.shaped hi
  exact (hl'.unique hl).2

lemma recordUpTo_new (hs : s.Coherent) (hn : s.tree.node i = .ok n) {p : InstanceId} (hp : n.parent = some p)
    (hname : n.name = some name) {x : String} (hx : s.resolveSymbol n.insideOf = some x)
    (hnew : s.records.instances.find? i = none) (fuel : Nat) :
    ∃ t, s.Scanned t ∧ recordUpTo (fuel + 1) i s = (do
      let owner ← recordUpTo fuel p
      let symbol ← Action.read (·.builtSymbol n.insideOf)
      let h ← nestedRecord owner ⟨symbol, name⟩
      modify (·.setRecord i h)
      return h : Action Handle) t := by
  obtain ⟨t, ht, hscan⟩ := sitesOf_built hs hx
  refine ⟨t, hscan, ?_⟩
  rw [recordUpTo, bind_of_ok (Action.read_ok hn), hp, hname]
  apply (bind_of_ok ht).trans
  rw [if_pos (hs.contains_name hn hname), get_bind, hscan.instances, hnew]

lemma recordUpTo_below (hs : s.Coherent) (hn : s.tree.node i = .ok n) {p : InstanceId} (hp : n.parent = some p)
    (hname : n.name = some name) {x : String} (hx : s.resolveSymbol n.insideOf = some x)
    (hnew : s.records.instances.find? i = none) (fuel : Nat) :
    ∃ t, s.Scanned t ∧ ∀ {owner u}, recordUpTo fuel p t = .ok owner u → u.resolveSymbol n.insideOf = some x →
      ∀ {k v}, nestedRecord owner ⟨x, name⟩ u = .ok k v → recordUpTo (fuel + 1) i s = .ok k (v.setRecord i k) := by
  obtain ⟨t, hscan, hrun⟩ := recordUpTo_new hs hn hp hname hx hnew fuel
  refine ⟨t, hscan, fun hup hxu _ _ hk => ?_⟩
  rw [hrun]
  apply (bind_of_ok hup).trans
  apply (bind_of_ok (Action.read_ok (builtSymbol_built hxu))).trans
  apply (bind_of_ok hk).trans
  rfl

lemma Leads.recordUpTo (hs : s.Coherent) (hsettled : s.Settled) (hl : s.Leads d path kind id)
    (hi : s.tree.Found d path i) {fuel : Nat} (hf : i.index < fuel) :
    ∃ k t, Design.recordUpTo fuel i s = .ok k t ∧ k.record = id ∧ t.graph = s.graph := by
  -- the parent is asked for in a design that remembers more, so the path is what the induction can be on
  induction path using List.reverseRecOn generalizing s i fuel kind id with
  | nil =>
    obtain ⟨fuel, rfl⟩ := Nat.exists_eq_add_of_lt hf
    obtain ⟨_, _, x, k, hx, hk, rfl⟩ := hl.of_nil
    obtain ⟨n, hn, hp, rfl⟩ := hs.shaped.node_of_root hi.of_nil
    exact ⟨k, _, recordUpTo_root hs hn hp hx hk _, rfl, rfl⟩
  | append_singleton path name ih =>
    obtain ⟨fuel, rfl⟩ := Nat.exists_eq_add_of_lt hf
    obtain ⟨p, m, c, hp, hm, hc, hj⟩ := hi.of_concat
    obtain ⟨n, hn, hparent, hname⟩ := hs.shaped.node_of_child hm hc hj
    have hlt := hs.shaped.parent_lt hn hparent
    cases hk : s.records.instances.find? i with
    | some k =>
      obtain ⟨t, ht, hscan⟩ := recordUpTo_remembered hs hn hparent hk (i.index + fuel)
      exact ⟨k, t, ht, hl.record_of_standsFor hs hsettled hi (hs.backed hk).2, hscan.graph⟩
    | none =>
      obtain ⟨above, q, hq, he, hx, _, _, hfound⟩ := hl.of_concat
      obtain ⟨_, m', hm', rfl⟩ := hq.node hs hp
      obtain rfl := Except.ok.inj (hm.symm.trans hm')
      obtain rfl := Option.some.inj (he.symm.trans (hs.shaped.insideOf hn hparent hm))
      obtain ⟨t, hscan, hrun⟩ := recordUpTo_below hs hn hparent hname hx hk (i.index + fuel)
      have hct : Changes False s t := .scan hscan
      have htc := hscan.coherent hs
      obtain ⟨owner, u, hup, rfl, hgraph⟩ :=
        ih htc (hct.settled hs hsettled) (hct.leads hs hq) (hscan.tree ▸ hp) (by omega : p.index < i.index + fuel)
      obtain ⟨hrec, huc, hext⟩ := recorded_of_recordUpTo htc hup
      rw [← hscan.graph, ← hgraph] at hfound
      obtain ⟨v, hv, hscan'⟩ := nestedRecord_found huc hrec.epoch hrec.stands.accepts hfound
      have hxu := hext.symbols (hscan.grows.symbols hx)
      exact ⟨_, _, hrun hup hxu hv, rfl, hscan'.graph.trans (hgraph.trans hscan.graph)⟩

end Recording

lemma leads_of_getOrCreateRecord (hs : s.Coherent) (hsettled : s.Settled) (hi : s.tree.Found d path i)
    (hr : getOrCreateRecord i s = .ok h t) :
    t.Coherent ∧ t.Settled ∧ t.tree.Found d path i ∧ ∃ kind, t.Leads d path kind h.record := by
  have hkeeps : Keeps False s _ _ := keeps_getOrCreateRecord hs i
  obtain ⟨hc, hrec⟩ := hkeeps.ended hr
  obtain ⟨ht, hext⟩ := hc.coherent hs
  have hsettled' := hc.settled hs hsettled
  have hi' := hi.grows hext.tree
  obtain ⟨_, _, kind, hl⟩ := hsettled'.leads hrec.stands
  obtain ⟨rfl, rfl⟩ := (hl.found ht hrec.stands).unique ht.shaped hi'
  exact ⟨ht, hsettled', hi', kind, hl⟩

lemma Leads.rebuilt (hs : s.Coherent) (hsettled : s.Settled) (hl : s.Leads d path kind id) :
    ∃ j t m, descend d path s = .ok j t ∧ t.node j = .ok m ∧ m.kind = kind ∧ t.tree.pathNames j = .ok path ∧
      ∃ k u, getOrCreateRecord j t = .ok k u ∧ k.record = id ∧ u.graph = t.graph ∧ t.graph = s.graph := by
  obtain ⟨j, t, hj, hgraph⟩ := hl.descends hs hsettled
  obtain ⟨hc, hfound⟩ := found_of_descend hs hj
  obtain ⟨ht, _⟩ := hc.coherent hs
  have hl' := hc.leads hs hl
  obtain ⟨_, m, hm, hkind⟩ := hl'.node ht hfound
  obtain ⟨k, u, hk, hid, hgraph'⟩ := hl'.recordUpTo ht (hc.settled hs hsettled) hfound (Nat.lt_succ_self _)
  exact ⟨j, t, m, hj, hm, hkind, hfound.pathNames ht.shaped, k, u, hk, hid, hgraph', hgraph⟩

/-- An invalidation loses nothing. Whatever has got a record is found again under the names that led to it, however
much has been done and dropped in between: an instance of the same kind, for which the same record is found and none
is made. -/
theorem rebuilt_after_invalidation (config : Config) (source : Nat) (ops ops₁ ops₂ : List Operation) {d : DefId}
    {path : List String} {i : InstanceId} {h : Handle} {s₁ s₂ : Design}
    (hi : descend d path ((new config source).run ops) = .ok i s₁) (hr : getOrCreateRecord i (s₁.run ops₁) = .ok h s₂)
    (held : List Handle) :
    ∃ n, s₂.node i = .ok n ∧ s₂.tree.pathNames i = .ok path ∧
      ∃ j t m, descend d path (s₂.run (.invalidate held :: ops₂)) = .ok j t ∧ t.node j = .ok m ∧ m.kind = n.kind ∧
        t.tree.pathNames j = .ok path ∧ ∃ k u, getOrCreateRecord j t = .ok k u ∧ k.record = h.record ∧
          u.graph = t.graph ∧ t.graph = (s₂.run (.invalidate held :: ops₂)).graph := by
  have hnew := coherent_new config source
  have hs := (Reaches.coherent (reaches_run _ ops) hnew).1
  have hsettled := (settled_new config source).run hnew ops
  obtain ⟨hc, hfound⟩ := found_of_descend hs hi
  obtain ⟨h₁, _⟩ := hc.coherent hs
  -- the record can only be asked for in the generation in which the instance was found
  have hrun := reaches_run s₁ ops₁
  obtain ⟨n₁, hn₁⟩ := hfound.node h₁.shaped
  obtain ⟨n₂, hn₂⟩ := node_of_getOrCreateRecord hr
  have hgen := (InstanceTree.node_eq.mp hn₂).1.symm.trans (InstanceTree.node_eq.mp hn₁).1
  have hext := Reaches.extends_of_generation hrun h₁ hgen
  obtain ⟨h₂, hsettled₂, hfound₂, kind, hl⟩ := leads_of_getOrCreateRecord (Reaches.coherent hrun h₁).1
    ((hc.settled hs hsettled).run h₁ ops₁) (hfound.grows hext.tree) hr
  obtain ⟨_, n, hn, rfl⟩ := hl.node h₂ hfound₂
  refine ⟨n, hn, hfound₂.pathNames h₂.shaped, ?_⟩
  have hlater := reaches_run s₂ (.invalidate held :: ops₂)
  exact (hl.run h₂ _).rebuilt (Reaches.coherent hlater h₂).1 (hsettled₂.run h₂ _)

theorem rebuilt_after_invalidation_late :
    descend ⟨0⟩ ["r"] lateRegister = .ok ⟨1, 0⟩ lateRegister ∧
      getOrCreateRecord ⟨1, 0⟩ lateRegister = .ok ⟨⟨4⟩, 0, 0⟩ (lateRegister.after (.record ⟨1, 0⟩)) ∧
      ∃ j t k u, descend ⟨0⟩ ["r"] ((lateRegister.after (.record ⟨1, 0⟩)).run [.invalidate [],
          .call (.define "N" .external), .call (.addTop ⟨1⟩), .invalidate []]) = .ok j t ∧
        t.tree.pathNames j = .ok ["r"] ∧ getOrCreateRecord j t = .ok k u ∧ k.record = ⟨4⟩ := by
  have hi : descend ⟨0⟩ ["r"] lateRegister = .ok ⟨1, 0⟩ lateRegister := rfl
  have hr : getOrCreateRecord ⟨1, 0⟩ (lateRegister.run []) =
      .ok ⟨⟨4⟩, 0, 0⟩ (lateRegister.after (.record ⟨1, 0⟩)) := rfl
  obtain ⟨_, _, _, j, t, _, hj, _, _, hpath, k, u, hk, hid, _⟩ := rebuilt_after_invalidation {} 0 _ []
    [.call (.define "N" .external), .call (.addTop ⟨1⟩), .invalidate []] hi hr []
  exact ⟨hi, hr, j, t, k, u, hj, hpath, hk, hid⟩

end HardwareDesign.Design
