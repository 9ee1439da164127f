import HardwareDesign.Proofs.Change

namespace HardwareDesign.Design

variable {s t : Design}

lemma Coherent.addRoot (hs : s.Coherent) {d : DefId} {x : String} (hx : s.resolveSymbol d = some x)
    (hn : s.tree.roots.find? d = none) :
    ({ s with tree := s.tree.addRoot d } : Design).Coherent ∧ s.Extends { s with tree := s.tree.addRoot d } := by
  have hgrows := InstanceTree.addRoot_grows hn
  have he : s.Extends { s with tree := s.tree.addRoot d } :=
    ⟨.refl _, hgrows, fun h => h, fun h => h, fun h => h⟩
  have hv := hs.views
  refine ⟨⟨hs.forest, hs.paired, ⟨hv.known, hv.hierarchies, hv.sites, hv.nested⟩, hs.shaped.addRoot hn, ?_, ?_,
    hs.carryBacked he rfl⟩, he⟩
  · intro k n e hk hd
    rcases InstanceTree.at_addRoot.mp hk with hk | ⟨_, rfl⟩
    · exact hs.targets hk hd
    · obtain rfl : d = e := Option.some.inj hd
      exact ⟨x, hx⟩
  · intro k n c e hk hc hd
    rcases InstanceTree.at_addRoot.mp hk with hk | ⟨_, rfl⟩
    · exact (hs.matched hk hc hd).imp fun _ _ => he.siteChild
    · cases hc

def KindOf (s : Design) (e : String × Site) (k : String × NodeKind) : Prop :=
  k.1 = e.1 ∧ s.nodeKind e.2.kind = .ok k.2

lemma nodeKinds_ok {sites : List (String × Site)} {kinds : List (String × NodeKind)}
    (h : s.nodeKinds sites = .ok kinds) :
    List.Forall₂ s.KindOf sites kinds := by
  induction sites generalizing kinds with
  | nil =>
    obtain rfl := Except.ok.inj h
    exact .nil
  | cons e sites ih =>
    obtain ⟨name, site⟩ := e
    cases hk : s.nodeKind site.kind with
    | error err => simp [nodeKinds, hk, bind, Except.bind] at h
    | ok kind =>
      cases hrest : s.nodeKinds sites with
      | error err => simp [nodeKinds, hk, hrest, bind, Except.bind] at h
      | ok rest =>
        simp only [nodeKinds, hk, hrest, bind, Except.bind, pure, Except.pure] at h
        obtain rfl := Except.ok.inj h
        exact .cons ⟨rfl, hk⟩ (ih hrest)

lemma keys_of_kinds {sites : List (String × Site)} {kinds : List (String × NodeKind)}
    (h : List.Forall₂ s.KindOf sites kinds) : kinds.map Prod.fst = sites.map Prod.fst := by
  induction h with
  | nil => rfl
  | cons hk _ ih => simp [hk.1, ih]

lemma mem_kinds {sites : List (String × Site)} {kinds : List (String × NodeKind)}
    (h : List.Forall₂ s.KindOf sites kinds) {k : String × NodeKind} (hk : k ∈ kinds) :
    ∃ e : String × Site, s.KindOf e k := by
  induction h with
  | nil => cases hk
  | cons he _ ih =>
    rcases List.mem_cons.mp hk with rfl | hk
    · exact ⟨_, he⟩
    · exact ih hk

lemma siteChildren_of_kinds {sites : List (String × Site)} {kinds : List (String × NodeKind)}
    (h : List.Forall₂ s.KindOf sites kinds) (he : s.Extends t) (first : Nat)
    (hnew : ∀ {j k}, kinds[j]? = some k → ∃ n, t.tree.At (first + j) n ∧ n.kind = k.2) :
    List.Forall₂ t.SiteChild sites ((kinds.zipIdx first).map fun k => (k.1.1, t.tree.idAt k.2)) := by
  induction h generalizing first with
  | nil => exact .nil
  | cons hk _ ih =>
    obtain ⟨n, hn, hkind⟩ := hnew (j := 0) rfl
    refine .cons ⟨hk.1, n, InstanceTree.node_idAt.mpr hn, ?_⟩ (ih (first + 1) fun {j _} hj => ?_)
    · rw [hkind]
      exact he.nodeKind hk.2
    · obtain ⟨m, hm, hmk⟩ := hnew (j := j + 1) hj
      exact ⟨m, by rwa [Nat.add_assoc, Nat.add_comm 1 j], hmk⟩

variable {i : InstanceId} {n : Node} {kinds : List (String × NodeKind)}

lemma kindsFor_ok {d : DefId} (hd : n.kind.target = some d) (h : s.kindsFor n = .ok kinds) :
    List.Forall₂ s.KindOf (s.siteTable d).entries kinds := by
  simp only [kindsFor, hd] at h
  exact nodeKinds_ok h

lemma extensible (hn : s.tree.node i = .ok n) (hc : n.children = none) (hk : s.kindsFor n = .ok kinds) :
    s.tree.Extensible i n (n.kind.target.getD n.insideOf) kinds := by
  obtain ⟨hg, hi⟩ := InstanceTree.node_eq.mp hn
  cases hd : n.kind.target with
  | none =>
    simp only [kindsFor, hd] at hk
    obtain rfl := Except.ok.inj hk
    exact ⟨hg, hi, fun h => (h rfl).elim, by simp [hc, Table.keys]⟩
  | some d =>
    refine ⟨hg, hi, fun _ => hd, ?_⟩
    rw [keys_of_kinds (kindsFor_ok hd hk)]
    simpa [hc, Table.keys] using nodup_keys_siteTable s d

lemma Extends.expanded (hn : s.tree.node i = .ok n) (hc : n.children = none) (hk : s.kindsFor n = .ok kinds) :
    s.Extends (s.expanded i n kinds) :=
  ⟨.refl _, (extensible hn hc hk).grows, fun h => h, fun h => h, fun h => h⟩

lemma matched_expanded (hs : s.Coherent) (hn : s.tree.node i = .ok n) (hc : n.children = none)
    (hk : s.kindsFor n = .ok kinds) {k : Nat} {m : Node} {c : Children} {e : DefId}
    (hm : (s.expanded i n kinds).tree.At k m) (hcm : m.children = some c) (hd : m.kind.target = some e) :
    List.Forall₂ (s.expanded i n kinds).SiteChild ((s.expanded i n kinds).siteTable e).entries c.entries := by
  have hx := extensible hn hc hk
  have he : s.Extends (s.expanded i n kinds) := .expanded hn hc hk
  have hsites : (s.expanded i n kinds).siteTable e = s.siteTable e := siteTable_congr rfl rfl e
  rw [hsites]
  rcases hx.at_extend.mp hm with ⟨m₀, h₀, rfl⟩ | ⟨j, a, _, _, rfl⟩
  · by_cases hi : k = i.index
    · subst hi
      obtain rfl : m₀ = n := Option.some.inj (h₀.symm.trans hx.held)
      obtain rfl : s.tree.extended m₀ kinds = c := by simpa using hcm
      have hnew : ∀ {j a}, kinds[j]? = some a →
          ∃ l, (s.expanded i m₀ kinds).tree.At (s.tree.nodes.length + j) l ∧ l.kind = a.2 :=
        fun ha => ⟨_, hx.at_extend.mpr (.inr ⟨_, _, ha, rfl, rfl⟩), rfl⟩
      have hmatch := siteChildren_of_kinds (kindsFor_ok hd hk) he s.tree.nodes.length hnew
      have hid : ∀ x, (s.expanded i m₀ kinds).tree.idAt x = s.tree.idAt x := fun x =>
        congrArg (InstanceId.mk x) hx.grows.generation
      simpa [InstanceTree.extended, hc, hid] using hmatch
    · have hc₀ : m₀.children = some c := (if_neg hi).symm.trans hcm
      exact (hs.matched h₀ hc₀ hd).imp fun _ _ => he.siteChild
  · cases hcm

lemma Coherent.expanded (hs : s.Coherent) (hn : s.tree.node i = .ok n) (hc : n.children = none)
    (hk : s.kindsFor n = .ok kinds) : (s.expanded i n kinds).Coherent ∧ s.Extends (s.expanded i n kinds) := by
  have hx := extensible hn hc hk
  have he : s.Extends (s.expanded i n kinds) := .expanded hn hc hk
  have hv := hs.views
  refine ⟨⟨hs.forest, hs.paired, ⟨hv.known, hv.hierarchies, hv.sites, hv.nested⟩, hs.shaped.extend hx, ?_,
    matched_expanded hs hn hc hk, hs.carryBacked he rfl⟩, he⟩
  intro k m e hm hd
  rcases hx.at_extend.mp hm with ⟨m₀, h₀, rfl⟩ | ⟨j, a, ha, _, rfl⟩
  · exact hs.targets h₀ hd
  · have hne : kinds ≠ [] := by
      rintro rfl
      cases ha
    obtain ⟨_, hkind⟩ := mem_kinds (kindsFor_ok (hx.target hne) hk) (List.mem_of_getElem? ha)
    obtain ⟨x, hx⟩ := target_of_nodeKind hs.paired hkind.2 hd
    exact ⟨x, he.symbols hx⟩

end HardwareDesign.Design
