import HardwareDesign.Proofs.Navigating

namespace HardwareDesign.Design

variable {resolving : Prop} {s t : Design} {i : InstanceId} {n : Node} {owner h : Handle} {site : SiteRef}

lemma Nesting.grows (hg : s.graph.Forest) (he : s.Extends t) (hn : s.Nesting i n owner site) :
    ∃ c, t.Nesting i { n with children := c } owner site := by
  obtain ⟨c, hc, _⟩ := he.node hn.node
  obtain ⟨e, hf⟩ := Table.exists_of_contains hn.sited
  obtain ⟨p, hp, hstands⟩ := hn.owner
  exact ⟨c, hc, hn.name, he.symbols hn.symbol, Table.contains_of_find? (he.find?_siteTable hg hf),
    hn.epoch.trans he.graph.epoch.symm, p, hp, he.standsFor hstands⟩

structure Keyed (s : Design) (i : InstanceId) (id : RecordId) : Prop where
  key : ∃ n site r, s.tree.node i = .ok n ∧ n.name = some site.name ∧ s.resolveSymbol n.insideOf = some site.module ∧
    s.graph.Holds id r ∧ r.payload = .dynamicInstance site

structure Recorded (s : Design) (i : InstanceId) (h : Handle) (t : Design) : Prop where
  stands : t.StandsFor h.record i
  epoch : h.epoch = t.graph.epoch
  remembered : ∀ {n p}, s.tree.node i = .ok n → n.parent = some p → t.records.instances.find? i = some h
  keyed : ∀ {n p}, s.tree.node i = .ok n → n.parent = some p → s.records.instances.find? i = none →
    t.Keyed i h.record
  others : ∀ {j : InstanceId}, i.index < j.index → t.records.instances.find? j = s.records.instances.find? j

lemma keeps_doesNotExist {α : Type} {P : α → Design → Prop} : Keeps resolving s P (doesNotExist i s) :=
  (Keeps.read (fun s => s.tree.describe i)).bind fun _ _ => .error .refl

lemma find?_nested (hs : s.Coherent) (ha : s.graph.Accepts (some owner.record))
    (hnew : (s.graph.nestedTable owner.record).find? site = none) :
    ((s.nested owner site).graph.nestedTable owner.record).find? site = some (s.graph.handle s.graph.nextId) := by
  have hgraph : (s.nested owner site).graph = s.graph.created (.dynamicInstance site) (some owner.record) := rfl
  have ⟨r, hr, _⟩ := ha
  rw [hgraph, Graph.nestedTable_created hs.forest ha hr]
  simp [Graph.nestedEntry, Table.addEntry, Table.find?_insertNew, hnew]

lemma keeps_nestedRecord (hs : s.Coherent) (hn : s.Nesting i n owner site) :
    Keeps resolving s (fun h t => (t.graph.nestedTable owner.record).find? site = some h ∧
      t.records.instances = s.records.instances) (nestedRecord owner site s) := by
  obtain ⟨p, _, hstands⟩ := hn.owner
  cases hf : (s.graph.nestedTable owner.record).find? site with
  | some h =>
    obtain ⟨t, ht, hscan⟩ := nestedRecord_found hs hn.epoch hstands.accepts hf
    rw [ht]
    exact .ok (.scan hscan) ⟨hscan.graph ▸ hf, hscan.instances⟩
  | none =>
    obtain ⟨t, ht, hscan⟩ := nestedRecord_missing hs hn.epoch hstands.accepts hf
    obtain ⟨_, hn'⟩ := hn.grows hs.forest hscan.grows
    obtain ⟨_, _, hstands'⟩ := hn'.owner
    rw [← hscan.graph] at hf
    have hnew : (t.graph.nestedTable owner.record).contains site = false := by simp [Table.contains, hf]
    have hfound := find?_nested (hscan.coherent hs) hstands'.accepts hf
    rw [ht]
    exact .ok ((Changes.scan hscan).tail (.nest hn' hnew)) ⟨hfound, hscan.instances⟩

lemma StandsFor.of_root (hs : s.Coherent) {x : String} (hg : i.generation = s.tree.generation)
    (hr : s.tree.RootAt i.index n) (hx : s.resolveSymbol n.insideOf = some x)
    (hf : s.graph.hierarchies.find? x = some h) : s.StandsFor h.record i ∧ h.epoch = s.graph.epoch := by
  obtain ⟨hh, _, r, hrec, hp⟩ := Graph.holds_of_find?_hierarchies hf
  have hfound := hr.found
  rw [InstanceTree.idAt_index hg] at hfound
  refine ⟨.root hrec hp ((hs.paired _ _).mp hx) hfound, ?_⟩
  rw [hh]
  rfl

lemma keeps_rootRecord (hs : s.Coherent) (hn : s.tree.node i = .ok n) (hp : n.parent = none) :
    Keeps resolving s (s.Recorded i) ((do
      match ← hierarchyRecord n.insideOf with
      | some h => return h
      | none => doesNotExist i : Action Handle) s) := by
  obtain ⟨hg, hi⟩ := InstanceTree.node_eq.mp hn
  rcases hs.shaped.nodes hi with hroot | ⟨_, _, _, _, hc⟩
  · obtain ⟨x, hx⟩ := hs.targets hi (by rw [hroot.kind]; rfl)
    have hscan := scanned_hierarchies hs.views
    rw [bind_of_ok (hierarchyRecord_built hs.views hx)]
    cases hf : s.graph.hierarchies.find? x with
    | none => exact keeps_doesNotExist.after (.scan hscan)
    | some h =>
      obtain ⟨hstands, hepoch⟩ := StandsFor.of_root hs hg hroot hx hf
      have hno : ∀ {m p}, s.tree.node i = .ok m → m.parent ≠ some p := by
        intro m p hm
        obtain rfl := Except.ok.inj (hn.symm.trans hm)
        simp [hp]
      exact .ok (.scan hscan) ⟨hscan.grows.standsFor hstands, hepoch, fun hm hpar => (hno hm hpar).elim,
        fun hm hpar => (hno hm hpar).elim, fun _ => rfl⟩
  · simp [hc.parent] at hp

lemma Recorded.nesting (hs : s.Coherent) (he : s.Extends t) {p : InstanceId} (hr : s.Recorded p owner t)
    (hn : s.tree.node i = .ok n) (hp : n.parent = some p) {x name : String} (hname : n.name = some name)
    (hsited : (s.siteTable n.insideOf).contains name = true) (hx : t.resolveSymbol n.insideOf = some x) :
    ∃ c, t.Nesting i { n with children := c } owner ⟨x, name⟩ := by
  obtain ⟨c, hn', _⟩ := he.node hn
  obtain ⟨e, hf⟩ := Table.exists_of_contains hsited
  exact ⟨c, hn', hname, hx, Table.contains_of_find? (he.find?_siteTable hs.forest hf), hr.epoch, p, hp, hr.stands⟩

lemma keeps_newRecord (hs : s.Coherent) {p : InstanceId} {name : String} {up : Action Handle}
    (hn : s.tree.node i = .ok n) (hp : n.parent = some p) (hname : n.name = some name)
    (hsited : (s.siteTable n.insideOf).contains name = true) (hnew : s.records.instances.find? i = none)
    (hup : Keeps resolving s (s.Recorded p) (up s)) :
    Keeps resolving s (s.Recorded i) ((do
      let owner ← up
      let symbol ← Action.read (·.builtSymbol n.insideOf)
      let h ← nestedRecord owner ⟨symbol, name⟩
      modify (·.setRecord i h)
      return h : Action Handle) s) := by
  have hlt := hs.shaped.parent_lt hn hp
  apply hup.bind
  intro owner t₁ hc₁ ho
  obtain ⟨ht₁, he₁⟩ := hc₁.coherent hs
  refine (Keeps.read (fun s => s.builtSymbol n.insideOf)).bind ?_
  rintro x _ - ⟨rfl, hx⟩
  obtain ⟨c, hnest⟩ := ho.nesting hs he₁ hn hp hname hsited (resolveSymbol_of_builtSymbol hx)
  apply (keeps_nestedRecord ht₁ hnest).bind
  rintro h t₂ hc₂ ⟨hfound, hinst⟩
  obtain ⟨ht₂, he₂⟩ := hc₂.coherent ht₁
  obtain ⟨c', hnest₂⟩ := hnest.grows ht₁.forest he₂
  have hnone : t₂.records.instances.find? i = none := by rw [hinst, ho.others hlt, hnew]
  have hback : Change resolving t₂ (t₂.setRecord i h) := .back hnest₂ hfound hnone
  obtain ⟨_, he₃⟩ := hback.coherent ht₂
  obtain ⟨hstands, hepoch⟩ := hnest₂.standsFor ht₂ hfound
  obtain ⟨_, r, hr, hpay, _⟩ := Graph.holds_of_find?_nestedTable ht₂.forest hfound
  rw [modify_bind]
  refine .ok (.one hback) ⟨he₃.standsFor hstands, hepoch, fun _ _ => Table.find?_insert_self _ _ _, ?_, ?_⟩
  · intro _ _ _ _ _
    exact ⟨_, _, r, hnest₂.node, hnest₂.name, hnest₂.symbol, hr, hpay⟩
  · intro j hj
    have hne : i ≠ j := by
      rintro rfl
      exact Nat.lt_irrefl _ hj
    have hinsert : (t₂.setRecord i h).records.instances.find? j = t₂.records.instances.find? j :=
      Table.find?_insert_of_ne _ _ hne
    rw [hinsert, hinst, ho.others (Nat.lt_trans hlt hj)]

lemma Recorded.of_scanned {u : Design} (hscan : s.Scanned t) (hr : t.Recorded i h u) : s.Recorded i h u where
  stands := hr.stands
  epoch := hr.epoch
  remembered hn := hr.remembered (hscan.tree ▸ hn)
  keyed hn hp hnew := hr.keyed (hscan.tree ▸ hn) hp (hscan.instances ▸ hnew)
  others hj := (hr.others hj).trans (by rw [hscan.instances])

lemma recorded_of_remembered (hs : s.Coherent) (hf : s.records.instances.find? i = some h) : s.Recorded i h s where
  stands := (hs.backed hf).2
  epoch := (hs.backed hf).1
  remembered _ _ := hf
  keyed _ _ hnew := by simp [hnew] at hf
  others _ := rfl

lemma keeps_recordUpTo (hs : s.Coherent) (fuel : Nat) (i : InstanceId) :
    Keeps resolving s (s.Recorded i) (recordUpTo fuel i s) := by
  induction fuel generalizing s i with
  | zero => exact .error .refl
  | succ fuel ih =>
    rw [recordUpTo]
    refine (Keeps.read (fun s => s.node i)).bind ?_
    rintro n _ - ⟨rfl, hn⟩
    have hn : s.tree.node i = .ok n := hn
    rcases hs.shaped.nodes (InstanceTree.node_eq.mp hn).2 with hroot | ⟨name, p, _, _, hc⟩
    · rw [hroot.parent, hroot.name]
      exact keeps_rootRecord hs hn hroot.parent
    · obtain ⟨x, hx⟩ := hs.targets hc.above hc.insideOf
      obtain ⟨t, ht, hscan⟩ := sitesOf_built hs hx
      have htc := hscan.coherent hs
      have hn' : t.tree.node i = .ok n := hscan.tree ▸ hn
      rw [hc.parent, hc.name]
      refine (congrArg (Keeps resolving s _) (bind_of_ok ht)).mpr (.after (.scan hscan) ?_)
      cases hsited : (s.siteTable n.insideOf).contains name with
      | false => exact keeps_doesNotExist
      | true =>
        rw [if_pos rfl, get_bind]
        refine Keeps.weaken ?_ fun _ hr => Recorded.of_scanned hscan hr
        cases hf : t.records.instances.find? i with
        | some h => exact .pure (recorded_of_remembered htc hf)
        | none => exact keeps_newRecord htc hn' hc.parent hc.name (hscan.siteTable _ ▸ hsited) hf (ih htc _)

lemma keeps_getOrCreateRecord (hs : s.Coherent) (i : InstanceId) :
    Keeps resolving s (s.Recorded i) (getOrCreateRecord i s) :=
  keeps_recordUpTo hs _ i

end HardwareDesign.Design
