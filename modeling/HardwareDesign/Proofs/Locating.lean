import HardwareDesign.Proofs.Reindexing
import HardwareDesign.Proofs.Targeting

namespace HardwareDesign.Design

variable {s t : Design} {i p : InstanceId} {n : Node} {id id' : RecordId} {l : Location} {sub : SubPath}
  {index : PlacementIndex}

lemma StandsFor.before (h : t.StandsFor id i) (hs : s.Coherent) (ht : t.Coherent) (he : s.Extends t)
    (hn : s.tree.node i = .ok n) (hheld : s.graph.contains id = true) : s.StandsFor id i := by
  -- records keep their parents and nodes theirs, so both ways up are the same in both states
  induction h generalizing n with
  | @root id r top d i hr hp hd hi =>
    obtain ⟨r₀, h₀⟩ := Table.exists_of_contains hheld
    obtain ⟨_, hr'⟩ := he.graph.records h₀
    obtain rfl := hr.unique hr'
    obtain ⟨_, hnt, _⟩ := he.node hn
    obtain ⟨m, hm, hnone, rfl⟩ := ht.shaped.node_of_root hi
    obtain rfl := Except.ok.inj (hnt.symm.trans hm)
    obtain ⟨hgen, hat⟩ := InstanceTree.node_eq.mp hn
    rcases hs.shaped.nodes hat with hroot | ⟨_, _, _, _, hc⟩
    · obtain ⟨x, hx⟩ := hs.targets hat (d := n.insideOf) (by rw [hroot.kind]; rfl)
      obtain rfl := Option.some.inj (((ht.paired _ _).mpr hd).symm.trans (he.symbols hx))
      refine .root h₀ hp ((hs.paired _ _).mp hx) ?_
      rw [hroot.found, InstanceTree.idAt_index hgen]
    · cases hc.parent.symm.trans hnone
  | @child id r site q p np c i hr hp hpar hq hnp hc hj ih =>
    obtain ⟨r₀, h₀⟩ := Table.exists_of_contains hheld
    obtain ⟨_, hr'⟩ := he.graph.records h₀
    obtain rfl := hr.unique hr'
    obtain ⟨_, rq, hrq, _⟩ := hs.forest.child_body h₀ hpar
    obtain ⟨_, hnt, _⟩ := he.node hn
    obtain ⟨m, hm, hparent, hname⟩ := ht.shaped.node_of_child hnp hc hj
    obtain rfl := Except.ok.inj (hnt.symm.trans hm)
    obtain ⟨hgen, hat⟩ := InstanceTree.node_eq.mp hn
    rcases hs.shaped.nodes hat with hroot | ⟨_, k, nk, ck, hc'⟩
    · cases hroot.parent.symm.trans hparent
    · obtain rfl := Option.some.inj (hc'.parent.symm.trans hparent)
      obtain rfl := Option.some.inj (hc'.name.symm.trans hname)
      have hnk : s.tree.node (s.tree.idAt k) = .ok nk := InstanceTree.node_idAt.mpr hc'.above
      refine .child h₀ hp hpar (ih hnk (Table.contains_of_find? hrq)) hnk hc'.children ?_
      rw [hc'.found, InstanceTree.idAt_index hgen]

section Unique

structure Exclusive (s : Design) : Prop where
  targeted : s.Targeted
  covered : s.Covered
  placed : s.graph.Placed
  single : s.graph.Single

lemma ReachableWith.exclusive (hs : s.ReachableWith fun _ => False) (hplaced : s.graph.Placed) : s.Exclusive where
  targeted := hs.targeted
  covered := by
    obtain ⟨config, source, hr⟩ := hs
    have hr : ReachesWith Payload.NotHierarchy (.new config source) s := ReachesWith.mono (fun _ => False.elim) hr
    exact (hr.covered (coherent_new config source) (covered_new config source)).1
  placed := hplaced
  single := hs.single False.elim

variable (hs : s.Coherent) (hx : s.Exclusive)
include hs hx

lemma StandsFor.hasKey (h : s.StandsFor id i) {r : Record} {site : SiteRef} (hr : s.graph.Holds id r)
    (hpay : r.payload = .dynamicInstance site) (hn : s.tree.node i = .ok n) (hp : n.parent = some p) :
    s.HasKey i site := by
  obtain ⟨m, site', r', hm, hname, hsymbol, hr', hpay'⟩ := hx.targeted.keyed hs h hn hp
  obtain rfl := hr.unique hr'
  obtain rfl := Payload.dynamicInstance.inj (hpay.symm.trans hpay')
  exact ⟨m, hm, hname, hsymbol⟩

lemma StandsFor.same (h : s.StandsFor id i) (h' : s.StandsFor id' i) : id = id' := by
  induction h generalizing id' with
  | @root id r top d i hr hp hd hi =>
    obtain ⟨n, hn, hnone, rfl⟩ := hs.shaped.node_of_root hi
    cases h' with
    | @root _ r' top' d' _ hr' hp' hd' hi' =>
      obtain ⟨n', hn', _, rfl⟩ := hs.shaped.node_of_root hi'
      obtain rfl := Except.ok.inj (hn.symm.trans hn')
      obtain rfl := Option.some.inj (((hs.paired _ _).mpr hd).symm.trans ((hs.paired _ _).mpr hd'))
      exact hx.covered.once (Graph.hierarchyTop_eq_some.mpr ⟨r, hr, hp⟩) (Graph.hierarchyTop_eq_some.mpr ⟨r', hr', hp'⟩)
    | child _ _ _ _ hnp hc hj =>
      obtain ⟨m, hm, hparent, _⟩ := hs.shaped.node_of_child hnp hc hj
      obtain rfl := Except.ok.inj (hn.symm.trans hm)
      cases hnone.symm.trans hparent
  | @child id r site q p np c i hr hp hpar hq hnp hc hj ih =>
    obtain ⟨n, hn, hparent, _⟩ := hs.shaped.node_of_child hnp hc hj
    obtain ⟨r', site', q', hr', hp', hpar', _, hq'⟩ := h'.dynamic hs.shaped hn hparent
    obtain rfl := ih hq'
    have hstands : s.StandsFor id i := .child hr hp hpar hq hnp hc hj
    obtain rfl := (hstands.hasKey hs hx hr hp hn hparent).unique (h'.hasKey hs hx hr' hp' hn hparent)
    exact hx.single _ _ _ _ _ hr hp hr' hp' (hpar.trans hpar'.symm)

lemma StandsFor.backs (h : s.StandsFor id i) : s.Backs i id := by
  have hstands := h
  induction h with
  | @root id r top d i hr hp hd hi =>
    obtain ⟨n, hn, hnone, rfl⟩ := hs.shaped.node_of_root hi
    have htop := (hx.placed _ _ hr).1 top hp
    obtain ⟨k, hk⟩ := Table.exists_of_contains (Graph.contains_hierarchies hs.forest hr hp htop)
    obtain ⟨_, _, r', hr', hp'⟩ := Graph.holds_of_find?_hierarchies hk
    obtain rfl : k.record = id := hx.covered.once (Graph.hierarchyTop_eq_some.mpr ⟨r', hr', hp'⟩)
      (Graph.hierarchyTop_eq_some.mpr ⟨r, hr, hp⟩)
    exact .hierarchy hn hnone ((hs.paired _ _).mpr hd) hk
  | @child id r site q p np c i hr hp hpar hq hnp hc hj ih =>
    obtain ⟨n, hn, hparent, _⟩ := hs.shaped.node_of_child hnp hc hj
    -- the record that is remembered stands for the node, too, and a node has one record only
    cases hf : s.records.instances.find? i with
    | some k =>
      obtain rfl := StandsFor.same hs hx (hs.backed hf).2 hstands
      exact .remembered hn hparent hf
    | none =>
      obtain ⟨k, hk⟩ := Table.exists_of_contains (Graph.contains_nestedTable hs.forest hr hp hpar)
      obtain ⟨_, r', hr', hp', hpar'⟩ := Graph.holds_of_find?_nestedTable hs.forest hk
      obtain rfl := hx.single _ _ _ _ _ hr' hp' hr hp (hpar'.trans hpar.symm)
      exact .nested hn hparent hf (ih hq) (hstands.hasKey hs hx hr hp hn hparent) hk

end Unique

section Locations

lemma locations_ok (hs : s.Coherent) {h : Handle} (hr : getOrCreateRecord i s = .ok h t) :
    ∃ ls, locations i s = .ok ls t ∧ ∀ l sub, (l, sub) ∈ ls ↔
      ∃ id r, t.graph.Holds id r ∧ r.parent = some h.record ∧ (l, sub) ∈ r.payload.placements := by
  obtain ⟨hrec, ht, _⟩ := recorded_of_getOrCreateRecord hs hr
  obtain ⟨_, hbody, _⟩ := hrec.stands.accepts
  refine ⟨_, bind_of_ok (payloadsOf_eq hs hr), fun l sub => ?_⟩
  simp only [List.mem_flatMap, Graph.mem_contents ht.forest hbody]
  constructor
  · rintro ⟨_, ⟨id, r, hheld, hpar, rfl⟩, hm⟩
    exact ⟨id, r, hheld, hpar, hm⟩
  · rintro ⟨id, r, hheld, hpar, hm⟩
    exact ⟨r.payload, ⟨id, r, hheld, hpar, rfl⟩, hm⟩

lemma instanceAt_ok (h : instanceAt l s = .ok (some (i, sub)) t) :
    ∃ owner, s.ownerAt l = .ok (some (owner, sub)) ∧ resolveNode owner s = .ok i t := by
  obtain ⟨found, u, hread, hrest⟩ := ok_of_bind h
  obtain ⟨rfl, howner⟩ := Action.of_read (Action.of_guarded hread)
  cases found with
  | none => cases hrest
  | some found =>
    obtain ⟨j, v, hresolve, hpure⟩ := ok_of_bind hrest
    cases hpure
    exact ⟨found.1, howner, hresolve⟩

lemma instanceAt_of_owner {owner : Handle} (howner : s.ownerAt l = .ok (some (owner, sub)))
    (hresolve : resolveNode owner s = .ok i t) : instanceAt l s = .ok (some (i, sub)) t := by
  rw [instanceAt, liftM_eq, bind_of_ok (Action.guarded_ok (Action.read_ok howner))]
  exact bind_of_ok hresolve

variable (hx : index.Current s.graph) (hp : s.placements = some index)
include hx hp

lemma ownerAt_iff {owner : Handle} : s.ownerAt l = .ok (some (owner, sub)) ↔
    ∃ id r p, s.graph.Holds id r ∧ r.parent = some p ∧ (l, sub) ∈ r.payload.placements ∧ owner = s.graph.handle p := by
  constructor
  · intro h
    by_cases hfree : s.graph.Free l
    · cases (ownerAt_of_free hx hp hfree).symm.trans h
    · obtain ⟨c, hc⟩ := not_forall_not.mp hfree
      obtain ⟨r, hr, ho⟩ := ownerAt_of_places hx hp hc
      obtain ⟨r', hr', hm⟩ := hc
      obtain rfl := hr.unique hr'
      obtain ⟨p, hpar, heq⟩ := Option.map_eq_some_iff.mp (Except.ok.inj (ho.symm.trans h))
      obtain ⟨rfl, rfl⟩ := Prod.mk.inj heq
      exact ⟨c.record, r, p, hr, hpar, hm, rfl⟩
  · rintro ⟨id, r, p, hr, hpar, hm, rfl⟩
    have hc : s.graph.Places l ⟨id, sub⟩ := ⟨r, hr, hm⟩
    obtain ⟨r', hr', ho⟩ := ownerAt_of_places hx hp hc
    obtain rfl := hr.unique hr'
    rw [ho, hpar]
    rfl

end Locations

section Inverse

variable (hs : s.Coherent) (hclaimed : s.Claimed) (hp : s.placements = some index) (hn : s.tree.node i = .ok n)
include hs hclaimed hp hn

lemma instanceAt_of_locations {ls : List (Location × SubPath)} (hls : locations i s = .ok ls t) (hm : (l, sub) ∈ ls) :
    ∃ t, instanceAt l s = .ok (some (i, sub)) t := by
  have hcurrent := hclaimed.current
  rw [hp] at hcurrent
  obtain ⟨payloads, u, hpayloads, _⟩ := ok_of_bind hls
  obtain ⟨h, v, hr, _⟩ := ok_of_bind hpayloads
  obtain ⟨ls', hls', hmem⟩ := locations_ok hs hr
  cases hls.symm.trans hls'
  obtain ⟨id, r, hheld, hpar, hloc⟩ := (hmem l sub).mp hm
  obtain ⟨hrec, ht, hext⟩ := recorded_of_getOrCreateRecord hs hr
  -- nothing is placed where the record is made, so the location and with it the record have been there before
  have hacts : s.Acts { creates := True } [] t := acts_of_getOrCreateRecord hr
  have hd := (hacts.unplacing not_false hclaimed).derives
  rcases hd.records hheld with ⟨r₀, h₀, hpay, hpar₀⟩ | ⟨_, hnew⟩
  · rw [hpay] at hloc
    rw [hpar₀] at hpar
    obtain ⟨_, rp, hrp, _⟩ := hclaimed.forest.child_body h₀ hpar
    have hbefore := hrec.stands.before hs ht hext hn (Table.contains_of_find? hrp)
    obtain ⟨w, hw, _⟩ := resolveNode_of_standsFor (h := s.graph.handle h.record) hclaimed.forest hbefore rfl
    exact ⟨w, instanceAt_of_owner ((ownerAt_iff hcurrent hp).mpr ⟨id, r₀, _, h₀, hpar, hloc, rfl⟩) hw⟩
  · rw [hnew.placements] at hloc
    cases hloc

lemma locations_of_instanceAt (hx : s.Exclusive) (h : instanceAt l s = .ok (some (i, sub)) t) :
    ∃ ls t, locations i s = .ok ls t ∧ (l, sub) ∈ ls := by
  have hcurrent := hclaimed.current
  rw [hp] at hcurrent
  obtain ⟨owner, howner, hresolve⟩ := instanceAt_ok h
  obtain ⟨id, r, p, hr, hpar, hloc, rfl⟩ := (ownerAt_iff hcurrent hp).mp howner
  have hkeeps : Keeps True s _ _ := keeps_resolveNode hs (s.graph.handle p)
  obtain ⟨hchanges, hstands⟩ := hkeeps.ended hresolve
  obtain ⟨ht, hext⟩ := hchanges.coherent hs
  obtain ⟨_, rp, hrp, _⟩ := hclaimed.forest.child_body hr hpar
  have hbefore := hstands.before hs ht hext hn (Table.contains_of_find? hrp)
  obtain ⟨k, u, hrun, hid, hgraph⟩ := (hbefore.backs hs hx).recordUpTo hs (Nat.lt_succ_self _)
  obtain ⟨ls, hls, hmem⟩ := locations_ok hs hrun
  exact ⟨ls, u, hls, (hmem l sub).mpr ⟨id, r, hgraph ▸ hr, hpar.trans (congrArg some hid.symm), hloc⟩⟩

end Inverse

/-- With strict placement, and passes that erase records only, an instance has a location, with a path below the
instance, if it is the instance at the location, with the same path, and only then. -/
theorem locations_inverse (hs : s.ReachableWith fun _ => False) (hstrict : s.config.placement.strict = true)
    (hp : s.placements = some index) (hn : s.node i = .ok n) :
    (∃ ls t, locations i s = .ok ls t ∧ (l, sub) ∈ ls) ↔ ∃ t, instanceAt l s = .ok (some (i, sub)) t := by
  have hc := hs.reachable.coherent
  have hclaimed := hs.claimed hstrict
  constructor
  · rintro ⟨ls, t, hls, hm⟩
    exact instanceAt_of_locations hc hclaimed hp hn hls hm
  · rintro ⟨t, ht⟩
    exact locations_of_instanceAt hc hclaimed hp hn (hs.exclusive hclaimed.placed) ht

theorem locations_inverse_again :
    (∃ t, instanceAt nearLocation placedAgain = .ok (some (⟨0, 1⟩, none)) t) ∧
      ¬ ∃ t, instanceAt farLocation placedAgain = .ok (some (⟨0, 1⟩, none)) t := by
  have hls : locations ⟨0, 1⟩ placedAgain = .ok [(nearLocation, none)] (endState (locations ⟨0, 1⟩ placedAgain)) := rfl
  have hnode : ∃ n, placedAgain.node ⟨0, 1⟩ = .ok n := ⟨_, rfl⟩
  obtain ⟨n, hn⟩ := hnode
  constructor
  · exact (locations_inverse reachable_placedAgain rfl rfl hn).mp ⟨_, _, hls, List.mem_singleton.mpr rfl⟩
  · intro h
    obtain ⟨ls, t, hls', hm⟩ := (locations_inverse reachable_placedAgain rfl rfl hn).mpr h
    cases hls.symm.trans hls'
    exact absurd hm (by decide)

end HardwareDesign.Design
