import HardwareDesign.Proofs.Fitting
import HardwareDesign.Proofs.Resting

/-!
What a site instantiates is settled when the site is created, and the generator of a module runs once. As long as
passes only erase records, the record of an instance has the key that its node makes.
-/

namespace HardwareDesign

namespace Design

structure Enrolled (s : Design) : Prop where
  modules : ∀ {id r x}, s.graph.Holds id r → r.payload = .module x → ∃ d, s.resolveSymbol d = some x
  keys : ∀ {id r site}, s.graph.Holds id r → r.payload = .dynamicInstance site →
    ∃ d, s.resolveSymbol d = some site.module
  once : ∀ {id id' r r' x}, s.graph.Holds id r → r.payload = .module x → s.graph.Holds id' r' →
    r'.payload = .module x → id = id'

/-- Sites have had one target each. A definition whose generator is waiting has no sites, and no record is for one. -/
structure Targeted (s : Design) : Prop where
  enrolled : s.Enrolled
  targets : ∃ target, s.graph.Targets target
  queue : s.queue.Nodup
  waiting : ∀ d ∈ s.queue, ∃ x, s.resolveSymbol d = some x ∧ s.graph.Unused x ∧ s.graph.Blank x

structure Running (s : Design) (d : DefId) (x : String) : Prop where
  symbol : s.resolveSymbol d = some x
  taken : d ∉ s.queue
  unused : s.graph.Unused x

variable {resolving : Prop} {s t : Design} {d e : DefId} {m : Handle} {i p : InstanceId} {n : Node} {x y name : String}
  {id : RecordId} {payload : Payload} {parent : Option RecordId}

lemma targeted_new (config : Config) (source : Nat) : (new config source).Targeted where
  enrolled := ⟨fun h => (by cases h), fun h => (by cases h), fun h => (by cases h)⟩
  targets := ⟨fun _ => "", fun _ _ ⟨_, _, _, _, h, _⟩ => (by cases h)⟩
  queue := List.nodup_nil
  waiting := by simp [new]

section Keys

lemma within_of_site {site : Site} (hg : s.graph.Forest) (hx : s.resolveSymbol d = some x)
    (hf : (s.siteTable d).find? name = some site) :
    ∃ payload, s.graph.Within (.module x) payload ∧ payload.symbolName = some name ∧ site.kind = .ofPayload payload := by
  obtain ⟨m, hm, hf⟩ := moduleOf_of_find?_siteTable hf
  obtain ⟨r, y, hr, hp⟩ := Graph.module_of_find?_siteTable hf
  obtain rfl := module_of_moduleOf hx hm hr hp
  rw [Graph.find?_siteTable hr hp] at hf
  obtain ⟨k, hk, hf⟩ := Option.bind_eq_some_iff.mp hf
  obtain ⟨hbody, rk, hrk, hname⟩ := Graph.holds_of_firstWith hk
  obtain ⟨rk', hrk', rfl⟩ := Option.map_eq_some_iff.mp hf
  obtain rfl : rk = rk' := hrk.unique hrk'
  obtain ⟨rc, hrc, hpar⟩ := hg.body_child hr hbody
  obtain rfl := hrk.unique hrc
  exact ⟨rk.payload, ⟨m.record, r, k, rk, hr, hp, hrk, hpar, rfl⟩, hname, rfl⟩

lemma instantiation_of_target (hp : s.registry.Paired) {kind : NodeKind}
    (hk : s.nodeKind (.ofPayload payload) = .ok kind) (he : kind.target = some e) (hn : payload.symbolName = some name)
    (hy : s.resolveSymbol e = some y) : payload = .instantiation name y := by
  cases payload with
  | instantiation name' z =>
    obtain ⟨d, hd, rfl⟩ := nodeKind_module.mp hk
    obtain rfl := Option.some.inj he
    obtain rfl := Option.some.inj (((hp d z).mpr hd).symm.trans hy)
    obtain rfl := Option.some.inj hn
    rfl
  | _ =>
    obtain rfl := Except.ok.inj hk
    cases he

lemma Coherent.within (hs : s.Coherent) (hn : s.tree.node i = .ok n) (hname : n.name = some name)
    (he : n.kind.target = some e) (hx : s.resolveSymbol n.insideOf = some x) (hy : s.resolveSymbol e = some y) :
    s.graph.Within (.module x) (.instantiation name y) := by
  obtain ⟨hgen, hat⟩ := InstanceTree.node_eq.mp hn
  rcases hs.shaped.nodes hat with hroot | ⟨site, q, nq, c, hc⟩
  · cases hroot.name.symm.trans hname
  · obtain rfl := Option.some.inj (hc.name.symm.trans hname)
    obtain ⟨found, hf⟩ := Table.exists_of_contains (hs.contains_name hn hname)
    obtain ⟨j, nj, hj, hnj, hkind⟩ := hs.child_of_site (InstanceTree.node_idAt.mpr hc.above) hc.children hc.insideOf hf
    rw [hc.found, InstanceTree.idAt_index hgen] at hj
    obtain rfl := Option.some.inj hj
    obtain rfl := Except.ok.inj (hn.symm.trans hnj)
    obtain ⟨payload, hw, hsymbol, hpayload⟩ := within_of_site hs.forest hx hf
    exact instantiation_of_target hs.paired (hpayload ▸ hkind) he hsymbol hy ▸ hw

lemma Coherent.opens (hs : s.Coherent) (hi : s.StandsFor id i) (hn : s.tree.node i = .ok n)
    (he : n.kind.target = some e) (hy : s.resolveSymbol e = some y)
    (hk : ∀ p, n.parent = some p → s.Keyed i id) : ∃ r, s.graph.Holds id r ∧ s.graph.Opens r.payload y := by
  cases hi with
  | @root _ r top d _ hr hpay hd hroot =>
    obtain ⟨m, hm, hnone, rfl⟩ := hs.shaped.node_of_root hroot
    obtain rfl := Except.ok.inj (hn.symm.trans hm)
    rcases hs.shaped.nodes (InstanceTree.node_eq.mp hn).2 with hrootAt | ⟨_, _, _, _, hc⟩
    · rw [hrootAt.kind] at he
      obtain rfl := Option.some.inj he
      obtain rfl := Option.some.inj (((hs.paired _ _).mpr hd).symm.trans hy)
      exact ⟨r, hr, .inl hpay⟩
    · cases hc.parent.symm.trans hnone
  | child _ _ _ _ hnp hc hj =>
    obtain ⟨m, hm, hparent, _⟩ := hs.shaped.node_of_child hnp hc hj
    obtain rfl := Except.ok.inj (hn.symm.trans hm)
    obtain ⟨m, outer, r, hm, hname, hx, hr, hpay⟩ := hk _ hparent
    obtain rfl := Except.ok.inj (hn.symm.trans hm)
    exact ⟨r, hr, .inr ⟨outer, hpay, hs.within hn hname he hx hy⟩⟩

lemma Targeted.keyed (hs : s.Coherent) (h : s.Targeted) (hi : s.StandsFor id i) (hn : s.tree.node i = .ok n)
    (hp : n.parent = some p) : s.Keyed i id := by
  obtain ⟨target, htarget⟩ := h.targets
  -- on the way down from the hierarchy: the record above opens the module of the node above, so the site is one of it
  induction hi generalizing n p with
  | root _ _ _ hi =>
    obtain ⟨m, hm, hnone, _⟩ := hs.shaped.node_of_root hi
    obtain rfl := Except.ok.inj (hn.symm.trans hm)
    cases hnone.symm.trans hp
  | @child id r site q _ np _ _ hr hpay hpar hq hnp hc hj ih =>
    obtain ⟨m, hm, hparent, hname⟩ := hs.shaped.node_of_child hnp hc hj
    obtain rfl := Except.ok.inj (hn.symm.trans hm)
    have he := hs.shaped.insideOf hn hparent hnp
    obtain ⟨y, hy⟩ := hs.targets (InstanceTree.node_eq.mp hnp).2 he
    obtain ⟨rp, hrp, hopens⟩ := hs.opens hq hnp he hy fun _ hp => ih hnp hp
    have hfits := htarget _ _ ⟨q, rp, id, r, hrp, rfl, hr, hpar, hpay⟩
    obtain rfl := (htarget.fits_iff hopens).mp hfits
    exact ⟨n, site, r, hn, hname, hy, hr, hpay⟩

end Keys

section Steps

lemma Targeted.of_eq (h : s.Targeted) (hg : t.graph = s.graph) (hr : t.registry = s.registry)
    (hq : t.queue.Sublist s.queue) : t.Targeted := by
  obtain ⟨⟨hmodules, hkeys, honce⟩, htargets, hqueue, hwaiting⟩ := h
  refine ⟨?_, hg ▸ htargets, hqueue.sublist hq, ?_⟩
  · constructor <;> simpa only [hg, resolveSymbol_congr hr]
  · intro d hd
    rw [hg, resolveSymbol_congr hr]
    exact hwaiting d (hq.subset hd)

lemma Enrolled.created (hs : s.Coherent) (h : s.Enrolled) (ha : s.graph.Accepts parent)
    (hgraph : t.graph = s.graph.created payload parent)
    (hsymbols : ∀ {d x}, s.resolveSymbol d = some x → t.resolveSymbol d = some x)
    (hm : ∀ x, payload = .module x → (∃ d, t.resolveSymbol d = some x) ∧ ∀ d, s.resolveSymbol d ≠ some x)
    (hk : ∀ site, payload = .dynamicInstance site → ∃ d, t.resolveSymbol d = some site.module) : t.Enrolled := by
  have hcases : ∀ {id r}, t.graph.Holds id r → (id = s.graph.nextId ∧ r.payload = payload) ∨
      ∃ r₀, s.graph.Holds id r₀ ∧ r.payload = r₀.payload := by
    intro id r hr
    rw [hgraph] at hr
    rcases (Graph.holds_created hs.forest ha).mp hr with ⟨hid, rfl⟩ | ⟨r₀, h₀, rfl⟩
    · exact .inl ⟨hid, rfl⟩
    · exact .inr ⟨r₀, h₀, rfl⟩
  refine ⟨?_, ?_, ?_⟩
  · intro id r x hr hp
    rcases hcases hr with ⟨_, hnew⟩ | ⟨r₀, h₀, hold⟩
    · exact (hm x (hnew.symm.trans hp)).1
    · obtain ⟨d, hd⟩ := h.modules h₀ (hold.symm.trans hp)
      exact ⟨d, hsymbols hd⟩
  · intro id r site hr hp
    rcases hcases hr with ⟨_, hnew⟩ | ⟨r₀, h₀, hold⟩
    · exact hk site (hnew.symm.trans hp)
    · obtain ⟨d, hd⟩ := h.keys h₀ (hold.symm.trans hp)
      exact ⟨d, hsymbols hd⟩
  · -- a module that has been there before has a definition, and a new one has none before
    have hother : ∀ {id r x}, s.graph.Holds id r → r.payload = .module x → payload ≠ .module x := by
      intro id r x hr hp hnew
      obtain ⟨d, hd⟩ := h.modules hr hp
      exact (hm x hnew).2 d hd
    intro id id' r r' x hr hp hr' hp'
    rcases hcases hr with ⟨rfl, hnew⟩ | ⟨r₀, h₀, hold⟩ <;> rcases hcases hr' with ⟨rfl, hnew'⟩ | ⟨r₀', h₀', hold'⟩
    · rfl
    · exact (hother h₀' (hold'.symm.trans hp') (hnew.symm.trans hp)).elim
    · exact (hother h₀ (hold.symm.trans hp) (hnew'.symm.trans hp')).elim
    · exact h.once h₀ (hold.symm.trans hp) h₀' (hold'.symm.trans hp')

lemma Enrolled.untouched (h : s.Enrolled) (hx : ∀ e, s.resolveSymbol e ≠ some x) :
    s.graph.Unused x ∧ s.graph.Blank x := by
  constructor
  · rintro id r site hr hp rfl
    obtain ⟨e, he⟩ := h.keys hr hp
    exact hx e he
  · rintro inner ⟨p, rp, _, _, hrp, hp, _⟩
    obtain ⟨e, he⟩ := h.modules hrp hp
    exact (hx e he).elim

lemma Enrolled.free (hs : s.Coherent) (h : s.Enrolled) (hx : s.resolveSymbol d = some x) (hf : s.Filling d m)
    (hnew : (s.siteTable d).contains name = false) (inner : Payload) (hw : s.graph.Within (.module x) inner) :
    inner.symbolName ≠ some name := by
  intro hn
  obtain ⟨rm, z, hm, hmod⟩ := hf.module
  obtain rfl := module_of_moduleOf hx hf.record hm hmod
  obtain ⟨p, rp, k, rk, hrp, hp, hrk, hpar, rfl⟩ := hw
  obtain rfl := h.once hm hmod hrp hp
  obtain ⟨_, rq, hrq, hbody⟩ := hs.forest.child_body hrk hpar
  obtain rfl := hm.unique hrq
  have hmem : name ∈ s.graph.names rm.body := Graph.mem_names.mpr ⟨k, hbody, rk, hrk, hn⟩
  rw [Graph.mem_names_body hm hmod, ← siteTable_of_moduleOf hf.record, hnew] at hmem
  cases hmem

lemma Targeted.created (hs : s.Coherent) (h : s.Targeted) (ha : s.graph.Accepts parent)
    (hgraph : t.graph = s.graph.created payload parent) (hr : t.registry = s.registry) (hq : t.queue = s.queue)
    (htargets : ∃ target, t.graph.Targets target) (hm : ∀ x, payload ≠ .module x)
    (hk : ∀ site, payload = .dynamicInstance site →
      (∃ d, s.resolveSymbol d = some site.module) ∧ ¬ s.graph.Blank site.module)
    (hsites : ∀ p r x, parent = some p → s.graph.Holds p r → r.payload = .module x → payload.symbolName ≠ none →
      ∀ d ∈ s.queue, s.resolveSymbol d ≠ some x) : t.Targeted where
  enrolled := by
    refine h.enrolled.created hs ha hgraph (fun hx => (resolveSymbol_congr hr _).trans hx)
      (fun x hp => (hm x hp).elim) fun site hp => ?_
    obtain ⟨⟨d, hd⟩, _⟩ := hk site hp
    exact ⟨d, (resolveSymbol_congr hr d).trans hd⟩
  targets := htargets
  queue := hq ▸ h.queue
  waiting := by
    intro d hd
    rw [hq] at hd
    obtain ⟨x, hx, hunused, hblank⟩ := h.waiting d hd
    refine ⟨x, (resolveSymbol_congr hr d).trans hx, ?_, ?_⟩
    · rw [hgraph]
      refine hunused.created hs.forest ha fun site hp => ?_
      rintro rfl
      exact (hk site hp).2 hblank
    · rw [hgraph]
      refine hblank.created hs.forest ha fun p r hparent hheld hmod => ?_
      by_contra hn
      exact hsites p r x hparent hheld hmod hn d hd hx

lemma Targeted.created_unnamed (hs : s.Coherent) (h : s.Targeted) (ha : s.graph.Accepts parent)
    (hgraph : t.graph = s.graph.created payload parent) (hr : t.registry = s.registry) (hq : t.queue = s.queue)
    (hn : payload.symbolName = none) (hd : payload.NotDynamic) : t.Targeted := by
  obtain ⟨target, htarget⟩ := h.targets
  refine h.created hs ha hgraph hr hq ⟨target, hgraph ▸ ?_⟩ ?_ (fun site hp => (hd site hp).elim)
    fun _ _ _ _ _ _ hne => (hne hn).elim
  · refine htarget.created hs.forest ha fun _ _ _ _ => Graph.fits_of_other ?_ hd
    rintro _ _ rfl
    cases hn
  · rintro _ rfl
    cases hn

lemma notDynamic_module (external : Bool) : (modulePayload external x).NotDynamic := by
  cases external <;> rintro _ ⟨⟩

lemma notDynamic_of_bodiless (hb : payload.hasBody = false) : payload.NotDynamic := by
  rintro _ rfl
  cases hb

lemma queue_built (external : Bool) : (s.built d x external).queue = if external then s.queue else d :: s.queue := by
  cases external <;> rfl

lemma mem_queue_built {external : Bool} (he : e ∈ (s.built d x external).queue) : e = d ∨ e ∈ s.queue := by
  rw [queue_built] at he
  cases external with
  | true => exact .inr he
  | false => exact List.mem_cons.mp he

lemma Targeted.built (hs : s.Coherent) (h : s.Targeted) (hd : s.resolveSymbol d = none) (hx : x ∉ s.takenSymbols)
    (external : Bool) : (s.built d x external).Targeted := by
  have ha := s.graph.accepts_top
  have hext := Extends.built hs hd hx external
  have hdx : (s.built d x external).resolveSymbol d = some x := by
    rw [resolveSymbol, built_registry]
    exact Table.find?_insert_self _ _ _
  have hnone : ∀ e, s.resolveSymbol e ≠ some x := by
    intro e he
    cases (not_taken hs.views hx).2.symm.trans ((hs.paired e x).mp he)
  have hkeep : ∀ y, s.graph.Unused y → s.graph.Blank y →
      (s.built d x external).graph.Unused y ∧ (s.built d x external).graph.Blank y := by
    intro y hunused hblank
    rw [built_graph]
    exact ⟨hunused.created hs.forest ha fun site hp => (notDynamic_module external site hp).elim,
      hblank.created hs.forest ha fun p _ hp => by cases hp⟩
  constructor
  · refine h.enrolled.created hs ha (built_graph external) hext.symbols (fun y hp => ?_)
      fun site hp => (notDynamic_module external site hp).elim
    obtain rfl : x = y := by cases external <;> simp_all [modulePayload]
    exact ⟨⟨d, hdx⟩, hnone⟩
  · obtain ⟨target, htarget⟩ := h.targets
    rw [built_graph]
    exact ⟨target, htarget.created hs.forest ha fun p _ hp => by cases hp⟩
  · rw [queue_built]
    cases external with
    | true => exact h.queue
    | false =>
      refine List.nodup_cons.mpr ⟨fun hm => ?_, h.queue⟩
      obtain ⟨y, hy, _⟩ := h.waiting d hm
      cases hd.symm.trans hy
  · intro e he
    rcases mem_queue_built he with rfl | he
    · obtain ⟨hunused, hblank⟩ := h.enrolled.untouched hnone
      exact ⟨x, hdx, hkeep x hunused hblank⟩
    · obtain ⟨y, hy, hunused, hblank⟩ := h.waiting e he
      exact ⟨y, hext.symbols hy, hkeep y hunused hblank⟩

lemma Targeted.nested (hs : s.Coherent) (h : s.Targeted) {owner : Handle} {site : SiteRef}
    (hn : s.Nesting i n owner site) : (s.nested owner site).Targeted := by
  obtain ⟨target, htarget⟩ := h.targets
  obtain ⟨p, hp, hstands⟩ := hn.owner
  obtain ⟨np, hnp⟩ := hs.node hstands
  obtain ⟨r, hr, hopens⟩ := hs.opens hstands hnp (hs.shaped.insideOf hn.node hp hnp) hn.symbol
    fun _ hparent => h.keyed hs hstands hnp hparent
  have hgraph : (s.nested owner site).graph = s.graph.created (.dynamicInstance site) (some owner.record) := rfl
  refine h.created hs hstands.accepts hgraph rfl rfl ⟨target, ?_⟩ (fun x hm => by cases hm) ?_
    fun _ _ _ _ _ _ hne => (hne rfl).elim
  · refine htarget.created hs.forest hstands.accepts fun q rq hq hrq => ?_
    obtain rfl := Option.some.inj hq
    obtain rfl := hr.unique hrq
    exact (htarget.fits_iff hopens).mpr rfl
  · rintro _ ⟨⟩
    refine ⟨⟨n.insideOf, hn.symbol⟩, fun hblank => ?_⟩
    obtain ⟨found, hf⟩ := Table.exists_of_contains hn.sited
    obtain ⟨payload, hw, hname, _⟩ := within_of_site hs.forest hn.symbol hf
    cases (hblank payload hw).symm.trans hname

lemma Targeted.sited (hs : s.Coherent) (h : s.Targeted) (hrun : s.Running d x) (hf : s.Filling d m)
    (hnew : (s.siteTable d).contains name = false) (hname : payload.symbolName = some name)
    (hb : payload.hasBody = false) (kind : NodeKind) : (s.sited d m name payload kind).Targeted := by
  obtain ⟨target, htarget⟩ := h.targets
  obtain ⟨rm, z, hm, hmod⟩ := hf.module
  obtain rfl := module_of_moduleOf hrun.symbol hf.record hm hmod
  have hgraph : (s.sited d m name payload kind).graph = s.graph.created payload (some m.record) := rfl
  have hfree := h.enrolled.free hs hrun.symbol hf hnew
  refine h.created hs hf.accepts hgraph rfl rfl ?_ ?_ ?_ ?_
  · cases payload with
    | instantiation name' y =>
      obtain rfl := Option.some.inj hname
      refine ⟨_, (htarget.update hrun.unused (fun y hw => hfree _ hw rfl) y).created hs.forest hf.accepts ?_⟩
      intro p r hp hr
      obtain rfl := Option.some.inj hp
      obtain rfl := hm.unique hr
      rw [hmod]
      exact Function.update_self _ _ _
    | dynamicInstance => cases hb
    | _ => exact ⟨target, htarget.created hs.forest hf.accepts fun _ _ _ _ =>
        Graph.fits_of_other (fun _ _ hp => by cases hp) fun _ hp => by cases hp⟩
  · rintro _ rfl
    cases hb
  · rintro _ rfl
    cases hb
  · intro p r y hp hr hy _ e he hx
    obtain rfl := Option.some.inj hp
    obtain rfl := hm.unique hr
    obtain rfl := Payload.module.inj (hmod.symm.trans hy)
    exact hrun.taken (symbol_injective hs.paired hx hrun.symbol ▸ he)

lemma Running.created (hs : s.Coherent) (hrun : s.Running d x) (ha : s.graph.Accepts parent)
    (hgraph : t.graph = s.graph.created payload parent) (hd : payload.NotDynamic)
    (hsymbols : ∀ {d x}, s.resolveSymbol d = some x → t.resolveSymbol d = some x) (hq : d ∉ t.queue) : t.Running d x :=
  ⟨hsymbols hrun.symbol, hq, hgraph ▸ hrun.unused.created hs.forest ha fun site hp => (hd site hp).elim⟩

lemma Fill.targeted (hf : Fill d m s t) (hs : s.Coherent) (h : s.Targeted) (hrun : s.Running d x) :
    t.Targeted ∧ t.Running d x := by
  cases hf with
  | @build e y definition _ he hy =>
    refine ⟨h.built hs he hy _, ?_⟩
    refine hrun.created hs s.graph.accepts_top (built_graph _) (notDynamic_module _)
      (Extends.built hs he hy _).symbols ?_
    intro hd
    rcases mem_queue_built hd with rfl | hd
    · cases he.symm.trans hrun.symbol
    · exact hrun.taken hd
  | site hf hnew hname hb hk =>
    exact ⟨h.sited hs hrun hf hnew hname hb _,
      hrun.created hs hf.accepts rfl (notDynamic_of_bodiless hb) id hrun.taken⟩
  | unnamed hf hn hb =>
    have hd := notDynamic_of_bodiless hb
    exact ⟨h.created_unnamed hs hf.accepts rfl rfl rfl hn hd, hrun.created hs hf.accepts rfl hd id hrun.taken⟩

lemma Fills.targeted (hf : Fills d m s t) (hs : s.Coherent) (h : s.Targeted) (hrun : s.Running d x) : t.Targeted := by
  suffices t.Targeted ∧ t.Running d x from this.1
  induction hf with
  | refl => exact ⟨h, hrun⟩
  | tail hfirst hlast ih => exact hlast.targeted (Changes.coherent (Fills.changes hfirst) hs).1 ih.1 ih.2

lemma Change.targeted (hc : Change resolving s t) (hs : s.Coherent) (h : s.Targeted)
    (hnew : ∀ id r, t.graph.Holds id r → s.graph.lastId < id.index → Graph.Siteless r.payload r.parent) :
    t.Targeted := by
  cases hc with
  | scan hscan =>
    have hqueue : t.queue = s.queue := congrArg (fun u => u.queue) hscan.core
    exact h.of_eq hscan.graph hscan.registry (hqueue ▸ .refl _)
  | dequeue hq => exact h.of_eq rfl rfl (hq ▸ List.sublist_cons_self _ _)
  | build _ hd hx => exact h.built hs hd hx _
  | @site _ m _ payload _ hf _ hname _ _ =>
    have hr : (s.graph.created payload (some m.record)).Holds s.graph.nextId _ :=
      Graph.holds_created_next hs.forest hf.accepts
    rcases hnew _ _ hr (Nat.lt_succ_self _) with hnone | hnone
    · cases hname.symm.trans hnone
    · cases hnone
  | unnamed hf hn hb => exact h.created_unnamed hs hf.accepts rfl rfl rfl hn (notDynamic_of_bodiless hb)
  | hierarchy => exact h.created_unnamed hs s.graph.accepts_top rfl rfl rfl rfl fun _ hp => by cases hp
  | nest hn => exact h.nested hs hn
  | note hi _ hn hb => exact h.created_unnamed hs hi.accepts rfl rfl rfl hn (notDynamic_of_bodiless hb)
  | _ => exact h.of_eq rfl rfl (.refl _)

lemma Changes.targeted (hc : Changes resolving s t) (hs : s.Coherent) (h : s.Targeted)
    (hnew : ∀ id r, t.graph.Holds id r → s.graph.lastId < id.index → Graph.Siteless r.payload r.parent) :
    t.Targeted := by
  induction hc with
  | refl => exact h
  | @tail u t hrun hlast ih =>
    obtain ⟨hu, hext⟩ := Changes.coherent hrun hs
    have hgrows := (hlast.coherent hu).2.graph
    refine hlast.targeted hu (ih fun id r hr hlt => ?_) fun id r hr hlt =>
      hnew id r hr (Nat.lt_of_le_of_lt hext.graph.lastId hlt)
    obtain ⟨_, hr'⟩ := hgrows.records hr
    have hsiteless := hnew _ _ hr' hlt
    exact hsiteless

end Steps

section Running

lemma targeted_runGenerator (hs : s.Coherent) (h : s.Targeted) (hrun : s.Running d x) :
    (endState (runGenerator d s).2).Targeted := by
  obtain ⟨u, hscan, hend⟩ := fills_runGenerator hs d
  have hqueue : u.queue = s.queue := congrArg (fun v => v.queue) hscan.core
  have hu : u.Targeted := h.of_eq hscan.graph hscan.registry (hqueue ▸ .refl _)
  rcases hend with hend | ⟨m, hfills⟩
  · rw [hend]
    exact hu
  · have hrun' : u.Running d x :=
      ⟨(hscan.resolveSymbol d).trans hrun.symbol, hqueue ▸ hrun.taken, hscan.graph ▸ hrun.unused⟩
    exact hfills.targeted (hscan.coherent hs) hu hrun'

lemma targeted_generateUpTo (hs : s.Coherent) (h : s.Targeted) (n : Nat) :
    (endState (generateUpTo n s).2).Targeted := by
  induction n generalizing s with
  | zero => exact h
  | succ n ih =>
    rw [generateUpTo]
    cases hq : s.queue with
    | nil => exact h
    | cons d queue =>
      -- the definition waits once, so it does not wait any more while its generator runs
      obtain ⟨x, hx, hunused, _⟩ := h.waiting d (hq ▸ List.mem_cons_self)
      have hnodup := h.queue
      rw [hq, List.nodup_cons] at hnodup
      have hdequeue : Change False s { s with queue } := .dequeue hq
      obtain ⟨hs', _⟩ := hdequeue.coherent hs
      have h' : ({ s with queue } : Design).Targeted := h.of_eq rfl rfl (hq ▸ List.sublist_cons_self d queue)
      have hrun := targeted_runGenerator hs' h' ⟨hx, hnodup.1, hunused⟩
      have hc := changes_runGenerator hs' d
      simp only
      generalize runGenerator d { s with queue } = result at hrun hc ⊢
      obtain ⟨events, r⟩ := result
      cases r with
      | error e t => exact hrun
      | ok u t => exact ih (Changes.coherent hc hs').1 hrun

lemma Targeted.after (hs : s.Coherent) (h : s.Targeted) (c : Call) : (s.after c).Targeted := by
  by_cases hc : c.generates
  · cases c with
    | generate limit =>
      have hrun := targeted_generateUpTo hs h (limit.getD s.definitions.length)
      rw [Design.after, generate]
      generalize generateUpTo (limit.getD s.definitions.length) s = result at hrun ⊢
      obtain ⟨events, r⟩ := result
      cases r with
      | error e t => exact hrun
      | ok u t => exact hrun
    | _ => exact hc.elim
  · have hd := derives_siteless hs.forest hc
    refine (changes_after hs c).targeted hs h fun id r hr hlt => ?_
    rcases hd.records hr with ⟨_, hold, _⟩ | ⟨_, hsiteless⟩
    · exact absurd (hs.forest.bound hold) (Nat.not_le_of_lt hlt)
    · exact hsiteless

lemma Rewritten.targeted (hr : s.Rewritten (fun _ => False) t) (hs : s.Coherent) (h : s.Targeted) : t.Targeted := by
  have hd : s.graph.Derives (fun _ _ => False) t.graph := hr.derives hs.forest
  have hold : ∀ {id r}, t.graph.Holds id r → ∃ r₀, s.graph.Holds id r₀ ∧ r.payload = r₀.payload := by
    intro id r hr
    rcases hd.records hr with ⟨r₀, h₀, hp, _⟩ | ⟨_, hno⟩
    · exact ⟨r₀, h₀, hp⟩
    · exact hno.elim
  obtain ⟨⟨hmodules, hkeys, honce⟩, ⟨target, htarget⟩, hqueue, hwaiting⟩ := h
  have hsymbols : ∀ d, t.resolveSymbol d = s.resolveSymbol d := by
    cases hr
    exact fun _ => rfl
  have hqueue' : t.queue = s.queue := by
    cases hr
    rfl
  refine ⟨⟨?_, ?_, ?_⟩, ⟨target, fun outer inner hw => htarget _ _ (hw.before hd hs.forest)⟩, hqueue' ▸ hqueue, ?_⟩
  · intro id r x hr hp
    obtain ⟨r₀, h₀, hpay⟩ := hold hr
    simpa only [hsymbols] using hmodules h₀ (hpay.symm.trans hp)
  · intro id r site hr hp
    obtain ⟨r₀, h₀, hpay⟩ := hold hr
    simpa only [hsymbols] using hkeys h₀ (hpay.symm.trans hp)
  · intro id id' r r' x hr hp hr' hp'
    obtain ⟨r₀, h₀, hpay⟩ := hold hr
    obtain ⟨r₀', h₀', hpay'⟩ := hold hr'
    exact honce h₀ (hpay.symm.trans hp) h₀' (hpay'.symm.trans hp')
  · intro d hd'
    obtain ⟨x, hx, hunused, hblank⟩ := hwaiting d (hqueue' ▸ hd')
    refine ⟨x, (hsymbols d).trans hx, fun id r site hr hp => ?_, fun inner hw => hblank inner (hw.before hd hs.forest)⟩
    obtain ⟨r₀, h₀, hpay⟩ := hold hr
    exact hunused id r₀ site h₀ (hpay.symm.trans hp)

lemma ReachableWith.targeted (hs : s.ReachableWith fun _ => False) : s.Targeted := by
  obtain ⟨config, source, hr⟩ := hs
  exact ReachesWith.invariant hr (coherent_new config source) (targeted_new config source)
    (fun hu h c => h.after hu c) fun hu hrewrite h => hrewrite.targeted hu h

end Running

end Design

end HardwareDesign
