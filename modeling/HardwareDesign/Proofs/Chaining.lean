import HardwareDesign.Proofs.Additions
import HardwareDesign.Proofs.Rebuilding
import HardwareDesign.Proofs.RecordKeys
import HardwareDesign.Proofs.Rooting

/-!
Dynamic instances are created once. A node that needs a record gets one in the record of its parent, so that the
records that are missing on its path become a chain.
-/

namespace HardwareDesign

def Payload.NotDynamic (p : Payload) : Prop := ∀ site, p ≠ .dynamicInstance site

namespace Graph

def Single (g : Graph) : Prop :=
  ∀ id id' r r' site, g.Holds id r → r.payload = .dynamicInstance site → g.Holds id' r' →
    r'.payload = .dynamicInstance site → r.parent = r'.parent → id = id'

/-- A dynamic instance is created for each of the sites, the first one in the owner and the others each in the one
before. -/
inductive Chain (g : Graph) (owner : RecordId) : List SiteRef → RecordId → Graph → Prop
  | nil : Chain g owner [] owner g
  | concat {sites p g'} (site : SiteRef) : Chain g owner sites p g' →
      Chain g owner (sites ++ [site]) g'.nextId (g'.created (.dynamicInstance site) (some p))

variable {g g' : Graph} {owner p id : RecordId} {r : Record} {site : SiteRef} {sites : List SiteRef} {payload : Payload}
  {parent : Option RecordId}

lemma contains_nestedTable (hg : g.Forest) (hr : g.Holds id r) (hp : r.payload = .dynamicInstance site)
    (hparent : r.parent = some p) : (g.nestedTable p).contains site = true := by
  obtain ⟨_, rp, hrp, hm⟩ := hg.child_body hr hparent
  rw [nestedTable_of_holds hrp, Table.contains_ofListFirst]
  have he : (site, g.handle id) ∈ g.entries nestedEntry rp.body := (mem_entries _).mpr ⟨id, hm, r, hr, by rw [hp]; rfl⟩
  exact List.mem_map_of_mem (f := Prod.fst) he

namespace Single

lemma created (h : g.Single) (hg : g.Forest) (ha : g.Accepts parent)
    (hnew : ∀ site, payload = .dynamicInstance site → ∃ p, parent = some p ∧ (g.nestedTable p).contains site = false) :
    (g.created payload parent).Single := by
  have hother : ∀ {id r site}, g.Holds id r → r.payload = .dynamicInstance site → payload = .dynamicInstance site →
      r.parent ≠ parent := by
    intro id r site hr hp hpay hparent
    obtain ⟨p, rfl, hno⟩ := hnew site hpay
    simp [contains_nestedTable hg hr hp hparent] at hno
  intro id id' r r' site hr hp hr' hp' hparent
  rcases (holds_created hg ha).mp hr with ⟨rfl, rfl⟩ | ⟨r₀, h₀, rfl⟩
  · rcases (holds_created hg ha).mp hr' with ⟨rfl, rfl⟩ | ⟨r₀', h₀', rfl⟩
    · rfl
    · exact (hother h₀' hp' hp hparent.symm).elim
  · rcases (holds_created hg ha).mp hr' with ⟨rfl, rfl⟩ | ⟨r₀', h₀', rfl⟩
    · exact (hother h₀ hp hp' hparent).elim
    · exact h _ _ _ _ _ h₀ hp h₀' hp' hparent

lemma derived (h : g.Single) (hd : g.Derives (fun payload _ => payload.NotDynamic) g') : g'.Single := by
  have hold : ∀ {id r site}, g'.Holds id r → r.payload = .dynamicInstance site →
      ∃ r₀, g.Holds id r₀ ∧ r₀.payload = .dynamicInstance site ∧ r.parent = r₀.parent := by
    intro id r site hr hp
    rcases hd.records hr with ⟨r₀, h₀, hpay, hparent⟩ | ⟨_, hno⟩
    · exact ⟨r₀, h₀, hpay.symm.trans hp, hparent⟩
    · exact (hno site hp).elim
  intro id id' r r' site hr hp hr' hp' hparent
  obtain ⟨_, h₀, hp₀, hq⟩ := hold hr hp
  obtain ⟨_, h₀', hp₀', hq'⟩ := hold hr' hp'
  exact h _ _ _ _ _ h₀ hp₀ h₀' hp₀' (hq.symm.trans (hparent.trans hq'))

end Single

namespace Chain

lemma of_nil (h : g.Chain owner [] p g') : p = owner ∧ g' = g := by
  generalize hnil : [] = sites at h
  cases h with
  | nil => exact ⟨rfl, rfl⟩
  | concat => simp at hnil

lemma forest (h : g.Chain owner sites p g') (hg : g.Forest) (ha : g.Accepts (some owner)) :
    g'.Forest ∧ g'.Accepts (some p) := by
  induction h with
  | nil => exact ⟨hg, ha⟩
  | concat site _ ih =>
    obtain ⟨hforest, hp⟩ := ih
    exact ⟨hforest.created hp, _, holds_created_next hforest hp, rfl⟩

lemma lastId_le (h : g.Chain owner sites p g') : g.lastId ≤ g'.lastId := by
  induction h with
  | nil => exact Nat.le_refl _
  | concat _ _ ih =>
    rw [created_lastId]
    exact Nat.le_succ_of_le ih

lemma derives (h : g.Chain owner sites p g') (hg : g.Forest) (ha : g.Accepts (some owner)) :
    g.Derives (fun _ _ => True) g' := by
  induction h with
  | nil => exact .refl _
  | concat site h ih =>
    obtain ⟨hforest, hp⟩ := h.forest hg ha
    exact ih.trans (hforest.derives hp trivial)

lemma last (h : g.Chain owner sites p g') (hg : g.Forest) (ha : g.Accepts (some owner)) (hne : sites ≠ []) :
    g.lastId < p.index ∧ g'.nestedTable p = {} := by
  cases h with
  | nil => exact (hne rfl).elim
  | concat site h =>
    obtain ⟨hforest, hp⟩ := h.forest hg ha
    exact ⟨Nat.lt_succ_of_le h.lastId_le, nestedTable_of_holds (holds_created_next hforest hp)⟩

end Chain

end Graph

namespace Design

def HasKey (s : Design) (i : InstanceId) (site : SiteRef) : Prop :=
  ∃ n, s.tree.node i = .ok n ∧ n.name = some site.name ∧ s.resolveSymbol n.insideOf = some site.module

/-- The record behind a node, where there is one: the hierarchy of a root, or the record that is remembered, or the one
under the key of the node in the record behind its parent. -/
inductive Backs (s : Design) : InstanceId → RecordId → Prop
  | hierarchy {i n x h} : s.tree.node i = .ok n → n.parent = none → s.resolveSymbol n.insideOf = some x →
      s.graph.hierarchies.find? x = some h → Backs s i h.record
  | remembered {i n p h} : s.tree.node i = .ok n → n.parent = some p → s.records.instances.find? i = some h →
      Backs s i h.record
  | nested {i n p q site h} : s.tree.node i = .ok n → n.parent = some p → s.records.instances.find? i = none →
      Backs s p q → s.HasKey i site → (s.graph.nestedTable q).find? site = some h → Backs s i h.record

inductive Records (s : Design) (fuel : Nat) (i : InstanceId) (n : Node) (h : Handle) : Design → Prop
  | hierarchy {x t} : n.parent = none → s.resolveSymbol n.insideOf = some x →
      s.graph.hierarchies.find? x = some h → t.graph = s.graph → Records s fuel i n h t
  | remembered {p t} : n.parent = some p → s.records.instances.find? i = some h → t.graph = s.graph →
      Records s fuel i n h t
  | nested {p site u owner v w} : n.parent = some p → s.records.instances.find? i = none → s.HasKey i site →
      s.Scanned u → recordUpTo fuel p u = .ok owner v → nestedRecord owner site v = .ok h w →
      Records s fuel i n h (w.setRecord i h)

variable {resolving : Prop} {s t u : Design} {i p : InstanceId} {n : Node} {owner h : Handle} {id : RecordId}
  {site : SiteRef} {fuel : Nat}

lemma Adds.single {payload : Payload} {parent : Option RecordId} (ha : s.Adds payload parent) (hs : s.Coherent)
    (h : s.graph.Single) : (s.graph.created payload parent).Single := by
  refine h.created hs.forest ha.accepts fun site hp => ?_
  cases ha with
  | module external => cases external <;> cases hp
  | hierarchy => cases hp
  | dynamic _ hnew => exact Payload.dynamicInstance.inj hp ▸ ⟨_, rfl, hnew⟩
  | site _ _ _ hb => simp [hp, Payload.hasBody] at hb
  | unnamed _ _ hb => simp [hp, Payload.hasBody] at hb
  | note _ _ hb => simp [hp, Payload.hasBody] at hb

lemma Change.single (hc : Change resolving s t) (hs : s.Coherent) (h : s.graph.Single) : t.graph.Single := by
  rcases hc.adds with hsame | ⟨_, _, ha, hgraph⟩
  · exact hsame ▸ h
  · exact hgraph ▸ ha.single hs h

lemma ReachableWith.single {allowed : Payload → Prop} (hs : s.ReachableWith allowed)
    (hallowed : ∀ {payload}, allowed payload → payload.NotDynamic) : s.graph.Single := by
  obtain ⟨config, source, hr⟩ := hs
  apply ReachesWith.invariant (P := fun u => u.graph.Single) hr (coherent_new config source)
  · intro _ _ _ _ _ hh
    cases hh
  · intro u hu h c
    exact (changes_after hu c).invariant hu h fun hv hc => hc.single hv
  · intro u v hu hrewrite h
    exact h.derived ((hrewrite.derives hu.forest).mono hallowed)

section Inversion

lemma records_of_recordUpTo (hs : s.Coherent) (hn : s.tree.node i = .ok n) (hr : recordUpTo (fuel + 1) i s = .ok h t) :
    s.Records fuel i n h t := by
  rcases hs.shaped.nodes (InstanceTree.node_eq.mp hn).2 with hroot | ⟨name, p, _, _, hc⟩
  · obtain ⟨x, hx, hf⟩ := hierarchy_of_recordUpTo hs hn hroot.parent hr
    have hk := (recordUpTo_root hs hn hroot.parent hx hf fuel).symm.trans hr
    cases hk
    exact .hierarchy hroot.parent hx hf rfl
  · cases hf : s.records.instances.find? i with
    | some k =>
      obtain ⟨u, hu, hscan⟩ := recordUpTo_remembered hs hn hc.parent hf fuel
      have hk := hu.symm.trans hr
      cases hk
      exact .remembered hc.parent hf hscan.graph
    | none =>
      obtain ⟨x, hx⟩ := hs.targets hc.above hc.insideOf
      obtain ⟨u, hscan, hrun⟩ := recordUpTo_new hs hn hc.parent hc.name hx hf fuel
      obtain ⟨owner, v, hup, hrest⟩ := ok_of_bind (hrun.symm.trans hr)
      obtain ⟨y, v', hread, hrest⟩ := ok_of_bind hrest
      obtain ⟨rfl, hy⟩ := Action.of_read hread
      obtain ⟨k, w, hnested, hset⟩ := ok_of_bind hrest
      cases hset
      -- the symbol is read after the parent has got its record, and it is still the same
      obtain ⟨_, _, hext⟩ := recorded_of_recordUpTo (hscan.coherent hs) hup
      have hxy := hext.symbols (hscan.grows.symbols hx)
      obtain rfl := Option.some.inj (hxy.symm.trans (resolveSymbol_of_builtSymbol hy))
      have hkey : s.HasKey i ⟨x, name⟩ := ⟨n, hn, hc.name, hx⟩
      exact .nested hc.parent hf hkey hscan hup hnested

lemma nestedRecord_cases (hs : s.Coherent) (he : owner.epoch = s.graph.epoch)
    (ha : s.graph.Accepts (some owner.record)) (hr : nestedRecord owner site s = .ok h t) :
    (s.graph.nestedTable owner.record).find? site = some h ∧ t.graph = s.graph ∨
      (s.graph.nestedTable owner.record).contains site = false ∧ h = s.graph.handle s.graph.nextId ∧
        t.graph = s.graph.created (.dynamicInstance site) (some owner.record) := by
  cases hf : (s.graph.nestedTable owner.record).find? site with
  | some k =>
    obtain ⟨u, hu, hscan⟩ := nestedRecord_found hs he ha hf
    have hk := hu.symm.trans hr
    cases hk
    exact .inl ⟨rfl, hscan.graph⟩
  | none =>
    obtain ⟨u, hu, hscan⟩ := nestedRecord_missing hs he ha hf
    cases hu.symm.trans hr
    rw [← hscan.graph] at hf ⊢
    exact .inr ⟨by simp [Table.contains, hf], rfl, rfl⟩

end Inversion

lemma HasKey.unique {site' : SiteRef} (h : s.HasKey i site) (h' : s.HasKey i site') : site = site' := by
  obtain ⟨n, hn, hname, hx⟩ := h
  obtain ⟨n', hn', hname', hx'⟩ := h'
  obtain rfl := Except.ok.inj (hn.symm.trans hn')
  obtain ⟨module, name⟩ := site
  obtain rfl := Option.some.inj (hname.symm.trans hname')
  obtain rfl := Option.some.inj (hx.symm.trans hx')
  rfl

lemma HasKey.congr (htree : t.tree = s.tree) (hr : t.registry = s.registry) (h : t.HasKey i site) : s.HasKey i site := by
  obtain ⟨n, hn, hname, hx⟩ := h
  exact ⟨n, htree ▸ hn, hname, resolveSymbol_congr hr _ ▸ hx⟩

lemma Backs.of_scanned (hscan : s.Scanned t) (h : s.Backs i id) : t.Backs i id := by
  induction h with
  | hierarchy hn hp hx hf =>
    exact .hierarchy (hscan.tree ▸ hn) hp ((hscan.resolveSymbol _).trans hx) (hscan.graph ▸ hf)
  | remembered hn hp hf => exact .remembered (hscan.tree ▸ hn) hp (hscan.instances ▸ hf)
  | nested hn hp hnew _ hkey hf ih =>
    obtain ⟨m, hm, hname, hx⟩ := hkey
    exact .nested (hscan.tree ▸ hn) hp (hscan.instances ▸ hnew) ih
      ⟨m, hscan.tree ▸ hm, hname, (hscan.resolveSymbol _).trans hx⟩ (hscan.graph ▸ hf)

lemma chain_of_recordUpTo (hs : s.Coherent) (hf : i.index < fuel) (hr : recordUpTo fuel i s = .ok h t) :
    ∃ above below sites owner, s.tree.pathUpTo fuel i = .ok (above ++ below) ∧ List.Forall₂ s.HasKey below sites ∧
      s.graph.Accepts (some owner) ∧ s.graph.Chain owner sites h.record t.graph := by
  induction fuel generalizing s i h t with
  | zero => exact absurd hf (Nat.not_lt_zero _)
  | succ fuel ih =>
    obtain ⟨n, hn⟩ := node_of_recordUpTo hr
    obtain ⟨⟨hstands, _⟩, _⟩ := recorded_of_recordUpTo hs hr
    -- where the record is there already, the whole path is above it
    have hfound : t.graph = s.graph → ∃ above below sites owner, s.tree.pathUpTo (fuel + 1) i = .ok (above ++ below) ∧
        List.Forall₂ s.HasKey below sites ∧ s.graph.Accepts (some owner) ∧
          s.graph.Chain owner sites h.record t.graph := by
      intro hgraph
      obtain ⟨_, _, hfound⟩ := hs.shaped.exists_found hn
      obtain ⟨ids, hids, _⟩ := hfound.pathUpTo hs.shaped hf
      refine ⟨ids, [], [], h.record, by rw [hids, List.append_nil], .nil, hgraph ▸ hstands.accepts, ?_⟩
      rw [hgraph]
      exact .nil
    cases records_of_recordUpTo hs hn hr with
    | hierarchy _ _ _ hgraph => exact hfound hgraph
    | remembered _ _ hgraph => exact hfound hgraph
    | @nested p site u owner v w hp hnew hkey hscan hup hnested =>
      have hu := hscan.coherent hs
      obtain ⟨howner, hv, _⟩ := recorded_of_recordUpTo hu hup
      have hlt : p.index < fuel := Nat.lt_of_lt_of_le (hs.shaped.parent_lt hn hp) (Nat.le_of_lt_succ hf)
      obtain ⟨above, below, sites, q, hpath, hkeys, ha, hchain⟩ := ih hu hlt hup
      have hkeys' : List.Forall₂ s.HasKey below sites := hkeys.imp fun _ _ => HasKey.congr hscan.tree hscan.registry
      rw [hscan.tree] at hpath
      rw [hscan.graph] at ha hchain
      rcases nestedRecord_cases hv howner.epoch howner.stands.accepts hnested with ⟨hf, hgraph⟩ | ⟨_, rfl, hgraph⟩
      · -- a record that has just been made has nothing in it, so the record above was there already
        have hnil : sites = [] := by
          by_contra hne
          rw [(hchain.last hs.forest ha hne).2] at hf
          cases hf
        subst hnil
        exact hfound (hgraph.trans hchain.of_nil.2)
      · refine ⟨above, below ++ [i], sites ++ [site], q, ?_, List.rel_append hkeys' (.cons hkey .nil), ha, ?_⟩
        · simp only [InstanceTree.pathUpTo, hn, hp, hpath, bind, Except.bind, pure, Except.pure, List.append_assoc]
        · have hend : (w.setRecord i (v.graph.handle v.graph.nextId)).graph = w.graph := rfl
          rw [hend, hgraph]
          exact hchain.concat site

lemma Backs.recordUpTo (hs : s.Coherent) (hb : s.Backs i id) (hf : i.index < fuel) :
    ∃ h t, Design.recordUpTo fuel i s = .ok h t ∧ h.record = id ∧ t.graph = s.graph := by
  induction fuel generalizing s i id with
  | zero => exact absurd hf (Nat.not_lt_zero _)
  | succ fuel ih =>
    cases hb with
    | hierarchy hn hp hx hh => exact ⟨_, _, recordUpTo_root hs hn hp hx hh fuel, rfl, rfl⟩
    | remembered hn hp hk =>
      obtain ⟨t, ht, hscan⟩ := recordUpTo_remembered hs hn hp hk fuel
      exact ⟨_, t, ht, rfl, hscan.graph⟩
    | nested hn hp hnew hq hkey hk =>
      obtain ⟨m, hm, hname, hx⟩ := hkey
      obtain rfl := Except.ok.inj (hn.symm.trans hm)
      obtain ⟨u, hscan, hrun⟩ := recordUpTo_below hs hn hp hname hx hnew fuel
      have hu := hscan.coherent hs
      have hlt : InstanceId.index _ < fuel := Nat.lt_of_lt_of_le (hs.shaped.parent_lt hn hp) (Nat.le_of_lt_succ hf)
      obtain ⟨owner, v, hup, rfl, hgraph⟩ := ih hu (hq.of_scanned hscan) hlt
      obtain ⟨howner, hv, hext⟩ := recorded_of_recordUpTo hu hup
      rw [hscan.graph] at hgraph
      obtain ⟨w, hw, hscan'⟩ := nestedRecord_found hv howner.epoch howner.stands.accepts (hgraph ▸ hk)
      have hxv := hext.symbols (hscan.grows.symbols hx)
      exact ⟨_, _, hrun hup hxv hw, rfl, hscan'.graph.trans hgraph⟩

lemma backs_of_recordUpTo (hs : s.Coherent) (hf : i.index < fuel) (hr : recordUpTo fuel i s = .ok h t)
    (hgraph : t.graph = s.graph) : s.Backs i h.record := by
  induction fuel generalizing s i h t with
  | zero => exact absurd hf (Nat.not_lt_zero _)
  | succ fuel ih =>
    obtain ⟨n, hn⟩ := node_of_recordUpTo hr
    cases records_of_recordUpTo hs hn hr with
    | hierarchy hp hx hh _ => exact .hierarchy hn hp hx hh
    | remembered hp hk _ => exact .remembered hn hp hk
    | @nested p site u owner v w hp hnew hkey hscan hup hnested =>
      have hu := hscan.coherent hs
      obtain ⟨howner, hv, hext⟩ := recorded_of_recordUpTo hu hup
      have hlt : p.index < fuel := Nat.lt_of_lt_of_le (hs.shaped.parent_lt hn hp) (Nat.le_of_lt_succ hf)
      have hend : w.graph = s.graph := hgraph
      rcases nestedRecord_cases hv howner.epoch howner.stands.accepts hnested with ⟨hk, hsame⟩ | ⟨_, _, hcreated⟩
      · have hvs : v.graph = s.graph := hsame.symm.trans hend
        have hback : u.Scanned s := ⟨hscan.core.symm, hs.views⟩
        have hq := (ih hu hlt hup (hvs.trans hscan.graph.symm)).of_scanned hback
        exact .nested hn hp hnew hq hkey (hvs ▸ hk)
      · have hlast := congrArg Graph.lastId (hcreated.symm.trans hend)
        have hle := hext.graph.lastId
        rw [Graph.created_lastId] at hlast
        rw [hscan.graph] at hle
        omega

/-- In runs whose passes create neither hierarchies nor dynamic instances, no two dynamic instances in one record are
for the same site. What is made for a node that asks for its record is one chain of dynamic instances, one for each of
the last nodes on its path, with the record of the node at its end. Nothing is made if the node has its record. -/
theorem dynamic_records_once
    (hs : s.ReachableWith fun payload => payload.NotHierarchy ∧ payload.NotDynamic) :
    s.graph.Single ∧ ∀ {i h t}, getOrCreateRecord i s = .ok h t →
      (∃ above below sites owner, s.tree.path i = .ok (above ++ below) ∧ List.Forall₂ s.HasKey below sites ∧
        s.graph.contains owner = true ∧ s.graph.Chain owner sites h.record t.graph) ∧
      (s.graph.contains h.record = true → t.graph = s.graph) ∧
      ∀ id, s.Backs i id ↔ h.record = id ∧ t.graph = s.graph := by
  have hc := hs.reachable.coherent
  refine ⟨hs.single And.right, ?_⟩
  intro i h t hr
  obtain ⟨above, below, sites, owner, hpath, hkeys, ha, hchain⟩ := chain_of_recordUpTo hc (Nat.lt_succ_self _) hr
  obtain ⟨r, hheld, _⟩ := ha
  refine ⟨⟨above, below, sites, owner, hpath, hkeys, Table.contains_of_find? hheld, hchain⟩, ?_, ?_⟩
  · intro hold
    have hnil : sites = [] := by
      by_contra hne
      obtain ⟨_, hk⟩ := Table.exists_of_contains hold
      exact absurd (hc.forest.bound hk) (Nat.not_le_of_lt (hchain.last hc.forest ⟨r, hheld, by assumption⟩ hne).1)
    subst hnil
    exact hchain.of_nil.2
  · intro id
    constructor
    · intro hb
      obtain ⟨_, _, hrun, hid, hgraph⟩ := hb.recordUpTo hc (Nat.lt_succ_self _)
      cases hr.symm.trans hrun
      exact ⟨hid, hgraph⟩
    · rintro ⟨rfl, hgraph⟩
      exact backs_of_recordUpTo hc (Nat.lt_succ_self _) hr hgraph

def askedAgain : Design :=
  rewritten.run [.call (.root ⟨2⟩), .call (.child ⟨0, 1⟩ "a"), .call (.child ⟨2, 1⟩ "x")]

lemma reachable_askedAgain :
    askedAgain.ReachableWith fun payload => payload.NotHierarchy ∧ payload.NotDynamic := by
  have hmade : recordedFirst.madeBy [retarget] [] () = [.instantiation "a" "B"] := by decide +kernel
  have hpass : recordedFirst.ReachesWith (fun payload => payload.NotHierarchy ∧ payload.NotDynamic) rewritten := by
    unfold rewritten
    refine .single (.passes [retarget] [] () fun payload hm => ?_)
    rw [hmade] at hm
    obtain rfl := List.mem_singleton.mp hm
    exact ⟨fun top hp => (by cases hp), fun site hp => (by cases hp)⟩
  exact ⟨{}, 0, (reachesWith_run _ _).trans (hpass.trans (reachesWith_run _ _))⟩

theorem dynamic_records_once_retargeted :
    (∃ owner sites, askedAgain.graph.Chain owner sites ⟨12⟩ (askedAgain.after (.record ⟨3, 1⟩)).graph) ∧
      ¬ askedAgain.Backs ⟨3, 1⟩ ⟨12⟩ ∧ askedAgain.Backs ⟨2, 1⟩ ⟨9⟩ := by
  have hx : getOrCreateRecord ⟨3, 1⟩ askedAgain = .ok ⟨⟨12⟩, 1, 0⟩ (askedAgain.after (.record ⟨3, 1⟩)) := rfl
  have ha : getOrCreateRecord ⟨2, 1⟩ askedAgain = .ok ⟨⟨9⟩, 1, 0⟩ (askedAgain.after (.record ⟨2, 1⟩)) := rfl
  obtain ⟨_, honce⟩ := dynamic_records_once reachable_askedAgain
  obtain ⟨⟨_, _, sites, owner, _, _, _, hchain⟩, _, hbacks⟩ := honce hx
  obtain ⟨_, hheld, hbacks'⟩ := honce ha
  refine ⟨⟨owner, sites, hchain⟩, fun hb => ?_, (hbacks' _).mpr ⟨rfl, hheld (by decide +kernel)⟩⟩
  have hlast := congrArg Graph.lastId ((hbacks _).mp hb).2
  exact absurd hlast (by decide +kernel)

end Design

end HardwareDesign
