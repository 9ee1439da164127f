import HardwareDesign.Proofs.Anchoring
import HardwareDesign.Proofs.Chaining

namespace HardwareDesign

namespace Graph

variable {g : Graph} {id : RecordId} {payload : Payload} {parent : Option RecordId}

lemma hierarchies_created_below (hg : g.Forest) (ha : g.Accepts (some id)) :
    (g.created payload (some id)).hierarchies = g.hierarchies := by
  rw [hierarchies_created hg ha]
  rfl

lemma find?_nestedTable_of_created (hg : g.Forest) (ha : g.Accepts parent) (hid : g.contains id = true) {site : SiteRef}
    {h : Handle} (hh : g.contains h.record = true)
    (hf : ((g.created payload parent).nestedTable id).find? site = some h) :
    (g.nestedTable id).find? site = some h := by
  obtain ⟨r, hr⟩ := Table.exists_of_contains hid
  obtain ⟨rh, hrh⟩ := Table.exists_of_contains hh
  have hne : h ≠ g.handle g.nextId := by
    rintro rfl
    exact hg.not_held_next hrh
  rw [nestedTable_created hg ha hr] at hf
  cases he : (if parent = some id then nestedEntry (g.handle g.nextId) payload else none) with
  | none => simpa [he, Table.addEntry] using hf
  | some e =>
    have hnew : e.2 = g.handle g.nextId := by
      obtain ⟨_, hentry⟩ := Option.ite_none_right_eq_some.mp he
      cases payload <;> simp only [nestedEntry, reduceCtorEq, Option.some.injEq] at hentry
      exact hentry ▸ rfl
    rw [he, Table.addEntry, Table.find?_insertNew] at hf
    split at hf
    case isFalse => exact hf
    case isTrue heq =>
      subst heq
      cases hold : (g.nestedTable id).find? e.1 with
      | some k => simpa [hold] using hf
      | none => exact (hne (by simpa [hold, hnew] using hf.symm)).elim

end Graph

namespace Design

structure Steady (s t : Design) : Prop where
  grows : s.Extends t
  tree : t.tree = s.tree
  anchored : ∀ {i}, t.Anchored i → s.Anchored i
  backs : ∀ {i id}, s.graph.contains id = true → (t.Backs i id ↔ s.Backs i id)

variable {s t u : Design} {i j p : InstanceId} {n : Node} {owner h : Handle} {id id' : RecordId} {site : SiteRef}
  {fuel : Nat}

section Backs

lemma Backs.unique (h : s.Backs i id) (h' : s.Backs i id') : id = id' := by
  induction h generalizing id' with
  | hierarchy hn hp hx hf =>
    cases h' with
    | hierarchy hm _ hy hk =>
      obtain rfl := Except.ok.inj (hn.symm.trans hm)
      obtain rfl := Option.some.inj (hx.symm.trans hy)
      rw [Option.some.inj (hf.symm.trans hk)]
    | remembered hm hq =>
      obtain rfl := Except.ok.inj (hn.symm.trans hm)
      cases hp.symm.trans hq
    | nested hm hq =>
      obtain rfl := Except.ok.inj (hn.symm.trans hm)
      cases hp.symm.trans hq
  | remembered hn hp hf =>
    cases h' with
    | hierarchy hm hq =>
      obtain rfl := Except.ok.inj (hn.symm.trans hm)
      cases hp.symm.trans hq
    | remembered _ _ hk => rw [Option.some.inj (hf.symm.trans hk)]
    | nested _ _ hnew => cases hnew.symm.trans hf
  | nested hn hp hnew _ hkey hf ih =>
    cases h' with
    | hierarchy hm hq =>
      obtain rfl := Except.ok.inj (hn.symm.trans hm)
      cases hp.symm.trans hq
    | remembered _ _ hk => cases hnew.symm.trans hk
    | nested hm hq _ hup hkey' hk =>
      obtain rfl := Except.ok.inj (hn.symm.trans hm)
      obtain rfl := Option.some.inj (hp.symm.trans hq)
      obtain rfl := ih hup
      obtain rfl := hkey.unique hkey'
      rw [Option.some.inj (hf.symm.trans hk)]

lemma Backs.held (hs : s.Coherent) (h : s.Backs i id) : s.graph.contains id = true := by
  cases h with
  | hierarchy _ _ _ hf =>
    obtain ⟨_, _, r, hr, _⟩ := Graph.holds_of_find?_hierarchies hf
    exact Table.contains_of_find? hr
  | remembered _ _ hf =>
    obtain ⟨r, hr, _⟩ := (hs.backed hf).2.holds
    exact Table.contains_of_find? hr
  | nested _ _ _ _ _ hf =>
    obtain ⟨_, r, hr, _⟩ := Graph.holds_of_find?_nestedTable hs.forest hf
    exact Table.contains_of_find? hr

lemma Backs.anchored (h : s.Backs i id) : s.Anchored i := by
  induction h with
  | hierarchy hn hp hx hf => exact .hierarchy hn hp hx hf
  | remembered hn hp hf => exact .remembered hn hp hf
  | nested hn hp _ _ _ _ ih => exact .parent hn hp ih

lemma Backs.grows (hg : s.graph.Forest) (he : s.Extends t) (hi : t.records.instances = s.records.instances)
    (h : s.Backs i id) : t.Backs i id := by
  induction h with
  | hierarchy hn hp hx hf =>
    obtain ⟨_, hn', _⟩ := he.node hn
    exact .hierarchy hn' hp (he.symbols hx) (Graph.find?_hierarchies_grows hg he.graph hf)
  | remembered hn hp hf =>
    obtain ⟨_, hn', _⟩ := he.node hn
    exact .remembered hn' hp (he.instances hf)
  | nested hn hp hnew _ hkey hf ih =>
    obtain ⟨_, hn', _⟩ := he.node hn
    obtain ⟨_, hm, hname, hx⟩ := hkey
    obtain ⟨_, hm', _⟩ := he.node hm
    exact .nested hn' hp (hi ▸ hnew) ih ⟨_, hm', hname, he.symbols hx⟩ (Graph.find?_nestedTable_grows hg he.graph hf)

end Backs

section Setting

variable (hb : s.Backs i h.record)
include hb

lemma Backs.of_setRecord (hj : (s.setRecord i h).Backs j id) : s.Backs j id := by
  induction hj with
  | hierarchy hm hq hx hf => exact .hierarchy hm hq hx hf
  | @remembered j m q k hm hq hf =>
    by_cases hij : i = j
    · subst hij
      obtain rfl := Option.some.inj ((Table.find?_insert_self _ _ _).symm.trans hf)
      exact hb
    · exact .remembered hm hq ((Table.find?_insert_of_ne _ _ hij).symm.trans hf)
  | @nested j m q r site k hm hq hunset _ hkey hf ih =>
    have hij : i ≠ j := by
      rintro rfl
      cases (Table.find?_insert_self _ _ _).symm.trans hunset
    exact .nested hm hq ((Table.find?_insert_of_ne _ _ hij).symm.trans hunset) ih hkey hf

lemma Backs.setRecord (he : s.Extends (s.setRecord i h)) (hn : s.tree.node i = .ok n) (hp : n.parent = some p)
    (hj : s.Backs j id) : (s.setRecord i h).Backs j id := by
  induction hj with
  | hierarchy hm hq hx hf => exact .hierarchy hm hq hx hf
  | remembered hm hq hf => exact .remembered hm hq (he.instances hf)
  | @nested j m q r site k hm hq hunset hup hkey hf ih =>
    by_cases hij : i = j
    · subst hij
      have hk : s.Backs i k.record := .nested hm hq hunset hup hkey hf
      exact hb.unique hk ▸ .remembered hn hp (Table.find?_insert_self _ _ _)
    · exact .nested hm hq ((Table.find?_insert_of_ne _ _ hij).trans hunset) ih hkey hf

lemma Anchored.of_setRecord (hj : (s.setRecord i h).Anchored j) : s.Anchored j := by
  induction hj with
  | hierarchy hm hq hx hf => exact .hierarchy hm hq hx hf
  | @remembered j m q k hm hq hf =>
    by_cases hij : i = j
    · exact hij ▸ hb.anchored
    · exact .remembered hm hq ((Table.find?_insert_of_ne _ _ hij).symm.trans hf)
  | parent hm hq _ ih => exact .parent hm hq ih

end Setting

section Creating

variable {payload : Payload} {q : RecordId} (hs : s.Coherent) (ha : s.graph.Accepts (some q))
  (hgraph : t.graph = s.graph.created payload (some q)) (hregistry : t.registry = s.registry) (htree : t.tree = s.tree)
  (hinstances : t.records.instances = s.records.instances)
include hs ha hgraph hregistry htree hinstances

lemma Anchored.of_created (h : t.Anchored i) : s.Anchored i := by
  have hhierarchies : t.graph.hierarchies = s.graph.hierarchies :=
    hgraph ▸ Graph.hierarchies_created_below hs.forest ha
  induction h with
  | hierarchy hn hp hx hf =>
    exact .hierarchy (htree ▸ hn) hp (resolveSymbol_congr hregistry _ ▸ hx) (hhierarchies ▸ hf)
  | remembered hn hp hf => exact .remembered (htree ▸ hn) hp (hinstances ▸ hf)
  | parent hn hp _ ih => exact .parent (htree ▸ hn) hp ih

lemma Backs.of_created (ht : t.Coherent) (hid : s.graph.contains id = true) (h : t.Backs i id) : s.Backs i id := by
  have he : s.Extends t := .created hs.forest ha hgraph hregistry htree hinstances
  have hhierarchies : t.graph.hierarchies = s.graph.hierarchies :=
    hgraph ▸ Graph.hierarchies_created_below hs.forest ha
  induction h with
  | hierarchy hn hp hx hf =>
    exact .hierarchy (htree ▸ hn) hp (resolveSymbol_congr hregistry _ ▸ hx) (hhierarchies ▸ hf)
  | remembered hn hp hf => exact .remembered (htree ▸ hn) hp (hinstances ▸ hf)
  | @nested i n p q site h hn hp hnew _ hkey hf ih =>
    obtain ⟨r₀, h₀⟩ := Table.exists_of_contains hid
    obtain ⟨_, r, hr, _, hpar⟩ := Graph.holds_of_find?_nestedTable ht.forest hf
    obtain ⟨_, hr'⟩ := he.graph.records h₀
    obtain rfl := hr.unique hr'
    obtain ⟨_, rq, hrq, _⟩ := hs.forest.child_body h₀ hpar
    have hq := Table.contains_of_find? hrq
    rw [hgraph] at hf
    exact .nested (htree ▸ hn) hp (hinstances ▸ hnew) (ih hq) (hkey.congr htree hregistry)
      (Graph.find?_nestedTable_of_created hs.forest ha hq hid hf)

end Creating

namespace Steady

lemma trans (h : s.Steady t) (h' : t.Steady u) : s.Steady u where
  grows := h.grows.trans h'.grows
  tree := h'.tree.trans h.tree
  anchored hu := h.anchored (h'.anchored hu)
  backs hid := (h'.backs (h.grows.graph.contains hid)).trans (h.backs hid)

lemma of_scanned (hs : s.Coherent) (h : s.Scanned t) : s.Steady t where
  grows := h.grows
  tree := h.tree
  anchored := (h.anchored hs).mp
  backs _ := ⟨.of_scanned (h.symm hs.views), .of_scanned h⟩

lemma of_created {payload : Payload} {q : RecordId} (hs : s.Coherent) (ht : t.Coherent)
    (ha : s.graph.Accepts (some q)) (hgraph : t.graph = s.graph.created payload (some q))
    (hregistry : t.registry = s.registry) (htree : t.tree = s.tree)
    (hinstances : t.records.instances = s.records.instances) : s.Steady t := by
  have he : s.Extends t := .created hs.forest ha hgraph hregistry htree hinstances
  refine ⟨he, htree, .of_created hs ha hgraph hregistry htree hinstances, fun hid => ⟨?_, ?_⟩⟩
  · exact .of_created hs ha hgraph hregistry htree hinstances ht hid
  · exact .grows hs.forest he hinstances

lemma of_setRecord (he : s.Extends (s.setRecord i h)) (hn : s.tree.node i = .ok n) (hp : n.parent = some p)
    (hb : s.Backs i h.record) : s.Steady (s.setRecord i h) :=
  ⟨he, rfl, .of_setRecord hb, fun _ => ⟨.of_setRecord hb, .setRecord hb he hn hp⟩⟩

end Steady

section Recording

lemma steady_nestedRecord (hs : s.Coherent) (hn : s.Nesting i n owner site) (hr : nestedRecord owner site s = .ok h t) :
    s.Steady t ∧ t.Coherent ∧ (t.graph.nestedTable owner.record).find? site = some h ∧
      t.records.instances = s.records.instances ∧ t.placements = s.placements := by
  have hkeeps : Keeps False s _ _ := keeps_nestedRecord hs hn
  obtain ⟨hc, hfound, hinstances⟩ := hkeeps.ended hr
  obtain ⟨ht, _⟩ := hc.coherent hs
  suffices h : s.Steady t ∧ t.placements = s.placements from ⟨h.1, ht, hfound, hinstances, h.2⟩
  obtain ⟨_, _, hstands⟩ := hn.owner
  cases hf : (s.graph.nestedTable owner.record).find? site with
  | some k =>
    obtain ⟨u, hu, hscan⟩ := nestedRecord_found hs hn.epoch hstands.accepts hf
    cases hu.symm.trans hr
    exact ⟨.of_scanned hs hscan, hscan.placements⟩
  | none =>
    obtain ⟨u, hu, hscan⟩ := nestedRecord_missing hs hn.epoch hstands.accepts hf
    cases hu.symm.trans hr
    have ha := (hscan.grows.standsFor hstands).accepts
    exact ⟨(Steady.of_scanned hs hscan).trans (.of_created (hscan.coherent hs) ht ha rfl rfl rfl rfl), hscan.placements⟩

lemma steady_recordUpTo (hs : s.Coherent) (hr : recordUpTo fuel i s = .ok h t) :
    s.Steady t ∧ t.Backs i h.record ∧ t.placements = s.placements := by
  induction fuel generalizing s i h t with
  | zero => cases hr
  | succ fuel ih =>
    obtain ⟨n, hn⟩ := node_of_recordUpTo hr
    cases records_of_recordUpTo hs hn hr with
    | hierarchy hp hx hf _ =>
      cases (recordUpTo_root hs hn hp hx hf fuel).symm.trans hr
      have hscan := scanned_hierarchies hs.views
      exact ⟨.of_scanned hs hscan, .of_scanned hscan (.hierarchy hn hp hx hf), hscan.placements⟩
    | remembered hp hf _ =>
      obtain ⟨u, hu, hscan⟩ := recordUpTo_remembered hs hn hp hf fuel
      cases hu.symm.trans hr
      exact ⟨.of_scanned hs hscan, .of_scanned hscan (.remembered hn hp hf), hscan.placements⟩
    | @nested p site u owner v w hp hnew hkey hscan hup hnested =>
      have hu := hscan.coherent hs
      obtain ⟨hsteady, hbacks, hdatabase⟩ := ih hu hup
      obtain ⟨howner, hv, _⟩ := recorded_of_recordUpTo hu hup
      have hup' := (Steady.of_scanned hs hscan).trans hsteady
      -- the node has its name and its parent from before, so the record that it gets is its own
      obtain ⟨m, hm, hname, hx⟩ := hkey
      obtain rfl := Except.ok.inj (hn.symm.trans hm)
      have hsited : (u.siteTable n.insideOf).contains site.name = true := hscan.siteTable _ ▸ hs.contains_name hn hname
      obtain ⟨_, hnest⟩ := howner.nesting hu hsteady.grows (hscan.tree ▸ hn) hp hname hsited (hup'.grows.symbols hx)
      obtain ⟨hsteady', hw, hfound, hinstances, hdatabase'⟩ := steady_nestedRecord hv hnest hnested
      have hall := hup'.trans hsteady'
      have hnw : w.tree.node i = .ok n := hall.tree ▸ hn
      have hunset : w.records.instances.find? i = none := by
        rw [hinstances, howner.others (hs.shaped.parent_lt hn hp), hscan.instances, hnew]
      have hpw := (hsteady'.backs (hbacks.held hv)).mpr hbacks
      have hb : w.Backs i h.record :=
        .nested hnw hp hunset hpw ⟨n, hnw, hname, hall.grows.symbols hx⟩ hfound
      obtain ⟨hstands, hepoch⟩ : w.StandsFor h.record i ∧ h.epoch = w.graph.epoch := by
        obtain ⟨_, hnest'⟩ := hnest.grows hv.forest hsteady'.grows
        exact hnest'.standsFor hw hfound
      obtain ⟨_, hset⟩ := hw.setRecord hstands hepoch hunset
      exact ⟨hall.trans (.of_setRecord hset hnw hp hb),
        .remembered hnw hp (Table.find?_insert_self _ _ _), hdatabase'.trans (hdatabase.trans hscan.placements)⟩

lemma steady_getOrCreateRecord (hs : s.Coherent) (hr : getOrCreateRecord i s = .ok h t) :
    s.Steady t ∧ t.Backs i h.record ∧ t.placements = s.placements :=
  steady_recordUpTo hs hr

lemma backs_of_held (hs : s.Coherent) (hr : getOrCreateRecord i s = .ok h t)
    (hheld : s.graph.contains h.record = true) : s.Backs i h.record := by
  obtain ⟨hsteady, hb, _⟩ := steady_getOrCreateRecord hs hr
  exact (hsteady.backs hheld).mp hb

end Recording

end Design

end HardwareDesign
