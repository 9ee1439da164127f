import HardwareDesign.Graph.Check
import HardwareDesign.Proofs.Views

namespace HardwareDesign.Graph

def names (g : Graph) (ids : List RecordId) : List String := ids.filterMap g.nameOf

structure Sound (g : Graph) : Prop where
  symbols : (g.names g.top).Nodup
  bodies : ∀ {id r}, g.Holds id r → (g.names r.body).Nodup
  targets : ∀ {id r name target}, g.Holds id r → r.payload = .instantiation name target → target ∈ g.names g.top
  hierarchies : ∀ {id r top}, g.Holds id r → r.payload = .hierarchy top → top ∈ g.names g.top
  sites : ∀ {id r site}, g.Holds id r → r.payload = .dynamicInstance site →
    ∃ m rm, m ∈ g.top ∧ g.Holds m rm ∧ rm.payload = .module site.module ∧ site.name ∈ g.names rm.body

lemma sound_empty (source : Nat) : (empty source).Sound where
  symbols := List.nodup_nil
  bodies h := by cases h
  targets h := by cases h
  hierarchies h := by cases h
  sites h := by cases h

variable {g : Graph} {ids : List RecordId} {id : RecordId} {r : Record}

lemma nameOf_of_holds (h : g.Holds id r) : g.nameOf id = r.payload.symbolName := by
  simp only [nameOf, show g.records.find? id = some r from h, Option.bind_some]

lemma mem_names {x : String} : x ∈ g.names ids ↔ ∃ id ∈ ids, ∃ r, g.Holds id r ∧ r.payload.symbolName = some x := by
  simp only [names, nameOf, List.mem_filterMap, Option.bind_eq_some_iff]

lemma names_eq (g : Graph) (ids : List RecordId) : g.names ids = (g.entries symbolEntry ids).map Prod.fst := by
  simp only [names, entries, List.map_filterMap]
  apply List.filterMap_congr
  intro id _
  cases h : g.records.find? id with
  | none => simp [nameOf, h]
  | some r => cases hn : r.payload.symbolName <;> simp [nameOf, h, symbolEntry, hn]

lemma mem_names_top {x : String} : x ∈ g.names g.top ↔ g.namedTop.contains x = true := by
  rw [names_eq, namedTop_eq, Table.contains_ofListFirst]

lemma mem_names_body {x y : String} (hr : g.Holds id r) (hp : r.payload = .module y) :
    x ∈ g.names r.body ↔ (g.siteTable id).contains x = true := by
  rw [names_eq, siteTable_of_module hr hp, Table.contains_ofListFirst, keys_siteEntries]

section Created

variable {payload : Payload} {parent : Option RecordId}

lemma names_created (hg : g.Forest) (ha : g.Accepts parent) (hi : g.AllHeld ids) :
    (g.created payload parent).names ids = g.names ids := by
  rw [names_eq, names_eq, entries_grows symbolEntry (hg.grows ha) hi]

lemma names_created_next (hg : g.Forest) (ha : g.Accepts parent) (hi : g.AllHeld ids) (c : Prop) [Decidable c] :
    (g.created payload parent).names (ids ++ if c then [g.nextId] else []) =
      g.names ids ++ if c then payload.symbolName.toList else [] := by
  have hnext : (g.created payload parent).nameOf g.nextId = payload.symbolName :=
    nameOf_of_holds (holds_created_next hg ha)
  rw [names, List.filterMap_append]
  apply congrArg₂ _ (names_created hg ha hi)
  by_cases hc : c
  · cases hn : payload.symbolName <;> simp [hc, hnext, hn]
  · simp [hc]

lemma nodup_append_symbol {xs : List String} {n : Option String} (hxs : xs.Nodup) (c : Prop) [Decidable c]
    (hn : c → ∀ {x}, n = some x → x ∉ xs) : (xs ++ if c then n.toList else []).Nodup := by
  by_cases hc : c
  · cases n with
    | none => simpa [hc] using hxs
    | some x =>
      rw [if_pos hc]
      exact List.concat_eq_append ▸ hxs.concat (hn hc rfl)
  · simpa [hc] using hxs

lemma mem_names_top_created (hg : g.Forest) (ha : g.Accepts parent) {x : String} (hx : x ∈ g.names g.top) :
    x ∈ (g.created payload parent).names (g.created payload parent).top := by
  rw [created_top, names_created_next hg ha hg.allHeld_top]
  exact List.mem_append_left _ hx

lemma Sound.created (hg : g.Forest) (hs : g.Sound) (ha : g.Accepts parent)
    (hsymbol : parent = none → ∀ {x}, payload.symbolName = some x → x ∉ g.names g.top)
    (hname : ∀ {p r}, parent = some p → g.Holds p r → ∀ {x}, payload.symbolName = some x → x ∉ g.names r.body)
    (htarget : ∀ {name target}, payload = .instantiation name target → target ∈ g.names g.top)
    (hhierarchy : ∀ {top}, payload = .hierarchy top → top ∈ g.names g.top)
    (hsite : ∀ {site}, payload = .dynamicInstance site →
      ∃ m rm, m ∈ g.top ∧ g.Holds m rm ∧ rm.payload = .module site.module ∧ site.name ∈ g.names rm.body) :
    (g.created payload parent).Sound where
  symbols := by
    rw [created_top, names_created_next hg ha hg.allHeld_top]
    exact nodup_append_symbol hs.symbols _ hsymbol
  bodies := by
    intro id r h
    rcases (holds_created hg ha).mp h with ⟨rfl, rfl⟩ | ⟨r₀, h₀, rfl⟩
    · exact List.nodup_nil
    · rw [names_created_next hg ha (hg.allHeld_body h₀)]
      exact nodup_append_symbol (hs.bodies h₀) _ fun hp => hname hp h₀
  targets := by
    intro id r name target h hp
    apply mem_names_top_created hg ha
    rcases (holds_created hg ha).mp h with ⟨rfl, rfl⟩ | ⟨r₀, h₀, rfl⟩
    · exact htarget hp
    · exact hs.targets h₀ hp
  hierarchies := by
    intro id r top h hp
    apply mem_names_top_created hg ha
    rcases (holds_created hg ha).mp h with ⟨rfl, rfl⟩ | ⟨r₀, h₀, rfl⟩
    · exact hhierarchy hp
    · exact hs.hierarchies h₀ hp
  sites := by
    intro id r site h hp
    have hold : ∃ m rm, m ∈ g.top ∧ g.Holds m rm ∧ rm.payload = .module site.module ∧
        site.name ∈ g.names rm.body := by
      rcases (holds_created hg ha).mp h with ⟨rfl, rfl⟩ | ⟨r₀, h₀, rfl⟩
      · exact hsite hp
      · exact hs.sites h₀ hp
    obtain ⟨m, rm, hm, hrm, hpm, hname⟩ := hold
    refine ⟨m, _, ?_, holds_created_of_holds hg ha hrm, hpm, ?_⟩
    · rw [created_top]
      exact List.mem_append_left _ hm
    · rw [names_created_next hg ha (hg.allHeld_body hrm)]
      exact List.mem_append_left _ hname

end Created

section Check

lemma repeated_of_nodup {seen xs : List String} (hx : xs.Nodup) (hseen : ∀ x ∈ xs, x ∉ seen) :
    repeated seen xs = [] := by
  induction xs generalizing seen with
  | nil => rfl
  | cons x xs ih =>
    obtain ⟨hnot, hx⟩ := List.nodup_cons.mp hx
    rw [repeated, if_neg (hseen x List.mem_cons_self)]
    apply ih hx
    intro y hy
    rw [List.mem_cons, not_or]
    exact ⟨ne_of_mem_of_not_mem hy hnot, hseen y (List.mem_cons_of_mem _ hy)⟩

lemma nodup_namesIn (hb : (g.names r.body).Nodup) : ((g.namesIn r).getD []).Nodup := by
  unfold namesIn
  split
  · exact hb
  · exact List.nodup_nil

lemma scanTop_unnamed (h : g.Holds id r) (hn : r.payload.symbolName = none) (modules : ModuleNames) :
    g.scanTop (id :: ids) modules = g.scanTop ids modules := by
  have hfind : g.records.find? id = some r := h
  simp only [scanTop, hfind, hn]

lemma scanTop_named (h : g.Holds id r) {x : String} (hn : r.payload.symbolName = some x) (hb : (g.names r.body).Nodup)
    {modules : ModuleNames} (hnew : modules.contains x = false) :
    g.scanTop (id :: ids) modules = g.scanTop ids (modules.insert x (g.namesIn r)) := by
  have hfind : g.records.find? id = some r := h
  have hrep : repeated [] ((g.namesIn r).getD []) = [] := repeated_of_nodup (nodup_namesIn hb) (by simp)
  simp only [scanTop, hfind, hn, hnew, Bool.false_eq_true, if_false, hrep, List.map_nil, List.nil_append]

lemma scanTop_eq (hheld : g.AllHeld ids) (hids : (g.names ids).Nodup)
    (hbody : ∀ {id r}, g.Holds id r → (g.names r.body).Nodup) {modules : ModuleNames}
    (hnew : ∀ x ∈ g.names ids, modules.contains x = false) :
    (g.scanTop ids modules).1 = [] ∧
      (∀ {x v}, modules.find? x = some v → (g.scanTop ids modules).2.find? x = some v) ∧
      ∀ {id r x}, id ∈ ids → g.Holds id r → r.payload.symbolName = some x →
        (g.scanTop ids modules).2.find? x = some (g.namesIn r) := by
  induction ids generalizing modules with
  | nil => exact ⟨rfl, fun h => h, fun h => by cases h⟩
  | cons k ids ih =>
    obtain ⟨rk, hk⟩ := hheld k List.mem_cons_self
    have hheld' : g.AllHeld ids := fun id hid => hheld id (List.mem_cons_of_mem _ hid)
    cases hn : rk.payload.symbolName with
    | none =>
      have hnames : g.names (k :: ids) = g.names ids := by simp [names, nameOf_of_holds hk, hn]
      rw [hnames] at hids hnew
      obtain ⟨hfound, hkeep, hmem⟩ := ih hheld' hids hnew
      rw [scanTop_unnamed hk hn]
      refine ⟨hfound, hkeep, ?_⟩
      intro id r x hid hr hx
      rcases List.mem_cons.mp hid with rfl | hid
      · obtain rfl := hk.unique hr
        simp [hn] at hx
      · exact hmem hid hr hx
    | some y =>
      have hnames : g.names (k :: ids) = y :: g.names ids := by simp [names, nameOf_of_holds hk, hn]
      rw [hnames] at hids hnew
      obtain ⟨hy, hids'⟩ := List.nodup_cons.mp hids
      have hyn : modules.contains y = false := hnew y List.mem_cons_self
      have hkept : ∀ {x}, y ≠ x → (modules.insert y (g.namesIn rk)).find? x = modules.find? x :=
        fun hne => Table.find?_insert_of_ne _ _ hne
      have hnew' : ∀ x ∈ g.names ids, (modules.insert y (g.namesIn rk)).contains x = false := by
        intro x hx
        rw [Table.contains, hkept (ne_of_mem_of_not_mem hx hy).symm]
        exact hnew x (List.mem_cons_of_mem _ hx)
      obtain ⟨hfound, hkeep, hmem⟩ := ih hheld' hids' hnew'
      rw [scanTop_named hk hn (hbody hk) hyn]
      refine ⟨hfound, ?_, ?_⟩
      · intro x v hx
        have hne : y ≠ x := by
          rintro rfl
          simp [Table.contains, hx] at hyn
        apply hkeep
        rwa [hkept hne]
      · intro id r x hid hr hx
        rcases List.mem_cons.mp hid with rfl | hid
        · obtain rfl := hk.unique hr
          obtain rfl := Option.some.inj (hn.symm.trans hx)
          exact hkeep (Table.find?_insert_self _ _ _)
        · exact hmem hid hr hx

structure Lists (g : Graph) (modules : ModuleNames) : Prop where
  found : ∀ {id r x}, id ∈ g.top → g.Holds id r → r.payload.symbolName = some x → modules.find? x = some (g.namesIn r)

lemma Lists.contains {modules : ModuleNames} (hl : g.Lists modules) {x : String} (hx : x ∈ g.names g.top) :
    modules.contains x = true := by
  obtain ⟨id, hid, r, hr, hn⟩ := mem_names.mp hx
  exact Table.contains_of_find? (hl.found hid hr hn)

lemma Sound.unknownTargets (hg : g.Forest) (hs : g.Sound) {modules : ModuleNames} (hl : g.Lists modules)
    (hid : id ∈ g.top) : g.unknownTargets modules id = [] := by
  obtain ⟨⟨payload, parent, body⟩, hr⟩ := hg.top_held hid
  have hfind : g.records.find? id = some ⟨payload, parent, body⟩ := hr
  cases payload with
  | module symbol =>
    simp only [Graph.unknownTargets, hfind, List.filterMap_eq_nil_iff]
    intro k hk
    obtain ⟨⟨payload, parent', body'⟩, hrk⟩ := hg.body_held hr hk
    have hfindk : g.records.find? k = some ⟨payload, parent', body'⟩ := hrk
    cases payload with
    | instantiation name target =>
      simp only [unknownTarget, hfindk, hl.contains (hs.targets hrk rfl), if_true]
    | _ => simp only [unknownTarget, hfindk]
  | hierarchy top => simp only [Graph.unknownTargets, hfind, hl.contains (hs.hierarchies hr rfl), if_true]
  | _ => simp only [Graph.unknownTargets, hfind]

lemma Sound.dangling (hs : g.Sound) {modules : ModuleNames} (hl : g.Lists modules) (hr : g.Holds id r) :
    dangling modules r = none := by
  cases hp : r.payload with
  | dynamicInstance site =>
    obtain ⟨m, rm, hm, hrm, hpm, hname⟩ := hs.sites hr hp
    have hbody : rm.payload.hasBody = true := by
      rw [hpm]
      rfl
    have hfind := hl.found hm hrm (by rw [hpm]; rfl)
    have hin : (g.names rm.body).contains site.name = true := List.contains_iff_mem.mpr hname
    rw [namesIn, if_pos hbody] at hfind
    simp only [Graph.dangling, hp, isSite, hfind]
    exact if_pos hin
  | _ => simp only [Graph.dangling, hp]

lemma Sound.defects (hg : g.Forest) (hs : g.Sound) : g.defects = [] := by
  have hempty : ∀ x ∈ g.names g.top, ({} : ModuleNames).contains x = false := fun _ _ => rfl
  obtain ⟨hfound, _, hmem⟩ := scanTop_eq hg.allHeld_top hs.symbols hs.bodies hempty
  have hl : g.Lists (g.scanTop g.top {}).2 := ⟨hmem⟩
  have htargets : g.top.flatMap (g.unknownTargets (g.scanTop g.top {}).2) = [] :=
    List.flatMap_eq_nil_iff.mpr fun _ hid => hs.unknownTargets hg hl hid
  have hdangling : g.records.values.filterMap (Graph.dangling (g.scanTop g.top {}).2) = [] := by
    apply List.filterMap_eq_nil_iff.mpr
    intro r hr
    obtain ⟨⟨id, _⟩, he, rfl⟩ := List.mem_map.mp hr
    exact hs.dangling hl (Table.find?_of_mem hg.keys he)
  simp only [Graph.defects, hfound, htargets, hdangling, List.append_nil]

end Check

end HardwareDesign.Graph
