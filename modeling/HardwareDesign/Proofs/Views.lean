import HardwareDesign.Design.Backing
import HardwareDesign.Proofs.Forest

/-!
What the views of a design graph hold: tables of the records on a list, the first record with a key first. They grow
with the graph.
-/

namespace HardwareDesign

def Table.addEntry {κ ν : Type} [DecidableEq κ] (t : Table κ ν) : Option (κ × ν) → Table κ ν
  | none => t
  | some e => t.insertNew e.1 e.2

namespace Graph

structure Grows (g g' : Graph) : Prop where
  source : g'.source = g.source
  epoch : g'.epoch = g.epoch
  lastId : g.lastId ≤ g'.lastId
  records : ∀ {id r}, g.Holds id r → ∃ more, g'.Holds id { r with body := r.body ++ more }
  top : ∃ more, g'.top = g.top ++ more

lemma Grows.refl (g : Graph) : g.Grows g :=
  ⟨rfl, rfl, Nat.le_refl _, fun h => ⟨[], by simpa using h⟩, [], by simp⟩

lemma Grows.trans {g₁ g₂ g₃ : Graph} (h : g₁.Grows g₂) (h' : g₂.Grows g₃) : g₁.Grows g₃ where
  source := h'.source.trans h.source
  epoch := h'.epoch.trans h.epoch
  lastId := Nat.le_trans h.lastId h'.lastId
  records := by
    intro id r hr
    obtain ⟨xs, hx⟩ := h.records hr
    obtain ⟨ys, hy⟩ := h'.records hx
    exact ⟨xs ++ ys, by simpa using hy⟩
  top := by
    obtain ⟨xs, hx⟩ := h.top
    obtain ⟨ys, hy⟩ := h'.top
    exact ⟨xs ++ ys, by rw [hy, hx, List.append_assoc]⟩

lemma Grows.contains {g g' : Graph} {id : RecordId} (h : g.Grows g') (hid : g.contains id = true) :
    g'.contains id = true := by
  obtain ⟨r, hr⟩ := Table.exists_of_contains hid
  obtain ⟨_, hr'⟩ := h.records hr
  exact Table.contains_of_find? hr'

lemma Grows.handle {g g' : Graph} (h : g.Grows g') (id : RecordId) : g'.handle id = g.handle id := by
  simp [Graph.handle, h.source, h.epoch]

lemma Forest.grows {g : Graph} (hg : g.Forest) {payload : Payload} {parent : Option RecordId} (ha : g.Accepts parent) :
    g.Grows (g.created payload parent) :=
  ⟨created_source g payload parent, created_epoch g payload parent, by simp,
    fun hr => ⟨_, holds_created_of_holds hg ha hr⟩, _, created_top g payload parent⟩

def entries {κ ν : Type} (g : Graph) (f : Handle → Payload → Option (κ × ν)) (ids : List RecordId) : List (κ × ν) :=
  ids.filterMap fun id => (g.records.find? id).bind fun r => f (g.handle id) r.payload

def symbolEntry (h : Handle) (p : Payload) : Option (String × Handle) := p.symbolName.map (·, h)

def siteEntry (h : Handle) (p : Payload) : Option (String × Site) :=
  p.symbolName.map fun name => (name, ⟨name, h, SiteKind.ofPayload p⟩)

def hierarchyEntry (h : Handle) : Payload → Option (String × Handle)
  | .hierarchy top => some (top, h)
  | _ => none

def nestedEntry (h : Handle) : Payload → Option (SiteRef × Handle)
  | .dynamicInstance site => some (site, h)
  | _ => none

def siteTable (g : Graph) (id : RecordId) : Sites :=
  match g.records.find? id with
  | some ⟨.module _, _, body⟩ => Table.ofListFirst (g.entries siteEntry body)
  | _ => {}

def nestedTable (g : Graph) (id : RecordId) : Table SiteRef Handle :=
  match g.records.find? id with
  | some r => Table.ofListFirst (g.entries nestedEntry r.body)
  | none => {}

def AllHeld (g : Graph) (ids : List RecordId) : Prop := ∀ id ∈ ids, ∃ r, g.Holds id r

section Entries

variable {κ ν : Type} {g g' : Graph} (f : Handle → Payload → Option (κ × ν))

lemma entries_append (xs ys : List RecordId) : g.entries f (xs ++ ys) = g.entries f xs ++ g.entries f ys :=
  List.filterMap_append

lemma entries_cons_of_holds {id : RecordId} {r : Record} (h : g.Holds id r) (ids : List RecordId) :
    g.entries f (id :: ids) = (f (g.handle id) r.payload).toList ++ g.entries f ids := by
  rw [entries, List.filterMap_cons, show g.records.find? id = some r from h]
  cases hf : f (g.handle id) r.payload <;> simp [hf, entries]

lemma mem_entries {ids : List RecordId} {e : κ × ν} :
    e ∈ g.entries f ids ↔ ∃ id ∈ ids, ∃ r, g.Holds id r ∧ f (g.handle id) r.payload = some e := by
  simp only [entries, List.mem_filterMap, Option.bind_eq_some_iff]

lemma entries_grows (h : g.Grows g') {ids : List RecordId} (hi : g.AllHeld ids) :
    g'.entries f ids = g.entries f ids := by
  apply List.filterMap_congr
  intro id hid
  obtain ⟨r, hr⟩ := hi id hid
  obtain ⟨more, hr'⟩ := h.records hr
  rw [show g.records.find? id = some r from hr, show g'.records.find? id = some _ from hr', h.handle]
  rfl

lemma keys_siteEntries (ids : List RecordId) :
    (g.entries siteEntry ids).map Prod.fst = (g.entries symbolEntry ids).map Prod.fst := by
  simp only [entries, List.map_filterMap]
  apply List.filterMap_congr
  intro id _
  cases h : g.records.find? id with
  | none => rfl
  | some r => cases hn : r.payload.symbolName <;> simp [siteEntry, symbolEntry, hn]

variable [DecidableEq κ]

lemma find?_entries_grows (h : g.Grows g') {ids : List RecordId} (hi : g.AllHeld ids) (more : List RecordId) {k : κ}
    {v : ν} (hf : (Table.ofListFirst (g.entries f ids)).find? k = some v) :
    (Table.ofListFirst (g'.entries f (ids ++ more))).find? k = some v := by
  rw [entries_append, entries_grows f h hi]
  exact Table.find?_ofListFirst_append _ hf

lemma ofListFirst_created (hg : g.Forest) {payload : Payload} {parent : Option RecordId} (ha : g.Accepts parent)
    {ids : List RecordId} (hi : g.AllHeld ids) (c : Prop) [Decidable c] :
    Table.ofListFirst ((g.created payload parent).entries f (ids ++ if c then [g.nextId] else [])) =
      (Table.ofListFirst (g.entries f ids)).addEntry (if c then f (g.handle g.nextId) payload else none) := by
  rw [entries_append, entries_grows f (hg.grows ha) hi]
  by_cases hc : c
  · rw [if_pos hc, if_pos hc, entries_cons_of_holds f (holds_created_next hg ha), created_handle]
    cases hf : f (g.handle g.nextId) payload with
    | none => simp [entries, Table.addEntry]
    | some e => simp [entries, Table.addEntry, Table.ofListFirst_concat]
  · simp [hc, entries, Table.addEntry]

end Entries

variable {g g' : Graph}

lemma Forest.allHeld_top (hg : g.Forest) : g.AllHeld g.top := fun _ h => hg.top_held h

lemma Forest.allHeld_body (hg : g.Forest) {p : RecordId} {r : Record} (h : g.Holds p r) : g.AllHeld r.body :=
  fun _ hm => hg.body_held h hm

lemma namedTop_eq (g : Graph) : g.namedTop = Table.ofListFirst (g.entries symbolEntry g.top) := by
  refine congrArg _ (List.filterMap_congr fun id _ => ?_)
  cases h : g.records.find? id <;> simp [nameOf, h, symbolEntry]

lemma hierarchies_eq (g : Graph) : g.hierarchies = Table.ofListFirst (g.entries hierarchyEntry g.top) := by
  refine congrArg _ (List.filterMap_congr fun id _ => ?_)
  cases h : g.records.find? id with
  | none => simp [hierarchyTop, h]
  | some r =>
    obtain ⟨payload, parent, body⟩ := r
    cases payload <;> simp [hierarchyTop, h, hierarchyEntry]

lemma siteTable_of_module {id : RecordId} {r : Record} {symbol : String} (h : g.Holds id r)
    (hp : r.payload = .module symbol) : g.siteTable id = Table.ofListFirst (g.entries siteEntry r.body) := by
  obtain ⟨payload, parent, body⟩ := r
  obtain rfl : payload = .module symbol := hp
  simp only [siteTable, show g.records.find? id = _ from h]

lemma siteTable_of_other {id : RecordId} {r : Record} (h : g.Holds id r) (hp : ∀ symbol, r.payload ≠ .module symbol) :
    g.siteTable id = {} := by
  obtain ⟨payload, parent, body⟩ := r
  simp only [siteTable, show g.records.find? id = _ from h]
  split
  case h_1 heq =>
    cases heq
    exact (hp _ rfl).elim
  case h_2 => rfl

lemma nestedTable_of_holds {id : RecordId} {r : Record} (h : g.Holds id r) :
    g.nestedTable id = Table.ofListFirst (g.entries nestedEntry r.body) := by
  simp only [nestedTable, show g.records.find? id = some r from h]

lemma module_of_find?_siteTable {id : RecordId} {name : String} {site : Site}
    (h : (g.siteTable id).find? name = some site) : ∃ r symbol, g.Holds id r ∧ r.payload = .module symbol := by
  cases hr : g.records.find? id with
  | none =>
    simp only [siteTable, hr] at h
    cases h
  | some r =>
    by_cases hp : ∃ symbol, r.payload = .module symbol
    · obtain ⟨symbol, hp⟩ := hp
      exact ⟨r, symbol, hr, hp⟩
    · rw [siteTable_of_other hr fun symbol hs => hp ⟨symbol, hs⟩] at h
      cases h

lemma held_of_find?_nestedTable {id : RecordId} {site : SiteRef} {h : Handle}
    (hf : (g.nestedTable id).find? site = some h) : ∃ r, g.Holds id r := by
  cases hr : g.records.find? id with
  | none =>
    simp only [nestedTable, hr] at hf
    cases hf
  | some r => exact ⟨r, hr⟩

lemma nodup_keys_siteTable (g : Graph) (id : RecordId) : (g.siteTable id).keys.Nodup := by
  unfold siteTable
  split
  · exact Table.nodup_keys_ofListFirst _
  · exact List.nodup_nil

section Reading

lemma payload_of_holds {h : Handle} {r : Record} (he : h.epoch = g.epoch) (hr : g.Holds h.record r) :
    g.payload h = .ok r.payload := by
  simp [payload, record_of_holds he hr, bind, Except.bind, pure, Except.pure]

lemma payload_handle {id : RecordId} {r : Record} (hr : g.Holds id r) : g.payload (g.handle id) = .ok r.payload :=
  payload_of_holds (h := g.handle id) rfl hr

lemma namedAmong_eq {ids : List RecordId} (hi : g.AllHeld ids) :
    g.namedAmong ids = .ok (g.entries symbolEntry ids) := by
  induction ids with
  | nil => rfl
  | cons id ids ih =>
    obtain ⟨r, hr⟩ := hi id List.mem_cons_self
    have ih := ih fun k hk => hi k (List.mem_cons_of_mem _ hk)
    rw [namedAmong, recordOf_of_holds hr, ih, entries_cons_of_holds _ hr]
    cases hn : r.payload.symbolName <;> simp [hn, symbolEntry, bind, Except.bind, pure, Except.pure]

lemma sitesAmong_eq {ids : List RecordId} (hi : g.AllHeld ids) :
    g.sitesAmong (g.entries symbolEntry ids) = .ok (g.entries siteEntry ids) := by
  induction ids with
  | nil => rfl
  | cons id ids ih =>
    obtain ⟨r, hr⟩ := hi id List.mem_cons_self
    have ih := ih fun k hk => hi k (List.mem_cons_of_mem _ hk)
    rw [entries_cons_of_holds _ hr, entries_cons_of_holds _ hr]
    cases hn : r.payload.symbolName with
    | none => simpa [hn, symbolEntry, siteEntry] using ih
    | some name =>
      simp [hn, symbolEntry, siteEntry, sitesAmong, payload_handle hr, ih, bind, Except.bind, pure, Except.pure]

lemma dynamicAmong_eq {ids : List RecordId} (hi : g.AllHeld ids) :
    g.dynamicAmong (ids.map g.handle) = .ok (g.entries nestedEntry ids) := by
  induction ids with
  | nil => rfl
  | cons id ids ih =>
    obtain ⟨r, hr⟩ := hi id List.mem_cons_self
    have ih := ih fun k hk => hi k (List.mem_cons_of_mem _ hk)
    rw [entries_cons_of_holds _ hr, List.map_cons, dynamicAmong, payload_handle hr, ih]
    cases r.payload <;> simp [nestedEntry, bind, Except.bind, pure, Except.pure]

lemma namedChildren_eq (hg : g.Forest) {h : Handle} {r : Record} (he : h.epoch = g.epoch) (hr : g.Holds h.record r)
    (hb : r.payload.hasBody = true) : g.namedChildren h = .ok (g.entries symbolEntry r.body) := by
  simp only [namedChildren, bodyIds_of_holds he hr, hb, if_true, bind, Except.bind]
  exact namedAmong_eq (hg.allHeld_body hr)

lemma sitesIn_eq (hg : g.Forest) {h : Handle} {r : Record} (he : h.epoch = g.epoch) (hr : g.Holds h.record r) :
    g.sitesIn h = .ok (g.siteTable h.record) := by
  cases hp : r.payload with
  | module symbol =>
    rw [siteTable_of_module hr hp, sitesIn, payload_of_holds he hr, hp]
    simp only [bind, Except.bind, pure, Except.pure, namedChildren_eq hg he hr (by rw [hp]; rfl),
      sitesAmong_eq (hg.allHeld_body hr)]
  | _ =>
    rw [siteTable_of_other hr (by simp [hp]), sitesIn, payload_of_holds he hr, hp]
    rfl

lemma nestedIn_eq (hg : g.Forest) {h : Handle} {r : Record} (he : h.epoch = g.epoch) (hr : g.Holds h.record r)
    (hb : r.payload.hasBody = true) : g.nestedIn h = .ok (g.nestedTable h.record) := by
  rw [nestedTable_of_holds hr]
  simp only [nestedIn, body, bodyIds_of_holds he hr, hb, if_true, bind, Except.bind, pure, Except.pure,
    dynamicAmong_eq (hg.allHeld_body hr)]

end Reading

section Created

variable {payload : Payload} {parent : Option RecordId}

lemma namedTop_created (hg : g.Forest) (ha : g.Accepts parent) :
    (g.created payload parent).namedTop =
      g.namedTop.addEntry (if parent = none then symbolEntry (g.handle g.nextId) payload else none) := by
  rw [namedTop_eq, namedTop_eq, created_top]
  exact ofListFirst_created symbolEntry hg ha hg.allHeld_top _

lemma hierarchies_created (hg : g.Forest) (ha : g.Accepts parent) :
    (g.created payload parent).hierarchies =
      g.hierarchies.addEntry (if parent = none then hierarchyEntry (g.handle g.nextId) payload else none) := by
  rw [hierarchies_eq, hierarchies_eq, created_top]
  exact ofListFirst_created hierarchyEntry hg ha hg.allHeld_top _

lemma nestedTable_created (hg : g.Forest) (ha : g.Accepts parent) {id : RecordId} {r : Record} (hr : g.Holds id r) :
    (g.created payload parent).nestedTable id =
      (g.nestedTable id).addEntry (if parent = some id then nestedEntry (g.handle g.nextId) payload else none) := by
  rw [nestedTable_of_holds hr, nestedTable_of_holds (holds_created_of_holds hg ha hr)]
  exact ofListFirst_created nestedEntry hg ha (hg.allHeld_body hr) _

lemma siteTable_created (hg : g.Forest) (ha : g.Accepts parent) {id : RecordId} {r : Record} {symbol : String}
    (hr : g.Holds id r) (hp : r.payload = .module symbol) :
    (g.created payload parent).siteTable id =
      (g.siteTable id).addEntry (if parent = some id then siteEntry (g.handle g.nextId) payload else none) := by
  rw [siteTable_of_module hr hp, siteTable_of_module (holds_created_of_holds hg ha hr) hp]
  exact ofListFirst_created siteEntry hg ha (hg.allHeld_body hr) _

lemma siteTable_created_of_ne (hg : g.Forest) (ha : g.Accepts parent) {id : RecordId} {r : Record} (hr : g.Holds id r)
    (hn : parent = some id → ∀ symbol, r.payload ≠ .module symbol) :
    (g.created payload parent).siteTable id = g.siteTable id := by
  by_cases hp : ∃ symbol, r.payload = .module symbol
  · obtain ⟨symbol, hp⟩ := hp
    have hne : parent ≠ some id := fun h => hn h symbol hp
    rw [siteTable_created hg ha hr hp, if_neg hne]
    rfl
  · have hp' : ∀ symbol, r.payload ≠ .module symbol := fun symbol h => hp ⟨symbol, h⟩
    rw [siteTable_of_other hr hp', siteTable_of_other (holds_created_of_holds hg ha hr) hp']

end Created

lemma find?_namedTop_grows (hg : g.Forest) (h : g.Grows g') {symbol : String} {k : Handle}
    (hf : g.namedTop.find? symbol = some k) : g'.namedTop.find? symbol = some k := by
  obtain ⟨more, ht⟩ := h.top
  rw [namedTop_eq] at hf ⊢
  exact ht ▸ find?_entries_grows symbolEntry h hg.allHeld_top more hf

lemma find?_hierarchies_grows (hg : g.Forest) (h : g.Grows g') {symbol : String} {k : Handle}
    (hf : g.hierarchies.find? symbol = some k) : g'.hierarchies.find? symbol = some k := by
  obtain ⟨more, ht⟩ := h.top
  rw [hierarchies_eq] at hf ⊢
  exact ht ▸ find?_entries_grows hierarchyEntry h hg.allHeld_top more hf

lemma find?_nestedTable_grows (hg : g.Forest) (h : g.Grows g') {id : RecordId} {site : SiteRef} {k : Handle}
    (hf : (g.nestedTable id).find? site = some k) : (g'.nestedTable id).find? site = some k := by
  obtain ⟨r, hr⟩ := held_of_find?_nestedTable hf
  obtain ⟨more, hr'⟩ := h.records hr
  rw [nestedTable_of_holds hr] at hf
  rw [nestedTable_of_holds hr']
  exact find?_entries_grows nestedEntry h (hg.allHeld_body hr) more hf

lemma find?_siteTable_grows (hg : g.Forest) (h : g.Grows g') {id : RecordId} {name : String} {site : Site}
    (hf : (g.siteTable id).find? name = some site) : (g'.siteTable id).find? name = some site := by
  obtain ⟨r, symbol, hr, hp⟩ := module_of_find?_siteTable hf
  obtain ⟨more, hr'⟩ := h.records hr
  rw [siteTable_of_module hr hp] at hf
  rw [siteTable_of_module hr' hp]
  exact find?_entries_grows siteEntry h (hg.allHeld_body hr) more hf

lemma holds_of_find?_entries {κ ν : Type} [DecidableEq κ] {f : Handle → Payload → Option (κ × ν)}
    {ids : List RecordId} {k : κ} {v : ν} (h : (Table.ofListFirst (g.entries f ids)).find? k = some v) :
    ∃ id ∈ ids, ∃ r, g.Holds id r ∧ f (g.handle id) r.payload = some (k, v) := by
  rw [Table.find?_ofListFirst] at h
  exact (mem_entries f).mp (Table.mem_of_findIn h)

lemma holds_of_find?_namedTop {symbol : String} {h : Handle} (hf : g.namedTop.find? symbol = some h) :
    h = g.handle h.record ∧ h.record ∈ g.top ∧ ∃ r, g.Holds h.record r ∧ r.payload.symbolName = some symbol := by
  rw [namedTop_eq] at hf
  obtain ⟨id, hid, r, hr, he⟩ := holds_of_find?_entries hf
  obtain ⟨n, hn, heq⟩ := Option.map_eq_some_iff.mp he
  obtain ⟨rfl, rfl⟩ := Prod.mk.inj heq
  exact ⟨rfl, hid, r, hr, hn⟩

lemma holds_of_find?_hierarchies {symbol : String} {h : Handle} (hf : g.hierarchies.find? symbol = some h) :
    h = g.handle h.record ∧ h.record ∈ g.top ∧ ∃ r, g.Holds h.record r ∧ r.payload = .hierarchy symbol := by
  rw [hierarchies_eq] at hf
  obtain ⟨id, hid, r, hr, he⟩ := holds_of_find?_entries hf
  cases hp : r.payload with
  | hierarchy top =>
    simp only [hp, hierarchyEntry, Option.some.injEq, Prod.mk.injEq] at he
    obtain ⟨rfl, rfl⟩ := he
    exact ⟨rfl, hid, r, hr, hp⟩
  | _ => simp [hp, hierarchyEntry] at he

lemma holds_of_find?_nestedTable {p : RecordId} {site : SiteRef} {h : Handle} (hg : g.Forest)
    (hf : (g.nestedTable p).find? site = some h) :
    h = g.handle h.record ∧ ∃ r, g.Holds h.record r ∧ r.payload = .dynamicInstance site ∧ r.parent = some p := by
  obtain ⟨rp, hrp⟩ := held_of_find?_nestedTable hf
  rw [nestedTable_of_holds hrp] at hf
  obtain ⟨id, hid, r, hr, he⟩ := holds_of_find?_entries hf
  obtain ⟨r', hr', hpar⟩ := hg.body_child hrp hid
  obtain rfl : r = r' := hr.unique hr'
  cases hp : r.payload with
  | dynamicInstance site' =>
    simp only [hp, nestedEntry, Option.some.injEq, Prod.mk.injEq] at he
    obtain ⟨rfl, rfl⟩ := he
    exact ⟨rfl, r, hr, hp, hpar⟩
  | _ => simp [hp, nestedEntry] at he

lemma holds_of_find?_siteTable {p : RecordId} {name : String} {site : Site}
    (hf : (g.siteTable p).find? name = some site) :
    ∃ id r, g.Holds id r ∧ site = ⟨name, g.handle id, .ofPayload r.payload⟩ := by
  obtain ⟨rp, symbol, hrp, hp⟩ := module_of_find?_siteTable hf
  rw [siteTable_of_module hrp hp] at hf
  obtain ⟨id, _, r, hr, he⟩ := holds_of_find?_entries hf
  obtain ⟨_, _, heq⟩ := Option.map_eq_some_iff.mp he
  obtain ⟨rfl, rfl⟩ := Prod.mk.inj heq
  exact ⟨id, r, hr, rfl⟩

end Graph

end HardwareDesign
