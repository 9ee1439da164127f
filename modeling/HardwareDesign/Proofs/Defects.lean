import HardwareDesign.Proofs.Exactness

/-!
The defects of a graph that gets one more record without a name: those that it has had, and those of the new record.
-/

namespace HardwareDesign

namespace Table

variable {κ ν β : Type} [DecidableEq κ]

lemma values_insert {t : Table κ ν} {k : κ} (v : ν) (h : t.contains k = false) :
    (t.insert k v).values = t.values ++ [v] := by
  rw [values, values, entries_insert v h, List.map_append]
  rfl

lemma filterMap_values_modify {t : Table κ ν} (k : κ) {f : ν → ν} (F : ν → Option β) (hf : ∀ v, F (f v) = F v) :
    (t.modify k f).values.filterMap F = t.values.filterMap F := by
  simp only [values, modify, List.map_map, List.filterMap_map]
  apply List.filterMap_congr
  intro e _
  by_cases hk : e.1 = k <;> simp [hk, hf]

end Table

namespace Graph

variable {g : Graph} {ids : List RecordId} {id : RecordId} {r : Record} {site : SiteRef} {x : String}
  {payload : Payload} {parent : Option RecordId} {modules : ModuleNames}

def moduleNames (g : Graph) : ModuleNames := (g.scanTop g.top {}).2

/-- The site is a named record in the body of the first record of the top level with the symbol of its module. -/
def Sited (g : Graph) (site : SiteRef) : Prop :=
  ∃ m r, g.firstWith Payload.symbolName site.module g.top = some m ∧ g.Holds m r ∧ r.payload.hasBody = true ∧
    site.name ∈ g.names r.body

section Scan

lemma find?_scanTop (g : Graph) (ids : List RecordId) (modules : ModuleNames) (x : String) :
    (g.scanTop ids modules).2.find? x =
      (modules.find? x).or ((g.firstWith Payload.symbolName x ids).bind fun id => (g.records.find? id).map g.namesIn) := by
  induction ids generalizing modules with
  | nil => simp [scanTop, firstWith]
  | cons id ids ih =>
    cases hr : g.records.find? id with
    | none =>
      rw [scanTop, hr, ih]
      simp [firstWith, hr]
    | some r =>
      cases hn : r.payload.symbolName with
      | none =>
        rw [scanTop_unnamed hr hn, ih]
        simp [firstWith, hr, hn]
      | some y =>
        -- the first record with the symbol is in the table already, or it is this one
        by_cases hx : y = x
        · subst hx
          cases hm : modules.contains y with
          | true =>
            obtain ⟨v, hv⟩ := Table.exists_of_contains hm
            simp [scanTop, hr, hn, hm, ih, hv]
          | false => simp [scanTop, hr, hn, hm, ih, firstWith, Table.find?_eq_none hm]
        · cases hm : modules.contains y <;>
            simp [scanTop, hr, hn, hm, ih, firstWith, hx, Table.find?_insert_of_ne]

lemma find?_moduleNames (g : Graph) (x : String) :
    g.moduleNames.find? x =
      (g.firstWith Payload.symbolName x g.top).bind fun id => (g.records.find? id).map g.namesIn := by
  rw [moduleNames, find?_scanTop]
  rfl

lemma firstWith_isSome {κ : Type} [DecidableEq κ] {key : Payload → Option κ} {k : κ} :
    (g.firstWith key k ids).isSome ↔ ∃ id ∈ ids, ∃ r, g.Holds id r ∧ key r.payload = some k := by
  simp [firstWith, List.find?_isSome, Option.bind_eq_some_iff]

lemma contains_moduleNames : g.moduleNames.contains x = true ↔ x ∈ g.names g.top := by
  have hfirst : (g.firstWith Payload.symbolName x g.top).isSome ↔ _ := firstWith_isSome
  rw [Table.contains, find?_moduleNames, mem_names, ← hfirst]
  cases h : g.firstWith Payload.symbolName x g.top with
  | none => simp
  | some m =>
    obtain ⟨_, r, hr, _⟩ := holds_of_firstWith h
    simp [show g.records.find? m = some r from hr]

lemma isSite_moduleNames : isSite g.moduleNames site = true ↔ g.Sited site := by
  rw [isSite, find?_moduleNames]
  cases h : g.firstWith Payload.symbolName site.module g.top with
  | none => simp [Sited, h]
  | some m =>
    obtain ⟨_, r, hr, _⟩ := holds_of_firstWith h
    have hfind : g.records.find? m = some r := hr
    have hsited : g.Sited site ↔ r.payload.hasBody = true ∧ site.name ∈ g.names r.body := by
      constructor
      · rintro ⟨m', r', hm, hr', hb, hname⟩
        obtain rfl := Option.some.inj (h.symm.trans hm)
        obtain rfl := hr.unique hr'
        exact ⟨hb, hname⟩
      · rintro ⟨hb, hname⟩
        exact ⟨m, r, h, hr, hb, hname⟩
    rw [hsited]
    cases hb : r.payload.hasBody <;> simp [hfind, namesIn, hb, names]

end Scan

section Created

variable (hg : g.Forest) (ha : g.Accepts parent) (hn : payload.symbolName = none)
include hg ha hn

lemma namesIn_created (hr : g.Holds id r) (c : Prop) [Decidable c] :
    (g.created payload parent).namesIn { r with body := r.body ++ if c then [g.nextId] else [] } = g.namesIn r := by
  have hnames : (g.created payload parent).names (r.body ++ if c then [g.nextId] else []) = g.names r.body := by
    rw [names_created_next hg ha (hg.allHeld_body hr), hn, Option.toList_none, ite_self, List.append_nil]
  simp only [namesIn]
  split
  · exact congrArg some hnames
  · rfl

lemma scanTop_created (hi : g.AllHeld ids) (modules : ModuleNames) :
    (g.created payload parent).scanTop ids modules = g.scanTop ids modules := by
  induction ids generalizing modules with
  | nil => rfl
  | cons id ids ih =>
    obtain ⟨r, hr⟩ := hi id List.mem_cons_self
    have ih := ih fun k hk => hi k (List.mem_cons_of_mem _ hk)
    have hfind : g.records.find? id = some r := hr
    have hfind' : (g.created payload parent).records.find? id = some _ := holds_created_of_holds hg ha hr
    rw [scanTop, scanTop, hfind, hfind']
    simp only [ih, namesIn_created hg ha hn hr]

lemma scanTop_created_top (modules : ModuleNames) :
    (g.created payload parent).scanTop (g.created payload parent).top modules = g.scanTop g.top modules := by
  rw [← scanTop_created hg ha hn hg.allHeld_top modules, created_top]
  split
  · generalize g.top = ids
    induction ids generalizing modules with
    | nil => exact scanTop_unnamed (holds_created_next hg ha) hn modules
    | cons id ids ih => simp only [List.cons_append, scanTop, ih]
  · rw [List.append_nil]

lemma moduleNames_created : (g.created payload parent).moduleNames = g.moduleNames :=
  congrArg Prod.snd (scanTop_created_top hg ha hn {})

lemma unknownTargets_created (hr : g.Holds id r) (modules : ModuleNames) :
    (g.created payload parent).unknownTargets modules id = g.unknownTargets modules id := by
  have hfind : g.records.find? id = some r := hr
  have hfind' : (g.created payload parent).records.find? id = some _ := holds_created_of_holds hg ha hr
  -- the new record is no instantiation, which would have a name
  have hnext : ∀ y, (g.created payload parent).unknownTarget modules y g.nextId = none := by
    intro y
    have hnew : (g.created payload parent).records.find? g.nextId = some _ := holds_created_next hg ha
    cases payload with
    | instantiation => cases hn
    | _ => simp only [unknownTarget, hnew]
  have hsame : ∀ y, r.body.filterMap ((g.created payload parent).unknownTarget modules y) =
      r.body.filterMap (g.unknownTarget modules y) := by
    intro y
    apply List.filterMap_congr
    intro k hk
    obtain ⟨rk, hrk⟩ := hg.allHeld_body hr k hk
    have hk₀ : g.records.find? k = some rk := hrk
    have hk' : (g.created payload parent).records.find? k = some _ := holds_created_of_holds hg ha hrk
    simp only [unknownTarget, hk₀, hk']
    obtain ⟨p, _, _⟩ := rk
    cases p <;> rfl
  obtain ⟨p, parent₀, body⟩ := r
  cases p with
  | module y =>
    simp only [unknownTargets, hfind, hfind', List.filterMap_append, hsame]
    split <;> simp [hnext]
  | _ => simp only [unknownTargets, hfind, hfind']

omit ha hn in
lemma dangling_created (modules : ModuleNames) :
    (g.created payload parent).records.values.filterMap (dangling modules) =
      g.records.values.filterMap (dangling modules) ++ (dangling modules ⟨payload, parent, []⟩).toList := by
  have hnew : g.records.contains g.nextId = false := by
    by_contra hc
    obtain ⟨r, hr⟩ := Table.exists_of_contains (by simpa using hc)
    exact hg.not_held_next hr
  have hinsert : (g.added parent payload).records.values.filterMap (dangling modules) =
      g.records.values.filterMap (dangling modules) ++ (dangling modules ⟨payload, parent, []⟩).toList := by
    rw [added, Table.values_insert _ hnew, List.filterMap_append]
    cases hd : dangling modules ⟨payload, parent, []⟩ <;> simp [hd]
  cases parent with
  | none => exact hinsert
  | some p =>
    have hbody : ∀ r : Record, dangling modules { r with body := r.body ++ [g.nextId] } = dangling modules r :=
      fun _ => rfl
    exact (Table.filterMap_values_modify p _ hbody).trans hinsert

lemma defects_created :
    (g.created payload parent).defects = (g.scanTop g.top {}).1 ++
      (g.top.flatMap (g.unknownTargets g.moduleNames) ++
        if parent = none then (g.created payload parent).unknownTargets g.moduleNames g.nextId else []) ++
      (g.records.values.filterMap (dangling g.moduleNames) ++
        (dangling g.moduleNames ⟨payload, parent, []⟩).toList) := by
  have hdefects : ∀ g : Graph, g.defects = (g.scanTop g.top {}).1 ++ g.top.flatMap (g.unknownTargets g.moduleNames) ++
      g.records.values.filterMap (dangling g.moduleNames) := fun _ => rfl
  have htargets : g.top.flatMap ((g.created payload parent).unknownTargets g.moduleNames) =
      g.top.flatMap (g.unknownTargets g.moduleNames) := by
    apply List.flatMap_congr
    intro id hid
    obtain ⟨r, hr⟩ := hg.allHeld_top id hid
    exact unknownTargets_created hg ha hn hr _
  rw [hdefects, moduleNames_created hg ha hn, scanTop_created_top hg ha hn, dangling_created hg, created_top,
    List.flatMap_append, htargets]
  congr 3
  split <;> simp

end Created

lemma defects_created_hierarchy (hg : g.Forest) (top : String) :
    ∃ before after, g.defects = before ++ after ∧ (g.created (.hierarchy top) none).defects =
      before ++ (if top ∈ g.names g.top then [] else [.unknownHierarchyTop top]) ++ after := by
  have hnext : (g.created (.hierarchy top) none).records.find? g.nextId = some ⟨.hierarchy top, none, []⟩ :=
    holds_created_next hg g.accepts_top
  refine ⟨(g.scanTop g.top {}).1 ++ g.top.flatMap (g.unknownTargets g.moduleNames),
    g.records.values.filterMap (dangling g.moduleNames), rfl, ?_⟩
  rw [defects_created hg g.accepts_top rfl, if_pos rfl]
  simp only [unknownTargets, hnext, contains_moduleNames, dangling, Option.toList_none, List.append_nil,
    List.append_assoc]

lemma defects_created_dynamic (hg : g.Forest) {p : RecordId} (ha : g.Accepts (some p)) (hs : g.Sited site) :
    (g.created (.dynamicInstance site) (some p)).defects = g.defects := by
  have hsite : dangling g.moduleNames ⟨.dynamicInstance site, some p, []⟩ = none := by
    simp only [dangling, isSite_moduleNames.mpr hs, if_true]
  rw [defects_created hg ha rfl, hsite, if_neg (by simp), List.append_nil, Option.toList_none, List.append_nil]
  rfl

end Graph

end HardwareDesign
