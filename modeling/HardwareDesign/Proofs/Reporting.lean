import HardwareDesign.Proofs.Defects
import HardwareDesign.Proofs.Outlining

namespace HardwareDesign.Graph

def withEarlier (earlier : List RecordId) : List RecordId → List (List RecordId × RecordId)
  | [] => []
  | id :: ids => (earlier, id) :: withEarlier (earlier ++ [id]) ids

def repetitions (g : Graph) (ids : List RecordId) : List String :=
  (withEarlier [] ids).filterMap fun e => (g.nameOf e.2).filter (· ∈ g.names e.1)

/-- Names in the body count for the first record with a symbol only. -/
def duplicatesAt (g : Graph) (earlier : List RecordId) (id : RecordId) : List Defect :=
  match g.nameOf id with
  | none => []
  | some symbol =>
    if symbol ∈ g.names earlier then [.duplicateSymbol symbol]
    else (g.repetitions (g.bodyOf id)).map (.duplicateSiteName symbol)

def duplicates (g : Graph) : List Defect := (withEarlier [] g.top).flatMap fun e => g.duplicatesAt e.1 e.2

def targetAt (g : Graph) (symbol : String) (id : RecordId) : Option (String × Defect) :=
  match g.records.find? id with
  | some { payload := .instantiation name target, .. } => some (target, .unknownModule symbol name target)
  | _ => none

def referencesAt (g : Graph) (id : RecordId) : List (String × Defect) :=
  match g.records.find? id with
  | some { payload := .module symbol, body, .. } => body.filterMap (g.targetAt symbol)
  | some { payload := .hierarchy top, .. } => [(top, .unknownHierarchyTop top)]
  | _ => []

def unknowns (g : Graph) : List Defect :=
  (g.top.flatMap g.referencesAt).filterMap fun e => if e.1 ∈ g.names g.top then none else some e.2

instance (g : Graph) (site : SiteRef) : Decidable (g.Sited site) := decidable_of_iff _ isSite_moduleNames

def danglingAt (g : Graph) (id : RecordId) : Option Defect :=
  match g.records.find? id with
  | some { payload := .dynamicInstance site, .. } =>
    if g.Sited site then none else some (.danglingDynamicInstance site)
  | _ => none

variable {g : Graph} {id : RecordId} {r : Record} {earlier ids : List RecordId} {seen : List String} {x : String}
  {modules : ModuleNames}

section Duplicates

lemma names_append (g : Graph) (xs ys : List RecordId) : g.names (xs ++ ys) = g.names xs ++ g.names ys :=
  List.filterMap_append

lemma names_singleton (g : Graph) (id : RecordId) : g.names [id] = (g.nameOf id).toList := by
  cases hn : g.nameOf id <;> simp [names, hn]

lemma mem_names_concat : x ∈ g.names (earlier ++ [id]) ↔ x ∈ g.names earlier ∨ g.nameOf id = some x := by
  rw [names_append, names_singleton, List.mem_append, Option.mem_toList]

lemma mem_names_concat_again (hn : g.nameOf id = some x) (hx : x ∈ g.names earlier) {y : String} :
    y ∈ g.names (earlier ++ [id]) ↔ y ∈ g.names earlier := by
  rw [mem_names_concat, hn, Option.some_inj]
  refine or_iff_left_of_imp ?_
  rintro rfl
  exact hx

lemma repeated_names (hseen : ∀ x, x ∈ seen ↔ x ∈ g.names earlier) :
    repeated seen (g.names ids) =
      (withEarlier earlier ids).filterMap fun e => (g.nameOf e.2).filter (· ∈ g.names e.1) := by
  induction ids generalizing seen earlier with
  | nil => rfl
  | cons id ids ih =>
    have hnames : g.names (id :: ids) = (g.nameOf id).toList ++ g.names ids := by
      rw [← names_singleton, ← names_append, List.singleton_append]
    rw [hnames, withEarlier, List.filterMap_cons]
    cases hn : g.nameOf id with
    | none =>
      have hlater : ∀ x, x ∈ seen ↔ x ∈ g.names (earlier ++ [id]) := by simpa [mem_names_concat, hn] using hseen
      simpa [hn] using ih hlater
    | some x =>
      by_cases hx : x ∈ seen
      · have hx' := (hseen x).mp hx
        have hlater : ∀ y, y ∈ seen ↔ y ∈ g.names (earlier ++ [id]) :=
          fun y => (hseen y).trans (mem_names_concat_again hn hx').symm
        simp [repeated, Option.filter, hx, hx', ih hlater]
      · have hlater : ∀ y, y ∈ x :: seen ↔ y ∈ g.names (earlier ++ [id]) := by
          intro y
          rw [mem_names_concat, List.mem_cons, hseen, hn, Option.some_inj, or_comm, eq_comm]
        have hx' : x ∉ g.names earlier := fun hm => hx ((hseen x).mpr hm)
        simp [repeated, Option.filter, hx, hx', ih hlater]

lemma Forest.getD_namesIn (hg : g.Forest) (hr : g.Holds id r) : (g.namesIn r).getD [] = g.names r.body := by
  unfold namesIn
  split
  case isTrue => rfl
  case isFalse hb =>
    rw [hg.bodiless hr (by simpa using hb)]
    rfl

lemma scanTop_nameless (hn : g.nameOf id = none) (modules : ModuleNames) :
    g.scanTop (id :: ids) modules = g.scanTop ids modules := by
  cases hr : g.records.find? id with
  | none => simp only [scanTop, hr]
  | some r => exact scanTop_unnamed hr ((nameOf_of_holds hr).symm.trans hn) modules

lemma scanTop_duplicates (hg : g.Forest) (hm : ∀ x, modules.contains x = true ↔ x ∈ g.names earlier) :
    (g.scanTop ids modules).1 = (withEarlier earlier ids).flatMap fun e => g.duplicatesAt e.1 e.2 := by
  induction ids generalizing modules earlier with
  | nil => rfl
  | cons id ids ih =>
    rw [withEarlier, List.flatMap_cons]
    cases hn : g.nameOf id with
    | none =>
      have hlater : ∀ x, modules.contains x = true ↔ x ∈ g.names (earlier ++ [id]) := by
        simpa [mem_names_concat, hn] using hm
      rw [scanTop_nameless hn, ih hlater, duplicatesAt, hn]
      rfl
    | some symbol =>
      obtain ⟨r, hr, hs⟩ := Option.bind_eq_some_iff.mp hn
      cases hc : modules.contains symbol with
      | true =>
        have hold := (hm symbol).mp hc
        have hlater : ∀ x, modules.contains x = true ↔ x ∈ g.names (earlier ++ [id]) :=
          fun x => (hm x).trans (mem_names_concat_again hn hold).symm
        simp [scanTop, hr, hs, hc, duplicatesAt, hn, hold, ih hlater]
      | false =>
        have hnew : symbol ∉ g.names earlier := fun hx => by simp [(hm symbol).mpr hx] at hc
        have hlater : ∀ x, (modules.insert symbol (g.namesIn r)).contains x = true ↔
            x ∈ g.names (earlier ++ [id]) := by
          intro x
          rw [Table.contains_iff, Table.mem_keys_insert, ← Table.contains_iff, mem_names_concat, hm, hn,
            Option.some_inj, eq_comm]
        have hbody : repeated [] ((g.namesIn r).getD []) = g.repetitions (g.bodyOf id) := by
          rw [hg.getD_namesIn hr, bodyOf_of_holds hr]
          exact repeated_names fun _ => Iff.rfl
        simp [scanTop, hr, hs, hc, duplicatesAt, hn, hnew, ih hlater, hbody]

end Duplicates

section Unknowns

lemma unknownTarget_eq (symbol : String) (id : RecordId) :
    g.unknownTarget g.moduleNames symbol id =
      (g.targetAt symbol id).bind fun e => if e.1 ∈ g.names g.top then none else some e.2 := by
  cases hr : g.records.find? id with
  | none => simp only [unknownTarget, targetAt, hr, Option.bind_none]
  | some r =>
    obtain ⟨payload, _, _⟩ := r
    cases payload with
    | instantiation name target => simp [unknownTarget, targetAt, hr, contains_moduleNames]
    | _ => simp only [unknownTarget, targetAt, hr, Option.bind_none]

lemma unknownTargets_eq (g : Graph) (id : RecordId) :
    g.unknownTargets g.moduleNames id =
      (g.referencesAt id).filterMap fun e => if e.1 ∈ g.names g.top then none else some e.2 := by
  cases hr : g.records.find? id with
  | none => simp only [unknownTargets, referencesAt, hr, List.filterMap_nil]
  | some r =>
    obtain ⟨payload, _, body⟩ := r
    cases payload with
    | module symbol =>
      simp only [unknownTargets, referencesAt, hr, List.filterMap_filterMap]
      exact List.filterMap_congr fun k _ => unknownTarget_eq symbol k
    | hierarchy top =>
      by_cases ht : top ∈ g.names g.top <;> simp [unknownTargets, referencesAt, hr, contains_moduleNames, ht]
    | _ => simp only [unknownTargets, referencesAt, hr, List.filterMap_nil]

lemma flatMap_unknownTargets (g : Graph) : g.top.flatMap (g.unknownTargets g.moduleNames) = g.unknowns := by
  rw [unknowns, List.filterMap_flatMap]
  exact List.flatMap_congr fun id _ => unknownTargets_eq g id

end Unknowns

section Dangling

lemma danglingAt_of_holds (hr : g.Holds id r) : g.danglingAt id = dangling g.moduleNames r := by
  obtain ⟨payload, _, _⟩ := r
  have hfind : g.records.find? id = some _ := hr
  cases payload with
  | dynamicInstance site =>
    by_cases hs : g.Sited site <;> simp [danglingAt, dangling, hfind, isSite_moduleNames, hs]
  | _ => simp only [danglingAt, dangling, hfind]

lemma Forest.perm_dangling (hg : g.Forest) (hn : ids.Nodup) (hids : ∀ id, id ∈ ids ↔ g.contains id = true) :
    (g.records.values.filterMap (dangling g.moduleNames)).Perm (ids.filterMap g.danglingAt) := by
  have hkeys : g.records.values.filterMap (dangling g.moduleNames) = g.records.keys.filterMap g.danglingAt := by
    rw [Table.values, Table.keys, List.filterMap_map, List.filterMap_map]
    apply List.filterMap_congr
    intro e he
    exact (danglingAt_of_holds (Table.find?_of_mem hg.keys he)).symm
  have hperm : g.records.keys.Perm ids := by
    refine (List.perm_ext_iff_of_nodup hg.keys hn).mpr fun id => ?_
    rw [hids, contains, Table.contains_iff]
  exact hkeys ▸ hperm.filterMap _

end Dangling

lemma Forest.defects_eq (hg : g.Forest) :
    g.defects = g.duplicates ++ g.unknowns ++ g.records.values.filterMap (dangling g.moduleNames) := by
  have hscan : (g.scanTop g.top {}).1 = g.duplicates :=
    scanTop_duplicates hg fun x => by simp [Table.contains_iff, Table.keys, names]
  rw [← hscan, ← flatMap_unknownTargets]
  rfl

lemma causes_validate (g : Graph) : g.validate.issues.map (·.cause) = g.defects := by
  simp [validate, Function.comp_def]

/-- The check reports errors only, and these: the names that come again, from the top level down; the symbols that are
referred to and are not at the top level, in turn; and, in no certain order, the dynamic instances without a site. -/
theorem validate_reports (hg : g.Reachable) :
    (∀ i ∈ g.validate.issues, i.severity = .error) ∧
      ∃ dangling, g.validate.issues.map (·.cause) = g.duplicates ++ g.unknowns ++ dangling ∧
        ∀ ids : List RecordId, ids.Nodup → (∀ id, id ∈ ids ↔ g.contains id = true) →
          dangling.Perm (ids.filterMap g.danglingAt) := by
  refine ⟨by simp [validate], g.records.values.filterMap (dangling g.moduleNames), ?_, ?_⟩
  · rw [causes_validate, hg.forest.defects_eq]
  · exact fun ids hn hids => hg.forest.perm_dangling hn hids

/-- Two modules of one symbol, and in the first one two instances of one name. One instance in each is of a symbol that
is not there, and so are the top of the hierarchy and the site in it. -/
def faulty : Graph :=
  (empty 0).run [.create none (.module "m"), .create none (.module "m"),
    .create (some ⟨⟨1⟩, 0, 0⟩) (.instantiation "a" "m"), .create (some ⟨⟨1⟩, 0, 0⟩) (.instantiation "a" "x"),
    .create (some ⟨⟨2⟩, 0, 0⟩) (.instantiation "b" "y"), .create none (.hierarchy "z"),
    .create (some ⟨⟨6⟩, 0, 0⟩) (.dynamicInstance ⟨"m", "b"⟩)]

lemma reachable_faulty : faulty.Reachable := ⟨0, _, rfl⟩

theorem validate_reports_faulty :
    faulty.Reachable ∧ faulty.validate.issues.map (·.cause) =
      [.duplicateSiteName "m" "a", .duplicateSymbol "m", .unknownModule "m" "a" "x", .unknownModule "m" "b" "y",
        .unknownHierarchyTop "z", .danglingDynamicInstance ⟨"m", "b"⟩] := by
  obtain ⟨_, dangling, hcauses, hperm⟩ := validate_reports reachable_faulty
  have hg := reachable_faulty.forest
  have hlisted : faulty.listed.filterMap faulty.danglingAt = [.danglingDynamicInstance ⟨"m", "b"⟩] := by decide
  have hdangling : dangling = [.danglingDynamicInstance ⟨"m", "b"⟩] :=
    List.perm_singleton.mp (hlisted ▸ hperm _ hg.nodup_listed fun _ => hg.mem_listed)
  refine ⟨reachable_faulty, ?_⟩
  rw [hcauses, hdangling]
  decide

end HardwareDesign.Graph
