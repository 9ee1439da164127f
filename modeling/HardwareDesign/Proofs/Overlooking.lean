import HardwareDesign.Proofs.Claiming

/-!
What the placement database does not see. It is made of the graph once, and kept up to date where instances are placed.
Locations that passes write into the graph are in no database that has been made before.
-/

namespace HardwareDesign

def Graph.Takes (g : Graph) (id : RecordId) (l : Location) : Prop := ∃ sub, g.Places l ⟨id, sub⟩

namespace Design

/-- A record for the location is there, but passes have created it after the database was made, or the database was
made without it: another record for the location was taken up, or the record was in no hierarchy. -/
inductive Overlooked (l : Location) (id : RecordId) : Design → Prop
  | rewritten {σ : Type} {u : Design} (passes : List (Pass σ)) (held : List Handle) (st : σ) : u.Reachable →
      u.placements.isSome → u.graph.lastId < id.index → (u.runPasses passes held st).2.2.graph.Takes id l →
      Overlooked l id (u.runPasses passes held st).2.2
  | outdone {u v : Design} {index : PlacementIndex} : u.Reachable → u.Step v → u.placements = none →
      v.placements = some index → v.graph.Takes id l → index.occupant v.graph l ≠ some id → Overlooked l id v
  | step {u v : Design} : Overlooked l id u → u.Step v → v.graph.Takes id l → Overlooked l id v

structure Vacant (s : Design) (x : PlacementIndex) (l : Location) : Prop where
  valid : ∀ d, x.device = some d → d.isValid l = true
  overlooked : ∀ c, s.graph.Places l c → s.Overlooked l c.record

structure Updates (s t : Design) (x y : PlacementIndex) : Prop where
  kept : ∀ {l c}, x.claims.find? l = some c → s.graph.contains c.record = true → y.claims.find? l = some c
  fresh : ∀ {l c}, y.claims.find? l = some c → x.claims.find? l = some c ∨ s.graph.lastId < c.record.index
  places : ∀ {l c}, t.graph.Places l c → s.graph.Places l c ∨
    s.graph.lastId < c.record.index ∧ (y.claims.find? l = some c ∨ t.Overlooked l c.record)

variable {powers : Powers} {allowed : Payload → Prop} {s t u : Design} {log : List Allocation} {x y : PlacementIndex}
  {l : Location} {c : Claim} {i : InstanceId} {id : RecordId} {payload : Payload}

lemma places_cases {g g' : Graph} {allowed : Payload → Option RecordId → Prop} (hd : g.Derives allowed g')
    (h : g'.Places l c) : g.Places l c ∨ g.lastId < c.record.index := by
  obtain ⟨r', hr', hm⟩ := h
  exact (hd.records hr').imp (fun ⟨r, hr, hpay, _⟩ => ⟨r, hr, hpay ▸ hm⟩) And.left

section Known

lemma Acts.known (h : s.Acts powers log t) (hg : s.graph.Forest) (hk : (s.placements.getD {}).Known s.graph) :
    (t.placements.getD {}).Known t.graph := by
  refine (h.invariant (P := fun u => (u.placements.getD {}).Known u.graph) hg hk ?_ ?_ ?_ ?_).2
  · intro u v hu hgraph hp
    rw [hgraph, hp]
    exact hu
  · intro u v payload parent hu hforest ha _ hgraph hp
    have hd : u.graph.Derives (fun _ _ => True) (u.graph.created payload parent) := hforest.derives ha trivial
    rw [hgraph, hp]
    exact hu.derived hd
  · exact fun _ hforest _ hindex => .of_ofGraph hforest hindex
  · intro u owner payload _ hu hforest ha
    have hd : u.graph.Derives (fun _ _ => True) (u.graph.created payload (some owner.record)) :=
      hforest.derives ha trivial
    cases hp : u.placements with
    | none => simpa [noted, recordClaims, hp] using hu.derived hd
    | some x => simpa [noted, recordClaims, hp] using hu.noted hforest ha

lemma Rewritten.placements (h : s.Rewritten allowed t) : t.placements = s.placements := by
  cases h
  rfl

lemma Rewritten.config (h : s.Rewritten allowed t) : t.config = s.config := by
  cases h
  rfl

lemma Step.stepWith (h : s.Step t) : s.StepWith (fun _ => True) t := by
  cases h with
  | operation o => exact .operation o
  | passes passes held st => exact .passes passes held st fun _ _ => trivial

lemma Step.cases (h : s.Step t) (hg : s.graph.Forest) :
    (∃ c, t = s.after c) ∨ t = s ∨ s.Rewritten (fun _ => True) t := by
  cases h with
  | operation o =>
    cases o with
    | call c => exact .inl ⟨c, rfl⟩
    | invalidate held => exact .inr (.inr (rewritten_invalidate s held))
  | passes passes held st =>
    cases hp : s.passed with
    | true => exact .inr (.inl (runPasses_passed hp passes held st))
    | false => exact .inr (.inr (rewritten_runPasses hg hp fun _ _ => trivial))

lemma Step.config (h : s.Step t) (hg : s.graph.Forest) : t.config = s.config := by
  rcases h.cases hg with ⟨c, rfl⟩ | rfl | hrewrite
  · exact (acts_after s c).config
  · rfl
  · exact hrewrite.config

lemma Reachable.known (hs : s.Reachable) : (s.placements.getD {}).Known s.graph := by
  obtain ⟨config, source, hr⟩ := hs
  have hr : ReachesWith (fun _ => True) _ s := Relation.ReflTransGen.mono (fun _ _ => Step.stepWith) _ _ hr
  refine ReachesWith.invariant (P := fun u => (u.placements.getD {}).Known u.graph) hr (coherent_new config source)
    ?_ ?_ ?_
  · intro l c hc
    cases hc
  · exact fun hu hk c => (acts_after _ c).known hu.forest hk
  · intro u v hu hrewrite hk
    rw [hrewrite.placements]
    exact hk.derived (hrewrite.derives hu.forest)

lemma Reachable.known_index (hs : s.Reachable) (hx : s.placements = some x) : x.Known s.graph := by
  have hk := hs.known
  rwa [hx] at hk

end Known

section Updating

structure Quiet (x : PlacementIndex) (s t : Design) : Prop where
  forest : t.graph.Forest
  derives : s.graph.Derives Graph.Unplaced t.graph
  grows : s.graph.Grows t.graph
  database : t.placements = some x

lemma Quiet.updates (h : Quiet x s t) : s.Updates t x x where
  kept h _ := h
  fresh h := .inl h
  places hc := .inl (hc.before h.derives)

lemma Quiet.updates_trans (h : Quiet x s t) (hu : t.Updates u x y) : s.Updates u x y where
  kept hc hheld := hu.kept hc (h.grows.contains hheld)
  fresh hc := (hu.fresh hc).imp_right (Nat.lt_of_le_of_lt h.derives.lastId)
  places hc := by
    rcases hu.places hc with hold | ⟨hlt, hf⟩
    · exact .inl (hold.before h.derives)
    · exact .inr ⟨Nat.lt_of_le_of_lt h.derives.lastId hlt, hf⟩

lemma Acts.quiet (h : s.Acts powers log t) (hn : ¬ powers.places) (hg : s.graph.Forest) (hx : s.placements = some x) :
    Quiet x s t := by
  refine (h.invariant (P := Quiet x s) hg ⟨hg, .refl _, .refl _, hx⟩ ?_ ?_ ?_ fun hp => (hn hp).elim).2
  · rintro u v ⟨hforest, hd, hgrows, hu⟩ hgraph hp
    rw [← hgraph] at hforest hd hgrows
    exact ⟨hforest, hd, hgrows, hp.trans hu⟩
  · rintro u v payload parent ⟨hforest, hd, hgrows, hu⟩ _ ha hunplaced hgraph hp
    have hlast : u.graph.Derives Graph.Unplaced (u.graph.created payload parent) := hforest.derives ha hunplaced
    rw [← hgraph] at hlast
    exact ⟨hgraph ▸ hforest.created ha, hd.trans hlast, hgrows.trans (hgraph ▸ hforest.grows ha), hp.trans hu⟩
  · rintro u device index ⟨_, _, _, hu⟩ _ hnone _
    cases hu.symm.trans hnone

lemma updates_noted (hg : t.graph.Forest) {owner : Handle} (ha : t.graph.Accepts (some owner.record))
    (hx : t.placements = some x) (hfree : ∀ p ∈ payload.placements, x.occupant t.graph p.1 = none) :
    ∃ y, (t.noted owner payload).placements = some y ∧ t.Updates (t.noted owner payload) x y := by
  refine ⟨x.insertAll (payload.placements.map fun p => (p.1, ⟨t.graph.nextId, p.2⟩)), by simp [noted, recordClaims, hx],
    ?_, ?_, ?_⟩
  · intro l c hc hheld
    rw [PlacementIndex.find?_insertAll]
    cases hf : Table.findIn l _ with
    | none => exact hc
    | some c' =>
      have hnone := hfree _ (PlacementIndex.findIn_claims.mp hf).2
      rw [PlacementIndex.occupant, hc] at hnone
      simp [hheld] at hnone
  · intro l c hc
    rw [PlacementIndex.find?_insertAll, Option.or_eq_some_iff] at hc
    rcases hc with hnew | ⟨_, hold⟩
    · rw [(PlacementIndex.findIn_claims.mp hnew).1]
      exact .inr (Nat.lt_succ_self _)
    · exact .inl hold
  · rintro l c ⟨r, hr, hm⟩
    rcases (Graph.holds_created hg ha).mp hr with ⟨hid, rfl⟩ | ⟨r₀, h₀, rfl⟩
    · refine .inr ⟨hid ▸ Nat.lt_succ_self _, .inl ?_⟩
      rw [PlacementIndex.find?_insertAll, PlacementIndex.findIn_claims.mpr ⟨hid, hm⟩]
      rfl
    · exact .inl ⟨r₀, h₀, hm⟩

lemma updates_addLocations (hs : s.Coherent) (hk : x.Known s.graph) (hx : s.placements = some x)
    (hfree : ∀ p ∈ payload.placements, x.occupant s.graph p.1 = none) :
    ∃ y, (endState (addLocations i payload s)).placements = some y ∧
      s.Updates (endState (addLocations i payload s)) x y := by
  obtain ⟨t, hacts, hend⟩ := addLocations_cases hs i payload
  have hquiet := hacts.quiet id hs.forest hx
  rcases hend with hend | ⟨owner, hstands, hend⟩
  · rw [hend]
    exact ⟨x, hquiet.database, hquiet.updates⟩
  · rw [hend]
    have hfree' : ∀ p ∈ payload.placements, x.occupant t.graph p.1 = none :=
      fun p hp => hk.vacant hquiet.derives (hfree p hp)
    obtain ⟨y, hy, hupdates⟩ := updates_noted hquiet.forest hstands.accepts hquiet.database hfree'
    exact ⟨y, hy, hquiet.updates_trans hupdates⟩

lemma updates_after (hs : s.Coherent) (hk : x.Known s.graph) (hstrict : s.config.placement.strict = true)
    (hx : s.placements = some x) (c : Call) :
    ∃ y, (s.after c).placements = some y ∧ s.Updates (s.after c) x y := by
  have hsame : ∃ y, s.placements = some y ∧ s.Updates s x y := ⟨x, hx, Quiet.updates ⟨hs.forest, .refl _, .refl _, hx⟩⟩
  have hother : ∀ c : Call, ¬ c.places → ∃ y, (s.after c).placements = some y ∧ s.Updates (s.after c) x y := by
    intro c hn
    have hquiet := (acts_after s c).quiet hn hs.forest hx
    exact ⟨x, hquiet.database, hquiet.updates⟩
  cases c with
  | place i l subPath =>
    refine endState_read (P := fun t => ∃ y, t.placements = some y ∧ s.Updates t x y) hsame fun _ _ => ?_
    refine endState_read (P := fun t => ∃ y, t.placements = some y ∧ s.Updates t x y) hsame fun _ hl => ?_
    refine updates_addLocations hs hk hx fun p hp => ?_
    obtain rfl := List.mem_singleton.mp hp
    exact ((checkLocation_ok hx hstrict).mp hl).2
  | placeRegister i v =>
    refine endState_read (P := fun t => ∃ y, t.placements = some y ∧ s.Updates t x y) hsame fun _ _ => ?_
    refine endState_read (P := fun t => ∃ y, t.placements = some y ∧ s.Updates t x y) hsame fun _ _ => ?_
    refine endState_read (P := fun t => ∃ y, t.placements = some y ∧ s.Updates t x y) hsame fun _ hl => ?_
    refine updates_addLocations hs hk hx fun p hp => ?_
    obtain ⟨l, hm, rfl⟩ := List.mem_map.mp hp
    exact ((checkLocation_ok hx hstrict).mp (checkLocations_ok.mp hl l hm)).2
  | _ => exact hother _ id

lemma runPasses_updates {σ : Type} (hs : s.Reachable) (hx : s.placements = some x) (passes : List (Pass σ))
    (held : List Handle) (st : σ) : (s.runPasses passes held st).2.2.placements = some x ∧
      s.Updates (s.runPasses passes held st).2.2 x x := by
  have hg := hs.coherent.forest
  cases hp : s.passed with
  | true =>
    rw [runPasses_passed hp]
    exact ⟨hx, Quiet.updates ⟨hg, .refl _, .refl _, hx⟩⟩
  | false =>
    have hrewrite : s.Rewritten (fun _ => True) (s.runPasses passes held st).2.2 :=
      rewritten_runPasses hg hp fun _ _ => trivial
    refine ⟨hrewrite.placements.trans hx, fun hc _ => hc, .inl, fun {l c} hc => ?_⟩
    refine (places_cases (hrewrite.derives hg) hc).imp_right fun hlt => ⟨hlt, .inr ?_⟩
    exact .rewritten passes held st hs (by rw [hx]; rfl) hlt ⟨c.subPath, hc⟩

lemma Step.updates (h : s.Step t) (hs : s.Reachable) (hstrict : s.config.placement.strict = true)
    (hx : s.placements = some x) : ∃ y, t.placements = some y ∧ s.Updates t x y := by
  cases h with
  | operation o =>
    cases o with
    | call c => exact updates_after hs.coherent (hs.known_index hx) hstrict hx c
    | invalidate held =>
      have hrewrite : s.Rewritten (fun _ => False) (s.invalidate held).2 := rewritten_invalidate s held
      have hd : s.graph.Derives Graph.Unplaced (s.invalidate held).2.graph :=
        (hrewrite.derives hs.coherent.forest).mono False.elim
      exact ⟨x, hrewrite.placements.trans hx, fun hc _ => hc, .inl, fun hc => .inl (hc.before hd)⟩
  | passes passes held st => exact ⟨x, runPasses_updates hs hx passes held st⟩

end Updating

section Overlooking

namespace Overlooked

lemma takes (h : s.Overlooked l id) : s.graph.Takes id l := by
  cases h with
  | rewritten _ _ _ _ _ _ ht => exact ht
  | outdone _ _ _ _ ht _ => exact ht
  | step _ _ ht => exact ht

lemma reachable (h : s.Overlooked l id) : s.Reachable := by
  induction h with
  | rewritten passes held st hu => exact hu.trans (.single (.passes passes held st))
  | outdone hu hstep => exact hu.trans (.single hstep)
  | step _ hstep _ ih => exact ih.trans (.single hstep)

lemma not_found (h : s.Overlooked l id) (hstrict : s.config.placement.strict = true) :
    ∃ x, s.placements = some x ∧ ∀ sub, x.claims.find? l ≠ some ⟨id, sub⟩ := by
  induction h with
  | rewritten passes held st hu hsome hlt =>
    obtain ⟨x, hx⟩ := Option.isSome_iff_exists.mp hsome
    refine ⟨x, (runPasses_updates hu hx passes held st).1, fun sub hf => ?_⟩
    exact absurd (hu.known_index hx l _ hf).1 (Nat.not_le_of_lt hlt)
  | outdone hu hstep hnone hx ht hne =>
    refine ⟨_, hx, fun sub hf => hne (PlacementIndex.occupant_iff.mpr ⟨sub, hf, ?_⟩)⟩
    obtain ⟨_, hc⟩ := ht
    exact hc.held
  | step h hstep _ ih =>
    have hu := h.reachable
    rw [hstep.config hu.coherent.forest] at hstrict
    obtain ⟨x, hx, hnot⟩ := ih hstrict
    obtain ⟨y, hy, hupdates⟩ := hstep.updates hu hstrict hx
    refine ⟨y, hy, fun sub hf => ?_⟩
    rcases hupdates.fresh hf with hold | hlt
    · exact hnot sub hold
    · obtain ⟨_, r, hr, _⟩ := h.takes
      exact absurd (hu.coherent.forest.bound hr) (Nat.not_le_of_lt hlt)

end Overlooked

def Sees (s : Design) : Prop :=
  ∀ x, s.placements = some x → ∀ l c, s.graph.Places l c → x.claims.find? l = some c ∨ s.Overlooked l c.record

lemma Step.sees (h : s.Step t) (hs : s.Reachable) (hstrict : s.config.placement.strict = true) (hsees : s.Sees) :
    t.Sees := by
  intro y hy l c hc
  have ht : t.Reachable := hs.trans (.single h)
  cases hx : s.placements with
  | none =>
    by_cases ho : y.occupant t.graph l = some c.record
    · obtain ⟨sub, hf, hheld⟩ := PlacementIndex.occupant_iff.mp ho
      obtain ⟨r, hr, hm⟩ := (ht.known_index hy l _ hf).2 hheld
      obtain ⟨r', hr', hm'⟩ := hc
      obtain rfl : r = r' := hr.unique hr'
      obtain rfl : sub = c.subPath := Payload.placements_unique hm hm'
      exact .inl hf
    · exact .inr (.outdone hs h hx hy ⟨c.subPath, hc⟩ ho)
  | some x =>
    obtain ⟨y', hy', hupdates⟩ := h.updates hs hstrict hx
    obtain rfl := Option.some.inj (hy.symm.trans hy')
    rcases hupdates.places hc with hold | ⟨_, hnew⟩
    · rcases hsees x hx l c hold with hf | ho
      · exact .inl (hupdates.kept hf hold.held)
      · exact .inr (.step ho h ⟨c.subPath, hc⟩)
    · exact hnew

lemma Reachable.sees (hs : s.Reachable) (hstrict : s.config.placement.strict = true) : s.Sees := by
  obtain ⟨config, source, hr⟩ := hs
  induction hr with
  | refl =>
    intro x hx
    cases hx
  | tail hrun hlast ih =>
    have hu : Reachable _ := ⟨config, source, hrun⟩
    rw [hlast.config hu.coherent.forest] at hstrict
    exact hlast.sees hu hstrict (ih hstrict)

lemma occupant_eq_none (hs : s.Reachable) (hstrict : s.config.placement.strict = true) (hx : s.placements = some x) :
    x.occupant s.graph l = none ↔ ∀ c, s.graph.Places l c → s.Overlooked l c.record := by
  constructor
  · intro h c hc
    refine (hs.sees hstrict x hx l c hc).resolve_left fun hf => ?_
    cases h.symm.trans (PlacementIndex.occupant_iff.mpr ⟨c.subPath, hf, hc.held⟩)
  · intro h
    refine Option.eq_none_iff_forall_ne_some.mpr fun id hid => ?_
    obtain ⟨sub, hf, hheld⟩ := PlacementIndex.occupant_iff.mp hid
    have hc := (hs.known_index hx l _ hf).2 hheld
    obtain ⟨y, hy, hnot⟩ := (h _ hc).not_found hstrict
    obtain rfl := Option.some.inj (hx.symm.trans hy)
    exact hnot sub hf

lemma checkLocation_vacant (hs : s.Reachable) (hstrict : s.config.placement.strict = true)
    (hx : s.placements = some x) : s.checkLocation l = .ok () ↔ s.Vacant x l := by
  rw [checkLocation_ok hx hstrict, occupant_eq_none hs hstrict hx]
  exact ⟨fun ⟨hv, ho⟩ => ⟨hv, ho⟩, fun ⟨hv, ho⟩ => ⟨hv, ho⟩⟩

end Overlooking

/-- With strict placement, an instance that can be placed and recorded is placed exactly where the database has no
record, and it has all of them but those that have been overlooked. -/
theorem placing_overlooks (hs : s.Reachable) (hstrict : s.config.placement.strict = true) (hx : s.placements = some x) :
    (∀ i l sub, (∃ t, place i l sub s = .ok () t) ↔
        s.expectKind i [.root, .module] "place" = .ok () ∧ (∃ h t, getOrCreateRecord i s = .ok h t) ∧ s.Vacant x l) ∧
      ∀ i v, (∃ t, placeRegister i v s = .ok () t) ↔
        s.expectKind i [.register] "place_register" = .ok () ∧ s.checkWidth i v = .ok () ∧
          (∃ h t, getOrCreateRecord i s = .ok h t) ∧ ∀ l ∈ v.placed, s.Vacant x l := by
  refine ⟨fun i l sub => ?_, fun i v => ?_⟩
  · simp only [place, Action.read_bind_ok, exists_and_left, addLocations_ok hs.coherent, ← checkLocation_vacant hs hstrict hx]
    tauto
  · simp only [placeRegister, Action.read_bind_ok, exists_and_left, addLocations_ok hs.coherent,
      ← checkLocation_vacant hs hstrict hx, checkLocations_ok]
    tauto

def crowdedLocation : Location := ⟨.dsp, 0, 0, 0⟩

def claimLocation : Pass Unit :=
  ⟨"fix", fun _ => .inspect fun g => .create (some (g.handle ⟨2⟩)) (.location crowdedLocation none) fun _ =>
    .done (.ok (), ())⟩

def indexedRoot : Design :=
  (new {} 0).run [.call (.define "M" .external), .call (.addTop ⟨0⟩), .call (.root ⟨0⟩), .call (.placementDatabase none)]

def claimedByPass : Design := (indexedRoot.runPasses [claimLocation] [] ()).2.2.run [.call (.root ⟨0⟩)]

lemma reachable_claimedByPass : claimedByPass.Reachable :=
  (reachable_run {} 0 _).trans (.head (.passes [claimLocation] [] ()) (reaches_run _ _))

theorem placing_overlooks_pass : ∃ index, claimedByPass.placements = some index ∧
    claimedByPass.graph.Places crowdedLocation ⟨⟨3⟩, none⟩ ∧
      claimedByPass.Vacant index crowdedLocation ∧
        (∃ t, place ⟨0, 1⟩ crowdedLocation none claimedByPass = .ok () t) ∧
          claimedByPass.Overlooked crowdedLocation ⟨3⟩ := by
  have hplaces : claimedByPass.graph.Places crowdedLocation ⟨⟨3⟩, none⟩ :=
    ⟨⟨.location crowdedLocation none, some ⟨2⟩, []⟩, rfl, List.mem_singleton.mpr rfl⟩
  have hplaced : ∃ t, place ⟨0, 1⟩ crowdedLocation none claimedByPass = .ok () t := ⟨_, rfl⟩
  obtain ⟨hplace, _⟩ := placing_overlooks reachable_claimedByPass rfl rfl
  obtain ⟨_, _, hvacant⟩ := (hplace ⟨0, 1⟩ crowdedLocation none).mp hplaced
  exact ⟨_, rfl, hplaces, hvacant, hplaced, hvacant.overlooked _ hplaces⟩

end Design

end HardwareDesign
