import HardwareDesign.Proofs.Claiming

namespace HardwareDesign.Design

variable {s : Design} {x y index : PlacementIndex} {l : Location} {c : Claim}

section Answers

variable (hx : x.Current s.graph) (hs : s.placements = some x)
include hx hs

lemma ownerAt_of_places (h : s.graph.Places l c) :
    ∃ r, s.graph.Holds c.record r ∧ s.ownerAt l = .ok (r.parent.map fun p => (s.graph.handle p, c.subPath)) := by
  obtain ⟨r, hr, hm⟩ := h
  refine ⟨r, hr, ?_⟩
  simp only [ownerAt, hs, hx.placed ⟨r, hr, hm⟩, Graph.recordOf_of_holds hr]

lemma ownerAt_of_free (h : s.graph.Free l) : s.ownerAt l = .ok none := by
  cases hc : x.claims.find? l with
  | none => simp only [ownerAt, hs, hc]
  | some c =>
    cases hr : s.graph.records.find? c.record with
    | none => simp only [ownerAt, hs, hc, Graph.recordOf, hr]
    | some r => exact (h c ((hx.known hc).2 (Table.contains_of_find? hr))).elim

lemma ownerAt_withPlacements (hy : y.Current s.graph) (l : Location) :
    (s.withPlacements (some y)).ownerAt l = s.ownerAt l := by
  by_cases h : s.graph.Free l
  · exact (ownerAt_of_free (s := s.withPlacements (some y)) hy rfl h).trans (ownerAt_of_free hx hs h).symm
  · obtain ⟨c, hc⟩ := not_forall_not.mp h
    obtain ⟨r, hr, ho⟩ := ownerAt_of_places hx hs hc
    obtain ⟨r', hr', ho'⟩ := ownerAt_of_places (s := s.withPlacements (some y)) hy rfl hc
    obtain rfl : r = r' := hr.unique hr'
    exact ho'.trans ho.symm

lemma checkLocation_withPlacements (hy : y.Current s.graph) (hd : y.device = x.device) (l : Location) :
    (s.withPlacements (some y)).checkLocation l = s.checkLocation l := by
  have hcheck : y.check s.graph s.config.placement.strict l = x.check s.graph s.config.placement.strict l := by
    unfold PlacementIndex.check
    rw [hd, hx.occupant_eq hy]
  unfold checkLocation
  rw [hs]
  dsimp only [withPlacements]
  rw [hcheck]

end Answers

lemma instanceAt_withPlacements {placements : Option PlacementIndex}
    (h : (s.withPlacements placements).ownerAt l = s.ownerAt l) :
    instanceAt l (s.withPlacements placements) = onState (withPlacements placements) (instanceAt l s) := by
  rw [instanceAt, liftM_eq]
  cases ho : s.ownerAt l with
  | error e =>
    have hguarded : ∀ {t}, t.ownerAt l = .error e →
        Action.guarded (Action.read (·.ownerAt l)) t = .error (.error e) t :=
      fun ht => by rw [Action.guarded, Action.read_error ht]
    rw [bind_of_error (hguarded ho), bind_of_error (hguarded (h.trans ho))]
    rfl
  | ok found =>
    have hguarded : ∀ {t}, t.ownerAt l = .ok found → Action.guarded (Action.read (·.ownerAt l)) t = .ok found t :=
      fun ht => Action.guarded_ok (Action.read_ok ht)
    rw [bind_of_ok (hguarded ho), bind_of_ok (hguarded (h.trans ho))]
    cases found with
    | none => rfl
    | some found =>
      have hresolve : Silent { creates := True } s (resolveNode found.1) := silent_resolveNode trivial found.1
      exact (hresolve.bind fun _ _ => silent_pure _).blind placements

lemma createPlacementDatabase_new {device : Option Device} (h : PlacementIndex.ofGraph device s.graph = .ok y)
    (hs : s.placements = none) : createPlacementDatabase device s = .ok () (s.withPlacements (some y)) := by
  rw [createPlacementDatabase, get_bind, hs]
  exact bind_of_ok (Action.readGraph_ok h)

/-- With strict placement, and passes that erase records only, the database can be thrown away at any time. The one
that is made of the graph instead has the same occupants, makes the same checks, and leads to the same instances. -/
theorem database_rebuilt (hs : s.ReachableWith fun _ => False) (hstrict : s.config.placement.strict = true)
    (hp : s.placements = some index) :
    ∃ rebuilt, createPlacementDatabase index.device (s.withPlacements none) =
        .ok () (s.withPlacements (some rebuilt)) ∧
      ∀ l, rebuilt.occupant s.graph l = index.occupant s.graph l ∧
        (s.withPlacements (some rebuilt)).checkLocation l = s.checkLocation l ∧
        instanceAt l (s.withPlacements (some rebuilt)) =
          onState (withPlacements (some rebuilt)) (instanceAt l s) := by
  obtain ⟨hforest, hplaced, hcurrent⟩ := hs.claimed hstrict
  rw [hp] at hcurrent
  obtain ⟨rebuilt, hr⟩ := Graph.placementIndex_ok hforest index.device
  obtain ⟨hnew, hdevice⟩ := hcurrent.remade hforest hplaced hr
  refine ⟨rebuilt, createPlacementDatabase_new (s := s.withPlacements none) hr rfl, fun l => ⟨?_, ?_, ?_⟩⟩
  · exact hcurrent.occupant_eq hnew l
  · exact checkLocation_withPlacements hcurrent hp hnew hdevice l
  · exact instanceAt_withPlacements (ownerAt_withPlacements hcurrent hp hnew l)

def nearLocation : Location := ⟨.dsp, 0, 0, 0⟩

def farLocation : Location := ⟨.dsp, 9, 9, 0⟩

def erasePlaces : Pass Unit :=
  ⟨"erase", fun _ => .inspect fun g => .erase (g.handle ⟨3⟩) fun _ => .erase (g.handle ⟨4⟩) fun _ => .done (.ok (), ())⟩

def placedTwice : Design :=
  (new {} 0).run [.call (.define "M" .external), .call (.addTop ⟨0⟩), .call (.root ⟨0⟩), .call (.placementDatabase none),
    .call (.place ⟨0, 0⟩ nearLocation none), .call (.place ⟨0, 0⟩ farLocation none)]

def placedAgain : Design :=
  (placedTwice.runPasses [erasePlaces] [] ()).2.2.run [.call (.root ⟨0⟩), .call (.place ⟨0, 1⟩ nearLocation none)]

lemma reachable_placedAgain : placedAgain.ReachableWith fun _ => False := by
  refine ⟨{}, 0, (reachesWith_run _ _).trans (.head (.passes [erasePlaces] [] () ?_) (reachesWith_run _ _))⟩
  intro payload hm
  cases hm

theorem database_rebuilt_placed : ∃ index rebuilt, placedAgain.placements = some index ∧
    index.claims.find? farLocation = some ⟨⟨4⟩, none⟩ ∧
      createPlacementDatabase none (placedAgain.withPlacements none) = .ok () (placedAgain.withPlacements (some rebuilt)) ∧
        rebuilt.occupant placedAgain.graph farLocation = none ∧
        (placedAgain.withPlacements (some rebuilt)).checkLocation nearLocation =
          .error (.placement (.occupied nearLocation ⟨5⟩)) ∧
        ∃ t, instanceAt nearLocation (placedAgain.withPlacements (some rebuilt)) = .ok (some (⟨0, 1⟩, none)) t := by
  obtain ⟨rebuilt, hr, hsame⟩ := database_rebuilt reachable_placedAgain rfl rfl
  obtain ⟨hfar, _, _⟩ := hsame farLocation
  obtain ⟨_, hcheck, hinstance⟩ := hsame nearLocation
  exact ⟨_, rebuilt, rfl, by decide, hr, hfar.trans (by decide), hcheck.trans (by rfl), _, hinstance⟩

end HardwareDesign.Design
