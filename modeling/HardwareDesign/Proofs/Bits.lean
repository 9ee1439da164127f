import HardwareDesign.Proofs.Measuring
import HardwareDesign.Proofs.Overlooking
import HardwareDesign.Proofs.Reading
import HardwareDesign.Proofs.Storing

namespace HardwareDesign

lemma LocationVector.length_entries {type : ValueType} {coordinates : List (Option (UInt64 × UInt64 × UInt64))}
    {v : LocationVector} (h : ofCoordinates type coordinates = .ok v) : v.entries.length = v.type.width.toNat := by
  obtain ⟨hlength, rfl⟩ := ofCoordinates_ok.mp h
  rw [List.length_map, hlength]

namespace PlacementIndex

variable {x : PlacementIndex} {g g' : Graph} {l k : Location} {c : Claim} {allowed : Payload → Option RecordId → Prop}

lemma insertAll_append (x : PlacementIndex) (cs ds : List (Location × Claim)) :
    (x.insertAll cs).insertAll ds = x.insertAll (cs ++ ds) :=
  (List.foldl_append ..).symm

lemma check_insert (hc : g.contains c.record = true) :
    (x.insert k c).check g true l = .ok () ↔ l ≠ k ∧ x.check g true l = .ok () := by
  rw [check_ok, check_ok, and_left_comm]
  refine and_congr_right fun _ => ?_
  by_cases hk : k = l
  · subst hk
    simp [occupant, insert, hc]
  · simp [occupant, insert, Table.find?_insert, hk, Ne.symm hk]

lemma Known.occupant_grown (hx : x.Known g) (hd : g.Derives allowed g') (hg : g.Grows g') (l : Location) :
    x.occupant g' l = none ↔ x.occupant g l = none := by
  refine ⟨fun h => ?_, hx.vacant hd⟩
  refine Option.eq_none_iff_forall_ne_some.mpr fun id hid => ?_
  obtain ⟨subPath, hf, hheld⟩ := occupant_iff.mp hid
  cases h.symm.trans (occupant_iff.mpr ⟨subPath, hf, hg.contains hheld⟩)

end PlacementIndex

namespace Design

/-- Each location is checked and claimed before the next one is looked at. -/
def claimEach (id : RecordId) : List Location → Action Unit
  | [] => return ()
  | l :: ls => do
    Action.read (·.checkLocation l)
    modify (·.recordClaims [(l, ⟨id, none⟩)])
    claimEach id ls

def addEach (i : InstanceId) (v : LocationVector) : Action Unit := do
  let owner ← getOrCreateRecord i
  let h ← Action.editGraph (·.createIn owner (.registerLocations v))
  claimEach h.record v.placed

def unclaimed (s : Design) (owner : Handle) (v : LocationVector) : Design :=
  { s with graph := s.graph.created (.registerLocations v) (some owner.record) }

def placeEach (i : InstanceId) (v : LocationVector) : Action Unit := do
  Action.read (·.expectKind i [.register] "place_register")
  Action.read (·.checkWidth i v)
  addEach i v

variable {s t u : Design} {i : InstanceId} {n : Node} {owner : Handle} {id : RecordId} {l k : Location}
  {ls : List Location} {v : LocationVector} {x : PlacementIndex} {allowed : Payload → Option RecordId → Prop}

section Checking

lemma recordClaims_append (s : Design) (cs ds : List (Location × Claim)) :
    (s.recordClaims cs).recordClaims ds = s.recordClaims (cs ++ ds) := by
  simp only [recordClaims, Option.map_map]
  congr 2
  funext x
  exact x.insertAll_append cs ds

lemma checkLocation_strict (hx : s.placements = some x) (hstrict : s.config.placement.strict = true) :
    s.checkLocation l = .ok () ↔ x.check s.graph true l = .ok () := by
  rw [checkLocation_ok hx hstrict, PlacementIndex.check_ok]

lemma checkLocation_claimed (hid : s.graph.contains id = true) (hstrict : s.config.placement.strict = true) :
    (s.recordClaims [(k, ⟨id, none⟩)]).checkLocation l = .ok () ↔ l ≠ k ∧ s.checkLocation l = .ok () := by
  cases hx : s.placements with
  | none => simp [checkLocation, recordClaims, hx]
  | some x =>
    have hclaimed : (s.recordClaims [(k, ⟨id, none⟩)]).placements = some (x.insert k ⟨id, none⟩) := by
      simp only [recordClaims, hx]
      rfl
    rw [checkLocation_strict hclaimed hstrict, checkLocation_strict hx hstrict]
    exact PlacementIndex.check_insert hid

lemma checkLocation_grown (hk : (s.placements.getD {}).Known s.graph) (hd : s.graph.Derives allowed t.graph)
    (hg : s.graph.Grows t.graph) (hp : t.placements = s.placements) (hc : t.config = s.config)
    (hstrict : s.config.placement.strict = true) : t.checkLocation l = .ok () ↔ s.checkLocation l = .ok () := by
  cases hx : s.placements with
  | none => simp [checkLocation, hp, hx]
  | some x =>
    rw [hx] at hk
    rw [checkLocation_ok (hp.trans hx) (hc ▸ hstrict), checkLocation_ok hx hstrict]
    exact and_congr_right fun _ => PlacementIndex.Known.occupant_grown hk hd hg l

end Checking

section Claiming

lemma claimEach_ok (hid : s.graph.contains id = true) (hstrict : s.config.placement.strict = true) :
    claimEach id ls s = .ok () t ↔
      ls.Nodup ∧ s.checkLocations ls = .ok () ∧ s.recordClaims (ls.map fun l => (l, ⟨id, none⟩)) = t := by
  induction ls generalizing s with
  | nil => simp [claimEach, checkLocations, recordClaims_nil, pure, EStateM.pure]
  | cons l ls ih =>
    have hnext := ih (s := s.recordClaims [(l, ⟨id, none⟩)]) hid hstrict
    rw [claimEach, Action.read_bind_ok, modify_bind, hnext, recordClaims_append, List.nodup_cons, checkLocations_ok,
      checkLocations_ok, List.forall_mem_cons]
    simp only [checkLocation_claimed hid hstrict, forall_and, ← List.forall_mem_ne']
    simp only [List.map_cons, List.singleton_append]
    tauto

lemma addEach_eq (hr : getOrCreateRecord i s = .ok owner u) (he : owner.epoch = u.graph.epoch)
    (ha : u.graph.Accepts (some owner.record)) :
    addEach i v s = claimEach u.graph.nextId v.placed (u.unclaimed owner v) := by
  rw [addEach, bind_of_ok hr]
  exact Action.createIn_bind he ha _ _

lemma recordClaims_unclaimed (owner : Handle) (v : LocationVector) :
    (u.unclaimed owner v).recordClaims (v.placed.map fun l => (l, ⟨u.graph.nextId, none⟩)) =
      u.noted owner (.registerLocations v) := by
  rw [noted, Payload.placements, List.map_map]
  rfl

lemma config_of_getOrCreateRecord (hr : getOrCreateRecord i s = .ok owner u) : u.config = s.config := by
  have hacts : s.Acts { creates := True } [] u := acts_of_getOrCreateRecord hr
  exact hacts.config

lemma checkLocation_unclaimed (hs : s.Reachable) (hstrict : s.config.placement.strict = true)
    (hr : getOrCreateRecord i s = .ok owner u) :
    (u.unclaimed owner v).checkLocation l = .ok () ↔ s.checkLocation l = .ok () := by
  have hc := hs.coherent
  obtain ⟨ho, hu, _⟩ := recorded_of_getOrCreateRecord hc hr
  obtain ⟨hsteady, _, hdatabase⟩ := steady_getOrCreateRecord hc hr
  obtain ⟨_, _, _, _, _, _, ha, hchain⟩ := chain_of_recordUpTo hc (Nat.lt_succ_self _) hr
  have hd : s.graph.Derives (fun _ _ => True) (u.unclaimed owner v).graph :=
    (hchain.derives hc.forest ha).trans (hu.forest.derives ho.stands.accepts trivial)
  have hg : s.graph.Grows (u.unclaimed owner v).graph :=
    hsteady.grows.graph.trans (hu.forest.grows ho.stands.accepts)
  have hconfig : u.config = s.config := config_of_getOrCreateRecord hr
  exact checkLocation_grown hs.known hd hg hdatabase hconfig hstrict

lemma addEach_ok (hs : s.Reachable) (hstrict : s.config.placement.strict = true) :
    addEach i v s = .ok () t ↔
      v.placed.Nodup ∧ s.checkLocations v.placed = .ok () ∧ addLocations i (.registerLocations v) s = .ok () t := by
  cases hr : getOrCreateRecord i s with
  | error e u =>
    rw [addEach, addLocations, bind_of_error hr, bind_of_error hr]
    simp
  | ok owner u =>
    obtain ⟨ho, hu, _⟩ := recorded_of_getOrCreateRecord hs.coherent hr
    have ha := ho.stands.accepts
    have hin : (u.unclaimed owner v).graph.contains u.graph.nextId = true :=
      Table.contains_of_find? (Graph.holds_created_next hu.forest ha)
    have hstrict' : (u.unclaimed owner v).config.placement.strict = true := config_of_getOrCreateRecord hr ▸ hstrict
    rw [addEach_eq hr ho.epoch ha, claimEach_ok hin hstrict', recordClaims_unclaimed, addLocations_eq hr ho.epoch ha]
    simp only [checkLocations_ok, checkLocation_unclaimed hs hstrict hr, EStateM.Result.ok.injEq, true_and]

end Claiming

lemma placeRegister_ok : placeRegister i v s = .ok () t ↔ s.expectKind i [.register] "place_register" = .ok () ∧
    s.checkWidth i v = .ok () ∧ s.checkLocations v.placed = .ok () ∧
      addLocations i (.registerLocations v) s = .ok () t := by
  rw [placeRegister, Action.read_bind_ok, Action.read_bind_ok, Action.read_bind_ok]

/-- With strict placement, a register that can be placed bit by bit is placed at once with the same result. Where it is
placed at once, two of its bits can have the same location. -/
theorem register_bits_in_turn (hs : s.Reachable) (hstrict : s.config.placement.strict = true) :
    placeEach i v s = .ok () t ↔ placeRegister i v s = .ok () t ∧ v.placed.Nodup := by
  rw [placeEach, Action.read_bind_ok, Action.read_bind_ok, addEach_ok hs hstrict, placeRegister_ok]
  tauto

def repeatedBit : LocationVector := ⟨.int 8, some firstBit :: some firstBit :: List.replicate 6 none⟩

theorem register_bits_in_turn_repeated : ∃ t, placeRegister ⟨1, 0⟩ repeatedBit placedRoot = .ok () t ∧
    ¬ ∃ u, placeEach ⟨1, 0⟩ repeatedBit placedRoot = .ok () u := by
  have hplace : placeRegister ⟨1, 0⟩ repeatedBit placedRoot = .ok () _ := rfl
  refine ⟨_, hplace, ?_⟩
  rintro ⟨u, hu⟩
  obtain ⟨_, hnodup⟩ := (register_bits_in_turn reachable_placedRoot rfl).mp hu
  exact absurd hnodup (by decide)

section Widths

variable {type : ValueType}

lemma expectKind_register (hn : s.node i = .ok n) (hk : n.kind = .register type) (action : String) :
    s.expectKind i [.register] action = .ok () := by
  simp [expectKind, hn, hk, NodeKind.kind, bind, Except.bind, pure, Except.pure]

lemma checkWidth_ok (hn : s.node i = .ok n) (hk : n.kind = .register type) :
    s.checkWidth i v = .ok () ↔ type.width = v.type.width := by
  simp only [checkWidth, hn, hk, NodeKind.type, bind, Except.bind]
  split
  case isTrue heq => simp [heq, pure, Except.pure]
  case isFalse hne => simp [hne, throw, throwThe, MonadExceptOf.throw]

lemma holds_registerLocations (hs : s.Reachable) (h : placeRegister i v s = .ok () t) :
    ∃ id owner, s.graph.contains id = false ∧ t.graph.Holds id ⟨.registerLocations v, some owner, []⟩ ∧
      t.StandsFor owner i := by
  obtain ⟨_, _, _, ha⟩ := placeRegister_ok.mp h
  obtain ⟨owner, u, hr, rfl⟩ := noted_of_addLocations hs.coherent ha
  obtain ⟨ho, hu, hext⟩ := recorded_of_getOrCreateRecord hs.coherent hr
  have hnoted : u.Extends (u.noted owner (.registerLocations v)) := (hu.noted ho.stands rfl rfl).2
  have hnew : s.graph.contains u.graph.nextId = false := by
    refine Bool.eq_false_iff.mpr fun hold => ?_
    obtain ⟨r, hheld⟩ := Table.exists_of_contains (hext.graph.contains hold)
    exact hu.forest.not_held_next hheld
  exact ⟨_, _, hnew, Graph.holds_created_next hu.forest ho.stands.accepts, hnoted.standsFor ho.stands⟩

end Widths

/-- A register is placed with any vector of its width, whatever the number of entries is, and the vector is recorded as
it is. One that is made of coordinates has an entry for each bit, but what has been stored can be any other. The widths
are words of 64 bits, and where overflow is checked, a width that does not fit comes to no comparison. -/
theorem register_entries_unchecked (hs : s.Reachable) {type : ValueType} (hn : s.node i = .ok n)
    (hk : n.kind = .register type) (v : LocationVector) :
    ((∃ t, placeRegister i v s = .ok () t) ↔ type.width = v.type.width ∧ s.checkLocations v.placed = .ok () ∧
        ∃ h t, getOrCreateRecord i s = .ok h t) ∧
      type.sameWidth ValueType.wrapping v.type = .ok (type.width == v.type.width) ∧
      type.sameWidth ValueType.checked v.type =
        (if type.Fits ∧ v.type.Fits then .ok (type.width == v.type.width) else .error .overflow) ∧
      (∀ t, placeRegister i v s = .ok () t → ∃ id owner, s.graph.contains id = false ∧
        t.graph.Holds id ⟨.registerLocations v, some owner, []⟩ ∧ t.StandsFor owner i) ∧
      (∀ type' coordinates, LocationVector.ofCoordinates type' coordinates = .ok v →
        v.entries.length = v.type.width.toNat) ∧
      LocationVector.decode v.encode = some v := by
  refine ⟨?_, ValueType.sameWidth_wrapping _ _, ValueType.sameWidth_checked _ _,
    fun _ => holds_registerLocations hs, fun _ _ => LocationVector.length_entries, LocationVector.restores v⟩
  simp only [placeRegister_ok, exists_and_left, addLocations_ok hs.coherent, checkWidth_ok hn hk,
    expectKind_register hn hk, true_and]

def shortVector : LocationVector := ⟨.int 8, [some firstBit]⟩

theorem register_entries_unchecked_short : ∃ v t id owner,
    LocationVector.decode shortVector.encode = some v ∧ placeRegister ⟨1, 0⟩ v placedRoot = .ok () t ∧
      t.graph.Holds id ⟨.registerLocations v, some owner, []⟩ ∧ v.entries.length = 1 ∧ v.type.width = 8 := by
  have hplace : placeRegister ⟨1, 0⟩ shortVector placedRoot = .ok () _ := rfl
  have hnode : placedRoot.node ⟨1, 0⟩ = .ok _ := rfl
  obtain ⟨_, _, _, hrecord, _, hstored⟩ := register_entries_unchecked reachable_placedRoot hnode rfl shortVector
  obtain ⟨id, owner, _, hheld, _⟩ := hrecord _ hplace
  exact ⟨shortVector, _, id, owner, hstored, hplace, hheld, rfl, by decide⟩

end Design

end HardwareDesign
