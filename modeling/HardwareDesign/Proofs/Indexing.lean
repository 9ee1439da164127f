import HardwareDesign.Proofs.Descending
import HardwareDesign.Proofs.Editing

/-!
The placement database as an index of the graph: what it has to say while records are created and erased, and what it
says when it is made anew.
-/

namespace HardwareDesign

lemma Payload.placements_unique {p : Payload} {l : Location} {sub sub' : SubPath} (h : (l, sub) ∈ p.placements)
    (h' : (l, sub') ∈ p.placements) : sub = sub' := by
  cases p with
  | location => simp_all [placements]
  | registerLocations => simp_all [placements]
  | _ => cases h

namespace Graph

def Rooted (g : Graph) (p : RecordId) : Prop :=
  ∃ id ∈ g.top, g.IsHierarchy id ∧ Relation.ReflTransGen g.Parent id p

def Suits (g : Graph) (payload : Payload) (parent : Option RecordId) : Prop :=
  (∀ top, payload = .hierarchy top → parent = none) ∧
    (payload.placements ≠ [] → ∃ p, parent = some p ∧ g.Rooted p)

def Placed (g : Graph) : Prop := ∀ id r, g.Holds id r → g.Suits r.payload r.parent

def Free (g : Graph) (l : Location) : Prop := ∀ c, ¬ g.Places l c

variable {g g' : Graph} {allowed : Payload → Option RecordId → Prop} {l : Location} {c : Claim}

lemma Places.held (h : g.Places l c) : g.contains c.record = true := by
  obtain ⟨r, hr, _⟩ := h
  exact Table.contains_of_find? hr

section Derives

variable (hd : g.Derives allowed g') (hg : g.Forest) (hg' : g'.Forest)
include hd hg

lemma Derives.kept {id : RecordId} {r r' : Record} (hr : g.Holds id r) (hr' : g'.Holds id r') :
    r'.payload = r.payload ∧ r'.parent = r.parent := by
  rcases hd.records hr' with ⟨r₀, h₀, hp, hparent⟩ | ⟨hlt, _⟩
  · obtain rfl : r = r₀ := hr.unique h₀
    exact ⟨hp, hparent⟩
  · exact absurd (hg.bound hr) (Nat.not_le_of_lt hlt)

include hg'

lemma Derives.encloses {k id : RecordId} {r' : Record} (hr' : g'.Holds id r') (h : g.Encloses k id) :
    (∃ r, g'.Holds k r) ∧ g'.Encloses k id := by
  induction h generalizing r' with
  | refl => exact ⟨⟨r', hr'⟩, .refl⟩
  | tail _ hlast ih =>
    obtain ⟨rk, hrk, hparent⟩ := hlast
    have hpar := (hd.kept hg hrk hr').2.trans hparent
    obtain ⟨_, rp, hrp, _⟩ := hg'.child_body hr' hpar
    obtain ⟨hk, henclosed⟩ := ih hrp
    exact ⟨hk, henclosed.tail ⟨r', hr', hpar⟩⟩

lemma Rooted.derived {p : RecordId} {r' : Record} (h : g.Rooted p) (hr' : g'.Holds p r') : g'.Rooted p := by
  obtain ⟨id, htop, ⟨r, top, hr, hp⟩, hbelow⟩ := h
  obtain ⟨⟨rk, hrk⟩, henclosed⟩ := hd.encloses hg hg' hr' hbelow
  obtain ⟨r₀, h₀, hparent⟩ := hg.top_root htop
  obtain ⟨hpay, hpar⟩ := hd.kept hg hr hrk
  obtain rfl : r = r₀ := hr.unique h₀
  exact ⟨id, hg'.root_top hrk (hpar.trans hparent), ⟨rk, top, hrk, hpay.trans hp⟩, henclosed⟩

end Derives

lemma Placed.derived (hp : g.Placed) (hd : g.Derives g.Suits g') (hg : g.Forest) (hg' : g'.Forest) : g'.Placed := by
  intro id r' hr'
  obtain ⟨htop, hbelow⟩ : g.Suits r'.payload r'.parent := by
    rcases hd.records hr' with ⟨r, hr, hpay, hpar⟩ | ⟨_, hnew⟩
    · exact hpay ▸ hpar ▸ hp _ _ hr
    · exact hnew
  refine ⟨htop, fun hne => ?_⟩
  obtain ⟨p, hpar, hrooted⟩ := hbelow hne
  obtain ⟨_, rp, hrp, _⟩ := hg'.child_body hr' hpar
  exact ⟨p, hpar, hrooted.derived hd hg hg' hrp⟩

structure Unplaced (payload : Payload) (parent : Option RecordId) : Prop where
  placements : payload.placements = []
  top : ∀ top, payload = .hierarchy top → parent = none

lemma Unplaced.suits {payload : Payload} {parent : Option RecordId} (h : Unplaced payload parent) :
    g.Suits payload parent :=
  ⟨h.top, fun hne => (hne h.placements).elim⟩

lemma Places.before (h : g'.Places l c) (hd : g.Derives Unplaced g') : g.Places l c := by
  obtain ⟨r', hr', hm⟩ := h
  rcases hd.records hr' with ⟨r, hr, hpay, _⟩ | ⟨_, hnew⟩
  · exact ⟨r, hr, hpay ▸ hm⟩
  · rw [hnew.placements] at hm
    cases hm

lemma Free.derived (h : g.Free l) (hd : g.Derives Unplaced g') : g'.Free l := fun c hc => h c (hc.before hd)

lemma Placed.inside (hp : g.Placed) (h : g.Places l c) :
    ∃ id ∈ g.top, g.IsHierarchy id ∧ g.Inside id c.record := by
  obtain ⟨r, hr, hm⟩ := h
  obtain ⟨p, hpar, id, htop, hid, hbelow⟩ := (hp _ _ hr).2 (List.ne_nil_of_mem hm)
  exact ⟨id, htop, hid, .tail' hbelow ⟨r, hr, hpar⟩⟩

end Graph

namespace PlacementIndex

variable {x y : PlacementIndex} {g g' : Graph} {l : Location} {c : Claim} {device : Option Device}

@[simp] lemma device_insertAll (x : PlacementIndex) (claims : List (Location × Claim)) :
    (x.insertAll claims).device = x.device := by
  induction claims generalizing x with
  | nil => rfl
  | cons e claims ih => exact ih (x.insert e.1 e.2)

lemma find?_insertAll (x : PlacementIndex) (claims : List (Location × Claim)) (l : Location) :
    (x.insertAll claims).claims.find? l = (Table.findIn l claims.reverse).or (x.claims.find? l) := by
  induction claims generalizing x with
  | nil => rfl
  | cons e claims ih =>
    have hfirst := ih (x.insert e.1 e.2)
    rw [List.reverse_cons, Table.findIn_append, Option.or_assoc]
    refine hfirst.trans (congrArg _ ?_)
    by_cases he : e.1 = l
    · simp [insert, Table.findIn, he]
    · simp [insert, Table.findIn, he, Table.find?_insert]

lemma check_ok :
    x.check g true l = .ok () ↔ (∀ d, x.device = some d → d.isValid l = true) ∧ x.occupant g l = none := by
  have hdevice : x.device.any (fun d => !d.isValid l) = true ↔ ¬ ∀ d, x.device = some d → d.isValid l = true := by
    cases x.device <;> simp
  unfold check
  split
  case isTrue h => simp [hdevice.mp h]
  case isFalse h =>
    have hvalid := Decidable.not_not.mp (mt hdevice.mpr h)
    cases ho : x.occupant g l with
    | none => exact iff_of_true rfl ⟨hvalid, rfl⟩
    | some id => simp

lemma findIn_claims {id : RecordId} {payload : Payload} :
    Table.findIn l (payload.placements.map fun p => (p.1, (⟨id, p.2⟩ : Claim))).reverse = some c ↔
      c.record = id ∧ (l, c.subPath) ∈ payload.placements := by
  have hmem : ∀ {c : Claim}, (l, c) ∈ (payload.placements.map fun p => (p.1, (⟨id, p.2⟩ : Claim))).reverse ↔
      c.record = id ∧ (l, c.subPath) ∈ payload.placements := by
    intro c
    rw [List.mem_reverse, List.mem_map]
    constructor
    · rintro ⟨p, hp, ⟨⟩⟩
      exact ⟨rfl, hp⟩
    · rintro ⟨rfl, hp⟩
      exact ⟨_, hp, rfl⟩
  constructor
  · intro h
    exact hmem.mp (Table.mem_of_findIn h)
  · intro h
    have hkey := List.mem_map_of_mem (f := Prod.fst) (hmem.mpr h)
    obtain ⟨c', hc'⟩ := Option.isSome_iff_exists.mp (Table.findIn_isSome.mpr hkey)
    obtain ⟨hid, hm⟩ := hmem.mp (Table.mem_of_findIn hc')
    obtain ⟨record, sub⟩ := c
    obtain ⟨record', sub'⟩ := c'
    obtain ⟨rfl, hm'⟩ := h
    obtain rfl : record' = record := hid
    obtain rfl : sub' = sub := Payload.placements_unique hm hm'
    exact hc'

lemma occupant_iff {id : RecordId} :
    x.occupant g l = some id ↔ ∃ sub, x.claims.find? l = some ⟨id, sub⟩ ∧ g.contains id = true := by
  rw [occupant]
  constructor
  · intro h
    split at h
    case h_1 c hc =>
      split at h
      case isTrue hheld =>
        obtain rfl := Option.some.inj h
        exact ⟨c.subPath, hc, hheld⟩
      case isFalse => cases h
    case h_2 => cases h
  · rintro ⟨sub, hf, hheld⟩
    rw [hf]
    exact if_pos hheld

lemma places_of_ofGraph (hg : g.Forest) (h : ofGraph device g = .ok y) (hf : y.claims.find? l = some c) :
    g.Places l c := by
  obtain ⟨claims, hc, hmem⟩ := Graph.claimsBelow_ok hg hg.allHeld_top
  rw [ofGraph, show g.claims = .ok claims from hc] at h
  obtain rfl := Except.ok.inj h
  rw [find?_insertAll] at hf
  have hm := Table.mem_of_findIn (hf.symm.trans Option.or_none).symm
  exact ((hmem l c).mp (List.mem_reverse.mp hm)).1

def Known (x : PlacementIndex) (g : Graph) : Prop :=
  ∀ l c, x.claims.find? l = some c → c.record.index ≤ g.lastId ∧ (g.contains c.record → g.Places l c)

namespace Known

variable {allowed : Payload → Option RecordId → Prop}

lemma derived (hx : x.Known g) (hd : g.Derives allowed g') : x.Known g' := by
  intro l c hc
  obtain ⟨hle, hplaces⟩ := hx l c hc
  refine ⟨Nat.le_trans hle hd.lastId, fun hheld => ?_⟩
  obtain ⟨r', hr'⟩ := Table.exists_of_contains hheld
  rcases hd.records hr' with ⟨r, hr, hpay, _⟩ | ⟨hlt, _⟩
  · obtain ⟨r₀, h₀, hm⟩ := hplaces (Table.contains_of_find? hr)
    obtain rfl : r = r₀ := hr.unique h₀
    exact ⟨r', hr', hpay ▸ hm⟩
  · exact absurd hle (Nat.not_le_of_lt hlt)

lemma noted (hx : x.Known g) (hg : g.Forest) {payload : Payload} {parent : Option RecordId} (ha : g.Accepts parent) :
    (x.insertAll (payload.placements.map fun p => (p.1, ⟨g.nextId, p.2⟩))).Known (g.created payload parent) := by
  intro l c hc
  rw [find?_insertAll, Option.or_eq_some_iff] at hc
  rcases hc with hnew | ⟨_, hold⟩
  · obtain ⟨hid, hm⟩ := findIn_claims.mp hnew
    rw [Graph.created_lastId]
    exact ⟨hid ▸ Nat.le_refl _, fun _ => ⟨_, hid ▸ Graph.holds_created_next hg ha, hm⟩⟩
  · have hd : g.Derives (fun _ _ => True) (g.created payload parent) := hg.derives ha trivial
    exact hx.derived hd l c hold

lemma vacant (hx : x.Known g) (hd : g.Derives allowed g') (h : x.occupant g l = none) : x.occupant g' l = none := by
  refine Option.eq_none_iff_forall_ne_some.mpr fun id hid => ?_
  obtain ⟨sub, hf, hheld⟩ := occupant_iff.mp hid
  obtain ⟨r', hr'⟩ := Table.exists_of_contains hheld
  rcases hd.records hr' with ⟨r, hr, _⟩ | ⟨hlt, _⟩
  · cases h.symm.trans (occupant_iff.mpr ⟨sub, hf, Table.contains_of_find? hr⟩)
  · exact absurd (hx l _ hf).1 (Nat.not_le_of_lt hlt)

lemma of_ofGraph (hg : g.Forest) (h : ofGraph device g = .ok y) : y.Known g := by
  intro l c hf
  obtain ⟨r, hr, hloc⟩ := places_of_ofGraph hg h hf
  exact ⟨hg.bound hr, fun _ => ⟨r, hr, hloc⟩⟩

end Known

/-- Each record has the claims to its locations. A claim of a record that is gone counts for nothing, and no record
will ever get its id. -/
structure Current (x : PlacementIndex) (g : Graph) : Prop where
  placed : ∀ {l c}, g.Places l c → x.claims.find? l = some c
  known : ∀ {l c}, x.claims.find? l = some c → c.record.index ≤ g.lastId ∧ (g.contains c.record → g.Places l c)

lemma current_empty (source : Nat) : ({} : PlacementIndex).Current (Graph.empty source) where
  placed := by
    rintro l c ⟨r, hr, _⟩
    cases hr
  known h := by cases h

namespace Current

lemma occupant_eq_some (hx : x.Current g) {id : RecordId} :
    x.occupant g l = some id ↔ ∃ sub, g.Places l ⟨id, sub⟩ := by
  rw [occupant_iff]
  constructor
  · rintro ⟨sub, hf, hheld⟩
    exact ⟨sub, (hx.known hf).2 hheld⟩
  · rintro ⟨sub, h⟩
    exact ⟨sub, hx.placed h, h.held⟩

lemma occupant_eq (hx : x.Current g) (hy : y.Current g) (l : Location) : y.occupant g l = x.occupant g l := by
  ext id
  rw [hx.occupant_eq_some, hy.occupant_eq_some]

lemma free (hx : x.Current g) (h : x.occupant g l = none) : g.Free l := by
  intro c hc
  have hsome := hx.occupant_eq_some.mpr ⟨c.subPath, hc⟩
  rw [h] at hsome
  cases hsome

lemma derived (hx : x.Current g) (hd : g.Derives Graph.Unplaced g') : x.Current g' where
  placed h := hx.placed (h.before hd)
  known := by
    have hknown : x.Known g := fun _ _ => hx.known
    exact fun {l c} => hknown.derived hd l c

lemma noted (hx : x.Current g) (hg : g.Forest) {payload : Payload} {parent : Option RecordId} (ha : g.Accepts parent)
    (hfree : ∀ p ∈ payload.placements, g.Free p.1) :
    (x.insertAll (payload.placements.map fun p => (p.1, ⟨g.nextId, p.2⟩))).Current (g.created payload parent) where
  placed := by
    rintro l c ⟨r', hr', hm⟩
    rw [find?_insertAll]
    rcases (Graph.holds_created hg ha).mp hr' with ⟨hid, rfl⟩ | ⟨r, hr, rfl⟩
    · rw [findIn_claims.mpr ⟨hid, hm⟩]
      rfl
    · have hplaces : g.Places l c := ⟨r, hr, hm⟩
      cases hf : Table.findIn l _ with
      | none => exact hx.placed hplaces
      | some c' => exact (hfree _ (findIn_claims.mp hf).2 c hplaces).elim
  known := by
    have hknown : x.Known g := fun _ _ => hx.known
    exact fun {l c} => hknown.noted hg ha l c

lemma remade (hx : x.Current g) (hg : g.Forest) (hp : g.Placed) (h : ofGraph device g = .ok y) :
    y.Current g ∧ y.device = device := by
  have hknown := Known.of_ofGraph hg h
  obtain ⟨claims, hc, hmem⟩ := Graph.claimsBelow_ok hg hg.allHeld_top
  rw [ofGraph, show g.claims = .ok claims from hc] at h
  obtain rfl := Except.ok.inj h
  refine ⟨⟨?_, fun {l c} => hknown l c⟩, device_insertAll _ _⟩
  -- the last claim to a location wins, but all of them are the one that the old index has
  intro l c hl
  have hkey := List.mem_map_of_mem (f := Prod.fst) (List.mem_reverse.mpr ((hmem l c).mpr ⟨hl, hp.inside hl⟩))
  obtain ⟨c', hc'⟩ := Option.isSome_iff_exists.mp (Table.findIn_isSome.mpr hkey)
  have hplaces := ((hmem l c').mp (List.mem_reverse.mp (Table.mem_of_findIn hc'))).1
  obtain rfl : c' = c := Option.some.inj ((hx.placed hplaces).symm.trans (hx.placed hl))
  rw [find?_insertAll, hc']
  rfl

end Current

end PlacementIndex

end HardwareDesign
