import HardwareDesign.Proofs.Indexing
import HardwareDesign.Proofs.Listing

namespace HardwareDesign.Graph

structure Creation where
  id : RecordId
  payload : Payload
  parent : Option RecordId
deriving DecidableEq

def creation (g : Graph) (c : GraphCall) : Option Creation :=
  match c, g.answer c with
  | .create parent payload, .ok (some h) => some ⟨h.record, payload, parent.map (·.record)⟩
  | _, _ => none

def erasure (g : Graph) (c : GraphCall) : Option RecordId :=
  match c, g.answer c with
  | .erase h, .ok _ => some h.record
  | _, _ => none

def log {α : Type} (f : Graph → GraphCall → Option α) (g : Graph) : List GraphCall → List α
  | [] => []
  | c :: calls => (f g c).toList ++ (g.after c).log f calls

abbrev creations : Graph → List GraphCall → List Creation := log creation

abbrev erasures : Graph → List GraphCall → List RecordId := log erasure

/-- Neither the record nor one that it is nested in is erased. -/
def Lasts (g : Graph) (id : RecordId) (calls : List GraphCall) : Prop :=
  ∀ k ∈ g.erasures calls, ¬ g.Encloses k id

variable {g g' : Graph} {c : GraphCall} {id k : RecordId} {r r' : Record} {h : Handle}

lemma log_append {α : Type} (f : Graph → GraphCall → Option α) (g : Graph) (xs ys : List GraphCall) :
    g.log f (xs ++ ys) = g.log f xs ++ (g.run xs).log f ys := by
  induction xs generalizing g with
  | nil => rfl
  | cons c xs ih => simp only [List.cons_append, log, ih, List.append_assoc, run, List.foldl_cons]

lemma run_append (g : Graph) (xs ys : List GraphCall) : g.run (xs ++ ys) = (g.run xs).run ys := List.foldl_append

section Steps

inductive Does (g : Graph) (c : GraphCall) : Graph → Prop
  | nothing : c ≠ .nextEpoch → g.creation c = none → g.erasure c = none → Does g c g
  | create {payload parent} : c ≠ .nextEpoch → g.creation c = some ⟨g.nextId, payload, parent⟩ → g.erasure c = none →
      g.Accepts parent → Does g c (g.created payload parent)
  | erase {k : RecordId} {t : Graph} : c ≠ .nextEpoch → g.creation c = none → g.erasure c = some k → g.Pruned k t →
      Does g c t
  | nextEpoch : c = .nextEpoch → g.creation c = none → g.erasure c = none → Does g c g.nextEpoch

lemma does_after (hg : g.Forest) (c : GraphCall) : g.Does c (g.after c) := by
  cases c with
  | create parent payload =>
    have hanswer := g.answer_create parent payload
    cases hc : g.create parent payload with
    | ok found =>
      obtain ⟨k, g'⟩ := found
      obtain ⟨ha, rfl, rfl⟩ := create_ok hc
      rw [hc] at hanswer
      rw [after_create hc]
      exact .create (by simp) (by simp [creation, hanswer, Except.map, handle]) (by simp [erasure]) ha
    | error e =>
      rw [hc] at hanswer
      rw [after_of_error hanswer]
      exact .nothing (by simp) (by simp [creation, hanswer, Except.map]) (by simp [erasure])
  | erase h =>
    have hanswer := g.answer_erase h
    cases he : g.erase h with
    | ok g' =>
      rw [he] at hanswer
      rw [after_erase he]
      exact .erase (by simp) (by simp [creation]) (by simp [erasure, hanswer, Except.map]) (pruned_of_erase hg he)
    | error e =>
      rw [he] at hanswer
      rw [after_of_error hanswer]
      exact .nothing (by simp) (by simp [creation]) (by simp [erasure, hanswer, Except.map])
  | lookup id => exact .nothing (by simp) (by simp [creation]) (by simp [erasure])
  | nextEpoch => exact .nextEpoch rfl (by simp [creation]) (by simp [erasure])

lemma after_derives (hg : g.Forest) (c : GraphCall) : g.Derives (fun _ _ => True) (g.after c) :=
  (c.edit.edits hg).derives hg fun _ _ => trivial

lemma Forest.after (hg : g.Forest) (c : GraphCall) : (g.after c).Forest := (c.edit.edits hg).forest hg

lemma Pruned.gone_inside (hg : g.Forest) (hp : g.Pruned k g') (h : g.Encloses k id) : g'.contains id = false := by
  have hgone : g'.records.find? id = none := by
    induction h with
    | refl => exact hp.gone
    | tail _ hlast ih =>
      obtain ⟨rk, hrk, hparent⟩ := hlast
      obtain ⟨_, rp, hrp, hm⟩ := hg.child_body hrk hparent
      exact hp.below hrp ih hm
  simp [contains, Table.contains, hgone]

lemma Pruned.kept_outside (hg : g.Forest) (hp : g.Pruned k g') (hr : g.Holds id r) (h : ¬ g.Encloses k id) :
    g'.contains id = true := by
  -- a record is kept if its parent is, so this goes from the top level down
  induction hn : id.index using Nat.strongRecOn generalizing id r with
  | ind n ih =>
    have hne : id ≠ k := by
      rintro rfl
      exact h .refl
    apply Table.contains_of_find?
    refine hp.stays hr hne fun p hparent => ?_
    obtain ⟨hlt, rp, hrp, _⟩ := hg.child_body hr hparent
    have houtside : ¬ g.Encloses k p := fun hk => h (hk.tail ⟨r, hr, hparent⟩)
    exact Table.exists_of_contains (ih p.index (hn ▸ hlt) hrp houtside rfl)

lemma Pruned.contains_iff (hg : g.Forest) (hp : g.Pruned k g') (hr : g.Holds id r) :
    g'.contains id = true ↔ ¬ g.Encloses k id := by
  constructor
  · intro hc henclosed
    simp [hp.gone_inside hg henclosed] at hc
  · exact hp.kept_outside hg hr

lemma Does.contains_iff (h : g.Does c g') (hg : g.Forest) (hr : g.Holds id r) :
    g'.contains id = true ↔ ∀ k ∈ g.erasure c, ¬ g.Encloses k id := by
  cases h with
  | nothing _ _ he => exact iff_of_true (Table.contains_of_find? hr) (by simp [he])
  | create _ _ he ha =>
    exact iff_of_true (Table.contains_of_find? (holds_created_of_holds hg ha hr)) (by simp [he])
  | erase _ _ he hp => simpa [he] using hp.contains_iff hg hr
  | nextEpoch _ _ he => exact iff_of_true (Table.contains_of_find? hr) (by simp [he])

lemma Does.epoch (h : g.Does c g') :
    g'.epoch = g.epoch + (if c = .nextEpoch then 1 else 0) ∧ g'.source = g.source := by
  cases h with
  | nothing hc => simp [hc]
  | create hc => simp [hc]
  | erase hc _ _ hp => simp [hc, hp.epoch, hp.source]
  | nextEpoch hc => exact ⟨by rw [if_pos hc]; rfl, rfl⟩

lemma Does.creation_next (h : g.Does c g') : ∀ x ∈ g.creation c, x.id = g.nextId ∧ g'.lastId = g.lastId + 1 := by
  intro x hx
  cases h with
  | create _ hc =>
    obtain rfl := Option.some.inj (hc.symm.trans hx)
    exact ⟨rfl, created_lastId ..⟩
  | nothing _ hc => simp [hc] at hx
  | erase _ hc => simp [hc] at hx
  | nextEpoch _ hc => simp [hc] at hx

lemma Does.held (h : g.Does c g') (hg : g.Forest) (hr : g'.Holds id r) :
    (∃ r₀, g.Holds id r₀ ∧ r.payload = r₀.payload ∧ r.parent = r₀.parent) ∨
      ⟨id, r.payload, r.parent⟩ ∈ g.creation c := by
  cases h with
  | nothing => exact .inl ⟨r, hr, rfl, rfl⟩
  | create _ hc _ ha =>
    rcases (holds_created hg ha).mp hr with ⟨rfl, rfl⟩ | ⟨r₀, h₀, rfl⟩
    · exact .inr hc
    · exact .inl ⟨r₀, h₀, rfl, rfl⟩
  | erase _ _ _ hp =>
    obtain ⟨r₀, h₀, rfl⟩ := hp.held hr
    exact .inl ⟨r₀, h₀, rfl, rfl⟩
  | nextEpoch => exact .inl ⟨r, hr, rfl, rfl⟩

lemma issued (hg : g.Forest) (hh : g.answer c = .ok (some h)) :
    h = (g.after c).handle h.record ∧ ∃ r, (g.after c).Holds h.record r := by
  cases c with
  | create parent payload =>
    rw [answer_create] at hh
    cases hc : g.create parent payload with
    | ok found =>
      obtain ⟨k, g'⟩ := found
      obtain ⟨ha, rfl, rfl⟩ := create_ok hc
      obtain rfl : g.handle g.nextId = h := by simpa [hc, Except.map] using hh
      rw [after_create hc]
      exact ⟨(created_handle ..).symm, _, holds_created_next hg ha⟩
    | error e => simp [hc, Except.map] at hh
  | erase k =>
    rw [answer_erase] at hh
    cases he : g.erase k <;> simp [he, Except.map] at hh
  | lookup id =>
    have hfound : g.lookup id = some h := Except.ok.inj hh
    rw [lookup] at hfound
    split at hfound
    case isTrue hc =>
      obtain rfl := Option.some.inj hfound
      exact ⟨rfl, Table.exists_of_contains hc⟩
    case isFalse => cases hfound
  | nextEpoch => cases hh

end Steps

section Runs

lemma run_derives (hg : g.Forest) (calls : List GraphCall) : g.Derives (fun _ _ => True) (g.run calls) := by
  induction calls generalizing g with
  | nil => exact .refl g
  | cons c calls ih => exact (after_derives hg c).trans (ih (hg.after c))

lemma gone_run (hg : g.Forest) (hid : id.index ≤ g.lastId) (hn : g.contains id = false) (calls : List GraphCall) :
    (g.run calls).contains id = false := by
  rw [← Bool.not_eq_true] at hn ⊢
  intro hc
  obtain ⟨r', hr'⟩ := Table.exists_of_contains hc
  rcases (run_derives hg calls).records hr' with ⟨r, hr, _⟩ | ⟨hlt, _⟩
  · exact hn (Table.contains_of_find? hr)
  · exact absurd hid (Nat.not_le_of_lt hlt)

lemma lasts_cons {calls : List GraphCall} :
    g.Lasts id (c :: calls) ↔ (∀ k ∈ g.erasure c, ¬ g.Encloses k id) ∧
      ∀ k ∈ (g.after c).erasures calls, ¬ g.Encloses k id := by
  simp only [Lasts, erasures, log, List.mem_append, Option.mem_toList, Option.mem_def, or_imp, forall_and]

lemma Derives.encloses_iff {allowed : Payload → Option RecordId → Prop} (hd : g.Derives allowed g') (hg : g.Forest)
    (hg' : g'.Forest) (hr : g.Holds id r) (hr' : g'.Holds id r') :
    g'.Encloses k id ↔ g.Encloses k id := by
  refine ⟨fun h => ?_, fun h => (hd.encloses hg hg' hr' h).2⟩
  induction h generalizing r r' with
  | refl => exact .refl
  | tail _ hlast ih =>
    obtain ⟨rk, hrk, hparent⟩ := hlast
    have hpar := (hd.kept hg hr hrk).2.symm.trans hparent
    obtain ⟨_, rp, hrp, _⟩ := hg.child_body hr hpar
    obtain ⟨_, rp', hrp', _⟩ := hg'.child_body hrk hparent
    exact (ih hrp hrp').tail ⟨r, hr, hpar⟩

lemma contains_run (hg : g.Forest) (hr : g.Holds id r) (calls : List GraphCall) :
    (g.run calls).contains id = true ↔ g.Lasts id calls := by
  induction calls generalizing g r with
  | nil => exact iff_of_true (Table.contains_of_find? hr) (List.forall_mem_nil _)
  | cons c calls ih =>
    rw [lasts_cons, ← (does_after hg c).contains_iff hg hr, run, List.foldl_cons]
    cases hc : (g.after c).contains id with
    -- then the first operation is the one to blame, and the rest does not bring the record back
    | false =>
      have hgone := gone_run (hg.after c) (Nat.le_trans (hg.bound hr) (after_derives hg c).lastId) hc calls
      simpa [run] using hgone
    | true =>
      obtain ⟨r', hr'⟩ := Table.exists_of_contains hc
      have hsame : ∀ k, (g.after c).Encloses k id ↔ g.Encloses k id :=
        fun k => (after_derives hg c).encloses_iff hg (hg.after c) hr hr'
      have hih := ih (hg.after c) hr'
      simpa only [run, Lasts, hsame, true_and] using hih

lemma epoch_run (hg : g.Forest) (calls : List GraphCall) :
    (g.run calls).epoch = g.epoch + calls.count .nextEpoch ∧ (g.run calls).source = g.source := by
  induction calls generalizing g with
  | nil => exact ⟨rfl, rfl⟩
  | cons c calls ih =>
    obtain ⟨hepoch, hsource⟩ := ih (hg.after c)
    obtain ⟨hfirst, hfrom⟩ := (does_after hg c).epoch
    rw [run, List.foldl_cons, ← run, hepoch, hsource, hfirst, hfrom, List.count_cons]
    exact ⟨by simp only [beq_iff_eq]; omega, rfl⟩

lemma creations_sorted (hg : g.Forest) (calls : List GraphCall) :
    ((g.creations calls).map (·.id)).Pairwise (fun a b => a.index < b.index) ∧
      ∀ x ∈ g.creations calls, g.lastId < x.id.index := by
  induction calls generalizing g with
  | nil => exact ⟨.nil, List.forall_mem_nil _⟩
  | cons c calls ih =>
    obtain ⟨hsorted, hlater⟩ := ih (hg.after c)
    have hnew := (does_after hg c).creation_next
    have hle := (after_derives hg c).lastId
    simp only [creations, log, List.map_append, List.pairwise_append, List.mem_append, Option.mem_toList]
    refine ⟨⟨by cases g.creation c <;> simp, hsorted, ?_⟩, ?_⟩
    · intro a ha b hb
      obtain ⟨x, hx, rfl⟩ := List.mem_map.mp ha
      obtain ⟨y, hy, rfl⟩ := List.mem_map.mp hb
      obtain ⟨hid, hlast⟩ := hnew x (Option.mem_toList.mp hx)
      have hlt : (g.after c).lastId < y.id.index := hlater y hy
      rw [hlast] at hlt
      rw [hid]
      exact hlt
    · rintro x (hx | hx)
      · obtain ⟨hid, _⟩ := hnew x hx
        exact hid ▸ Nat.lt_succ_self _
      · exact Nat.lt_of_le_of_lt hle (hlater x hx)

lemma creation_unique (hg : g.Forest) {calls : List GraphCall} {x y : Creation} (hx : x ∈ g.creations calls)
    (hy : y ∈ g.creations calls) (hid : x.id = y.id) : x = y :=
  List.inj_on_of_nodup_map (nodup_of_sorted (creations_sorted hg calls).1) hx hy hid

lemma logged_of_holds (hg : g.Forest) {calls : List GraphCall} (hr : (g.run calls).Holds id r) :
    (∃ r₀, g.Holds id r₀ ∧ r.payload = r₀.payload ∧ r.parent = r₀.parent) ∨
      ⟨id, r.payload, r.parent⟩ ∈ g.creations calls := by
  induction calls generalizing g with
  | nil => exact .inl ⟨r, hr, rfl, rfl⟩
  | cons c calls ih =>
    simp only [creations, log, List.mem_append, Option.mem_toList]
    rcases ih (hg.after c) hr with ⟨r₁, h₁, hp₁, hparent₁⟩ | hlater
    · rcases (does_after hg c).held hg h₁ with ⟨r₀, h₀, hp, hparent⟩ | hnow
      · exact .inl ⟨r₀, h₀, hp₁.trans hp, hparent₁.trans hparent⟩
      · exact .inr (.inl (hp₁ ▸ hparent₁ ▸ hnow))
    · exact .inr (.inr hlater)

lemma read_run {α : Type} (hg : g.Forest) (he : h.epoch = g.epoch) (hr : g.Holds h.record r) (calls : List GraphCall)
    {f : Record → α} (hf : ∀ {r'}, r'.payload = r.payload → r'.parent = r.parent → f r' = f r) {x : α} :
    (do return f (← (g.run calls).record h)) = Except.ok (ε := GraphError) x ↔
      .nextEpoch ∉ calls ∧ g.Lasts h.record calls ∧ x = f r := by
  have hepoch : h.epoch = (g.run calls).epoch ↔ .nextEpoch ∉ calls := by
    rw [(epoch_run hg calls).1, he, ← List.count_eq_zero]
    omega
  have hkept : ∀ {r'}, (g.run calls).Holds h.record r' → f r' = f r := by
    intro r' hr'
    obtain ⟨hpayload, hparent⟩ := (run_derives hg calls).kept hg hr hr'
    exact hf hpayload hparent
  rw [← hepoch, ← contains_run hg hr calls]
  constructor
  · intro hx
    cases ho : (g.run calls).record h with
    | error e => simp [ho, bind, Except.bind] at hx
    | ok r' =>
      obtain ⟨he', hr'⟩ := holds_of_record ho
      obtain rfl : f r' = x := by simpa [ho, bind, Except.bind, pure, Except.pure] using hx
      exact ⟨he', Table.contains_of_find? hr', hkept hr'⟩
  · rintro ⟨he', hc, rfl⟩
    obtain ⟨r', hr'⟩ := Table.exists_of_contains hc
    rw [record_of_holds he' hr']
    exact congrArg Except.ok (hkept hr')

end Runs

structure Lasting (g : Graph) (h : Handle) (payload : Payload) (parent : Option RecordId) (calls : List GraphCall) :
    Prop where
  payload : ∀ {x}, (g.run calls).payload h = .ok x ↔ .nextEpoch ∉ calls ∧ g.Lasts h.record calls ∧ x = payload
  parent : ∀ {y}, (g.run calls).parent h = .ok y ↔
    .nextEpoch ∉ calls ∧ g.Lasts h.record calls ∧ y = parent.map g.handle
  contains : (g.run calls).contains h.record = true ↔ g.Lasts h.record calls
  gone : (g.run calls).contains h.record = false → ∀ later, (g.run (calls ++ later)).contains h.record = false ∧
    (g.run (calls ++ later)).lookup h.record = none

lemma Forest.lasting (hg : g.Forest) (hh : h = g.handle h.record) (hr : g.Holds h.record r) (calls : List GraphCall) :
    g.Lasting h r.payload r.parent calls where
  payload := read_run hg (congrArg Handle.epoch hh) hr calls fun hpayload _ => hpayload
  parent := by
    intro y
    have hread := read_run hg (congrArg Handle.epoch hh) hr calls (f := fun r => r.parent.map (g.run calls).handle)
      (fun _ hparent => congrArg _ hparent) (x := y)
    refine hread.trans (and_congr_right fun hnot => and_congr_right fun _ => ?_)
    have hsame : (g.run calls).handle = g.handle := by
      obtain ⟨hepoch, hsource⟩ := epoch_run hg calls
      funext id
      simp only [handle, hepoch, hsource, List.count_eq_zero.mpr hnot, Nat.add_zero]
    rw [hsame]
  contains := contains_run hg hr calls
  gone := by
    intro hn later
    have hid : h.record.index ≤ (g.run calls).lastId := Nat.le_trans (hg.bound hr) (run_derives hg calls).lastId
    have hgone := gone_run (hg.run calls) hid hn later
    rw [run_append]
    exact ⟨hgone, by simp [lookup, hgone]⟩

theorem handles_keep_meaning {source : Nat} {before : List GraphCall}
    (hh : ((empty source).run before).answer c = .ok (some h)) :
    ∃ payload parent, ⟨h.record, payload, parent⟩ ∈ (empty source).creations (before ++ [c]) ∧
      (∀ calls, ∀ x ∈ (empty source).creations (before ++ c :: calls), x.id = h.record →
        x = ⟨h.record, payload, parent⟩) ∧
      ∀ calls, ((empty source).run (before ++ [c])).Lasting h payload parent calls := by
  have hempty := forest_empty source
  have hg : ((empty source).run (before ++ [c])).Forest := hempty.run _
  obtain ⟨hissued, r, hr⟩ := issued (hempty.run before) hh
  have hafter : ((empty source).run before).after c = (empty source).run (before ++ [c]) := by
    rw [run_append]
    rfl
  rw [hafter] at hissued hr
  have hlogged : ⟨h.record, r.payload, r.parent⟩ ∈ (empty source).creations (before ++ [c]) := by
    rcases logged_of_holds hempty hr with ⟨r₀, h₀, _⟩ | hlogged
    · cases h₀
    · exact hlogged
  refine ⟨r.payload, r.parent, hlogged, ?_, hg.lasting hissued hr⟩
  intro calls x hx hid
  have hsplit : before ++ c :: calls = (before ++ [c]) ++ calls := by simp
  have hthere : ⟨h.record, r.payload, r.parent⟩ ∈ (empty source).creations (before ++ c :: calls) := by
    rw [hsplit, creations, log_append]
    exact List.mem_append_left _ hlogged
  exact creation_unique hempty hx hthere hid

theorem handles_keep_meaning_erased :
    ((empty 0).run [.create none (.module "m")]).answer (.create (some ⟨⟨1⟩, 0, 0⟩) (.instantiation "a" "m")) =
        .ok (some ⟨⟨2⟩, 0, 0⟩) ∧
      ∀ later, (((empty 0).run [.create none (.module "m"), .create (some ⟨⟨1⟩, 0, 0⟩) (.instantiation "a" "m")]).run
        ([.erase ⟨⟨1⟩, 0, 0⟩] ++ later)).lookup ⟨2⟩ = none := by
  have hh : ((empty 0).run [.create none (.module "m")]).answer
      (.create (some ⟨⟨1⟩, 0, 0⟩) (.instantiation "a" "m")) = .ok (some ⟨⟨2⟩, 0, 0⟩) := rfl
  obtain ⟨payload, parent, _, _, hlasting⟩ := handles_keep_meaning hh
  exact ⟨hh, fun later => ((hlasting [.erase ⟨⟨1⟩, 0, 0⟩]).gone (by decide) later).2⟩

end HardwareDesign.Graph
