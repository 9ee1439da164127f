import HardwareDesign.Design.Rewriting
import HardwareDesign.Proofs.Erasure

namespace HardwareDesign

/-- What the program puts into the records that it creates, the oldest one first. A record counts if it is created, also
if it is erased again. -/
def Edit.made {α : Type} : Edit α → Graph → List Payload
  | done _, _ => []
  | inspect next, g => (next g).made g
  | create parent payload next, g =>
    match g.create parent payload with
    | .ok (h, g) => payload :: (next (.ok h)).made g
    | .error e => (next (.error e)).made g
  | erase h next, g =>
    match g.erase h with
    | .ok g => (next (.ok ())).made g
    | .error e => (next (.error e)).made g
  | nextEpoch next, g => next.made g.nextEpoch

def Pass.made {σ : Type} : List (Pass σ) → σ → Graph → List Payload
  | [], _, _ => []
  | p :: ps, st, g =>
    (p.run st).made g ++
      match (p.run st).run g with
      | ((.ok _, st), g) => made ps st g
      | ((.error _, _), _) => []

namespace Graph

inductive Edits (g : Graph) : List Payload → Graph → Prop
  | refl : Edits g [] g
  | create {made g' payload parent} : Edits g made g' → g'.Accepts parent →
      Edits g (made ++ [payload]) (g'.created payload parent)
  | erase {made g' g'' id} : Edits g made g' → g'.Pruned id g'' → Edits g made g''
  | nextEpoch {made g'} : Edits g made g' → Edits g made g'.nextEpoch

/-- Every record is an old one, or it is new and one of those that are allowed. -/
structure Derives (allowed : Payload → Option RecordId → Prop) (g g' : Graph) : Prop where
  lastId : g.lastId ≤ g'.lastId
  records : ∀ {id r'}, g'.Holds id r' → (∃ r, g.Holds id r ∧ r'.payload = r.payload ∧ r'.parent = r.parent) ∨
    g.lastId < id.index ∧ allowed r'.payload r'.parent

variable {g g' g'' : Graph} {made more : List Payload} {allowed : Payload → Option RecordId → Prop}

lemma Derives.refl (g : Graph) : g.Derives allowed g := ⟨Nat.le_refl _, fun h => .inl ⟨_, h, rfl, rfl⟩⟩

lemma Derives.mono {allowed' : Payload → Option RecordId → Prop} (h : g.Derives allowed g')
    (ha : ∀ {payload parent}, allowed payload parent → allowed' payload parent) : g.Derives allowed' g' where
  lastId := h.lastId
  records hr := (h.records hr).imp_right (And.imp_right ha)

lemma Derives.trans (h : g.Derives allowed g') (h' : g'.Derives allowed g'') : g.Derives allowed g'' where
  lastId := Nat.le_trans h.lastId h'.lastId
  records := by
    intro id r hr
    rcases h'.records hr with ⟨r', hr', hp', hparent'⟩ | ⟨hlt, hnew⟩
    · rcases h.records hr' with ⟨r₀, h₀, hp, hparent⟩ | ⟨hlt, hnew⟩
      · exact .inl ⟨r₀, h₀, hp'.trans hp, hparent'.trans hparent⟩
      · exact .inr ⟨hlt, hp' ▸ hparent' ▸ hnew⟩
    · exact .inr ⟨Nat.lt_of_le_of_lt h.lastId hlt, hnew⟩

lemma Forest.derives {payload : Payload} {parent : Option RecordId} (hg : g.Forest) (ha : g.Accepts parent)
    (hp : allowed payload parent) : g.Derives allowed (g.created payload parent) where
  lastId := by simp
  records := by
    intro id r hr
    rcases (holds_created hg ha).mp hr with ⟨rfl, rfl⟩ | ⟨r₀, h₀, rfl⟩
    · exact .inr ⟨Nat.lt_succ_self _, hp⟩
    · exact .inl ⟨r₀, h₀, rfl, rfl⟩

lemma Pruned.derives {id : RecordId} (h : g.Pruned id g') : g.Derives allowed g' where
  lastId := Nat.le_of_eq h.lastId.symm
  records := by
    intro k r hr
    obtain ⟨r₀, h₀, rfl⟩ := h.held hr
    exact .inl ⟨r₀, h₀, rfl, rfl⟩

namespace Edits

lemma trans (h : g.Edits made g') (h' : g'.Edits more g'') : g.Edits (made ++ more) g'' := by
  induction h' with
  | refl => simpa using h
  | create _ ha ih => simpa only [List.append_assoc] using ih.create ha
  | erase _ hp ih => exact ih.erase hp
  | nextEpoch _ ih => exact ih.nextEpoch

lemma forest (h : g.Edits made g') (hg : g.Forest) : g'.Forest := by
  induction h with
  | refl => exact hg
  | create _ ha ih => exact ih.created ha
  | erase _ hp ih => exact hp.forest ih
  | nextEpoch _ ih => exact ih.nextEpoch

lemma derives {allowed : Payload → Prop} (h : g.Edits made g') (hg : g.Forest)
    (hmade : ∀ payload ∈ made, allowed payload) : g.Derives (fun payload _ => allowed payload) g' := by
  induction h with
  | refl => exact .refl g
  | @create _ g' payload parent hrest ha ih =>
    have hnew := hmade _ (List.mem_append_right _ List.mem_cons_self)
    have hlast : g'.Derives (fun payload _ => allowed payload) _ := (hrest.forest hg).derives ha hnew
    exact (ih fun payload hm => hmade payload (List.mem_append_left _ hm)).trans hlast
  | erase _ hp ih => exact (ih hmade).trans hp.derives
  | nextEpoch _ ih => exact ⟨(ih hmade).lastId, (ih hmade).records⟩

end Edits

end Graph

section Rewriting

variable {α σ : Type} {g : Graph}

lemma Edit.edits (e : Edit α) (hg : g.Forest) : g.Edits (e.made g) (e.run g).2 := by
  induction e generalizing g with
  | done a => exact .refl
  | inspect next ih => exact ih g hg
  | create parent payload next ih =>
    rw [Edit.run, Edit.made]
    cases hc : g.create parent payload with
    | ok found =>
      obtain ⟨ha, _, hfound⟩ := Graph.create_ok hc
      have hfirst : g.Edits [payload] (g.created payload _) := Graph.Edits.refl.create ha
      exact (hfound ▸ hfirst).trans (ih _ (hg.create hc))
    | error e => exact ih _ hg
  | erase h next ih =>
    rw [Edit.run, Edit.made]
    cases he : g.erase h with
    | ok g' => exact (Graph.Edits.refl.erase (Graph.pruned_of_erase hg he)).trans (ih _ (hg.erase he))
    | error e => exact ih _ hg
  | nextEpoch next ih => exact Graph.Edits.refl.nextEpoch.trans (ih hg.nextEpoch)

lemma Pass.edits (passes : List (Pass σ)) (st : σ) (hg : g.Forest) :
    g.Edits (made passes st g) (runAll passes st g).2.2 := by
  induction passes generalizing st g with
  | nil => exact .refl
  | cons p ps ih =>
    have hp := Edit.edits (p.run st) hg
    rw [Pass.runAll, Pass.made]
    generalize (p.run st).run g = found at hp ⊢
    obtain ⟨⟨r, st'⟩, g'⟩ := found
    cases r with
    | ok _ => exact hp.trans (ih st' (hp.forest hg))
    | error e => simpa using hp

end Rewriting

end HardwareDesign
