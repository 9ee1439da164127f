import Mathlib.Logic.Relation
import HardwareDesign.Design.Generation
import HardwareDesign.Proofs.Preserving

/-!
Operations as sequences of changes. An operation that fails keeps what it has done, so every ending counts.
-/

namespace HardwareDesign

section Results

variable {ε σ α β : Type} {x : EStateM ε σ α} {f : α → EStateM ε σ β} {s t : σ} {a : α} {e : ε}

lemma bind_of_ok (h : x s = .ok a t) : (x >>= f) s = f a t := by simp only [bind, EStateM.bind, h]

lemma bind_of_error (h : x s = .error e t) : (x >>= f) s = .error e t := by simp only [bind, EStateM.bind, h]

lemma ok_of_bind {b : β} {u : σ} (h : (x >>= f) s = .ok b u) : ∃ a t, x s = .ok a t ∧ f a t = .ok b u := by
  cases hx : x s with
  | ok a t => exact ⟨a, t, rfl, by rwa [bind_of_ok hx] at h⟩
  | error e t =>
    rw [bind_of_error hx] at h
    cases h

lemma except_ok_of_bind {x : Except ε α} {f : α → Except ε β} {b : β} (h : (x >>= f) = .ok b) :
    ∃ a, x = .ok a ∧ f a = .ok b := by
  cases x with
  | ok a => exact ⟨a, rfl, h⟩
  | error e => cases h

lemma get_bind (f : σ → EStateM ε σ β) (s : σ) : (get >>= f) s = f s s := rfl

lemma modify_bind (g : σ → σ) (f : PUnit → EStateM ε σ β) (s : σ) : (modify g >>= f) s = f () (g s) := rfl

end Results

namespace Action

variable {α : Type} {s t : Design}

lemma read_ok {f : Design → Except Error α} {a : α} (h : f s = .ok a) : read f s = .ok a s := by simp only [read, h]

lemma read_error {f : Design → Except Error α} {e : Error} (h : f s = .error e) : read f s = .error e s := by
  simp only [read, h]

lemma readGraph_ok {f : Graph → Except GraphError α} {a : α} (h : f s.graph = .ok a) : readGraph f s = .ok a s := by
  simp only [readGraph, h]

lemma editGraph_ok {f : Graph → Except GraphError (α × Graph)} {a : α} {g : Graph} (h : f s.graph = .ok (a, g)) :
    editGraph f s = .ok a { s with graph := g } := by
  simp only [editGraph, h]

lemma editGraph_error {f : Graph → Except GraphError (α × Graph)} {e : GraphError} (h : f s.graph = .error e) :
    editGraph f s = .error (.graph e) s := by
  simp only [editGraph, h]

lemma createIn_bind {owner : Handle} (he : owner.epoch = s.graph.epoch) (ha : s.graph.Accepts (some owner.record))
    (payload : Payload) (k : Handle → Action α) :
    (editGraph (·.createIn owner payload) >>= k) s =
      k (s.graph.handle s.graph.nextId) { s with graph := s.graph.created payload (some owner.record) } := by
  obtain ⟨r, hr, hb⟩ := ha
  have hcreate : s.graph.createIn owner payload =
      .ok (s.graph.handle s.graph.nextId, s.graph.created payload (some owner.record)) :=
    Graph.createIn_of_holds he hr hb
  exact bind_of_ok (editGraph_ok (f := (·.createIn owner payload)) hcreate)

lemma read_bind_ok {f : Design → Except Error Unit} {k : Unit → Action α} {a : α} :
    (read f >>= k) s = .ok a t ↔ f s = .ok () ∧ k () s = .ok a t := by
  cases hf : f s with
  | ok => simp [bind_of_ok (read_ok hf)]
  | error e => simp [bind_of_error (read_error hf)]

lemma guarded_ok {x : Action α} {a : α} (h : x s = .ok a t) : guarded x s = .ok a t := by simp only [guarded, h]

lemma of_read {f : Design → Except Error α} {a : α} (h : read f s = .ok a t) : s = t ∧ f s = .ok a := by
  rw [read] at h
  cases hf : f s with
  | ok b =>
    rw [hf] at h
    cases h
    exact ⟨rfl, rfl⟩
  | error e =>
    rw [hf] at h
    cases h

lemma of_readGraph {f : Graph → Except GraphError α} {a : α} (h : readGraph f s = .ok a t) :
    s = t ∧ f s.graph = .ok a := by
  rw [readGraph] at h
  cases hf : f s.graph with
  | ok b =>
    rw [hf] at h
    cases h
    exact ⟨rfl, rfl⟩
  | error e =>
    rw [hf] at h
    cases h

lemma of_guarded {x : Action α} {a : α} (h : guarded x s = .ok a t) : x s = .ok a t := by
  rw [guarded] at h
  cases hx : x s with
  | ok b u =>
    rw [hx] at h
    cases h
    rfl
  | error e u =>
    rw [hx] at h
    cases h

end Action

namespace Design

abbrev Changes (resolving : Prop) : Design → Design → Prop := Relation.ReflTransGen (Change resolving)

variable {resolving : Prop} {s t u : Design}

lemma Change.mono {resolving' : Prop} (h : resolving → resolving') (hc : Change resolving s t) :
    Change resolving' s t := by
  cases hc with
  | scan h => exact .scan h
  | define name body => exact .define name body
  | dequeue hq => exact .dequeue hq
  | promote hx hd => exact .promote hx hd
  | build hd hn hx => exact .build hd hn hx
  | site hf hn hp hb hk => exact .site hf hn hp hb hk
  | unnamed hf hn hb => exact .unnamed hf hn hb
  | root hx hn => exact .root hx hn
  | refuse d => exact .refuse d
  | hierarchy hx hd hn => exact .hierarchy hx hd hn
  | expand hn hc hk => exact .expand hn hc hk
  | nest hn hnew => exact .nest hn hnew
  | back hn hf hnew => exact .back hn hf hnew
  | meet hr hi he hnew => exact .meet (h hr) hi he hnew
  | note hi he hn hb => exact .note hi he hn hb
  | database index hn => exact .database index hn

namespace Changes

lemma one (h : Change resolving s t) : Changes resolving s t := .single h

lemma scan (h : s.Scanned t) : Changes resolving s t := .single (.scan h)

lemma mono {resolving' : Prop} (h : resolving → resolving') (hc : Changes resolving s t) : Changes resolving' s t :=
  Relation.ReflTransGen.mono (fun _ _ => Change.mono h) _ _ hc

lemma coherent (hc : Changes resolving s t) (hs : s.Coherent) : t.Coherent ∧ s.Extends t := by
  induction hc with
  | refl => exact ⟨hs, .refl s⟩
  | tail _ h ih =>
    obtain ⟨hm, he⟩ := ih
    obtain ⟨ht, he'⟩ := h.coherent hm
    exact ⟨ht, he.trans he'⟩

lemma invariant {P : Design → Prop} (hc : Changes resolving s t) (hs : s.Coherent) (h : P s)
    (change : ∀ {u v}, u.Coherent → Change resolving u v → P u → P v) : P t := by
  induction hc with
  | refl => exact h
  | tail hrun hlast ih => exact change (coherent hrun hs).1 hlast ih

end Changes

/-- Each ending is reached by changes, and a regular one is as the condition says. -/
inductive Keeps (resolving : Prop) (s : Design) {ε α : Type} (post : α → Design → Prop) :
    EStateM.Result ε Design α → Prop
  | ok {a t} : Changes resolving s t → post a t → Keeps resolving s post (.ok a t)
  | error {e t} : Changes resolving s t → Keeps resolving s post (.error e t)

def endState {ε σ α : Type} : EStateM.Result ε σ α → σ
  | .ok _ s => s
  | .error _ s => s

namespace Keeps

variable {ε α β : Type} {P : α → Design → Prop} {Q : β → Design → Prop}

lemma changes {r : EStateM.Result ε Design α} (h : Keeps resolving s P r) : Changes resolving s (endState r) := by
  cases h with
  | ok hc => exact hc
  | error hc => exact hc

lemma post {r : EStateM.Result ε Design α} (h : Keeps resolving s P r) {a : α} (hr : r = .ok a t) : P a t := by
  subst hr
  cases h with
  | ok _ hp => exact hp

lemma ended {r : EStateM.Result ε Design α} (h : Keeps resolving s P r) {a : α} (hr : r = .ok a t) :
    Changes resolving s t ∧ P a t := by
  subst hr
  cases h with
  | ok hc hp => exact ⟨hc, hp⟩

lemma pure {a : α} (h : P a s) : Keeps resolving s P ((Pure.pure a : EStateM ε Design α) s) := .ok .refl h

lemma weaken {P' : α → Design → Prop} {r : EStateM.Result ε Design α} (h : Keeps resolving s P r)
    (hp : ∀ {a t}, Changes resolving s t → P a t → P' a t) : Keeps resolving s P' r := by
  cases h with
  | ok hc h => exact .ok hc (hp hc h)
  | error hc => exact .error hc

lemma after {r : EStateM.Result ε Design α} (hc : Changes resolving s t) (h : Keeps resolving t P r) :
    Keeps resolving s P r := by
  cases h with
  | ok hc' h => exact .ok (hc.trans hc') h
  | error hc' => exact .error (hc.trans hc')

lemma bind {x : EStateM ε Design α} {f : α → EStateM ε Design β} (hx : Keeps resolving s P (x s))
    (hf : ∀ {a t}, Changes resolving s t → P a t → Keeps resolving t Q (f a t)) :
    Keeps resolving s Q ((x >>= f) s) := by
  generalize hr : x s = r at hx
  cases hx with
  | ok hc hp =>
    rw [bind_of_ok hr]
    exact (hf hc hp).after hc
  | error hc =>
    rw [bind_of_error hr]
    exact .error hc

lemma read (f : Design → Except Error α) : Keeps resolving s (fun a t => s = t ∧ f s = .ok a) (Action.read f s) := by
  cases h : f s with
  | ok a =>
    rw [Action.read_ok h]
    exact .ok .refl ⟨rfl, rfl⟩
  | error e =>
    rw [Action.read_error h]
    exact .error .refl

lemma readGraph (f : Graph → Except GraphError α) :
    Keeps resolving s (fun a t => s = t ∧ f s.graph = .ok a) (Action.readGraph f s) := by
  simp only [Action.readGraph]
  cases h : f s.graph with
  | ok a => exact .ok .refl ⟨rfl, rfl⟩
  | error e => exact .error .refl

lemma guarded {x : Action α} (h : Keeps resolving s P (x s)) : Keeps resolving s P (Action.guarded x s) := by
  simp only [Action.guarded]
  generalize x s = r at h
  cases h with
  | ok hc hp => exact .ok hc hp
  | error hc => exact .error hc

end Keeps

end Design

end HardwareDesign
