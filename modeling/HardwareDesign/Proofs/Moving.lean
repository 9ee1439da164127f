import Mathlib.Order.Defs.Unbundled
import HardwareDesign.Design.Placing
import HardwareDesign.Design.Walking
import HardwareDesign.Proofs.Keeping

namespace HardwareDesign.Design

section Moving

variable {ε ω α β : Type} {R R' : ω → ω → Prop}

def Moves (R : ω → ω → Prop) (x : EStateM ε ω α) : Prop := ∀ s, R s (endState (x s))

lemma Moves.mono {x : EStateM ε ω α} (h : Moves R x) (hr : ∀ {s t}, R s t → R' s t) : Moves R' x := fun s => hr (h s)

lemma moves_pure [Std.Refl R] (a : α) : Moves R (pure a : EStateM ε ω α) := fun s => refl_of R s

lemma moves_throw [Std.Refl R] (e : ε) : Moves R (throw e : EStateM ε ω α) := fun s => refl_of R s

lemma Moves.bind [IsTrans ω R] {x : EStateM ε ω α} {f : α → EStateM ε ω β} (hx : Moves R x)
    (hf : ∀ a, Moves R (f a)) : Moves R (x >>= f) := by
  intro s
  have hs := hx s
  cases hr : x s with
  | ok a t =>
    rw [hr] at hs
    rw [bind_of_ok hr]
    exact trans_of R hs (hf a t)
  | error e t =>
    rw [hr] at hs
    rw [bind_of_error hr]
    exact hs

end Moving

section Designs

variable {α : Type} {R : Design → Design → Prop}

lemma moves_read [Std.Refl R] (f : Design → Except Error α) : Moves R (Action.read f) := by
  intro s
  rw [Action.read]
  cases f s <;> exact refl_of R s

end Designs

section Walking

variable {σ : Type} {R : Design → Design → Prop}

instance [Std.Refl R] : Std.Refl (InvImage R (Prod.fst : Design × σ → Design)) := ⟨fun s => refl_of R s.1⟩

instance [IsTrans Design R] : IsTrans (Design × σ) (InvImage R Prod.fst) :=
  ⟨fun _ _ _ h h' => trans_of R h h'⟩

lemma moves_walk [Std.Refl R] [IsTrans Design R] {visit : InstanceId → Walk σ Unit}
    (hv : ∀ i, Moves (InvImage R Prod.fst) (visit i)) (hc : ∀ i, Moves R (children i)) (depth : Nat) (i : InstanceId) :
    Moves (InvImage R Prod.fst) (walk visit depth i) := by
  induction depth generalizing i with
  | zero => exact moves_throw _
  | succ depth ih =>
    have hasked : Moves (InvImage R Prod.fst) (onWalk (σ := σ) (children i)) := by
      intro s
      have hs := hc i s.1
      rw [onWalk]
      cases hr : children i s.1 <;> simpa [hr, endState, InvImage] using hs
    refine (hv i).bind fun _ => hasked.bind fun c => ?_
    induction c.values with
    | nil => exact moves_pure _
    | cons j js ihjs => exact (ih j).bind fun _ => ihjs

end Walking

def SameGraph (s t : Design) : Prop := t.graph = s.graph

instance : Std.Refl SameGraph := ⟨fun _ => rfl⟩

instance : IsTrans Design SameGraph := ⟨fun _ _ _ h h' => Eq.trans h' h⟩

def Carries (G : Graph → Graph → Prop) (s t : Design) : Prop := s.graph.Forest → t.graph.Forest ∧ G s.graph t.graph

section Carrying

variable {G : Graph → Graph → Prop} {s t : Design}

instance [Std.Refl G] : Std.Refl (Carries G) := ⟨fun _ hg => ⟨hg, refl_of G _⟩⟩

instance [IsTrans Graph G] : IsTrans Design (Carries G) := by
  refine ⟨fun s t u h h' hg => ?_⟩
  obtain ⟨ht, hst⟩ := h hg
  obtain ⟨hu, htu⟩ := h' ht
  exact ⟨hu, trans_of G hst htu⟩

lemma SameGraph.carries [Std.Refl G] (h : SameGraph s t) : Carries G s t := by
  intro hg
  have hsame : t.graph = s.graph := h
  rw [hsame]
  exact ⟨hg, refl_of G _⟩

end Carrying

end HardwareDesign.Design
