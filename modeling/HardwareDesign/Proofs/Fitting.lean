import HardwareDesign.Proofs.Chaining
import HardwareDesign.Proofs.Indexing

/-!
What fits into the body of what: sites and the records of instances agree on the module that each site instantiates.
-/

namespace HardwareDesign

namespace Graph

def Within (g : Graph) (outer inner : Payload) : Prop :=
  ∃ p rp id r, g.Holds p rp ∧ rp.payload = outer ∧ g.Holds id r ∧ r.parent = some p ∧ r.payload = inner

def Fits (target : SiteRef → String) : Payload → Payload → Prop
  | .module x, .instantiation name y => target ⟨x, name⟩ = y
  | .dynamicInstance site, .dynamicInstance inner => inner.module = target site
  | .hierarchy top, .dynamicInstance inner => inner.module = top
  | _, _ => True

def Targets (g : Graph) (target : SiteRef → String) : Prop := ∀ outer inner, g.Within outer inner → Fits target outer inner

def Unused (g : Graph) (x : String) : Prop :=
  ∀ id r site, g.Holds id r → r.payload = .dynamicInstance site → site.module ≠ x

def Blank (g : Graph) (x : String) : Prop := ∀ payload, g.Within (.module x) payload → payload.symbolName = none

def Opens (g : Graph) (payload : Payload) (y : String) : Prop :=
  payload = .hierarchy y ∨ ∃ site, payload = .dynamicInstance site ∧
    g.Within (.module site.module) (.instantiation site.name y)

variable {g g' : Graph} {allowed : Payload → Option RecordId → Prop} {outer inner payload : Payload}
  {parent : Option RecordId} {target : SiteRef → String} {x y name : String}

section Derives

lemma Within.cases (h : g'.Within outer inner) (hd : g.Derives allowed g') (hg : g.Forest) :
    g.Within outer inner ∨ ∃ p r, g'.Holds p r ∧ r.payload = outer ∧ allowed inner (some p) := by
  obtain ⟨p, rp, id, r, hrp, rfl, hr, hpar, rfl⟩ := h
  rcases hd.records hr with ⟨r₀, h₀, hpay, hpar₀⟩ | ⟨_, hnew⟩
  · rw [hpar] at hpar₀
    obtain ⟨_, rp₀, hrp₀, _⟩ := hg.child_body h₀ hpar₀.symm
    exact .inl ⟨p, rp₀, id, r₀, hrp₀, (hd.kept hg hrp₀ hrp).1.symm, h₀, hpar₀.symm, hpay.symm⟩
  · exact .inr ⟨p, rp, hrp, rfl, hpar ▸ hnew⟩

lemma Within.before (h : g'.Within outer inner) (hd : g.Derives (fun _ _ => False) g') (hg : g.Forest) :
    g.Within outer inner := by
  rcases h.cases hd hg with hold | ⟨_, _, _, _, hno⟩
  · exact hold
  · exact hno.elim

variable (hg : g.Forest) (ha : g.Accepts parent)
include hg ha

lemma within_created (h : (g.created payload parent).Within outer inner) :
    g.Within outer inner ∨ inner = payload ∧ ∃ p r, parent = some p ∧ g.Holds p r ∧ r.payload = outer := by
  have hd : g.Derives (fun q p => q = payload ∧ p = parent) (g.created payload parent) := hg.derives ha ⟨rfl, rfl⟩
  refine (h.cases hd hg).imp_right ?_
  rintro ⟨p, r, hr, rfl, rfl, rfl⟩
  obtain ⟨r₀, h₀, _⟩ := ha
  exact ⟨rfl, p, r₀, rfl, h₀, (hd.kept hg h₀ hr).1.symm⟩

lemma Targets.created (h : g.Targets target)
    (hnew : ∀ p r, parent = some p → g.Holds p r → Fits target r.payload payload) :
    (g.created payload parent).Targets target := by
  intro outer inner hw
  rcases within_created hg ha hw with hold | ⟨rfl, p, r, hp, hr, rfl⟩
  · exact h outer inner hold
  · exact hnew p r hp hr

lemma Unused.created (h : g.Unused x) (hnew : ∀ site, payload = .dynamicInstance site → site.module ≠ x) :
    (g.created payload parent).Unused x := by
  intro id r site hr hp
  rcases (holds_created hg ha).mp hr with ⟨rfl, rfl⟩ | ⟨r₀, h₀, rfl⟩
  · exact hnew site hp
  · exact h id r₀ site h₀ hp

lemma Blank.created (h : g.Blank x)
    (hnew : ∀ p r, parent = some p → g.Holds p r → r.payload = .module x → payload.symbolName = none) :
    (g.created payload parent).Blank x := by
  intro inner hw
  rcases within_created hg ha hw with hold | ⟨rfl, p, r, hp, hr, hx⟩
  · exact h inner hold
  · exact hnew p r hp hr hx

end Derives

lemma fits_of_other (hi : ∀ name y, payload ≠ .instantiation name y) (hd : payload.NotDynamic) :
    Fits target outer payload := by
  cases payload with
  | instantiation name y => exact (hi name y rfl).elim
  | dynamicInstance site => exact (hd site rfl).elim
  | _ => cases outer <;> trivial

lemma Targets.fits_iff (h : g.Targets target) (hopens : g.Opens outer y) {site : SiteRef} :
    Fits target outer (.dynamicInstance site) ↔ site.module = y := by
  rcases hopens with rfl | ⟨inner, rfl, hw⟩
  · exact .rfl
  · have hy : target inner = y := h _ _ hw
    exact hy ▸ .rfl

lemma Targets.update (h : g.Targets target) (hu : g.Unused x)
    (hfree : ∀ y, ¬ g.Within (.module x) (.instantiation name y)) (y : String) :
    g.Targets (Function.update target ⟨x, name⟩ y) := by
  intro outer inner hw
  have hfits := h outer inner hw
  cases outer with
  | module x' =>
    cases inner with
    | instantiation name' y' =>
      have hne : (⟨x', name'⟩ : SiteRef) ≠ ⟨x, name⟩ := by
        rintro ⟨⟩
        exact hfree y' hw
      exact (Function.update_of_ne hne y target).trans hfits
    | _ => trivial
  | dynamicInstance site =>
    cases inner with
    | dynamicInstance inner =>
      obtain ⟨p, rp, _, _, hrp, hp, _⟩ := hw
      have hne : site ≠ ⟨x, name⟩ := by
        rintro rfl
        exact hu p rp _ hrp hp rfl
      exact hfits.trans (Function.update_of_ne hne y target).symm
    | _ => trivial
  | hierarchy top => cases inner <;> exact hfits
  | _ => trivial

end Graph

end HardwareDesign
