import Mathlib.Data.Set.Finite.Basic
import HardwareDesign.Proofs.Scanning

/-!
The static hierarchy below a module: its sites, and for each of them what is below its target. It is finite if no
module contains itself.
-/

namespace HardwareDesign.Design

open Relation

def sitesBelow (s : Design) (kind : NodeKind) : List (String × Site) :=
  match kind.target with
  | none => []
  | some d =>
    match sitesOf d s with
    | .ok sites _ => sites.entries
    | .error _ _ => []

def Instantiates (s : Design) (d e : DefId) : Prop :=
  ∃ name site, (name, site) ∈ s.sitesBelow (.module d) ∧ s.nodeKind site.kind = .ok (.module e)

/-- No module that is met on the way down from this one contains itself, and all targets there are registered. -/
structure Unfoldable (s : Design) (d : DefId) : Prop where
  acyclic : ∀ {e}, ReflTransGen s.Instantiates d e → ¬ TransGen s.Instantiates e e
  registered : ∀ {e}, ReflTransGen s.Instantiates d e → ∀ {name site}, (name, site) ∈ s.sitesBelow (.module e) →
    ∃ kind, s.nodeKind site.kind = .ok kind

/-- The paths to some sites and to all that is below them: each site is followed by what is below it. -/
inductive Unfolds (s : Design) : List (String × Site) → List (List String) → Prop
  | nil : Unfolds s [] []
  | cons {name site kind sites below rest} : s.nodeKind site.kind = .ok kind → Unfolds s (s.sitesBelow kind) below →
      Unfolds s sites rest → Unfolds s ((name, site) :: sites) (([] :: below).map (name :: ·) ++ rest)

variable {s : Design} {d e : DefId} {kind : NodeKind} {sites : List (String × Site)} {paths : List (List String)}

section Sites

lemma sitesBelow_of_none (hd : kind.target = none) : s.sitesBelow kind = [] := by
  simp only [sitesBelow, hd]

lemma sitesBelow_of_target (hs : s.Coherent) (hd : kind.target = some d) :
    s.sitesBelow kind = (s.siteTable d).entries := by
  simp only [sitesBelow, hd]
  cases hx : s.resolveSymbol d with
  | none =>
    have hm : s.moduleOf d = none := by simp only [moduleOf, hx, Option.bind_none]
    rw [sitesOf_unbuilt hx, siteTable_of_none hm]
  | some x =>
    obtain ⟨t, ht, _⟩ := sitesOf_built hs hx
    rw [ht]

lemma nodup_sitesBelow (hs : s.Coherent) (kind : NodeKind) : ((s.sitesBelow kind).map Prod.fst).Nodup := by
  cases hd : kind.target with
  | none =>
    rw [sitesBelow_of_none hd]
    exact List.nodup_nil
  | some d =>
    rw [sitesBelow_of_target hs hd]
    exact nodup_keys_siteTable s d

end Sites

namespace Unfolds

lemma unique {paths' : List (List String)} (h : s.Unfolds sites paths) (h' : s.Unfolds sites paths') :
    paths = paths' := by
  induction h generalizing paths' with
  | nil =>
    cases h'
    rfl
  | cons hk _ _ ihbelow ihrest =>
    cases h' with
    | cons hk' hbelow hrest =>
      obtain rfl := Except.ok.inj (hk.symm.trans hk')
      rw [ihbelow hbelow, ihrest hrest]

lemma kinds (h : s.Unfolds sites paths) : ∃ kinds, s.nodeKinds sites = .ok kinds := by
  induction h with
  | nil => exact ⟨[], rfl⟩
  | @cons name site kind _ _ _ hk _ _ _ ih =>
    obtain ⟨kinds, hkinds⟩ := ih
    refine ⟨(name, kind) :: kinds, ?_⟩
    simp only [nodeKinds, hk, hkinds, bind, Except.bind, pure, Except.pure]

lemma head (h : s.Unfolds sites paths) {path : List String} (hp : path ∈ paths) :
    ∃ name rest, path = name :: rest ∧ name ∈ sites.map Prod.fst := by
  induction h with
  | nil => cases hp
  | @cons name _ _ _ _ _ _ _ _ _ ih =>
    rcases List.mem_append.mp hp with hp | hp
    · obtain ⟨rest, _, rfl⟩ := List.mem_map.mp hp
      exact ⟨name, rest, rfl, List.mem_cons_self⟩
    · obtain ⟨name, rest, rfl, hname⟩ := ih hp
      exact ⟨name, rest, rfl, List.mem_cons_of_mem _ hname⟩

lemma nil_notMem (h : s.Unfolds sites paths) : [] ∉ paths := by
  intro hm
  obtain ⟨_, _, he, _⟩ := h.head hm
  cases he

lemma nodup (hs : s.Coherent) (h : s.Unfolds sites paths) (hn : (sites.map Prod.fst).Nodup) : paths.Nodup := by
  induction h with
  | nil => exact List.nodup_nil
  | @cons name _ kind _ _ _ _ hbelow hrest ihbelow ihrest =>
    obtain ⟨hname, hn⟩ := List.nodup_cons.mp hn
    have hinside := List.nodup_cons.mpr ⟨hbelow.nil_notMem, ihbelow (nodup_sitesBelow hs kind)⟩
    refine List.nodup_append.mpr ⟨hinside.map List.cons_injective, ihrest hn, ?_⟩
    -- what is below a site begins with its name, and no other site has that
    rintro path hp path' hp' rfl
    obtain ⟨inside, _, rfl⟩ := List.mem_map.mp hp
    obtain ⟨_, _, he, hother⟩ := hrest.head hp'
    obtain ⟨rfl, _⟩ := List.cons.inj he
    exact hname hother

end Unfolds

section Finiteness

lemma exists_unfolds (hk : ∀ {name site}, (name, site) ∈ sites → ∃ kind below, s.nodeKind site.kind = .ok kind ∧
    s.Unfolds (s.sitesBelow kind) below) : ∃ paths, s.Unfolds sites paths := by
  induction sites with
  | nil => exact ⟨[], .nil⟩
  | cons e sites ih =>
    obtain ⟨kind, below, hkind, hbelow⟩ := hk List.mem_cons_self
    obtain ⟨rest, hrest⟩ := ih fun hm => hk (List.mem_cons_of_mem _ hm)
    exact ⟨_, .cons hkind hbelow hrest⟩

lemma Instantiates.registered (h : s.Instantiates d e) : e ∈ s.registry.definitions.values := by
  obtain ⟨_, site, _, hk⟩ := h
  cases hsite : site.kind with
  | module x =>
    rw [hsite] at hk
    obtain ⟨_, hx, he⟩ := nodeKind_module.mp hk
    obtain rfl := NodeKind.module.inj he
    exact List.mem_map_of_mem (f := Prod.snd) (Table.mem_of_find? hx)
  | _ =>
    rw [hsite] at hk
    cases hk

namespace Unfoldable

lemma wellFounded (h : s.Unfoldable d) :
    WellFounded fun e f : {e // ReflTransGen s.Instantiates d e} => TransGen s.Instantiates f.1 e.1 := by
  -- only so many modules are registered
  have hfinite : Finite {e // ReflTransGen s.Instantiates d e} := by
    refine (d :: s.registry.definitions.values).finite_toSet.subset fun e he => ?_
    rcases ReflTransGen.cases_tail he with rfl | ⟨_, _, hlast⟩
    · exact List.mem_cons_self
    · exact List.mem_cons_of_mem _ hlast.registered
  have : IsTrans {e // ReflTransGen s.Instantiates d e} fun e f => TransGen s.Instantiates f.1 e.1 :=
    ⟨fun _ _ _ h₁ h₂ => h₂.trans h₁⟩
  have : Std.Irrefl fun e f : {e // ReflTransGen s.Instantiates d e} => TransGen s.Instantiates f.1 e.1 :=
    ⟨fun e => h.acyclic e.2⟩
  exact Finite.wellFounded_of_trans_of_irrefl _

lemma unfolds (h : s.Unfoldable d) : ∃ paths, s.Unfolds (s.sitesBelow (.module d)) paths := by
  suffices hall : ∀ e : {e // ReflTransGen s.Instantiates d e},
      ∃ paths, s.Unfolds (s.sitesBelow (.module e.1)) paths from hall ⟨d, .refl⟩
  intro e
  induction e using h.wellFounded.induction with
  | h e ih =>
    refine exists_unfolds fun {name site} hm => ?_
    obtain ⟨kind, hk⟩ := h.registered e.2 hm
    cases hsite : site.kind with
    | module x =>
      rw [hsite] at hk
      obtain ⟨f, hx, rfl⟩ := nodeKind_module.mp hk
      have hf : s.Instantiates e.1 f := ⟨name, site, hm, hsite ▸ hk⟩
      obtain ⟨below, hbelow⟩ := ih ⟨f, e.2.tail hf⟩ (.single hf)
      exact ⟨.module f, below, hk, hbelow⟩
    | _ => exact ⟨_, [], rfl, .nil⟩

end Unfoldable

lemma exists_unfolds_below (h : ∀ {d}, kind.target = some d → s.Unfoldable d) :
    ∃ below, s.Unfolds (s.sitesBelow kind) below := by
  cases hd : kind.target with
  | none =>
    rw [sitesBelow_of_none hd]
    exact ⟨[], .nil⟩
  | some d =>
    have hsame : s.sitesBelow kind = s.sitesBelow (.module d) := by
      rw [sitesBelow, hd]
      rfl
    rw [hsame]
    exact (h hd).unfolds

end Finiteness

end HardwareDesign.Design
