import HardwareDesign.Proofs.RoundTrip

/-!
The keys of records. A record that is found or made for a node has the node's key, but a record that is met on the
way down to a node may have another one, and then it stays with the node.
-/

namespace HardwareDesign.Design

variable {s t : Design} {i p : InstanceId} {n : Node} {h : Handle} {id : RecordId}

lemma Coherent.parent_of_name (hs : s.Coherent) (hn : s.tree.node i = .ok n) {name : String}
    (hname : n.name = some name) : ∃ p, n.parent = some p := by
  rcases hs.shaped.nodes (InstanceTree.node_eq.mp hn).2 with hroot | ⟨_, p, _, _, hc⟩
  · simp [hroot.name] at hname
  · exact ⟨_, hc.parent⟩

lemma Keyed.grows (he : s.Extends t) (hk : s.Keyed i id) : t.Keyed i id := by
  obtain ⟨n, site, r, hn, hname, hx, hr, hp⟩ := hk
  obtain ⟨c, hn', _⟩ := he.node hn
  obtain ⟨_, hr'⟩ := he.graph.records hr
  exact ⟨_, site, _, hn', hname, he.symbols hx, hr', hp⟩

lemma Keyed.of_extends (hs : s.Coherent) (he : s.Extends t) (hi : s.StandsFor id i) (hn : s.tree.node i = .ok n)
    (hp : n.parent = some p) (hk : t.Keyed i id) : s.Keyed i id := by
  obtain ⟨r, site, _, hr, hpay, _, hname, _⟩ := hi.dynamic hs.shaped hn hp
  obtain ⟨m, site', r', hm, _, hx, hr', hpay'⟩ := hk
  obtain ⟨c, hn', _⟩ := he.node hn
  obtain rfl := Except.ok.inj (hm.symm.trans hn')
  obtain ⟨_, hrt⟩ := he.graph.records hr
  obtain rfl := Option.some.inj (hr'.symm.trans hrt)
  obtain rfl := Payload.dynamicInstance.inj (hpay'.symm.trans hpay)
  rcases hs.shaped.nodes (InstanceTree.node_eq.mp hn).2 with hroot | ⟨_, _, _, _, hc⟩
  · simp [hroot.parent] at hp
  · obtain ⟨y, hy⟩ := hs.targets hc.above hc.insideOf
    obtain rfl := Option.some.inj ((he.symbols hy).symm.trans hx)
    exact ⟨n, _, r, hn, hname, hy, hr, hpay⟩

lemma Changes.keyed (hc : Changes False s t) (hs : s.Coherent) (hnew : s.records.instances.find? i = none)
    (hset : t.records.instances.find? i = some h) : t.Keyed i h.record := by
  induction hc with
  | refl => simp [hnew] at hset
  | @tail u t hrun hlast ih =>
    obtain ⟨hu, _⟩ := Changes.coherent hrun hs
    obtain ⟨ht, he⟩ := hlast.coherent hu
    cases hf : u.records.instances.find? i with
    | some k =>
      obtain rfl := Option.some.inj ((he.instances hf).symm.trans hset)
      exact (ih hf).grows he
    | none =>
      cases hlast with
      | scan hscan => simp [hscan.instances, hf] at hset
      | build => simp [built_records, hf] at hset
      | meet hfalse => exact hfalse.elim
      | @back j m owner site k hn hfound _ =>
        obtain ⟨_, r, hr, hp, _⟩ := Graph.holds_of_find?_nestedTable hu.forest hfound
        have hfind : (u.records.instances.insert j k).find? i = some h := hset
        rw [Table.find?_insert] at hfind
        by_cases hij : j = i
        · subst hij
          obtain rfl : k = h := by simpa using hfind
          exact ⟨m, site, r, hn.node, hn.name, hn.symbol, hr, hp⟩
        · simp [hij, hf] at hfind
      | _ => exact absurd (hf.symm.trans hset) (by simp)

/-- A call that resolves records puts a record behind a node that had none, and the key is not the node's. -/
structure Adopts (s : Design) (c : Call) (i : InstanceId) (h : Handle) : Prop where
  resolves : c.resolves
  unset : s.records.instances.find? i = none
  set : (s.after c).records.instances.find? i = some h
  unkeyed : ¬ (s.after c).Keyed i h.record

def Adopted (s : Design) (i : InstanceId) (h : Handle) : Prop :=
  ∃ (u : Design) (c : Call), u.Reachable ∧ u.Adopts c i h ∧ (u.after c).Reaches s ∧
    s.tree.generation = (u.after c).tree.generation

lemma Adopted.after (hs : s.Coherent) (ha : s.Adopted i h) (c : Call) : (s.after c).Adopted i h := by
  obtain ⟨u, c', hu, hadopts, hreach, hgen⟩ := ha
  have hc := (changes_after hs c).mono fun _ => trivial
  exact ⟨u, c', hu, hadopts, hreach.tail (.operation (.call c)), (Changes.generation hc hs).trans hgen⟩

lemma Step.origin (hstep : s.Step t) : (∃ c, t = s.after c) ∨ t = s ∨ t.records.instances = {} := by
  cases hstep with
  | operation o =>
    cases o with
    | call c => exact .inl ⟨c, rfl⟩
    | invalidate held =>
      obtain ⟨issues, hi⟩ := invalidate_eq s held
      refine .inr (.inr ?_)
      rw [perform, hi]
      rfl
  | passes passes held st =>
    refine .inr ?_
    rw [runPasses]
    cases hp : s.passed with
    | true => exact .inl rfl
    | false =>
      obtain ⟨issues, hb⟩ := beforePasses_eq s held
      simp only [Bool.false_eq_true, if_false, hb]
      generalize Pass.runAll passes st _ = found
      obtain ⟨r, st', g⟩ := found
      cases r with
      | ok _ => exact .inr rfl
      | error e => exact .inr rfl

lemma adopted_of_unkeyed (hs : s.Reachable) (hf : s.records.instances.find? i = some h)
    (hk : ¬ s.Keyed i h.record) : s.Adopted i h := by
  obtain ⟨config, source, hreach⟩ := hs
  induction hreach with
  | refl => cases hf
  | @tail u s hrun hlast ih =>
    have hu : u.Reachable := ⟨config, source, hrun⟩
    have huc := hu.coherent
    rcases hlast.origin with ⟨c, rfl⟩ | rfl | hnone
    · have hc := changes_after huc c
      obtain ⟨_, he⟩ := Changes.coherent hc huc
      cases hfu : u.records.instances.find? i with
      | some k =>
        obtain rfl := Option.some.inj ((he.instances hfu).symm.trans hf)
        exact (ih hfu fun hku => hk (hku.grows he)).after huc c
      | none =>
        by_cases hres : c.resolves
        · exact ⟨u, c, hu, ⟨hres, hfu, hf, hk⟩, .refl, rfl⟩
        · exact (hk (Changes.keyed (hc.mono hres) huc hfu hf)).elim
    · exact ih hf hk
    · rw [hnone] at hf
      cases hf

/-- The record that a node below a root gets has the name of the node. Its key is the node's, with the symbol of the
definition around the node, except if a record with another key has been adopted for the node in this generation. -/
theorem record_key (hs : s.Reachable) (hn : s.node i = .ok n) (hp : n.parent = some p)
    (hr : getOrCreateRecord i s = .ok h t) :
    (∃ r site, t.graph.Holds h.record r ∧ r.payload = .dynamicInstance site ∧ n.name = some site.name) ∧
      (¬ t.Keyed i h.record ↔ s.Adopted i h) := by
  have hsc := hs.coherent
  have hn : s.tree.node i = .ok n := hn
  obtain ⟨hrec, ht, he⟩ := recorded_of_getOrCreateRecord hsc hr
  obtain ⟨c, hnt, _⟩ := he.node hn
  obtain ⟨r, site, _, hrt, hpay, _, hname, _⟩ := hrec.stands.dynamic ht.shaped hnt hp
  refine ⟨⟨r, site, hrt, hpay, hname⟩, ?_, ?_⟩
  · intro hk
    cases hf : s.records.instances.find? i with
    | none => exact (hk (hrec.keyed hn hp hf)).elim
    | some k =>
      obtain rfl := Option.some.inj ((he.instances hf).symm.trans (hrec.remembered hn hp))
      exact adopted_of_unkeyed hs hf fun hks => hk (hks.grows he)
  · rintro ⟨u, c', hu, hadopts, hreach, hgen⟩ hk
    have huc := hu.coherent
    obtain ⟨ha, _⟩ := Changes.coherent (changes_after huc c') huc
    have hext := Reaches.extends_of_generation hreach ha hgen
    have hstands := (ha.backed hadopts.set).2
    obtain ⟨m, hm⟩ := ha.node hstands
    obtain ⟨x, hm', _⟩ := hext.node hm
    obtain rfl := Except.ok.inj (hn.symm.trans hm')
    exact hadopts.unkeyed (Keyed.of_extends ha (hext.trans he) hstands hm hp hk)

section Retargeting

def retarget : Pass Unit where
  name := "retarget"
  run _ := .inspect fun g => .erase (g.handle ⟨3⟩) fun _ =>
    .create (some (g.handle ⟨1⟩)) (.instantiation "a" "B") fun _ => .done (.ok (), ())

def oneSite : Generator := fun _ _ => .request (.register "x" (.int 1)) fun _ => .done

def twoInstances : Generator := fun _ _ =>
  .request (.instantiate "a" ⟨0⟩) fun _ => .request (.instantiate "b" ⟨1⟩) fun _ => .done

def recordedFirst : Design :=
  (new {} 0).run [
    .call (.define "A" (.generated oneSite)), .call (.define "B" (.generated oneSite)),
    .call (.define "T" (.generated twoInstances)), .call (.addTop ⟨2⟩), .call (.generate none), .call (.root ⟨2⟩),
    .call (.child ⟨0, 0⟩ "a"), .call (.child ⟨1, 0⟩ "x"), .call (.record ⟨3, 0⟩)]

def rewritten : Design := (recordedFirst.runPasses [retarget] [] ()).2.2

def retargeted : Design := rewritten.after (.resolve ⟨⟨10⟩, 1, 0⟩)

lemma reachable_retargeted : retargeted.Reachable := by
  have hrecorded : recordedFirst.Reachable := reachable_run _ _ _
  have hrewritten : rewritten.Reachable := by
    unfold rewritten
    exact hrecorded.trans (.single (.passes [retarget] [] ()))
  unfold retargeted
  exact hrewritten.trans (.single (.operation (.call (.resolve ⟨⟨10⟩, 1, 0⟩))))

def answer? {ε σ α : Type} : EStateM.Result ε σ α → Option α
  | .ok a _ => some a
  | .error _ _ => none

lemma eq_ok_of_answer {ε σ α : Type} {r : EStateM.Result ε σ α} {a : α} (h : answer? r = some a) :
    r = .ok a (endState r) := by
  cases r with
  | ok b t =>
    rw [Option.some.inj h]
    rfl
  | error e t => cases h

lemma not_keyed (x : String) (site : SiteRef)
    (hx : ((s.node i).toOption.bind fun n => s.resolveSymbol n.insideOf) = some x)
    (hp : (s.graph.records.find? id).map (·.payload) = some (.dynamicInstance site)) (hne : site.module ≠ x) :
    ¬ s.Keyed i id := by
  rintro ⟨n, site', r, hn, _, hx', hr, hp'⟩
  have hn : s.node i = .ok n := hn
  have hr : s.graph.records.find? id = some r := hr
  rw [hn] at hx
  rw [hr, Option.map_some, hp'] at hp
  obtain rfl := Payload.dynamicInstance.inj (Option.some.inj hp)
  exact hne (Option.some.inj (hx'.symm.trans hx))

theorem record_key_retargeted :
    answer? (getOrCreateRecord ⟨3, 1⟩ retargeted) = some ⟨⟨10⟩, 1, 0⟩ ∧
      ¬ (endState (getOrCreateRecord ⟨3, 1⟩ retargeted)).Keyed ⟨3, 1⟩ ⟨10⟩ ∧
      retargeted.Adopted ⟨3, 1⟩ ⟨⟨10⟩, 1, 0⟩ := by
  have ha : answer? (getOrCreateRecord ⟨3, 1⟩ retargeted) = some ⟨⟨10⟩, 1, 0⟩ := by decide +kernel
  have hk : ¬ (endState (getOrCreateRecord ⟨3, 1⟩ retargeted)).Keyed ⟨3, 1⟩ ⟨10⟩ :=
    not_keyed "B" ⟨"A", "x"⟩ (by decide +kernel) (by decide +kernel) (by decide)
  have hname : ((retargeted.node ⟨3, 1⟩).toOption.bind fun n => n.name) = some "x" := by decide +kernel
  cases hn : retargeted.node ⟨3, 1⟩ with
  | error e =>
    rw [hn] at hname
    cases hname
  | ok n =>
    rw [hn] at hname
    obtain ⟨p, hp⟩ := reachable_retargeted.coherent.parent_of_name hn hname
    exact ⟨ha, hk, (record_key reachable_retargeted hn hp (eq_ok_of_answer ha)).2.mp hk⟩

end Retargeting

end HardwareDesign.Design
