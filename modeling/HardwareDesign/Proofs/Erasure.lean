import HardwareDesign.Proofs.Forest

namespace HardwareDesign.Graph

abbrev Records := Table RecordId Record

lemma length_flatMap_filter_le (p : RecordId × Record → Bool) (es : List (RecordId × Record)) :
    (((es.filter p).map Prod.snd).flatMap (·.body)).length ≤ ((es.map Prod.snd).flatMap (·.body)).length := by
  induction es with
  | nil => exact Nat.le_refl _
  | cons e es ih =>
    cases he : p e <;> simp only [List.filter_cons, he, if_true, Bool.false_eq_true, if_false, List.map_cons,
      List.flatMap_cons, List.length_append] <;> omega

lemma length_flatMap_erase {id : RecordId} {r : Record} {es : List (RecordId × Record)}
    (h : Table.findIn id es = some r) :
    (((es.filter fun e => e.1 ≠ id).map Prod.snd).flatMap (·.body)).length + r.body.length ≤
      ((es.map Prod.snd).flatMap (·.body)).length := by
  induction es with
  | nil => simp [Table.findIn] at h
  | cons e es ih =>
    by_cases he : e.1 = id
    · obtain rfl : e.2 = r := by simpa [Table.findIn, he] using h
      have hs := length_flatMap_filter_le (fun e => e.1 ≠ id) es
      simp only [List.filter_cons, he, ne_eq, not_true, decide_false, Bool.false_eq_true, if_false, List.map_cons,
        List.flatMap_cons, List.length_append] at hs ⊢
      omega
    · have ih := ih (by simpa [Table.findIn, he] using h)
      simp only [List.filter_cons, he, ne_eq, not_false_eq_true, decide_true, if_true, List.map_cons,
        List.flatMap_cons, List.length_append] at ih ⊢
      omega

lemma bodyCount_erase {records : Records} {id : RecordId} {r : Record} (h : records.find? id = some r) :
    bodyCount (records.erase id) + r.body.length ≤ bodyCount records :=
  length_flatMap_erase h

lemma removeAll_subset {fuel : Nat} {waiting : List RecordId} {records : Records} {id : RecordId} {r : Record}
    (h : (removeAll fuel waiting records).find? id = some r) : records.find? id = some r := by
  induction fuel generalizing waiting records with
  | zero => cases waiting <;> exact h
  | succ fuel ih =>
    cases waiting with
    | nil => exact h
    | cons k waiting =>
      unfold removeAll at h
      split at h
      case h_1 rk hk =>
        have he := ih h
        rw [Table.find?_erase] at he
        split at he
        · cases he
        · exact he
      case h_2 => exact ih h

lemma nodup_keys_removeAll {fuel : Nat} {waiting : List RecordId} {records : Records} (h : records.keys.Nodup) :
    (removeAll fuel waiting records).keys.Nodup := by
  induction fuel generalizing waiting records with
  | zero => cases waiting <;> exact h
  | succ fuel ih =>
    cases waiting with
    | nil => exact h
    | cons k waiting =>
      unfold removeAll
      split
      · exact ih (Table.nodup_keys_erase k h)
      · exact ih h

lemma removeAll_gone {fuel : Nat} {waiting : List RecordId} {records : Records} {id : RecordId}
    (h : records.find? id = none) : (removeAll fuel waiting records).find? id = none := by
  cases hr : (removeAll fuel waiting records).find? id with
  | none => rfl
  | some r => exact (by simp [removeAll_subset hr] at h : False).elim

lemma removeAll_complete {fuel : Nat} {waiting : List RecordId} {records : Records}
    (hf : waiting.length + bodyCount records ≤ fuel) :
    (∀ id ∈ waiting, (removeAll fuel waiting records).find? id = none) ∧
      ∀ {p rp id}, records.find? p = some rp → (removeAll fuel waiting records).find? p = none → id ∈ rp.body →
        (removeAll fuel waiting records).find? id = none := by
  induction fuel generalizing waiting records with
  | zero =>
    obtain rfl : waiting = [] := List.eq_nil_of_length_eq_zero (by omega)
    refine ⟨by simp, ?_⟩
    intro p rp id hp hn
    exact absurd (hp.symm.trans hn) (by simp)
  | succ fuel ih =>
    cases waiting with
    | nil =>
      refine ⟨by simp, ?_⟩
      intro p rp id hp hn
      exact absurd (hp.symm.trans hn) (by simp)
    | cons k waiting =>
      rw [List.length_cons] at hf
      cases hk : records.find? k with
      | none =>
        simp only [removeAll, hk]
        obtain ⟨hw, hb⟩ := ih (by omega : waiting.length + bodyCount records ≤ fuel)
        refine ⟨?_, hb⟩
        rintro id (_ | ⟨_, hm⟩)
        · exact removeAll_gone hk
        · exact hw id hm
      | some rk =>
        simp only [removeAll, hk]
        have hc := bodyCount_erase hk
        have hfuel : (rk.body ++ waiting).length + bodyCount (records.erase k) ≤ fuel := by
          rw [List.length_append]
          omega
        obtain ⟨hw, hb⟩ := ih hfuel
        have hgone : (removeAll fuel (rk.body ++ waiting) (records.erase k)).find? k = none :=
          removeAll_gone (by simp [Table.find?_erase])
        refine ⟨?_, ?_⟩
        · rintro id (_ | ⟨_, hm⟩)
          · exact hgone
          · exact hw id (List.mem_append_right _ hm)
        · intro p rp id hp hn hm
          by_cases hpk : k = p
          · subst hpk
            obtain rfl : rk = rp := Option.some.inj (hk.symm.trans hp)
            exact hw id (List.mem_append_left _ hm)
          · exact hb (by simpa [Table.find?_erase, hpk] using hp) hn hm

lemma removeAll_cause {fuel : Nat} {waiting : List RecordId} {records : Records} {id : RecordId} {r : Record}
    (hr : records.find? id = some r) (hn : (removeAll fuel waiting records).find? id = none) :
    id ∈ waiting ∨ ∃ p rp, records.find? p = some rp ∧ id ∈ rp.body ∧
      (removeAll fuel waiting records).find? p = none := by
  induction fuel generalizing waiting records with
  | zero => cases waiting <;> exact absurd (hr.symm.trans hn) (by simp)
  | succ fuel ih =>
    cases waiting with
    | nil => exact absurd (hr.symm.trans hn) (by simp)
    | cons k waiting =>
      cases hk : records.find? k with
      | none =>
        simp only [removeAll, hk] at hn ⊢
        rcases ih hr hn with hw | hp
        · exact .inl (List.mem_cons_of_mem _ hw)
        · exact .inr hp
      | some rk =>
        simp only [removeAll, hk] at hn ⊢
        by_cases hki : k = id
        · exact .inl (hki ▸ List.mem_cons_self)
        · rcases ih (by simpa [Table.find?_erase, hki] using hr) hn with hw | ⟨p, rp, hp, hm, hpn⟩
          · rcases List.mem_append.mp hw with hw | hw
            · exact .inr ⟨k, rk, hk, hw, removeAll_gone (by simp [Table.find?_erase])⟩
            · exact .inl (List.mem_cons_of_mem _ hw)
          · rw [Table.find?_erase] at hp
            split at hp
            · cases hp
            · exact .inr ⟨p, rp, hp, hm, hpn⟩

variable {g : Graph}

def withoutChild (id : RecordId) (r : Record) : Record := { r with body := r.body.filter (· ≠ id) }

lemma withoutChild_of_notMem {id : RecordId} {r : Record} (h : id ∉ r.body) : withoutChild id r = r := by
  have hf : r.body.filter (· ≠ id) = r.body := by
    rw [List.filter_eq_self]
    intro k hk
    have hne : k ≠ id := ne_of_mem_of_not_mem hk h
    simpa using hne
  simp only [withoutChild, hf]

structure Detached (g : Graph) (id : RecordId) (g' : Graph) : Prop where
  source : g'.source = g.source
  epoch : g'.epoch = g.epoch
  lastId : g'.lastId = g.lastId
  top : g'.top = g.top.filter (· ≠ id)
  keys : g'.records.keys = g.records.keys
  records : ∀ k, g'.records.find? k = (g.records.find? k).map (withoutChild id)

lemma find?_map_withoutChild {id k : RecordId} (h : ∀ r, g.Holds k r → id ∉ r.body) :
    (g.records.find? k).map (withoutChild id) = g.records.find? k := by
  cases hk : g.records.find? k with
  | none => rfl
  | some r => exact congrArg some (withoutChild_of_notMem (h r hk))

lemma detach_of_holds {id p : RecordId} {rp : Record} (hrp : g.Holds p rp) (hb : rp.payload.hasBody = true) :
    g.detach id (some p) = .ok { g with records := g.records.modify p (withoutChild id) } := by
  simp only [detach, recordOf_of_holds hrp, bind, Except.bind, hb, if_true]
  rfl

lemma Forest.exists_detach (hg : g.Forest) {id : RecordId} {r : Record} (hr : g.Holds id r) :
    ∃ g', g.detach id r.parent = .ok g' := by
  have ha := hg.accepts_parent hr
  cases hp : r.parent with
  | none => exact ⟨_, rfl⟩
  | some p =>
    rw [hp] at ha
    obtain ⟨rp, hrp, hb⟩ := ha
    exact ⟨_, detach_of_holds hrp hb⟩

lemma detach_ok (hg : g.Forest) {id : RecordId} {r : Record} (hr : g.Holds id r) {g' : Graph}
    (hd : g.detach id r.parent = .ok g') : g.Detached id g' := by
  cases hp : r.parent with
  | none =>
    rw [hp] at hd
    obtain rfl := Except.ok.inj hd
    refine ⟨rfl, rfl, rfl, rfl, rfl, fun k => ?_⟩
    exact (find?_map_withoutChild fun rk hk => hg.not_mem_of_parent_ne hr hk (by simp [hp])).symm
  | some p =>
    have ha := hg.accepts_parent hr
    rw [hp] at ha hd
    obtain ⟨rp, hrp, hb⟩ := ha
    obtain rfl := Except.ok.inj ((detach_of_holds hrp hb).symm.trans hd)
    refine ⟨rfl, rfl, rfl, ?_, Table.keys_modify _ _ _, fun k => ?_⟩
    · have ht : id ∉ g.top := by
        intro ht
        obtain ⟨r', hr', hn⟩ := hg.top_root ht
        obtain rfl : r = r' := hr.unique hr'
        simp [hp] at hn
      refine (List.filter_eq_self.mpr fun k hk => ?_).symm
      have hne : k ≠ id := ne_of_mem_of_not_mem hk ht
      simpa using hne
    · rw [Table.find?_modify]
      by_cases hk : p = k
      · rw [if_pos hk]
      · rw [if_neg hk]
        refine (find?_map_withoutChild fun rk hrk => hg.not_mem_of_parent_ne hr hrk ?_).symm
        simpa [hp] using hk

/-- What an erasure does: the record is gone, a record stays if its parent does, and nothing stays below a record that
is gone. -/
structure Pruned (g : Graph) (id : RecordId) (g' : Graph) : Prop where
  source : g'.source = g.source
  epoch : g'.epoch = g.epoch
  lastId : g'.lastId = g.lastId
  top : g'.top = g.top.filter (· ≠ id)
  keys : g'.records.keys.Nodup
  gone : g'.records.find? id = none
  held : ∀ {k r}, g'.Holds k r → ∃ r₀, g.Holds k r₀ ∧ r = withoutChild id r₀
  stays : ∀ {k r}, g.Holds k r → k ≠ id → (∀ p, r.parent = some p → ∃ rp, g'.Holds p rp) →
    g'.Holds k (withoutChild id r)
  below : ∀ {p rp k}, g.Holds p rp → g'.records.find? p = none → k ∈ rp.body → g'.records.find? k = none

lemma Detached.pruned (hg : g.Forest) {id : RecordId} {g₁ : Graph} (hd : g.Detached id g₁) :
    g.Pruned id { g₁ with records := removeAll (bodyCount g₁.records + 1) [id] g₁.records } := by
  have hfuel : [id].length + bodyCount g₁.records ≤ bodyCount g₁.records + 1 := by
    rw [List.length_singleton]
    omega
  obtain ⟨hw, hb⟩ := removeAll_complete hfuel
  have hlift : ∀ {k r}, g.Holds k r → g₁.records.find? k = some (withoutChild id r) := by
    intro k r hr
    rw [hd.records, show g.records.find? k = some r from hr]
    rfl
  have hgone := hw id List.mem_cons_self
  have hheld : ∀ {k r}, (removeAll (bodyCount g₁.records + 1) [id] g₁.records).find? k = some r →
      ∃ r₀, g.Holds k r₀ ∧ r = withoutChild id r₀ := by
    intro k r hr
    have hr' := removeAll_subset hr
    rw [hd.records] at hr'
    obtain ⟨r₀, h₀, rfl⟩ := Option.map_eq_some_iff.mp hr'
    exact ⟨r₀, h₀, rfl⟩
  refine ⟨hd.source, hd.epoch, hd.lastId, hd.top, nodup_keys_removeAll (hd.keys ▸ hg.keys), hgone, hheld, ?_, ?_⟩
  · intro k r hr hne hp
    cases ho : (removeAll (bodyCount g₁.records + 1) [id] g₁.records).find? k with
    | some r' =>
      obtain ⟨r₀, h₀, rfl⟩ := hheld ho
      obtain rfl : r = r₀ := hr.unique h₀
      exact ho
    | none =>
      -- something above would have been removed, and then its parent too
      rcases removeAll_cause (hlift hr) ho with hw | ⟨p, rp, hrp, hm, hn⟩
      · exact (hne (List.mem_singleton.mp hw)).elim
      · rw [hd.records] at hrp
        obtain ⟨r₀, h₀, rfl⟩ := Option.map_eq_some_iff.mp hrp
        obtain ⟨r', hr', hpar⟩ := hg.body_child h₀ (List.mem_of_mem_filter hm)
        obtain rfl : r = r' := hr.unique hr'
        obtain ⟨rp, hrp⟩ := hp p hpar
        exact absurd (hn.symm.trans hrp) (by simp)
  · intro p rp k hp hn hm
    by_cases hk : k = id
    · exact hk ▸ hgone
    · exact hb (hlift hp) hn (by simp [withoutChild, hm, hk])

lemma pruned_of_erase (hg : g.Forest) {h : Handle} {g' : Graph} (he : g.erase h = .ok g') : g.Pruned h.record g' := by
  cases hr : g.record h with
  | error e => simp [erase, hr, bind, Except.bind] at he
  | ok r =>
    obtain ⟨_, hh⟩ := holds_of_record hr
    obtain ⟨g₁, hd⟩ := hg.exists_detach hh
    simp only [erase, hr, hd, bind, Except.bind, pure, Except.pure] at he
    obtain rfl := Except.ok.inj he
    exact (detach_ok hg hh hd).pruned hg

lemma Pruned.ne_of_holds {id k : RecordId} {g' : Graph} {r : Record} (hp : g.Pruned id g') (hr : g'.Holds k r) :
    k ≠ id := by
  rintro rfl
  exact absurd (hp.gone.symm.trans hr) (by simp)

lemma Pruned.forest (hg : g.Forest) {id : RecordId} {g' : Graph} (hp : g.Pruned id g') : g'.Forest where
  keys := hp.keys
  bound := by
    intro k r hr
    obtain ⟨r₀, h₀, _⟩ := hp.held hr
    exact hp.lastId ▸ hg.bound h₀
  top_root := by
    intro k hm
    have hm' : k ∈ g.top ∧ k ≠ id := by simpa [hp.top] using hm
    obtain ⟨r, hr, hpar⟩ := hg.top_root hm'.1
    exact ⟨_, hp.stays hr hm'.2 (by simp [hpar]), hpar⟩
  root_top := by
    intro k r hr hpar
    obtain ⟨r₀, h₀, rfl⟩ := hp.held hr
    have hne := hp.ne_of_holds hr
    simpa [hp.top, hne] using hg.root_top h₀ hpar
  body_child := by
    intro p rp k hrp hm
    obtain ⟨r₀, h₀, rfl⟩ := hp.held hrp
    have hm' : k ∈ r₀.body ∧ k ≠ id := by simpa [withoutChild] using hm
    obtain ⟨r, hr, hpar⟩ := hg.body_child h₀ hm'.1
    refine ⟨_, hp.stays hr hm'.2 ?_, hpar⟩
    rintro q hq
    obtain rfl : p = q := Option.some.inj (hpar.symm.trans hq)
    exact ⟨_, hrp⟩
  child_body := by
    intro k r p hr hpar
    obtain ⟨r₀, h₀, rfl⟩ := hp.held hr
    obtain ⟨hlt, rp, hrp, hm⟩ := hg.child_body h₀ hpar
    have hne := hp.ne_of_holds hr
    cases ho : g'.records.find? p with
    | none => exact absurd ((hp.below hrp ho hm).symm.trans hr) (by simp)
    | some rp' =>
      obtain ⟨r₁, h₁, rfl⟩ := hp.held ho
      obtain rfl : rp = r₁ := hrp.unique h₁
      exact ⟨hlt, _, ho, by simp [withoutChild, hm, hne]⟩
  bodiless := by
    intro k r hr hb
    obtain ⟨r₀, h₀, rfl⟩ := hp.held hr
    simp [withoutChild, hg.bodiless h₀ hb]
  top_sorted := hp.top ▸ hg.top_sorted.filter _
  body_sorted := by
    intro k r hr
    obtain ⟨r₀, h₀, rfl⟩ := hp.held hr
    exact (hg.body_sorted h₀).filter _

lemma Forest.erase (hg : g.Forest) {h : Handle} {g' : Graph} (he : g.erase h = .ok g') : g'.Forest :=
  (pruned_of_erase hg he).forest hg

lemma Forest.create (hg : g.Forest) {parent : Option Handle} {payload : Payload} {h : Handle} {g' : Graph}
    (hc : g.create parent payload = .ok (h, g')) : g'.Forest := by
  obtain ⟨ha, _, rfl⟩ := create_ok hc
  exact hg.created ha

end HardwareDesign.Graph
