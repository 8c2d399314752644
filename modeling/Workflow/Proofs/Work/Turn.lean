import Workflow.Proofs.Work.Sound

/-!
# Turns keep what was promised

What remains of some work after a turn promises no more than the work did before: all that may come
of the rest might have come of the whole.
-/

namespace Workflow

theorem Thread.OnTime.of_sameWork {α : Type} {e : Errands} {t t' : Turn} {th : Thread α}
    (h : th.OnTime e t.floor) (hsame : Turn.SameWork t t') : th.OnTime e t'.floor := by
  induction th with
  | ended value | ready work | resting instant interrupts next => trivial
  | joining join next =>
    simp only [OnTime, hsame.hasEnded, hsame.scene]
    exact h
  | within limit inner next ih => exact ⟨hsame.scene ▸ h.1, ih h.2⟩

namespace Turn

variable {d : Drift} {e e₁ e' : Errands} {t t₁ t' : Turn}

/-- Part of a turn: the clock stands still, the stations of the hands on the floor stay as they are,
and hands are hired for errands that they may keep. -/
structure Leads (d : Drift) (e : Errands) (t : Turn) (e' : Errands) (t' : Turn) : Prop where
  worker : t'.worker = t.worker
  agree : Errands.AgreeBelow t.floor.stations.length e e'
  stations : t.floor.stations <+: t'.floor.stations
  may : d.may t.floor.scene t'.floor.scene
  now : t'.floor.scene.now = t.floor.scene.now
  sound : t'.floor.Sound d e'

theorem Leads.onward (h : Leads d e t e' t') : Floor.Onward d e t.floor e' t'.floor :=
  .of_grown h.stations h.may h.now h.agree

theorem Leads.trans (h : Leads d e t e₁ t₁) (h' : Leads d e₁ t₁ e' t') : Leads d e t e' t' where
  worker := h'.worker.trans h.worker
  agree := h.agree.trans h'.agree h.stations.length_le
  stations := h.stations.trans h'.stations
  may := d.trans h.may h'.may
  now := h'.now.trans h.now
  sound := h'.sound

/-- What changes neither stations nor errands, and nothing about the scene that takes time. -/
theorem Leads.of_stations (hs : t.floor.Sound d e) (worker : t'.worker = t.worker)
    (stations : t'.floor.stations = t.floor.stations)
    (may : d.may t.floor.scene t'.floor.scene)
    (now : t'.floor.scene.now = t.floor.scene.now) : Leads d e t e t' where
  worker := worker
  agree := .refl _ _
  stations := stations ▸ List.prefix_rfl
  may := may
  now := now
  sound i station hi := by
    rw [stations] at hi
    exact (hs i station hi).mono hi (.of_stations stations may now)

theorem Leads.of_sameWork (hs : t.floor.Sound d e) (h : SameWork t t') : Leads d e t e t' :=
  .of_stations hs h.worker h.stations (h.scene ▸ d.refl _) (congrArg Scene.now h.scene)

theorem Leads.of_act {change : Moment → Moment} (hs : t.floor.Sound d e)
    (h : d.Allows t.moment (change t.moment)) : Leads d e t e (t.act change) := by
  have hscene : (t.act change).floor.scene = (change t.moment).toScene :=
    congrArg Moment.toScene (t.moment_act change)
  refine .of_stations hs rfl (Floor.stations_congr (t.hands_act change)) ?_ ?_
  · rw [hscene]
    exact h.1
  · rw [hscene]
    exact h.2

def errandsAfter (d : Drift) (e : Errands) (n : Nat) (m : Moment)
    (branches : List (Work (Except Fault Unit))) : Errands :=
  { e with
    prospect := fun i =>
      match branches[i - n]? with
      | some work => if i < n then e.prospect i else d.Begins m (work.Reaches d)
      | none => e.prospect i }

theorem errandsAfter_prospect (n : Nat) (m : Moment) (branches : List (Work (Except Fault Unit))) :
    ((List.range branches.length).map (n + ·)).map (errandsAfter d e n m branches).prospect =
      branches.map fun work => d.Begins m (work.Reaches d) := by
  rw [List.map_map]
  apply List.ext_getElem (by simp)
  intro i _ hi
  rw [List.length_map] at hi
  simp [errandsAfter, List.getElem?_eq_getElem hi, Nat.not_lt_of_le (Nat.le_add_right _ i)]

theorem prospect_errandsAfter (d : Drift) (e : Errands) (n : Nat) (m : Moment)
    {branches : List (Work (Except Fault Unit))} {i : Nat} {work : Work (Except Fault Unit)}
    (h : branches[i]? = some work) :
    (errandsAfter d e n m branches).prospect (n + i) = d.Begins m (work.Reaches d) := by
  simp only [errandsAfter, Nat.add_sub_cancel_left, h]
  exact if_neg (Nat.not_lt_of_le (Nat.le_add_right n i))

theorem agree_errandsAfter (n : Nat) (m : Moment) (branches : List (Work (Except Fault Unit))) :
    Errands.AgreeBelow n e (errandsAfter d e n m branches) := by
  intro i hi
  refine ⟨?_, rfl⟩
  simp only [errandsAfter, if_pos hi]
  split <;> rfl

/-- Hands that are hired at a moment have errands that they can keep. -/
theorem sound_of_hired {f : Floor} (f' : Floor) (context : Context)
    {branches : List (Work (Except Fault Unit))} (hs : f.Sound d e)
    (hb : ∀ work ∈ branches, work.Only d.Allows) (hscene : f'.scene = f.scene)
    (hstations : f'.stations = f.stations ++ branches.map (newStation context)) :
    f'.Sound d (errandsAfter d e f.stations.length { f.scene with context } branches) := by
  have hpre : f.stations <+: f'.stations := ⟨_, hstations.symm⟩
  intro i station hi
  by_cases hlt : i < f.stations.length
  · rw [hstations, List.getElem?_append_left hlt] at hi
    exact (hs i station hi).mono hi
      (.of_grown hpre (hscene ▸ d.refl _) (congrArg Scene.now hscene) (agree_errandsAfter _ _ _))
  · rw [hstations, List.getElem?_append_right (Nat.le_of_not_lt hlt), List.getElem?_map] at hi
    obtain ⟨work, hwork, rfl⟩ := Option.map_eq_some_iff.1 hi
    have hprospect : (errandsAfter d e f.stations.length { f.scene with context } branches).prospect
        i = d.Begins { f.scene with context } (work.Reaches d) := by
      simp only [errandsAfter, hwork, if_neg hlt]
    refine .inl
      { isOpen := trivial
        tame := hb work (List.mem_of_getElem? hwork)
        accounts := trivial
        onTime := trivial
        refines := fun r m' hr => ?_ }
    rw [hprospect]
    rw [hscene] at hr
    exact hr

theorem Leads.of_fork {branches : List (Work (Except Fault Unit))} (hs : t.floor.Sound d e)
    (hb : ∀ work ∈ branches, work.Only d.Allows) :
    Leads d e t (errandsAfter d e t.floor.stations.length t.moment branches)
      (t.fork branches).2 where
  worker := rfl
  agree := agree_errandsAfter _ _ _
  stations := ⟨_, (t.stations_fork branches).symm⟩
  may := t.scene_fork branches ▸ d.refl _
  now := congrArg Scene.now (t.scene_fork branches)
  sound := sound_of_hired _ _ hs hb (t.scene_fork branches) (t.stations_fork branches)

structure Carries {α : Type} (d : Drift) (e : Errands) (t : Turn) (goal : Prospect α) (least : Nat)
    (e' : Errands) (th : Thread α) (t' : Turn) : Prop extends Leads d e t e' t' where
  shape : th.IsOpen ∨ ∃ value, th = .ended value
  tame : th.Only d.Allows
  accounts : th.Accounts t'.floor least
  onTime : th.OnTime e' t'.floor
  refines : ∀ r m', th.Reaches d e' t'.moment r m' → goal r m'

namespace Carries

variable {α β : Type} {goal goal' : Prospect α} {least : Nat} {th : Thread α}

theorem after (h : Leads d e t e₁ t₁) (h' : Carries d e₁ t₁ goal least e' th t')
    (hgoal : ∀ r m', goal r m' → goal' r m') : Carries d e t goal' least e' th t' where
  toLeads := h.trans h'.toLeads
  shape := h'.shape
  tame := h'.tame
  accounts := h'.accounts
  onTime := h'.onTime
  refines r m' hr := hgoal r m' (h'.refines r m' hr)

theorem stands (h : Carries d e t goal least e' th t') (hopen : th.IsOpen) :
    th.Reaches d e' t'.moment none t'.moment :=
  th.stands h.sound hopen h.accounts h.onTime

end Carries

/-- The replies of hands that have all ended are as their errands say. -/
theorem replies_of_ended {hands : List Nat} (hs : t.floor.Sound d e)
    (hall : ∀ i ∈ hands, t.floor.hasEnded i = true) :
    ∃ ends : List (Except Fault Unit × Moment),
      List.Forall₂ (fun part (fin : Except Fault Unit × Moment) =>
        part (some fin.1) fin.2 ∧ d.may fin.2.toScene t.floor.scene)
        (hands.map e.prospect) ends ∧
      hands.filterMap t.floor.reply? = ends.map (fun fin => ⟨fin.2.context, fin.1⟩) ∧
      ends.map Prod.snd = hands.map e.finish := by
  induction hands with
  | nil => exact ⟨[], .nil, rfl, rfl⟩
  | cons i hands ih =>
    obtain ⟨ends, hends, hreplies, hfinish⟩ := ih fun j hj => hall j (List.mem_cons_of_mem i hj)
    obtain ⟨context, outcome, hi⟩ := Floor.hasEnded_iff.1 (hall i List.mem_cons_self)
    obtain ⟨hp, hctx, hmay⟩ := hs.of_ended hi
    have hreply : t.floor.reply? i = some ⟨(e.finish i).context, outcome⟩ := by
      rw [Floor.reply?_eq, hi, hctx]
      rfl
    refine ⟨(outcome, e.finish i) :: ends, .cons ⟨hp, hmay⟩ hends, ?_, ?_⟩
    · rw [List.filterMap_cons_some hreply, hreplies, List.map_cons]
    · rw [List.map_cons, List.map_cons, hfinish]

theorem checkLimit_eq_none {depth : Nat} {limit : Limit} {solvent : Bool}
    (h : t.checkLimit depth limit solvent = (none, t')) :
    SameWork t t' ∧ limit.instant ≤ t.now := by
  simp only [checkLimit] at h
  split at h
  · cases h
  · split at h
    next hle =>
      cases h
      exact ⟨(t.sameWork_spend).trans (sameWork_drop _ _), hle⟩
    · split at h <;> cases h

theorem checkLimit_eq_some {depth : Nat} {limit limit' : Limit} {solvent : Bool}
    (h : t.checkLimit depth limit solvent = (some limit', t')) :
    SameWork t t' ∧ limit'.instant = limit.instant := by
  simp only [checkLimit] at h
  split at h
  · cases h
    exact ⟨t.sameWork_giveWay none, rfl⟩
  · split at h
    · cases h
    · split at h <;> cases h
      · exact ⟨.refl t, rfl⟩
      · exact ⟨t.sameWork_setAlarm _ _, rfl⟩

theorem admits_of_wake? {instant : Nat} {interrupts : Interrupts} {wake : Wake}
    (h : t.wake? instant interrupts = some wake) :
    interrupts.Admits instant t.floor.scene wake := by
  simp only [wake?, Bool.and_eq_true] at h
  split at h
  next hc =>
    cases h
    exact hc
  next hc =>
    split at h
    next hd =>
      cases h
      exact ⟨hc, hd⟩
    next hd =>
      split at h
      next hi =>
        cases h
        exact ⟨hc, Bool.eq_false_iff.2 hd, hi⟩
      · cases h

theorem idle_of_wake?_eq_none {instant : Nat} {interrupts : Interrupts}
    (h : t.wake? instant interrupts = none) :
    t.now < instant ∧ (∀ deadline ∈ interrupts.deadline, t.now < deadline) ∧
      (interrupts.cancellable = true → t.floor.scene.cancelled = false) := by
  simp only [wake?, Bool.and_eq_true] at h
  split at h
  · cases h
  next hcancel =>
    split at h
    · cases h
    next hdeadline =>
      split at h
      · cases h
      next hinstant =>
        refine ⟨Nat.lt_of_not_le hinstant, fun deadline hd => Nat.lt_of_not_le fun hle => ?_,
          fun hc => Bool.eq_false_iff.2 fun hcancelled => hcancel ⟨hc, hcancelled⟩⟩
        rw [Option.mem_def] at hd
        rw [hd] at hdeadline
        exact hdeadline (decide_eq_true hle)

end Turn

end Workflow
