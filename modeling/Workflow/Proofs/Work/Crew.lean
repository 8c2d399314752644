import Workflow.Proofs.Work.Clock
import Workflow.Proofs.Work.Hands

/-!
# A crew carries out its work

Whatever a crew does in its rounds, the lead pursues the work of the run and each hand its errand,
and nobody is forgotten. So a run ends only in a way that its work may end: `Crew.run_reaches`.
-/

namespace Workflow

variable {α : Type} {d : Drift} {e e' : Errands} {owner owner' : Nat → Worker} {f f' : Floor}
  {goal : Prospect α} {side : List (Prospect (Except Fault Unit))}

def Errands.Serve (side : List (Prospect (Except Fault Unit))) (e : Errands) (f : Floor) : Prop :=
  ∀ (i : Nat) (p : Prospect (Except Fault Unit)),
    side[i]? = some p → i < f.stations.length ∧ e.prospect i = p

theorem Errands.Serve.mono (h : e.Serve side f) (ho : Floor.Onward d e f e' f') :
    e'.Serve side f' := by
  intro i p hp
  obtain ⟨hlt, hprospect⟩ := h i p hp
  exact ⟨hlt.trans_le ho.length, (ho.prospect i hlt).trans hprospect⟩

namespace Floor

structure IsCalm (f : Floor) : Prop where
  queue : f.queue = []
  yielded : f.yielded = []
  lead : f.leadCalled = false

theorem IsCalm.isCalled_of_stirs (h : f.IsCalm) {worker : Worker} (hs : f.Stirs worker) :
    f.IsCalled worker := by
  refine hs.resolve_right ?_
  rintro ⟨call, hcall, -⟩
  rw [h.yielded] at hcall
  cases hcall

def IsBusy (f : Floor) (i : Nat) : Prop :=
  i < f.stations.length ∧ f.hasEnded i = false

/-- Not all hands that are at work wait for hands that have been hired later. -/
theorem not_all_wait {least : Nat} (h : ∀ i ≥ least, f.IsBusy i → ∃ j > i, f.IsBusy j) :
    ∀ i ≥ least, ¬f.IsBusy i := by
  -- The induction is downwards, on how many hands there are behind this one.
  intro i
  induction hk : f.stations.length - i using Nat.strong_induction_on generalizing i with
  | _ k ih =>
    intro hi hbusy
    obtain ⟨j, hj, hbusy'⟩ := h i hi hbusy
    have hlt := hbusy.1
    exact ih (f.stations.length - j) (by omega) j rfl (by omega) hbusy'

def close? (f : Floor) : Option Floor :=
  if f.queue.isEmpty && f.yielded.isEmpty && !f.leadCalled then f.ring? else some f.callYielded

theorem round?_eq (f : Floor) : f.round? = (f.turns 61).close? := rfl

theorem close?_eq_some (h : f.close? = some f') :
    f.IsCalm ∧ f.ring? = some f' ∨ ¬f.IsCalm ∧ f' = f.callYielded := by
  rw [close?] at h
  split at h
  next hcalm =>
    rw [Bool.and_eq_true, Bool.and_eq_true, List.isEmpty_iff, List.isEmpty_iff,
      Bool.not_eq_true'] at hcalm
    exact .inl ⟨⟨hcalm.1.1, hcalm.1.2, hcalm.2⟩, h⟩
  next hcalm =>
    cases h
    refine .inr ⟨fun ⟨hqueue, hyielded, hlead⟩ => hcalm ?_, rfl⟩
    rw [hqueue, hyielded, hlead]
    rfl

end Floor

namespace Crew

/-- The lead pursues the work of the run, and the hands their errands, and nobody is forgotten. -/
structure Pursues (d : Drift) (goal : Prospect α) (side : List (Prospect (Except Fault Unit)))
    (e : Errands) (owner : Nat → Worker) (c : Crew α) : Prop where
  sound : c.floor.Sound d e
  lead : c.lead.Pursues d e c.floor goal 0
  attends : c.floor.Attends owner .lead
  minded : c.lead.thread.Minded owner .lead c.floor
  serve : e.Serve side c.floor

variable {c : Crew α} {m m' : Moment} {work : Work α} {beside : List (Work (Except Fault Unit))}
  {value : α} {fuel : Nat} {s : Scene}

theorem Pursues.advance (h : c.Pursues d goal side e owner)
    (ha : Floor.Advances d e owner c.floor e' owner' f') :
    Pursues d goal side e' owner' { c with floor := f' } where
  sound := ha.sound
  lead := h.lead.mono ha.onward
  attends := ha.attends
  minded := h.minded.mono ha.spares ha.owners
  serve := h.serve.mono ha.onward

theorem Pursues.lead_idle (h : c.Pursues d goal side e owner) (hcalm : c.floor.IsCalm) :
    c.lead.thread.IsIdle .lead c.floor := by
  refine h.minded.idle.resolve_left fun hs => ?_
  have hcalled : c.floor.leadCalled = true := hcalm.isCalled_of_stirs hs
  rw [hcalm.lead] at hcalled
  cases hcalled

theorem Pursues.hand_idle (h : c.Pursues d goal side e owner) (hcalm : c.floor.IsCalm) {i : Nat}
    {station : Station (Except Fault Unit)} (hi : c.floor.stations[i]? = some station)
    (hat : station.Pursues d e c.floor (e.prospect i) (i + 1)) :
    station.thread.IsIdle (.hand i) c.floor := by
  refine (h.attends.minded i station hi (by rintro ⟨⟩)).idle.resolve_left fun hs => ?_
  rcases hcalm.isCalled_of_stirs hs with hmem | hended
  · rw [hcalm.queue] at hmem
    cases hmem
  · rw [hat.hasEnded hi] at hended
    cases hended

theorem Pursues.hand_noted (h : c.Pursues d goal side e owner) {i : Nat}
    {station : Station (Except Fault Unit)} (hi : c.floor.stations[i]? = some station) :
    station.thread.Noted owner (.hand i) c.floor 0 :=
  (h.attends.minded i station hi (by rintro ⟨⟩)).noted

/-- When nobody has been called, all wait for the clock. -/
theorem Pursues.tick {instant : Nat} (h : c.Pursues d goal side e owner) (hcalm : c.floor.IsCalm)
    (ht : Floor.Ticks c.floor f' instant) : Pursues d goal side e owner { c with floor := f' } := by
  have hidle := h.lead_idle hcalm
  have hstations : f'.stations = c.floor.stations := Floor.stations_congr ht.hands
  refine
    { sound := fun i station hi => ?_
      lead := h.lead.tick ht h.minded.noted hidle
      attends := ⟨ht.orderly h.attends.orderly, fun i station hi _ => ?_⟩
      minded := .tick ht h.minded.noted hidle
      serve := fun i p hp => hstations ▸ h.serve i p hp }
  · rw [hstations] at hi
    rcases h.sound i station hi with hat | hleft
    · exact .inl (hat.tick ht (h.hand_noted hi) (h.hand_idle hcalm hi hat))
    · exact .inr (hleft.mono (ht.may d) rfl rfl)
  · rw [hstations] at hi
    rcases h.sound i station hi with hat | ⟨⟨outcome, hended, -⟩, -, -⟩
    · exact .tick ht (h.hand_noted hi) (h.hand_idle hcalm hi hat)
    · rw [hended]
      exact ⟨trivial, .inr trivial⟩

theorem Pursues.turns (h : c.Pursues d goal side e owner) (n : Nat) :
    ∃ e' owner', Pursues d goal side e' owner' { c with floor := c.floor.turns n } ∧
      Floor.Onward d e c.floor e' (c.floor.turns n) := by
  obtain ⟨e', owner', hturns⟩ := h.sound.turns h.attends n
  exact ⟨e', owner', h.advance hturns, hturns.onward⟩

theorem Pursues.callYielded (h : c.Pursues d goal side e owner) :
    Pursues d goal side e owner { c with floor := c.floor.callYielded } := by
  have hstations := Floor.stations_congr (Floor.hands_callYielded c.floor)
  refine h.advance (.of_stations h.sound (h.attends.mono hstations ?_ ?_) hstations
    (Floor.scene_callYielded _) (Floor.spares_callYielded _ _))
  · exact Floor.orderly_callYielded _ h.attends.orderly
  · exact fun worker _ => Floor.spares_callYielded _ worker

/-- At the end of a round the clock moves, if nobody can go on. -/
theorem Pursues.close? (h : c.Pursues d goal side e owner) (hclose : c.floor.close? = some f') :
    Pursues d goal side e owner { c with floor := f' } := by
  rcases Floor.close?_eq_some hclose with ⟨hcalm, hring⟩ | ⟨-, rfl⟩
  · obtain ⟨instant, ht⟩ := Floor.ticks_of_ring? hring
    exact h.tick hcalm ht
  · exact h.callYielded

theorem Pursues.round? (h : c.Pursues d goal side e owner) (hround : c.floor.round? = some f') :
    ∃ e' owner', Pursues d goal side e' owner' { c with floor := f' } := by
  obtain ⟨e', owner', hturns, -⟩ := h.turns 61
  exact ⟨e', owner', hturns.close? hround⟩

structure Goes (d : Drift) (goal : Prospect α) (side : List (Prospect (Except Fault Unit)))
    (s : Scene) (c : Crew α) : Prop where
  may : d.may s c.floor.scene
  now : c.floor.scene.now = s.now
  goes : (∃ e owner, c.Pursues d goal side e owner) ∨
    ∃ value, c.lead.thread = .ended value ∧ goal (some value) c.moment

theorem goes_of_works {lead : Station α} {floor : Floor} {again : Bool}
    (h : lead.Works d e owner .lead f goal 0 e' owner' again floor) (hserve : e.Serve side f) :
    Goes d goal side f.scene { floor := if again then floor.call .lead else floor, lead } := by
  have hcalls := floor.callsMore_recall again .lead
  have hstations := Floor.stations_congr hcalls.hands
  have hspares := hcalls.spares .lead
  refine ⟨hcalls.scene ▸ h.onward.may, (congrArg Scene.now hcalls.scene).trans h.onward.now, ?_⟩
  rcases h.goes with hat | ⟨value, hended, hgoal⟩
  · have hrecall : Floor.Onward d e' floor e' (if again then floor.call .lead else floor) :=
      .of_stations hstations (hcalls.scene ▸ d.refl _) (congrArg Scene.now hcalls.scene)
    refine .inl ⟨e', owner',
      { sound := h.sound.of_stations hstations hcalls.scene
        lead := hat.mono hrecall
        serve := hserve.mono (h.onward.trans hrecall)
        attends := h.attends.mono hstations (hcalls.orderly h.attends.orderly)
          fun worker _ => hcalls.spares worker
        minded := ⟨h.noted.mono hspares (.of_stations hstations), ?_⟩ }⟩
    rcases h.idle with (rfl | hstirs) | hidle
    · exact .inl (.inl (floor.isCalled_call .lead))
    · exact .inl (hspares.stirs hstirs)
    · exact (hidle.mono hspares h.noted).imp_left .inl
  · refine .inr ⟨value, hended, ?_⟩
    rw [moment, hcalls.scene]
    exact hgoal

theorem stations_of :
    (Crew.of work beside m).floor.stations = beside.map (Turn.newStation m.context) :=
  (Turn.hire_foldl m.context beside _).2

theorem scene_of : (Crew.of work beside m).floor.scene = m.toScene :=
  (Turn.hire_foldl m.context beside _).1

theorem leadCalled_of : (Crew.of work beside m).floor.leadCalled = true :=
  ((Floor.hires { scene := m.toScene } m.context beside).spares .lead).called rfl

/-- All that is done beside the run is called at once. -/
theorem attends_of :
    { (Crew.of work beside m).floor with leadCalled := false }.Attends (fun _ => .lead) .lead := by
  have hhires := Floor.hires { scene := m.toScene } m.context beside
  refine ⟨⟨fun worker i hi => ?_, fun worker i hi => ?_, fun worker i hi => ?_⟩,
    fun i station hi _ => ?_⟩
  · have hmem := hhires.news ▸ hi
    cases hmem
  · have hmem := hhires.yielded ▸ hi
    cases hmem
  · cases hhires.clients i worker hi
  · have hi' : (Crew.of work beside m).floor.stations[i]? = some station := hi
    have hcalled := hhires.called i (Nat.zero_le _) (by
      rw [← Floor.length_stations]
      exact (List.getElem?_eq_some_iff.1 hi').1)
    rw [stations_of, List.getElem?_map] at hi'
    obtain ⟨w, -, rfl⟩ := Option.map_eq_some_iff.1 hi'
    exact ⟨trivial, .inl (.inl hcalled)⟩

def sideOf (d : Drift) (beside : List (Work (Except Fault Unit))) (m : Moment) :
    List (Prospect (Except Fault Unit)) :=
  beside.map fun work => d.Begins m (work.Reaches d)

/-- A crew begins with the work at the very moment from which it is carried out. -/
theorem goes_of (hw : work.Only d.Allows) (hb : ∀ w ∈ beside, w.Only d.Allows) :
    Goes d (work.Reaches d m) (sideOf d beside m) (Crew.of work beside m).floor.scene
      (Crew.of work beside m).leadTurn := by
  let nobody : Floor := { scene := m.toScene }
  let e : Errands := ⟨fun _ _ _ => False, fun _ => m⟩
  have hnobody : nobody.Sound d e := fun i station hi => by cases hi
  let t : Turn :=
    { floor := { (Crew.of work beside m).floor with leadCalled := false }
      worker := .lead, context := m.context }
  have hs : t.floor.Sound d (Turn.errandsAfter d e 0 m beside) :=
    Turn.sound_of_hired t.floor m.context hnobody hb scene_of stations_of
  have hmoment : t.moment = m := congrArg m.within scene_of
  have ha : t.floor.Attends (fun _ => .lead) .lead := attends_of
  have hserve : (Turn.errandsAfter d e 0 m beside).Serve (sideOf d beside m) t.floor := by
    intro i p hp
    rw [sideOf, List.getElem?_map] at hp
    obtain ⟨w, hmem, rfl⟩ := Option.map_eq_some_iff.1 hp
    obtain ⟨hlt, -⟩ := List.getElem?_eq_some_iff.1 hmem
    have hprospect := Turn.prospect_errandsAfter d e 0 m hmem
    rw [Nat.zero_add] at hprospect
    refine ⟨?_, hprospect⟩
    rw [show t.floor.stations = _ from stations_of, List.length_map]
    exact hlt
  obtain ⟨e', hc⟩ := work.proceed_carries hw 0 hs (Nat.zero_le _)
  obtain ⟨owner', hh⟩ := work.proceed_heeds hw 0 ha.orderly
  rw [hmoment] at hc
  rw [leadTurn, leadCalled_of, if_pos rfl]
  have hgoes := goes_of_works (Station.works_of_carries hc (fun _ _ h => h) hh ha) hserve
  exact hgoes

theorem Pursues.leadTurn (h : c.Pursues d goal side e owner) :
    Goes d goal side c.floor.scene c.leadTurn := by
  unfold Crew.leadTurn
  split
  · have hstations : { c.floor with leadCalled := false }.stations = c.floor.stations := rfl
    have hlead := h.lead.mono (Floor.Onward.of_stations hstations (d.refl _) rfl)
    have hattends := h.attends.mono hstations
      ⟨h.attends.orderly.news, h.attends.orderly.yielded, h.attends.orderly.clients⟩
      fun worker hne => Floor.spares_leadTurn hne
    obtain ⟨e', owner', hworks⟩ := hlead.work (h.sound.of_stations hstations rfl) (Nat.zero_le _)
      hattends (h.minded.noted.uncall c.floor.queue false)
    have hgoes := goes_of_works hworks h.serve
    exact hgoes
  · exact ⟨d.refl _, rfl, .inl ⟨e, owner, h⟩⟩

theorem run_of_goes (hc : Goes d goal side s c.leadTurn) (h : c.run fuel = some (value, m')) :
    goal (some value) m' := by
  induction fuel generalizing c s with
  | zero => cases h
  | succ fuel ih =>
    simp only [run] at h
    rcases hc.goes with ⟨e, owner, hpursues⟩ | ⟨value', hended, hgoal⟩
    · split at h
      next hended =>
        have hopen := hpursues.lead.isOpen
        rw [hended] at hopen
        exact hopen.elim
      · split at h
        next floor hround =>
          obtain ⟨e', owner', hnext⟩ := hpursues.round? hround
          exact ih hnext.leadTurn h
        · cases h
    · rw [hended] at h
      cases h
      exact hgoal

/-- A run of a crew ends only in a way that its work may end. -/
theorem run_reaches (hw : work.Only d.Allows) (hb : ∀ w ∈ beside, w.Only d.Allows)
    (h : (Crew.of work beside m).run fuel = some (value, m')) :
    work.Reaches d m (some value) m' :=
  run_of_goes (goes_of hw hb) h

end Crew

variable {value : α} {work : Work α} {m m' : Moment} {fuel : Nat}

/-- Work that is carried out ends only in a way that it may end. -/
theorem Work.reaches_of_carryOut {cancelAt : Option Nat} (hw : work.Only d.Allows)
    (hcancel : ∀ n ∈ cancelAt, ∀ m : Moment, d.Allows m m.cancel)
    (h : work.carryOut fuel cancelAt m = some (value, m')) : work.Reaches d m (some value) m' := by
  refine Crew.run_reaches hw (fun w hmem => ?_) h
  obtain ⟨n, hn, rfl⟩ := List.mem_map.1 hmem
  exact fun _ m => ⟨hcancel n (Option.mem_toList.1 hn) m, trivial⟩

end Workflow
