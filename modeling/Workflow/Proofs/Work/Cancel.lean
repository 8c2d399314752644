import Workflow.Proofs.Work.Obeys
import Workflow.Proofs.Work.Passes

/-!
# A cancelled run does not wait

If every pause of a run can be cut short by cancellation, then a cancelled run never waits for the
clock: whoever waits does so for a hand that was hired later, and the last of these would have to
rest. So the clock stands still from the cancellation on, and the run ends at that very instant.

What is said of a run is said of all crews that it passes, in the midst of its rounds too.
-/

namespace Workflow

variable {α : Type} {d : Drift} {e : Errands} {owner : Nat → Worker} {f f' : Floor}
  {goal : Prospect α} {side : List (Prospect (Except Fault Unit))} {guests rules : Rules}
  {least : Nat}

namespace Floor

/-- The first `least` hands, which nobody waits for, abide by the rules for guests, all others by
those of the run. -/
structure Abides (guests rules : Rules) (least : Nat) (f : Floor) : Prop where
  room : least ≤ f.stations.length
  hands : ∀ (i : Nat) (station : Station (Except Fault Unit)), f.stations[i]? = some station →
    station.thread.Abides (if i < least then guests else rules) least

theorem Abides.of_stations (h : f.Abides guests rules least)
    (hstations : f'.stations = f.stations) :
    f'.Abides guests rules least where
  room := hstations ▸ h.room
  hands := hstations ▸ h.hands

/-- A turn keeps to the rules if its worker does. -/
theorem Abides.of_hires {rules' : Rules} {t t' : Turn} (h : t.floor.Abides guests rules least)
    (hh : Turn.Hires rules' least t t') (hrules : rules'.forks → rules' = rules) :
    t'.floor.Abides guests rules least where
  room := h.room.trans hh.stations.length_le
  hands i station hget := by
    by_cases hlt : i < t.floor.stations.length
    · obtain ⟨new, hnew⟩ := hh.stations
      rw [← hnew, List.getElem?_append_left hlt] at hget
      exact h.hands i station hget
    · obtain ⟨hforks, hthread⟩ := hh.hired i (Nat.le_of_not_lt hlt) station hget
      have hroom := h.room
      rw [if_neg (by omega), ← hrules hforks]
      exact hthread

theorem Abides.put {station : Station (Except Fault Unit)} {i : Nat}
    (h : f.Abides guests rules least)
    (hi : station.thread.Abides (if i < least then guests else rules) least) :
    (f.put i station).Abides guests rules least where
  room := by
    rw [stations_put, List.length_modify]
    exact h.room
  hands := forall_put h.hands hi

variable (hguests : ¬guests.forks)

include hguests

theorem Abides.turnOf (h : f.Abides guests rules least) (i : Nat) :
    (f.turnOf i).Abides guests rules least := by
  unfold Floor.turnOf
  split
  · exact h
  next hand hhand =>
    have hget : f.stations[i]? = some hand.toStation := by
      rw [stations, List.getElem?_map, hhand]
      rfl
    let t : Turn := { floor := f, worker := .hand i, context := hand.context }
    have hobeys := hand.thread.resume_obeys (h.hands i _ hget) (t := t) h.room 0
    have hturn := h.of_hires (t := t) hobeys.toHires fun hforks => by
      split
      next hlt =>
        rw [if_pos hlt] at hforks
        exact absurd hforks hguests
      next => rfl
    let station : Station (Except Fault Unit) :=
      ⟨(hand.thread.resume 0 t).2.context, (hand.thread.resume 0 t).1⟩
    have hthread : station.thread.Abides (if i < least then guests else rules) least :=
      hobeys.thread
    have hput := hturn.put hthread
    exact hput.of_stations (stations_congr (callsMore_recall _ _ _).hands)

theorem Abides.turns (h : f.Abides guests rules least) (n : Nat) :
    (f.turns n).Abides guests rules least := by
  induction n generalizing f with
  | zero => exact h
  | succ n ih =>
    simp only [Floor.turns]
    split
    · exact h
    next i queue _ =>
      have hpop : { f with queue }.Abides guests rules least := h.of_stations rfl
      exact ih (hpop.turnOf hguests i)

omit hguests in
theorem Abides.close? (h : f.Abides guests rules least) (hclose : f.close? = some f') :
    f'.Abides guests rules least := by
  rcases close?_eq_some hclose with ⟨-, hring⟩ | ⟨-, rfl⟩
  · obtain ⟨instant, ht⟩ := ticks_of_ring? hring
    exact h.of_stations (stations_congr ht.hands)
  · exact h.of_stations (stations_congr f.hands_callYielded)

end Floor

namespace Crew

structure Abides (guests rules : Rules) (least : Nat) (c : Crew α) : Prop where
  floor : c.floor.Abides guests rules least
  lead : c.lead.thread.Abides rules least

variable {c : Crew α} {work : Work α} {beside : List (Work (Except Fault Unit))} {m m' : Moment}

theorem abides_of (hw : ∀ m, work.Abides rules m) (hb : ∀ w ∈ beside, ∀ m, w.Abides guests m) :
    Abides guests rules beside.length (Crew.of work beside m) where
  floor :=
    { room := by rw [stations_of, List.length_map]
      hands := fun i station hget => by
        rw [stations_of, List.getElem?_map] at hget
        obtain ⟨w, hmem, rfl⟩ := Option.map_eq_some_iff.1 hget
        obtain ⟨hlt, -⟩ := List.getElem?_eq_some_iff.1 hmem
        rw [if_pos hlt]
        exact hb w (List.mem_of_getElem? hmem) }
  lead := hw

theorem Abides.leadTurn (h : c.Abides guests rules least) :
    c.leadTurn.Abides guests rules least := by
  unfold Crew.leadTurn
  split
  · let t : Turn :=
      { floor := { c.floor with leadCalled := false }, worker := .lead, context := c.lead.context }
    have hstart : t.floor.Abides guests rules least := h.floor.of_stations rfl
    have hobeys := c.lead.thread.resume_obeys h.lead (t := t) hstart.room 0
    have hturn := hstart.of_hires hobeys.toHires fun _ => rfl
    exact ⟨hturn.of_stations (Floor.stations_congr (Floor.callsMore_recall _ _ _).hands),
      hobeys.thread⟩
  · exact h

end Crew

def Scene.Stands (s s' : Scene) : Prop :=
  s.cancelled = true → s'.cancelled = true ∧ s'.now = s.now

theorem Scene.Stands.trans {s₁ s₂ s₃ : Scene} (h : s₁.Stands s₂) (h' : s₂.Stands s₃) :
    s₁.Stands s₃ := by
  intro hcancelled
  obtain ⟨hcancelled', hnow⟩ := h hcancelled
  obtain ⟨hcancelled'', hnow'⟩ := h' hcancelled'
  exact ⟨hcancelled'', hnow'.trans hnow⟩

/-- A worker that waits in a cancelled run, where no pause withstands cancellation, waits for a
hand. -/
theorem Thread.IsIdle.exists_awaited {th : Thread α} {worker : Worker} {depth least' : Nat}
    (hrests : ∀ interrupts, rules.rests interrupts → interrupts.cancellable = true)
    (hcancelled : f.scene.cancelled = true) (habides : th.Abides rules least) (hopen : th.IsOpen)
    (hnoted : th.Noted owner worker f depth) (hacc : th.Accounts f least')
    (hidle : th.IsIdle worker f) :
    ∃ i, least ≤ i ∧ least' ≤ i ∧ f.IsBusy i := by
  induction th generalizing depth with
  | ended value => cases hopen
  | ready work => cases hidle
  | resting instant interrupts next =>
    have hnot := hidle.2.2 (hrests interrupts habides.1)
    rw [hcancelled] at hnot
    cases hnot
  | joining join next =>
    obtain ⟨i, hi⟩ := List.exists_mem_of_ne_nil _ hnoted.1
    obtain ⟨hle, hlt, -⟩ := hacc i (hnoted.2.subset hi)
    exact ⟨i, habides.1 i hi, hle, hlt, (hidle i hi).1⟩
  | within limit inner next ih => exact ih habides.1 hopen hnoted.2 hacc hidle.2.2

namespace Crew

variable {c : Crew α} {m m' : Moment} {value : α} {fuel : Nat}
  (hrests : ∀ interrupts, rules.rests interrupts → interrupts.cancellable = true)

include hrests

/-- When all wait for the clock, the run has not been cancelled: whoever waited in a cancelled run
would do so for a hand that was hired later. -/
theorem Pursues.not_cancelled (h : c.Pursues d goal side e owner)
    (habides : c.Abides guests rules least) (hcalm : c.floor.IsCalm) :
    c.floor.scene.cancelled = false := by
  by_contra hnot
  rw [Bool.not_eq_false] at hnot
  have hnone : ∀ i ≥ least, ¬c.floor.IsBusy i := by
    apply Floor.not_all_wait
    intro i hi ⟨hlt, hended⟩
    have hget := List.getElem?_eq_getElem hlt
    have hat := h.sound.isOpen hget hended
    have hrules := habides.floor.hands i _ hget
    rw [if_neg (Nat.not_lt_of_le hi)] at hrules
    obtain ⟨j, -, hij, hbusy⟩ := (h.hand_idle hcalm hget hat).exists_awaited hrests hnot hrules
      hat.isOpen (h.hand_noted hget) hat.accounts
    exact ⟨j, hij, hbusy⟩
  obtain ⟨i, hi, -, hbusy⟩ := (h.lead_idle hcalm).exists_awaited hrests hnot habides.lead
    h.lead.isOpen h.minded.noted h.lead.accounts
  exact hnone i hi hbusy

omit hrests in
theorem Abides.turns (h : c.Abides guests rules least) (hguests : ¬guests.forks) (n : Nat) :
    Crew.Abides guests rules least { c with floor := c.floor.turns n } :=
  ⟨h.floor.turns hguests n, h.lead⟩

/-- In the rest of a round of a cancelled run the clock stands still; so it has not moved to an
instant at which the run is cancelled. -/
theorem Pursues.closes (h : c.Pursues d goal side e owner) (habides : c.Abides guests rules least)
    (hguests : ¬guests.forks) {n : Nat} (hclose : (c.floor.turns n).close? = some f') :
    (∃ e' owner', Pursues d goal side e' owner' { c with floor := f' }) ∧
      Crew.Abides guests rules least { c with floor := f' } ∧
      c.floor.scene.Stands f'.scene ∧
      (f'.scene.now = c.floor.scene.now ∨ f'.scene.cancelled = false) := by
  obtain ⟨e', owner', hturns, honward⟩ := h.turns n
  have habides' := habides.turns hguests n
  have hrules : Crew.Abides guests rules least { c with floor := f' } :=
    ⟨habides'.floor.close? hclose, habides'.lead⟩
  refine ⟨⟨e', owner', hturns.close? hclose⟩, hrules, ?_⟩
  have hstays := d.cancelled honward.may
  rcases Floor.close?_eq_some hclose with ⟨hcalm, hring⟩ | ⟨-, rfl⟩
  · have hnot := hturns.not_cancelled hrests habides' hcalm
    obtain ⟨instant, ht⟩ := Floor.ticks_of_ring? hring
    refine ⟨fun hcancelled => ?_, .inr (ht.cancelled.trans hnot)⟩
    rw [hstays hcancelled] at hnot
    cases hnot
  · rw [Floor.scene_callYielded]
    exact ⟨fun hcancelled => ⟨hstays hcancelled, honward.now⟩, .inl honward.now⟩

theorem stands_of_run (hc : Goes d goal side c.floor.scene c.leadTurn)
    (habides : c.Abides guests rules least) (hguests : ¬guests.forks)
    (h : c.run fuel = some (value, m')) : c.floor.scene.Stands m'.toScene := by
  induction fuel generalizing c with
  | zero => cases h
  | succ fuel ih =>
    have hlead : c.floor.scene.Stands c.leadTurn.floor.scene := fun hcancelled =>
      ⟨d.cancelled hc.may hcancelled, hc.now⟩
    simp only [run] at h
    rcases hc.goes with ⟨e, owner, hpursues⟩ | ⟨value', hended, -⟩
    · split at h
      next hended =>
        have hopen := hpursues.lead.isOpen
        rw [hended] at hopen
        exact hopen.elim
      · split at h
        next floor hround =>
          obtain ⟨⟨e', owner', hnext⟩, habides', hstands, -⟩ :=
            hpursues.closes hrests habides.leadTurn hguests hround
          exact hlead.trans (hstands.trans (ih hnext.leadTurn habides' h))
        · cases h
    · rw [hended] at h
      cases h
      exact hlead

/-- From the cancellation on the clock stands still. -/
theorem Pursues.stands (h : c.Pursues d goal side e owner) (habides : c.Abides guests rules least)
    (hguests : ¬guests.forks) (hends : c.Ends value m') : c.floor.scene.Stands m'.toScene := by
  rcases hends with ⟨fuel, hrun⟩ | ⟨n, floor, fuel, hclose, hrun⟩
  · exact stands_of_run hrests h.leadTurn habides hguests hrun
  · obtain ⟨⟨e', owner', hnext⟩, habides', hstands, -⟩ := h.closes hrests habides hguests hclose
    exact hstands.trans (stands_of_run hrests hnext.leadTurn habides' hguests hrun)

end Crew

def Rules.ofGuests : Rules where
  rests _ := True
  forks := False
  acts _ _ := True

namespace Work

variable {span : Span} {m m' : Moment}

theorem now_le_of_cancelAfter (h : d.Begins m ((cancelAfter span).Reaches d) none m') :
    m'.now ≤ m.now + span.pauseTicks := by
  obtain ⟨s, -, hnow, ⟨-, rfl⟩ | ⟨s', -, hlasts, ⟨-, rfl⟩ | ⟨wake, -, hnone, -⟩⟩⟩ := h
  · exact hnow.le.trans (Nat.le_add_right _ _)
  · have hnow' : (m.within s).now = m.now := hnow
    rcases hlasts with hlast | ⟨hlast, -⟩
    · exact (hlast.trans hnow).le.trans (Nat.le_add_right _ _)
    · rw [← hnow']
      exact hlast
  · cases hnone

theorem cancelled_of_cancelAfter {outcome : Except Fault Unit}
    (h : d.Begins m ((cancelAfter span).Reaches d) (some outcome) m') : m'.cancelled = true := by
  obtain ⟨s, -, -, ⟨hnone, -⟩ | ⟨s', -, -, ⟨hnone, -⟩ | ⟨wake, -, -, rfl⟩⟩⟩ := h
  · cases hnone
  · cases hnone
  · rfl

end Work

namespace Crew

variable {c c₀ p : Crew α} {m m' : Moment} {value : α} {fuel : Nat} {span : Span} {work : Work α}

open Work

/-- As long as the run has not been cancelled, it is not too late for that. -/
theorem Pursues.now_le (h : c.Pursues d goal (sideOf d [cancelAfter span] m) e owner)
    (hnot : c.floor.scene.cancelled = false) : c.floor.scene.now ≤ m.now + span.pauseTicks := by
  obtain ⟨hlt, hprospect⟩ := h.serve 0 _ rfl
  cases hended : c.floor.hasEnded 0 with
  | false =>
    obtain ⟨m₁, hbusy, hnow⟩ := h.sound.busy hlt hended
    rw [hprospect] at hbusy
    exact hnow ▸ now_le_of_cancelAfter hbusy
  | true =>
    obtain ⟨context, outcome, hget⟩ := Floor.hasEnded_iff.1 hended
    obtain ⟨hfinish, -, hmay⟩ := h.sound.of_ended hget
    rw [hprospect] at hfinish
    rw [d.cancelled hmay (cancelled_of_cancelAfter hfinish)] at hnot
    cases hnot

structure Timely (d : Drift) (goal : Prospect α) (span : Span) (m : Moment) (rules : Rules)
    (c : Crew α) : Prop where
  goes : Goes d goal (sideOf d [cancelAfter span] m) c.floor.scene c.leadTurn
  abides : c.Abides .ofGuests rules 1
  now : c.floor.scene.now ≤ m.now + span.pauseTicks

theorem timely_of (hw : work.Only d.Allows) (hcancel : ∀ m : Moment, d.Allows m m.cancel)
    (habides : ∀ m, work.Abides rules m) :
    Timely d (work.Reaches d m) span m rules (Crew.of work [cancelAfter span] m) where
  goes := by
    apply goes_of hw
    intro w hmem
    obtain rfl := List.mem_singleton.1 hmem
    exact fun _ m => ⟨hcancel m, trivial⟩
  abides := by
    change Crew.Abides .ofGuests rules [cancelAfter span].length _
    apply abides_of habides
    intro w hmem m
    obtain rfl := List.mem_singleton.1 hmem
    exact ⟨trivial, fun _ _ => ⟨trivial, trivial⟩⟩
  now := by
    rw [scene_of]
    exact Nat.le_add_right _ _

theorem Timely.lead (h : Timely d goal span m rules c)
    (hopen : ∀ value, c.leadTurn.lead.thread ≠ .ended value) :
    ∃ e owner, c.leadTurn.Pursues d goal (sideOf d [cancelAfter span] m) e owner := by
  refine h.goes.goes.resolve_right ?_
  rintro ⟨value, hended, -⟩
  exact hopen value hended

theorem Timely.run (h : Timely d goal span m rules c) (hrun : c.run fuel = some (value, m')) :
    goal (some value) m' :=
  run_of_goes h.goes hrun

variable (hrests : ∀ interrupts, rules.rests interrupts → interrupts.cancellable = true)

include hrests

/-- At the end of a round it is not too late for the cancellation. -/
theorem Timely.next (h : Timely d goal span m rules c)
    (hopen : ∀ value, c.leadTurn.lead.thread ≠ .ended value)
    (hround : c.leadTurn.floor.round? = some f') :
    (∃ e owner, Pursues d goal (sideOf d [cancelAfter span] m) e owner
        { c.leadTurn with floor := f' }) ∧
      Timely d goal span m rules { c.leadTurn with floor := f' } := by
  obtain ⟨e, owner, hpursues⟩ := h.lead hopen
  obtain ⟨⟨e', owner', hnext⟩, habides, -, hnow⟩ :=
    hpursues.closes hrests h.abides.leadTurn id hround
  refine ⟨⟨e', owner', hnext⟩, hnext.leadTurn, habides, ?_⟩
  rcases hnow with hnow | hnot
  · exact (hnow.trans h.goes.now).le.trans h.now
  · exact hnext.now_le hnot

theorem Timely.rounds (h : Timely d goal span m rules c₀) (hc : Rounds c₀ c) :
    (c = c₀ ∨ ∃ e owner, c.Pursues d goal (sideOf d [cancelAfter span] m) e owner) ∧
      Timely d goal span m rules c := by
  induction hc with
  | first => exact ⟨.inl rfl, h⟩
  | next _ hopen hround ih =>
    obtain ⟨hpursues, htimely⟩ := ih.2.next hrests hopen hround
    exact ⟨.inr hpursues, htimely⟩

/-- In the course of the run the crew still pursues its work, and it is not too late for the
cancellation. -/
theorem Timely.passes (h : Timely d goal span m rules c₀) (hp : Passes c₀ p) :
    (p = c₀ ∨ ∃ e owner, p.Pursues d goal (sideOf d [cancelAfter span] m) e owner) ∧
      p.Abides .ofGuests rules 1 ∧ p.floor.scene.now ≤ m.now + span.pauseTicks := by
  obtain ⟨c, hrounds, rfl | ⟨hopen, n, -, rfl⟩⟩ := hp
  · obtain ⟨hcases, htimely⟩ := h.rounds hrests hrounds
    exact ⟨hcases, htimely.abides, htimely.now⟩
  · obtain ⟨-, htimely⟩ := h.rounds hrests hrounds
    obtain ⟨e, owner, hpursues⟩ := htimely.lead hopen
    obtain ⟨e', owner', hturns, honward⟩ := hpursues.turns n
    refine ⟨.inr ⟨e', owner', hturns⟩, htimely.abides.leadTurn.turns id n, ?_⟩
    exact (honward.now.trans htimely.goes.now).le.trans htimely.now

theorem Timely.now_le_of_run (h : Timely d goal span m rules c)
    (hrun : c.run fuel = some (value, m')) : m'.now ≤ m.now + span.pauseTicks := by
  induction fuel generalizing c with
  | zero => cases hrun
  | succ fuel ih =>
    have hlead : c.leadTurn.floor.scene.now ≤ m.now + span.pauseTicks := h.goes.now ▸ h.now
    simp only [Crew.run] at hrun
    split at hrun
    · cases hrun
      exact hlead
    next hopen =>
      split at hrun
      next floor hround => exact ih (h.next hrests hopen hround).2 hrun
      · cases hrun

end Crew

/-- A run that is cancelled after some time ends by then. From the cancellation on its clock stands
still, and whatever it does is done by the rules. -/
theorem Work.carryOut_cancelled {work : Work α} {m m' : Moment} {value : α} {n fuel : Nat}
    (hw : work.Only d.Allows) (hcancel : ∀ m : Moment, d.Allows m m.cancel)
    (habides : ∀ m, work.Abides rules m) (hchain : rules.Chain d)
    (hrests : ∀ interrupts, rules.rests interrupts → interrupts.cancellable = true)
    (h : work.carryOut fuel (some n) m = some (value, m')) :
    m'.now ≤ m.now + n ∧
      ∀ p, (Crew.of work [cancelAfter (.ofMillis n)] m).Passes p →
        p.moment.now ≤ m.now + n ∧ p.moment.Stands m'.toScene ∧ rules.acts p.moment m' := by
  have htimely : Crew.Timely d (work.Reaches d m) (.ofMillis n) m rules _ :=
    Crew.timely_of hw hcancel habides
  have hspan : m.now + (Span.ofMillis n).pauseTicks ≤ m.now + n := by
    rw [Span.pauseTicks, Span.ticks_ofMillis]
    omega
  refine ⟨(htimely.now_le_of_run hrests h).trans hspan, fun p hp => ?_⟩
  obtain ⟨hcases, hrules, hnow⟩ := htimely.passes hrests hp
  refine ⟨hnow.trans hspan, ?_⟩
  rcases hcases with rfl | ⟨e, owner, hpursues⟩
  · refine ⟨Crew.stands_of_run hrests htimely.goes htimely.abides id h, ?_⟩
    have hmoment : (Crew.of work [cancelAfter (.ofMillis n)] m).moment = m :=
      congrArg m.within Crew.scene_of
    rw [hmoment]
    exact (habides m).acts hchain (htimely.run h)
  · have hends := hp.ends h
    refine ⟨hpursues.stands hrests hrules id hends, ?_⟩
    exact hrules.lead.acts hchain (hpursues.rest.of_ends hends)

end Workflow
