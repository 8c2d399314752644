import Workflow.Proofs.Work.Heeds

/-!
# Hands in their turns

When hands have their turns, each goes on with the errand that it was hired for, and nobody is
forgotten.
-/

namespace Workflow

variable {α : Type} {d : Drift} {e e₁ e' : Errands} {owner owner₁ owner' : Nat → Worker}
  {f f₁ f' : Floor} {goal : Prospect α} {least i : Nat} {absent worker : Worker}

def Errands.ending (e : Errands) (i : Nat) (m : Moment) : Errands :=
  { e with finish := fun j => if j = i then m else e.finish j }

namespace Floor

theorem KeepsOwners.trans (h : KeepsOwners owner f owner₁ f₁)
    (h' : KeepsOwners owner₁ f₁ owner' f') : KeepsOwners owner f owner' f' where
  length := h.length.trans h'.length
  owner i hi := (h'.owner i (hi.trans_le h.length)).trans (h.owner i hi)

theorem KeepsOwners.of_stations (h : f'.stations = f.stations) : KeepsOwners owner f owner f' := by
  refine ⟨?_, fun _ _ => rfl⟩
  rw [← length_stations, ← length_stations, h]

/-- None of the hands has been forgotten, but perhaps the one that is absent for its turn. -/
structure Attends (owner : Nat → Worker) (absent : Worker) (f : Floor) : Prop where
  orderly : f.Orderly owner
  minded : ∀ i station, f.stations[i]? = some station → .hand i ≠ absent →
    station.thread.Minded owner (.hand i) f

theorem Attends.mono (h : f.Attends owner absent) (hstations : f'.stations = f.stations)
    (ho : f'.Orderly owner) (hspares : ∀ worker ≠ absent, Spares worker f f') :
    f'.Attends owner absent where
  orderly := ho
  minded i station hi hne := by
    rw [hstations] at hi
    exact (h.minded i station hi hne).mono (hspares _ hne) (.of_stations hstations)

/-- The hand is back from its turn. -/
theorem Attends.back (h : f.Attends owner (.hand i))
    (hi : ∀ station, f.stations[i]? = some station →
      station.thread.Minded owner (.hand i) f) : f.Attends owner .lead where
  orderly := h.orderly
  minded j station hj _ := by
    by_cases hij : i = j
    · subst hij
      exact hi station hj
    · exact h.minded j station hj fun heq => hij (Worker.hand.inj heq).symm

structure Advances (d : Drift) (e : Errands) (owner : Nat → Worker) (f : Floor) (e' : Errands)
    (owner' : Nat → Worker) (f' : Floor) : Prop where
  sound : f'.Sound d e'
  onward : Onward d e f e' f'
  attends : f'.Attends owner' .lead
  owners : KeepsOwners owner f owner' f'
  spares : Spares .lead f f'

theorem Advances.trans (h : Advances d e owner f e₁ owner₁ f₁)
    (h' : Advances d e₁ owner₁ f₁ e' owner' f') : Advances d e owner f e' owner' f' where
  sound := h'.sound
  onward := h.onward.trans h'.onward
  attends := h'.attends
  owners := h.owners.trans h'.owners
  spares := h.spares.trans h'.spares

theorem Sound.of_stations (h : f.Sound d e) (hstations : f'.stations = f.stations)
    (hscene : f'.scene = f.scene) : f'.Sound d e := fun i station hi => by
  rw [hstations] at hi
  exact (h i station hi).mono hi
    (.of_stations hstations (hscene ▸ d.refl _) (congrArg Scene.now hscene))

theorem Advances.of_stations (hs : f.Sound d e) (ha : f'.Attends owner .lead)
    (hstations : f'.stations = f.stations) (hscene : f'.scene = f.scene)
    (hspares : Spares .lead f f') : Advances d e owner f e owner f' where
  sound := hs.of_stations hstations hscene
  onward := .of_stations hstations (hscene ▸ d.refl _) (congrArg Scene.now hscene)
  attends := ha
  owners := .of_stations hstations
  spares := hspares

theorem callsMore_recall (f : Floor) (again : Bool) (worker : Worker) :
    CallsMore f (if again then f.call worker else f) := by
  split
  · exact f.callsMore_call worker
  · exact .refl f

end Floor

theorem Turn.Minds.attends {t t' : Turn} {depth : Nat} (h : Turn.Minds owner depth t owner' t')
    (ha : t.floor.Attends owner t.worker) : t'.floor.Attends owner' t.worker where
  orderly := h.orderly
  minded i station hi hne := by
    by_cases hlt : i < t.floor.stations.length
    · obtain ⟨new, hnew⟩ := h.stations
      rw [← hnew, List.getElem?_append_left hlt] at hi
      have hle := h.stations.length_le
      rw [Floor.length_stations, Floor.length_stations] at hle
      exact (ha.minded i station hi hne).mono (h.spares _ hne) ⟨hle, h.owners⟩
    · obtain ⟨⟨work, hready⟩, hcalled⟩ := h.hired i (Nat.le_of_not_lt hlt) station hi
      rw [hready]
      exact ⟨trivial, .inl (.inl hcalled)⟩

structure Station.Works (d : Drift) (e : Errands) (owner : Nat → Worker) (worker : Worker)
    (f : Floor) (goal : Prospect α) (least : Nat) (e' : Errands) (owner' : Nat → Worker)
    (station : Station α) (again : Bool) (f' : Floor) : Prop where
  sound : f'.Sound d e'
  agree : Errands.AgreeBelow f.stations.length e e'
  stations : f.stations <+: f'.stations
  onward : Floor.Onward d e f e' f'
  goes : station.Pursues d e' f' goal least ∨
    ∃ value, station.thread = .ended value ∧
      goal (some value) { f'.scene with context := station.context }
  attends : f'.Attends owner' worker
  owners : Floor.KeepsOwners owner f owner' f'
  spares : ∀ other ≠ worker, Floor.Spares other f f'
  noted : station.thread.Noted owner' worker f' 0
  idle : (again = true ∨ f'.Stirs worker) ∨ station.thread.IsIdle worker f'

theorem Station.works_of_carries {t t' : Turn} {goal' : Prospect α} {th : Thread α}
    (hc : Turn.Carries d e t goal' least e' th t') (hgoal : ∀ r m', goal' r m' → goal r m')
    (hh : Turn.Heeds owner 0 t owner' th t') (ha : t.floor.Attends owner t.worker) :
    Works d e owner t.worker t.floor goal least e' owner' ⟨t'.context, th⟩ t'.again t'.floor := by
  have hle := hc.stations.length_le
  rw [Floor.length_stations, Floor.length_stations] at hle
  have hnoted := hh.noted
  have hidle := hh.idle
  rw [Turn.Stirs, hh.worker] at hidle
  rw [hh.worker] at hnoted
  refine ⟨hc.sound, hc.agree, hc.stations, hc.onward, ?_, hh.attends ha, ⟨hle, hh.owners⟩,
    hh.spares, hnoted, hidle⟩
  rcases hc.shape with hopen | ⟨value, rfl⟩
  · exact .inl ⟨hopen, hc.tame, hc.accounts, hc.onTime, fun r m' hr =>
      hgoal r m' (hc.refines r m' hr)⟩
  · exact .inr ⟨value, rfl, hgoal _ _ (hc.refines _ _ ⟨rfl, rfl⟩)⟩

theorem Station.Pursues.work {station : Station α} (h : station.Pursues d e f goal least)
    (hs : f.Sound d e) (hleast : least ≤ f.stations.length) (ha : f.Attends owner worker)
    (hnoted : station.thread.Noted owner worker f 0) :
    ∃ e' owner', Works d e owner worker f goal least e' owner' (station.work worker f).1
      (station.work worker f).2.1 (station.work worker f).2.2 := by
  let t : Turn := { floor := f, worker, context := station.context }
  obtain ⟨e', hc⟩ := station.thread.resume_carries h.tame h.isOpen (t := t) hs hleast h.accounts
    h.onTime 0
  obtain ⟨owner', hh⟩ := station.thread.resume_heeds h.tame h.isOpen (t := t) ha.orderly 0 hnoted
  exact ⟨e', owner', works_of_carries hc h.refines hh ha⟩

theorem Station.Pursues.hasEnded {station : Station (Except Fault Unit)}
    {goal : Prospect (Except Fault Unit)} (h : station.Pursues d e f goal least)
    (hi : f.stations[i]? = some station) : f.hasEnded i = false := by
  by_contra hn
  obtain ⟨context, outcome, hi'⟩ := Floor.hasEnded_iff.1 (Bool.not_eq_false _ ▸ hn)
  have hopen := h.isOpen
  rw [Option.some.inj (hi.symm.trans hi')] at hopen
  exact hopen

namespace Floor

/-- The stations are sound when hand `i` has been put where it has got to. -/
theorem Sound.put {station : Station (Except Fault Unit)} (hs : f.Sound d e)
    (hi : f.hasEnded i = false)
    (hw : station.Pursues d e f (e.prospect i) (i + 1) ∨
      ∃ outcome, station.thread = .ended outcome ∧
        e.prospect i (some outcome) { f.scene with context := station.context }) :
    ∃ e', (f.put i station).Sound d e' ∧ Onward d e f e' (f.put i station) := by
  let e' := e.ending i { f.scene with context := station.context }
  have hm : e'.finish i = { f.scene with context := station.context } := if_pos rfl
  have hfinish : ∀ j, i ≠ j → e'.finish j = e.finish j := fun j hj => if_neg (Ne.symm hj)
  have hended : ∀ j, i ≠ j → (f.put i station).hasEnded j = f.hasEnded j := fun j hj => by
    rw [hasEnded, hasEnded, reply?_eq, reply?_eq, getElem?_put, if_neg hj]
  have hne : ∀ j, f.hasEnded j = true → i ≠ j := by
    rintro j hj rfl
    rw [hi] at hj
    cases hj
  have ho : Onward d e f e' (f.put i station) :=
    { length := by rw [stations_put, List.length_modify]
      ended := fun j hj => (hended j (hne j hj)).trans hj
      may := (f.scene_put i station) ▸ d.refl _
      now := congrArg Scene.now (f.scene_put i station)
      prospect := fun _ _ => rfl
      finish := fun j hj => hfinish j (hne j hj)
      recent := fun j _ hj hj' => by
        by_cases hij : i = j
        · subst hij
          rw [hm, scene_put]
        · rw [hended j hij, hj] at hj'
          cases hj' }
  refine ⟨e', fun j station' hj => ?_, ho⟩
  rw [getElem?_put] at hj
  split at hj
  next hij =>
    subst hij
    obtain ⟨old, hold, rfl⟩ := Option.map_eq_some_iff.1 hj
    rcases hw with hw | ⟨outcome, hended, hp⟩
    · exact .inl (hw.mono ho)
    · refine .inr ⟨⟨outcome, hended, hm ▸ hp⟩, congrArg Moment.context hm, ?_⟩
      rw [hm, scene_put]
      exact d.refl _
  next hij => exact (hs j station' hj).mono hj ho

/-- A hand that has ended tells so again. -/
theorem put_self {hand : Hand} (hhand : f.hands[i]? = some hand) (hi : f.hasEnded i = true) :
    f.put i hand.toStation = f.announce i := by
  have hmodify : (f.hands.modify i fun other => { other with toStation := hand.toStation }) =
      f.hands := by
    apply List.ext_getElem?
    intro j
    rw [List.getElem?_modify]
    by_cases hij : i = j
    · subst hij
      rw [hhand]
      simp
    · simp [hij]
  simp only [put, hmodify]
  exact if_pos hi

/-- A hand that has had its turn is put where it has got to, and it is called if it wants to be. -/
theorem Attends.put {station : Station (Except Fault Unit)} (again : Bool)
    (ha : f.Attends owner (.hand i)) (hi : f.hasEnded i = false)
    (hnoted : station.thread.Noted owner (.hand i) f 0)
    (hidle : (again = true ∨ f.Stirs (.hand i)) ∨ station.thread.IsIdle (.hand i) f) :
    (if again then (f.put i station).call (.hand i) else f.put i station).Attends owner .lead := by
  have hspares : ∀ worker, Spares worker f (f.put i station) := fun worker =>
    spares_put f worker i hi
  have howners : KeepsOwners owner f owner (f.put i station) := by
    refine ⟨?_, fun _ _ => rfl⟩
    rw [← length_stations, ← length_stations, stations_put, List.length_modify]
  have hcalls := callsMore_recall (f.put i station) again (.hand i)
  have hput : (f.put i station).Attends owner (.hand i) := by
    refine ⟨orderly_put f i ha.orderly, fun j station' hj hne => ?_⟩
    rw [getElem?_put, if_neg fun hij => hne (congrArg Worker.hand hij.symm)] at hj
    exact (ha.minded j station' hj hne).mono (hspares _) howners
  refine (hput.mono (stations_congr hcalls.hands) (hcalls.orderly hput.orderly)
    fun worker _ => hcalls.spares worker).back fun station' hstation => ?_
  have hthread : station'.thread = station.thread := by
    rw [stations_congr hcalls.hands, getElem?_put, if_pos rfl] at hstation
    obtain ⟨_, -, rfl⟩ := Option.map_eq_some_iff.1 hstation
    rfl
  have hspares' := (hspares (.hand i)).trans (hcalls.spares (.hand i))
  have howners' := howners.trans (.of_stations (stations_congr hcalls.hands))
  rw [hthread]
  refine ⟨hnoted.mono hspares' howners', ?_⟩
  rcases hidle with (rfl | hstirs) | hidle
  · rw [if_pos rfl]
    exact .inl (.inl (isCalled_call _ _))
  · exact .inl (hspares'.stirs hstirs)
  · exact (hidle.mono hspares' hnoted).imp_left .inl

theorem Sound.turnOf (hs : f.Sound d e) (ha : f.Attends owner (.hand i))
    (hnoted : ∀ station, f.stations[i]? = some station →
      station.thread.Noted owner (.hand i) f 0) :
    ∃ e' owner', Advances d e owner f e' owner' (f.turnOf i) := by
  unfold Floor.turnOf
  split
  next hnone =>
    refine ⟨e, owner, .of_stations hs (ha.back fun station hi => ?_) rfl rfl (.refl _ f)⟩
    rw [stations, List.getElem?_map, hnone] at hi
    cases hi
  next hand hhand =>
    have hi : f.stations[i]? = some hand.toStation := by
      rw [stations, List.getElem?_map, hhand]
      rfl
    obtain ⟨hlt, -⟩ := List.getElem?_eq_some_iff.1 hi
    rcases hw : hand.work (.hand i) f with ⟨station, again, f₁⟩
    dsimp only
    rcases hs i _ hi with hat | ⟨⟨outcome, hended, -⟩, -, -⟩
    · obtain ⟨e₁, owner₁, hworks⟩ := hat.work hs hlt ha (hnoted _ hi)
      rw [hw] at hworks
      have hended₁ : f₁.hasEnded i = false :=
        (hasEnded_of_grown hworks.stations hlt).trans (hat.hasEnded hi)
      obtain ⟨e', hsound, honward⟩ := hworks.sound.put hended₁
        ((hworks.agree i hlt).1 ▸ hworks.goes)
      have hattends := hworks.attends.put again hended₁ hworks.noted hworks.idle
      have hcalls := callsMore_recall (f₁.put i station) again (.hand i)
      have hrecall : Onward d e' (f₁.put i station) e' _ :=
        .of_stations (stations_congr hcalls.hands) (hcalls.scene ▸ d.refl _)
          (congrArg Scene.now hcalls.scene)
      refine ⟨e', owner₁, hsound.of_stations (stations_congr hcalls.hands) hcalls.scene,
        hworks.onward.trans (honward.trans hrecall), hattends, ?_, ?_⟩
      · refine ⟨hworks.owners.length.trans ?_, hworks.owners.owner⟩
        rw [hcalls.hands, ← length_stations, ← length_stations, stations_put, List.length_modify]
      · exact (hworks.spares .lead (by rintro ⟨⟩)).trans
          ((spares_put f₁ .lead i hended₁).trans (hcalls.spares .lead))
    · have hsame : hand.work (.hand i) f = (hand.toStation, false, f) := by
        rw [Station.work, hended]
        simp only [Thread.resume, ← hended]
      cases hw.symm.trans hsame
      have hi' : f.hasEnded i = true :=
        hasEnded_iff.2 ⟨_, outcome, hi.trans (congrArg some (by rw [← hended]))⟩
      have hback : f.Attends owner .lead := ha.back fun station hi'' => by
        cases hi.symm.trans hi''
        rw [hended]
        exact ⟨trivial, .inr trivial⟩
      have hstations : (f.announce i).stations = f.stations := stations_congr (hands_announce f i)
      rw [put_self hhand hi']
      refine ⟨e, owner, .of_stations hs (hback.mono hstations ?_ ?_) hstations (scene_announce f i)
        (spares_announce f .lead i)⟩
      · exact orderly_announce f i ha.orderly (f.length_stations ▸ hlt)
      · exact fun worker _ => spares_announce f worker i

theorem Sound.turns (hs : f.Sound d e) (ha : f.Attends owner .lead) (n : Nat) :
    ∃ e' owner', Advances d e owner f e' owner' (f.turns n) := by
  induction n generalizing f e owner with
  | zero => exact ⟨e, owner, .of_stations hs ha rfl rfl (.refl _ f)⟩
  | succ n ih =>
    simp only [Floor.turns]
    split
    · exact ⟨e, owner, .of_stations hs ha rfl rfl (.refl _ f)⟩
    next i queue hqueue =>
      have hstations : { f with queue }.stations = f.stations := rfl
      have hpop : Attends owner (.hand i) { f with queue } := by
        refine ⟨⟨ha.orderly.news, ha.orderly.yielded, ha.orderly.clients⟩, fun j station hj hne => ?_⟩
        exact (ha.minded j station hj (by rintro ⟨⟩)).mono (spares_pop hqueue hne)
          (.of_stations hstations)
      obtain ⟨e₁, owner₁, hturn⟩ := (hs.of_stations hstations rfl).turnOf hpop fun station hi =>
        (ha.minded i station hi (by rintro ⟨⟩)).noted.uncall queue f.leadCalled
      obtain ⟨e₂, owner₂, hturns⟩ := ih hturn.sound hturn.attends
      have honward : Onward d e f e { f with queue } := .of_stations hstations (d.refl _) rfl
      have hspares : Spares .lead f { f with queue } := spares_pop hqueue (by rintro ⟨⟩)
      have h : Advances d e owner f e₁ owner₁ _ :=
        { hturn with
          onward := honward.trans hturn.onward
          owners := (KeepsOwners.of_stations hstations).trans hturn.owners
          spares := hspares.trans hturn.spares }
      exact ⟨e₂, owner₂, h.trans hturns⟩

end Floor

end Workflow
