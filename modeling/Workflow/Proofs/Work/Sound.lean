import Workflow.Proofs.Work.Collect
import Workflow.Proofs.Work.Prospect

/-!
# Sound floors

The errands say what the hands were hired for, that is what may come of each one's work. On a sound
floor each hand is at work that leads nowhere but where its errand leads, or it has left what the
errand says. A hand that waits for others relies on their errands only.
-/

namespace Workflow

/-- What may come of the work of each hand, and the moment at which it ended. -/
structure Errands where
  prospect : Nat → Prospect (Except Fault Unit)
  finish : Nat → Moment

def Errands.AgreeBelow (n : Nat) (e e' : Errands) : Prop :=
  ∀ i < n, e'.prospect i = e.prospect i ∧ e'.finish i = e.finish i

namespace Errands.AgreeBelow

variable {n k : Nat} {e e' e'' : Errands}

theorem refl (n : Nat) (e : Errands) : AgreeBelow n e e :=
  fun _ _ => ⟨rfl, rfl⟩

theorem trans (h : AgreeBelow n e e') (h' : AgreeBelow k e' e'') (hle : n ≤ k) :
    AgreeBelow n e e'' := fun i hi =>
  ⟨(h' i (hi.trans_le hle)).1.trans (h i hi).1, (h' i (hi.trans_le hle)).2.trans (h i hi).2⟩

end Errands.AgreeBelow

namespace Thread

variable {α β : Type}

def Reaches (d : Drift) (e : Errands) : {α : Type} → Thread α → Moment → Prospect α
  | _, .ended value, m => fun r m' => r = some value ∧ m' = m
  | _, .ready work, m => d.Begins m (work.Reaches d)
  | _, .resting instant interrupts next, m =>
    d.Rests instant interrupts m fun wake m => (next wake).Reaches d m
  | _, .joining join next, m =>
    d.Gathers (join.hands.map e.prospect) m fun replies m => (next replies).Reaches d m
  | _, .within limit inner next, m =>
    .bounded limit.instant (inner.Reaches d e m) fun u m => (next u).Reaches d m

def IsOpen : {α : Type} → Thread α → Prop
  | _, .ended _ => False
  | _, .within _ inner _ => inner.IsOpen
  | _, _ => True

def Only (R : Moment → Moment → Prop) : {α : Type} → Thread α → Prop
  | _, .ended _ => True
  | _, .ready work => work.Only R
  | _, .resting _ _ next => ∀ wake, (next wake).Only R
  | _, .joining _ next => ∀ replies, (next replies).Only R
  | _, .within _ inner next => inner.Only R ∧ ∀ u, (next u).Only R

def Accounts (f : Floor) (least : Nat) : {α : Type} → Thread α → Prop
  | _, .joining join _ =>
    ∀ i ∈ join.hands,
      least ≤ i ∧ i < f.stations.length ∧ (i ∈ join.missing ∨ f.hasEnded i = true)
  | _, .within _ inner _ => inner.Accounts f least
  | _, _ => True

def OnTime (e : Errands) (f : Floor) : {α : Type} → Thread α → Prop
  | _, .joining join _ =>
    (∃ i ∈ join.hands, f.hasEnded i = false) ∨ ∃ i ∈ join.hands, (e.finish i).now = f.scene.now
  | _, .within limit inner _ => f.scene.now ≤ limit.instant ∧ inner.OnTime e f
  | _, _ => True

def Lasts (d : Drift) (s s' : Scene) : {α : Type} → Thread α → Prop
  | _, .ended _ => True
  | _, .ready _ => s'.now = s.now
  | _, .resting instant interrupts _ => d.Lasts instant interrupts s s'
  | _, .joining join _ => s'.now = s.now ∨ join.hands ≠ []
  | _, .within _ inner _ => inner.Lasts d s s'

theorem Lasts.of_now {d : Drift} {s s' : Scene} (h : s'.now = s.now) (th : Thread α) :
    th.Lasts d s s' := by
  induction th with
  | ended value => trivial
  | ready work => exact h
  | resting instant interrupts next => exact .inl h
  | joining join next => exact .inl h
  | within limit inner next ih => exact ih

theorem IsOpen.ne_ended {th : Thread α} (h : th.IsOpen) (value : α) : th ≠ .ended value := by
  rintro rfl
  cases h

theorem reaches_congr {d : Drift} {e e' : Errands} {f : Floor} {least : Nat} {th : Thread α}
    (h : th.Accounts f least) (he : ∀ i < f.stations.length, e'.prospect i = e.prospect i)
    (m : Moment) : th.Reaches d e' m = th.Reaches d e m := by
  induction th generalizing m with
  | ended value | ready work | resting instant interrupts next => rfl
  | joining join next =>
    have hmap : join.hands.map e'.prospect = join.hands.map e.prospect :=
      List.map_congr_left fun i hi => he i (h i hi).2.1
    simp only [Reaches, hmap]
  | within limit inner next ih => simp only [Reaches, ih h]

/-- While a worker waits the scene may drift without any loss. -/
theorem Reaches.of_drift {d : Drift} {e : Errands} {th : Thread α} {m m' : Moment} {s : Scene}
    {r : Option α} (hopen : th.IsOpen) (hs : d.may m.toScene s) (hlasts : th.Lasts d m.toScene s)
    (h : th.Reaches d e (m.within s) r m') : th.Reaches d e m r m' := by
  induction th generalizing m' with
  | ended value => cases hopen
  | ready work =>
    obtain ⟨s', hs', hnow, h⟩ := h
    exact ⟨s', d.trans hs hs', hnow.trans hlasts, h⟩
  | resting instant interrupts next =>
    obtain ⟨s', hs', hlasts', h⟩ := h
    exact ⟨s', d.trans hs hs', hlasts.trans hlasts' hs hs', h⟩
  | joining join next =>
    obtain ⟨s', hs', h⟩ := h
    have hnow : ∀ {P : Prop}, join.hands.map e.prospect = [] ∧ s'.now = s.now ∨ P →
        join.hands.map e.prospect = [] ∧ s'.now = m.now ∨ P := fun {P} hP => by
      refine hP.imp_left fun ⟨hnil, hnow⟩ => ⟨hnil, hnow.trans ?_⟩
      exact hlasts.resolve_right fun hne => hne (List.map_eq_nil_iff.1 hnil)
    refine ⟨s', d.trans hs hs', h.imp ?_ ?_⟩
    · exact fun ⟨hr, hm', hp⟩ => ⟨hr, hm', hnow hp⟩
    · exact fun ⟨ends, he, hp, hg⟩ => ⟨ends, he, hnow hp, hg⟩
  | within limit inner next ih =>
    obtain ⟨u, m₁, hi, h⟩ := h
    exact ⟨u, m₁, ih hopen hlasts hi, h⟩

theorem Accounts.mono {f f' : Floor} {least : Nat} {th : Thread α} (h : th.Accounts f least)
    (hlen : f.stations.length ≤ f'.stations.length)
    (hended : ∀ i, f.hasEnded i = true → f'.hasEnded i = true) : th.Accounts f' least := by
  induction th with
  | ended value | ready work | resting instant interrupts next => trivial
  | joining join next =>
    intro i hi
    obtain ⟨hge, hlt, hm⟩ := h i hi
    exact ⟨hge, hlt.trans_le hlen, hm.imp_right (hended i)⟩
  | within limit inner next ih => exact ih h

theorem OnTime.mono {e e' : Errands} {f f' : Floor} {least : Nat} {th : Thread α}
    (h : th.OnTime e f) (hacc : th.Accounts f least) (hnow : f'.scene.now = f.scene.now)
    (hfinish : ∀ i, f.hasEnded i = true → e'.finish i = e.finish i)
    (hrecent : ∀ i < f.stations.length, f.hasEnded i = false → f'.hasEnded i = true →
      (e'.finish i).now = f'.scene.now) : th.OnTime e' f' := by
  induction th with
  | ended value | ready work | resting instant interrupts next => trivial
  | joining join next =>
    rcases h with ⟨i, hi, hn⟩ | ⟨i, hi, hi'⟩
    · cases hended : f'.hasEnded i with
      | false => exact .inl ⟨i, hi, hended⟩
      | true => exact .inr ⟨i, hi, hrecent i (hacc i hi).2.1 hn hended⟩
    · cases hended : f.hasEnded i with
      | true => exact .inr ⟨i, hi, (congrArg Scene.now (congrArg Moment.toScene
          (hfinish i hended))).trans (hi'.trans hnow.symm)⟩
      | false =>
        cases hended' : f'.hasEnded i with
        | false => exact .inl ⟨i, hi, hended'⟩
        | true => exact .inr ⟨i, hi, hrecent i (hacc i hi).2.1 hended hended'⟩
  | within limit inner next ih => exact ⟨hnow ▸ h.1, ih h.2 hacc⟩

end Thread

namespace Floor

variable {d : Drift} {e e₁ e' : Errands} {f f₁ f' : Floor}

/-- What a floor becomes while a worker waits: hands are hired and end, and the scene drifts, but
the clock stands still. -/
structure Onward (d : Drift) (e : Errands) (f : Floor) (e' : Errands) (f' : Floor) : Prop where
  length : f.stations.length ≤ f'.stations.length
  ended : ∀ i, f.hasEnded i = true → f'.hasEnded i = true
  may : d.may f.scene f'.scene
  now : f'.scene.now = f.scene.now
  prospect : ∀ i < f.stations.length, e'.prospect i = e.prospect i
  finish : ∀ i, f.hasEnded i = true → e'.finish i = e.finish i
  recent : ∀ i < f.stations.length, f.hasEnded i = false → f'.hasEnded i = true →
    (e'.finish i).now = f'.scene.now

theorem Onward.trans (h : Onward d e f e₁ f₁) (h' : Onward d e₁ f₁ e' f') :
    Onward d e f e' f' where
  length := h.length.trans h'.length
  ended i hi := h'.ended i (h.ended i hi)
  may := d.trans h.may h'.may
  now := h'.now.trans h.now
  prospect i hi := (h'.prospect i (hi.trans_le h.length)).trans (h.prospect i hi)
  finish i hi := (h'.finish i (h.ended i hi)).trans (h.finish i hi)
  recent i hlt hi hi' := by
    cases hended : f₁.hasEnded i with
    | true =>
      rw [h'.finish i hended, h'.now]
      exact h.recent i hlt hi hended
    | false => exact h'.recent i (hlt.trans_le h.length) hended hi'

theorem Onward.of_stations (stations : f'.stations = f.stations) (may : d.may f.scene f'.scene)
    (now : f'.scene.now = f.scene.now) : Onward d e f e f' where
  length := (congrArg List.length stations).ge
  ended i hi := (hasEnded_congr stations i).trans hi
  may := may
  now := now
  prospect _ _ := rfl
  finish _ _ := rfl
  recent i _ hi hi' := by
    rw [hasEnded_congr stations, hi] at hi'
    cases hi'

end Floor

namespace Station

variable {α : Type} {d : Drift} {e e' : Errands} {f f' : Floor} {goal : Prospect α} {least i : Nat}

structure Pursues (d : Drift) (e : Errands) (f : Floor) (goal : Prospect α) (least : Nat)
    (station : Station α) : Prop where
  isOpen : station.thread.IsOpen
  tame : station.thread.Only d.Allows
  accounts : station.thread.Accounts f least
  onTime : station.thread.OnTime e f
  refines : ∀ r m',
    station.thread.Reaches d e { f.scene with context := station.context } r m' → goal r m'

structure Left (d : Drift) (e : Errands) (f : Floor) (i : Nat)
    (station : Station (Except Fault Unit)) : Prop where
  outcome : ∃ outcome, station.thread = .ended outcome ∧ e.prospect i (some outcome) (e.finish i)
  context : (e.finish i).context = station.context
  may : d.may (e.finish i).toScene f.scene

def Sound (d : Drift) (e : Errands) (f : Floor) (i : Nat)
    (station : Station (Except Fault Unit)) : Prop :=
  station.Pursues d e f (e.prospect i) (i + 1) ∨ station.Left d e f i

/-- A worker keeps to its goal while it waits. -/
theorem Pursues.mono {station : Station α} (h : station.Pursues d e f goal least)
    (ho : Floor.Onward d e f e' f') : station.Pursues d e' f' goal least where
  isOpen := h.isOpen
  tame := h.tame
  accounts := h.accounts.mono ho.length ho.ended
  onTime := h.onTime.mono h.accounts ho.now ho.finish ho.recent
  refines r m' hr := by
    rw [Thread.reaches_congr h.accounts ho.prospect] at hr
    exact h.refines r m' (.of_drift h.isOpen ho.may (.of_now ho.now _) hr)

theorem Left.mono {station : Station (Except Fault Unit)} (h : station.Left d e f i)
    (hmay : d.may f.scene f'.scene) (hprospect : e'.prospect i = e.prospect i)
    (hfinish : e'.finish i = e.finish i) : station.Left d e' f' i where
  outcome := by
    rw [hprospect, hfinish]
    exact h.outcome
  context := by
    rw [hfinish]
    exact h.context
  may := by
    rw [hfinish]
    exact d.trans h.may hmay

end Station

namespace Floor

variable {d : Drift} {e e' : Errands} {f f' : Floor}

def Sound (d : Drift) (e : Errands) (f : Floor) : Prop :=
  ∀ i (station : Station (Except Fault Unit)),
    f.stations[i]? = some station → station.Sound d e f i

theorem Sound.of_ended (h : f.Sound d e) {i : Nat} {context : Context}
    {outcome : Except Fault Unit} (hi : f.stations[i]? = some ⟨context, .ended outcome⟩) :
    e.prospect i (some outcome) (e.finish i) ∧ (e.finish i).context = context ∧
      d.may (e.finish i).toScene f.scene := by
  rcases h i _ hi with h | ⟨⟨_, ho, hp⟩, hctx, hmay⟩
  · exact h.isOpen.elim
  · cases ho
    exact ⟨hp, hctx, hmay⟩

end Floor

theorem Floor.Onward.of_grown {d : Drift} {e e' : Errands} {f f' : Floor}
    (hpre : f.stations <+: f'.stations) (hmay : d.may f.scene f'.scene)
    (hnow : f'.scene.now = f.scene.now)
    (he : Errands.AgreeBelow f.stations.length e e') : Onward d e f e' f' where
  length := hpre.length_le
  ended := hasEnded_mono hpre
  may := hmay
  now := hnow
  prospect i hi := (he i hi).1
  finish i hi := (he i (lt_of_hasEnded hi)).2
  recent i hlt hi hi' := by
    rw [hasEnded_of_grown hpre hlt, hi] at hi'
    cases hi'

/-- A station stays sound while other workers have their turns. -/
theorem Station.Sound.mono {d : Drift} {e e' : Errands} {f f' : Floor} {i : Nat}
    {station : Station (Except Fault Unit)} (h : station.Sound d e f i)
    (hstation : f.stations[i]? = some station) (ho : Floor.Onward d e f e' f') :
    station.Sound d e' f' i := by
  obtain ⟨hi, -⟩ := List.getElem?_eq_some_iff.1 hstation
  rcases h with h | h
  · rw [Sound, ho.prospect i hi]
    exact .inl (h.mono ho)
  · obtain ⟨outcome, hended, -⟩ := h.outcome
    refine .inr (h.mono ho.may (ho.prospect i hi) (ho.finish i ?_))
    exact Floor.hasEnded_iff.2 ⟨_, outcome, hstation.trans (congrArg some (by rw [← hended]))⟩

namespace Floor

variable {d : Drift} {e : Errands} {f : Floor}

theorem Sound.isOpen (hs : f.Sound d e) {i : Nat} {station : Station (Except Fault Unit)}
    (hi : f.stations[i]? = some station) (hn : f.hasEnded i = false) :
    station.Pursues d e f (e.prospect i) (i + 1) := by
  refine (hs i station hi).resolve_right fun hleft => ?_
  obtain ⟨outcome, hended, -⟩ := hleft.outcome
  have hi' : f.hasEnded i = true :=
    hasEnded_iff.2 ⟨_, outcome, hi.trans (congrArg some (by rw [← hended]))⟩
  rw [hn] at hi'
  cases hi'

end Floor

/-- Work may stand where it does, if the hands that are waited for may. -/
theorem Thread.stands_of_busy {α : Type} {d : Drift} {e : Errands} {f : Floor} {least : Nat}
    {th : Thread α} {context : Context} (hs : f.Sound d e) (hopen : th.IsOpen)
    (hacc : th.Accounts f least) (htime : th.OnTime e f)
    (hbusy : ∀ i ≥ least, i < f.stations.length → f.hasEnded i = false →
      ∃ m, e.prospect i none m ∧ m.now = f.scene.now) :
    th.Reaches d e { f.scene with context } none { f.scene with context } := by
  induction th with
  | ended value => cases hopen
  | ready work => exact ⟨f.scene, d.refl _, rfl, .inl ⟨rfl, rfl⟩⟩
  | resting instant interrupts next => exact ⟨f.scene, d.refl _, .inl rfl, .inl ⟨rfl, rfl⟩⟩
  | joining join next =>
    refine ⟨f.scene, d.refl _, .inl ⟨rfl, rfl, .inr ?_⟩⟩
    by_cases hall : ∃ i ∈ join.hands, f.hasEnded i = false
    · obtain ⟨i, hi, hn⟩ := hall
      obtain ⟨hge, hlt, -⟩ := hacc i hi
      obtain ⟨m, hm, hnow⟩ := hbusy i hge hlt hn
      exact ⟨_, List.mem_map_of_mem hi, none, m, hm, hnow⟩
    · obtain ⟨i, hi, hnow⟩ := htime.resolve_left hall
      have hended : f.hasEnded i = true := by
        by_contra hn
        exact hall ⟨i, hi, Bool.eq_false_iff.2 hn⟩
      obtain ⟨context', outcome, hget⟩ := Floor.hasEnded_iff.1 hended
      exact ⟨_, List.mem_map_of_mem hi, some outcome, e.finish i, (hs.of_ended hget).1, hnow⟩
  | within limit inner next ih =>
    exact ⟨none, _, ih hopen hacc htime.2, htime.1, .inr (.inl ⟨rfl, rfl, rfl⟩)⟩

/-- Each hand that is at work may be so now. The induction is downwards, since a hand waits only for
hands that have been hired later. -/
theorem Floor.Sound.busy {d : Drift} {e : Errands} {f : Floor} (hs : f.Sound d e) {i : Nat}
    (hi : i < f.stations.length) (hn : f.hasEnded i = false) :
    ∃ m, e.prospect i none m ∧ m.now = f.scene.now := by
  induction hk : f.stations.length - i using Nat.strong_induction_on generalizing i with
  | _ k ih =>
    have hpursues := hs.isOpen (List.getElem?_eq_getElem hi) hn
    refine ⟨{ f.scene with context := f.stations[i].context }, hpursues.refines _ _ ?_, rfl⟩
    refine Thread.stands_of_busy hs hpursues.isOpen hpursues.accounts hpursues.onTime ?_
    intro j hj hlt hn'
    exact ih (f.stations.length - j) (by omega) hlt hn' rfl

theorem Thread.stands {α : Type} {d : Drift} {e : Errands} {f : Floor} {least : Nat}
    {th : Thread α} {context : Context} (hs : f.Sound d e) (hopen : th.IsOpen)
    (hacc : th.Accounts f least) (htime : th.OnTime e f) :
    th.Reaches d e { f.scene with context } none { f.scene with context } :=
  stands_of_busy hs hopen hacc htime fun _ _ hi hn => hs.busy hi hn

end Workflow
