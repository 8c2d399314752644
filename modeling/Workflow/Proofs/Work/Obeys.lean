import Workflow.Proofs.Work.Proceed
import Workflow.Proofs.Work.Rules

/-!
# Turns that obey rules

What remains of some work after a turn abides by the rules of the work, and so does whoever has been
hired.
-/

namespace Workflow

variable {α β : Type} {rules : Rules} {least depth : Nat}

namespace Thread

/-- What remains of some work abides by the rules, and waits for hands from number `least` on only.
-/
def Abides (rules : Rules) (least : Nat) : {α : Type} → Thread α → Prop
  | _, .ended _ => True
  | _, .ready work => ∀ m, work.Abides rules m
  | _, .resting _ interrupts next =>
    rules.rests interrupts ∧ ∀ wake m, (next wake).Abides rules m
  | _, .joining join next =>
    (∀ i ∈ join.missing, least ≤ i) ∧ ∀ replies m, (next replies).Abides rules m
  | _, .within _ inner next => inner.Abides rules least ∧ ∀ u m, (next u).Abides rules m

theorem Abides.acts {d : Drift} {e : Errands} (hrules : rules.Chain d) {th : Thread α}
    {m m' : Moment} {r : Option α} (hth : th.Abides rules least) (h : th.Reaches d e m r m') :
    rules.acts m m' := by
  induction th generalizing m' with
  | ended value =>
    obtain ⟨-, rfl⟩ := h
    exact hrules.refl m'
  | ready work =>
    obtain ⟨s, hs, -, ⟨-, rfl⟩ | h⟩ := h
    · exact hrules.wait m s hs
    · exact hrules.trans (hrules.wait m s hs) ((hth _).acts hrules h)
  | resting instant interrupts next =>
    obtain ⟨s, hs, -, ⟨-, rfl⟩ | ⟨wake, -, h⟩⟩ := h
    · exact hrules.wait m s hs
    · exact hrules.trans (hrules.wait m s hs) ((hth.2 wake _).acts hrules h)
  | joining join next =>
    obtain ⟨s, hs, ⟨-, rfl, -⟩ | ⟨ends, -, -, h⟩⟩ := h
    · exact hrules.wait m s hs
    · exact hrules.trans (hrules.wait m s hs) ((hth.2 _ _).acts hrules h)
  | within limit inner next ih =>
    obtain ⟨u, m₁, hinner, -, ⟨-, h⟩ | ⟨-, -, rfl⟩ | ⟨-, -, h⟩⟩ := h
    · exact hrules.trans (ih hth.1 hinner) ((hth.2 u _).acts hrules h)
    · exact ih hth.1 hinner
    · exact hrules.trans (ih hth.1 hinner) ((hth.2 none _).acts hrules h)

end Thread

namespace Turn

variable {t t₁ t' : Turn}

structure Hires (rules : Rules) (least : Nat) (t t' : Turn) : Prop where
  stations : t.floor.stations <+: t'.floor.stations
  hired : ∀ i ≥ t.floor.stations.length, ∀ station, t'.floor.stations[i]? = some station →
    rules.forks ∧ station.thread.Abides rules least

namespace Hires

theorem of_stations (h : t'.floor.stations = t.floor.stations) : Hires rules least t t' where
  stations := h ▸ List.prefix_rfl
  hired i hi station hget := by
    rw [h, List.getElem?_eq_none hi] at hget
    cases hget

theorem trans (h : Hires rules least t t₁) (h' : Hires rules least t₁ t') :
    Hires rules least t t' where
  stations := h.stations.trans h'.stations
  hired i hi station hget := by
    by_cases hlt : i < t₁.floor.stations.length
    · obtain ⟨new, hnew⟩ := h'.stations
      rw [← hnew, List.getElem?_append_left hlt] at hget
      exact h.hired i hi station hget
    · exact h'.hired i (Nat.le_of_not_lt hlt) station hget

theorem of_fork {branches : List (Work (Except Fault Unit))} (hforks : rules.forks)
    (h : ∀ work ∈ branches, ∀ m, work.Abides rules m) :
    Hires rules least t (t.fork branches).2 where
  stations := ⟨_, (t.stations_fork branches).symm⟩
  hired i hi station hget := by
    rw [stations_fork, List.getElem?_append_right hi, List.getElem?_map] at hget
    obtain ⟨work, hwork, rfl⟩ := Option.map_eq_some_iff.1 hget
    exact ⟨hforks, h work (List.mem_of_getElem? hwork)⟩

end Hires

structure Obeys (rules : Rules) (least : Nat) (t : Turn) (th : Thread α) (t' : Turn) : Prop
    extends Hires rules least t t' where
  thread : th.Abides rules least

theorem Obeys.after {th : Thread α} (h : Hires rules least t t₁) (h' : Obeys rules least t₁ th t') :
    Obeys rules least t th t' where
  toHires := h.trans h'.toHires
  thread := h'.thread

theorem Obeys.of_sameWork {th : Thread α} (h : SameWork t t') (hth : th.Abides rules least) :
    Obeys rules least t th t' where
  toHires := .of_stations h.stations
  thread := hth

def CanObey (rules : Rules) (least depth : Nat) (w : Work α) : Prop :=
  ∀ {t : Turn}, w.Abides rules t.moment → least ≤ t.floor.stations.length →
    Obeys rules least t (w.proceed depth t).1 (w.proceed depth t).2

section Steps

variable (hleast : least ≤ t.floor.stations.length)

include hleast

/-- Work that follows on other work in the same turn. -/
theorem Obeys.proceed {w : Work α} (h : Hires rules least t t₁) (hw : CanObey rules least depth w)
    (habides : w.Abides rules t₁.moment) :
    Obeys rules least t (w.proceed depth t₁).1 (w.proceed depth t₁).2 :=
  .after h (hw habides (hleast.trans h.stations.length_le))

theorem Obeys.of_limit {th : Thread β} {next : Option β → Work α} {limit : Limit} {solvent : Bool}
    (h : Obeys rules least t th t₁) (hnext : ∀ u m, (next u).Abides rules m)
    (hcan : CanObey rules least depth (next none)) :
    Obeys rules least t (meetLimit depth limit solvent th next t₁).1
      (meetLimit depth limit solvent th next t₁).2 := by
  unfold meetLimit
  split
  next t₂ hcheck =>
    obtain ⟨hsame, -⟩ := checkLimit_eq_none hcheck
    have hhires := h.toHires.trans (.of_stations hsame.stations)
    exact .proceed hleast hhires hcan (hnext none _)
  next limit' t₂ hcheck =>
    obtain ⟨hsame, -⟩ := checkLimit_eq_some hcheck
    have habides : (Thread.within limit' th next).Abides rules least := ⟨h.thread, hnext⟩
    exact ⟨h.toHires.trans (.of_stations hsame.stations), habides⟩

theorem Obeys.of_replies {join : Join} {next : List Reply → Work α} (h : Hires rules least t t₁)
    (hjoin : ∀ i ∈ join.missing, least ≤ i) (hnext : ∀ replies m, (next replies).Abides rules m)
    (hcan : ∀ replies, CanObey rules least depth (next replies)) :
    Obeys rules least t (meetReplies depth join next t₁).1 (meetReplies depth join next t₁).2 := by
  have hcollect := sameWork_collect join t₁
  have hmissing := (collect_sublist join t₁).subset
  unfold meetReplies
  rcases hc : t₁.collect join with ⟨join', t₂⟩
  rw [hc] at hcollect hmissing
  dsimp only at hcollect hmissing ⊢
  split
  · have hsame := hcollect.trans (sameWork_dismiss t₂ t₂.worker)
    exact .proceed hleast (h.trans (.of_stations hsame.stations)) (hcan _) (hnext _ _)
  · have habides : (Thread.joining join' next).Abides rules least :=
      ⟨fun i hi => hjoin i (hmissing hi), hnext⟩
    exact ⟨h.trans (.of_stations hcollect.stations), habides⟩

end Steps

end Turn

open Turn

namespace Work

/-- What remains of work that is begun abides by the rules of the work. -/
theorem proceed_obeys (w : Work α) (depth : Nat) : CanObey rules least depth w := by
  induction w generalizing depth with
  | done value =>
    intro t _ _
    exact .of_sameWork (.refl t) trivial
  | act change next ih =>
    intro t hw hleast
    have habides : (next (t.act change).moment).Abides rules (t.act change).moment := by
      rw [moment_act]
      exact hw.2
    have hhires : Hires rules least t (t.act change) :=
      .of_stations (Floor.stations_congr (t.hands_act change))
    exact .after hhires (ih _ depth habides (hleast.trans hhires.stations.length_le))
  | pause span interrupts next ih =>
    intro t hw hleast
    simp only [proceed]
    split
    · exact .of_sameWork (t.sameWork_giveWay none) fun _ => hw
    · split
      next wake _ =>
        have hhires : Hires rules least t (t.payFor wake) :=
          .of_stations (t.sameWork_payFor wake).stations
        exact .proceed hleast hhires (ih wake depth) (hw.2 wake _)
      · exact .of_sameWork (t.sameWork_rest depth _ interrupts) hw
  | within limit inner next ihInner ihNext =>
    intro t hw hleast
    have hinner := ihInner (depth + 1) hw.1 hleast
    rcases hp : inner.proceed (depth + 1) t with ⟨th, t₁⟩
    rw [hp] at hinner
    by_cases hended : ∃ value, th = .ended value
    · obtain ⟨value, rfl⟩ := hended
      rw [proceed_within_ended hp]
      exact .proceed hleast hinner.toHires (ihNext _ depth) (hw.2 _ _)
    · rw [proceed_within_open hp fun value heq => hended ⟨value, heq⟩]
      exact hinner.of_limit hleast hw.2 (ihNext none depth)
  | fork count branch next _ ih =>
    intro t hw hleast
    obtain ⟨hforks, hbranch, hnext⟩ := hw
    have hhires : Hires rules least t (t.fork (List.ofFn branch)).2 := by
      apply Hires.of_fork hforks
      intro work hmem
      obtain ⟨i, rfl⟩ := List.mem_ofFn.1 hmem
      exact hbranch i
    have hjoin : ∀ i ∈ (t.fork (List.ofFn branch)).1.missing, least ≤ i := by
      intro i hi
      rw [missing_fork, hands_fork, List.mem_map] at hi
      obtain ⟨k, -, rfl⟩ := hi
      omega
    rw [proceed_fork]
    exact .of_replies hleast hhires hjoin hnext fun replies => ih replies depth

end Work

namespace Thread

/-- What remains of work that is taken up again abides by the same rules. -/
theorem resume_obeys (th : Thread α) (hth : th.Abides rules least) {t : Turn}
    (hleast : least ≤ t.floor.stations.length) (depth : Nat) :
    Obeys rules least t (th.resume depth t).1 (th.resume depth t).2 := by
  induction th generalizing depth with
  | ended value => exact .of_sameWork (.refl t) trivial
  | ready work => exact work.proceed_obeys depth (hth _) hleast
  | resting instant interrupts next =>
    simp only [resume]
    split
    next wake _ =>
      have hsame := (t.sameWork_payFor wake).trans (sameWork_rise _ depth)
      exact .proceed hleast (.of_stations hsame.stations) ((next wake).proceed_obeys depth)
        (hth.2 wake _)
    · exact .of_sameWork (.refl t) hth
  | joining join next =>
    rw [resume_joining]
    exact .of_replies hleast (.of_stations rfl) hth.1 hth.2
      fun replies => (next replies).proceed_obeys depth
  | within limit inner next ih =>
    have hinner := ih hth.1 (depth + 1)
    rcases hp : inner.resume (depth + 1) t with ⟨th', t₁⟩
    rw [hp] at hinner
    by_cases hended : ∃ value, th' = .ended value
    · obtain ⟨value, rfl⟩ := hended
      have hhires := hinner.toHires.trans (.of_stations (sameWork_rise t₁ depth).stations)
      rw [resume_within_ended hp]
      exact .proceed hleast hhires ((next _).proceed_obeys depth) (hth.2 _ _)
    · rw [resume_within_open hp fun value heq => hended ⟨value, heq⟩]
      exact hinner.of_limit hleast hth.2 ((next none).proceed_obeys depth)

end Thread

end Workflow
