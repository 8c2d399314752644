import Workflow.Proofs.Work.Clock
import Workflow.Proofs.Work.Closed
import Workflow.Proofs.Work.Journals
import Workflow.Proofs.Work.Proceed

/-!
# Work that takes no notice of the journal

Work is blind if what it does does not depend on what has been reported, and if it does not cancel
the run. On two floors that differ in the journal alone, blind work does the same, and so do all
hands if theirs is. Two turns on such floors go on in step with work that differs only in what comes
later; what is to be shown of the threads and the turns that they lead to is a variable of that
section.
-/

namespace Workflow

variable {α β : Type} {f f' : Floor} {t t' t₁ t₁' : Turn} {depth : Nat}

def Moment.Steady (change : Moment → Moment) : Prop :=
  ∀ m m', m.Noted m' → m.cancelled = false →
    (change m).Noted (change m') ∧ (change m).cancelled = false

namespace Work

def Blind : {α : Type} → Work α → Prop
  | _, .done _ => True
  | _, .act change next => Moment.Steady change ∧ Moment.Blind next ∧ ∀ m, (next m).Blind
  | _, .pause _ _ next => ∀ wake, (next wake).Blind
  | _, .within _ inner next => inner.Blind ∧ ∀ u, (next u).Blind
  | _, .fork _ branch next => (∀ i, (branch i).Blind) ∧ ∀ replies, (next replies).Blind

theorem blind_bind {w : Work α} {k : α → Work β} (hw : w.Blind) (hk : ∀ value, (k value).Blind) :
    (w.bind k).Blind := by
  induction w with
  | done value => exact hk value
  | act change next ih =>
    obtain ⟨hsteady, hblind, hnext⟩ := hw
    exact ⟨hsteady, fun m m' hm => congrArg (Work.bind · k) (hblind m m' hm),
      fun m => ih m (hnext m) hk⟩
  | pause span interrupts next ih => exact fun wake => ih wake (hw wake) hk
  | within limit inner next _ ih => exact ⟨hw.1, fun u => ih u (hw.2 u) hk⟩
  | fork count branch next _ ih => exact ⟨hw.1, fun replies => ih replies (hw.2 replies) hk⟩

/-- The combinators keep work blind. -/
theorem closed_blind : Closed Moment.Steady (fun _ => True) Blind where
  done _ := trivial
  bind := blind_bind
  after hf hw := ⟨hf, fun _ _ _ => rfl, fun _ => hw⟩
  look hblind hnext := ⟨fun _ _ hm hc => ⟨hm, hc⟩, hblind, hnext⟩
  wait _ _ _ _ := trivial
  limited _ _ _ hw := ⟨hw, fun _ => trivial⟩
  together h := ⟨fun i => h _ (List.getElem_mem i.isLt), fun _ => trivial⟩

end Work

namespace Thread

def Blind : {α : Type} → Thread α → Prop
  | _, .ended _ => True
  | _, .ready work => work.Blind
  | _, .resting _ _ next => ∀ wake, (next wake).Blind
  | _, .joining _ next => ∀ replies, (next replies).Blind
  | _, .within _ inner next => inner.Blind ∧ ∀ u, (next u).Blind

end Thread

structure Floor.Matches (f f' : Floor) : Prop where
  cancelled : f.scene.cancelled = false
  hands : ∀ (i : Nat) (station : Station (Except Fault Unit)),
    f.stations[i]? = some station → station.thread.Blind
  same : ∃ journal, f' = f.withJournal journal

structure Turn.Matches (t t' : Turn) : Prop where
  cancelled : t.floor.scene.cancelled = false
  hands : ∀ (i : Nat) (station : Station (Except Fault Unit)),
    t.floor.stations[i]? = some station → station.thread.Blind
  same : ∃ journal, t' = t.withJournal journal

namespace Turn

theorem Matches.floor (h : t.Matches t') : t.floor.Matches t'.floor := by
  obtain ⟨hcancelled, hhands, journal, rfl⟩ := h
  exact ⟨hcancelled, hhands, journal, rfl⟩

theorem Matches.noted (h : t.Matches t') : t.moment.Noted t'.moment := by
  obtain ⟨-, -, journal, rfl⟩ := h
  exact ⟨rfl, rfl, rfl, rfl⟩

theorem Matches.context (h : t.Matches t') : t'.context = t.context := by
  obtain ⟨-, -, journal, rfl⟩ := h
  rfl

theorem Matches.again (h : t.Matches t') : t'.again = t.again := by
  obtain ⟨-, -, journal, rfl⟩ := h
  rfl

theorem Matches.of_sameWork {journal : Journal} (h : t.Matches t') (hsame : SameWork t t₁) :
    t₁.Matches (t₁.withJournal journal) where
  cancelled := hsame.scene ▸ h.cancelled
  hands := hsame.stations ▸ h.hands
  same := ⟨journal, rfl⟩

theorem act_eq {change : Moment → Moment} (h : (change t.moment).cancelled = false) :
    t.act change =
      { t with
        floor := { t.floor with scene := (change t.moment).toScene }
        context := (change t.moment).context } := by
  simp only [act, Floor.setScene, h, Bool.false_and]
  rfl

theorem act_id (h : t.floor.scene.cancelled = false) : t.act id = t :=
  act_eq h

theorem Matches.act {change change' : Moment → Moment} (h : t.Matches t')
    (hnoted : (change t.moment).Noted (change' t'.moment))
    (hcancelled : (change t.moment).cancelled = false) :
    (t.act change).Matches (t'.act change') where
  cancelled := by
    rw [act_eq hcancelled]
    exact hcancelled
  hands := by
    rw [Floor.stations_congr (t.hands_act change)]
    exact h.hands
  same := by
    obtain ⟨-, -, journal, rfl⟩ := h
    rw [act_eq hcancelled, act_eq (hnoted.cancelled.trans hcancelled)]
    generalize change t.moment = m at hnoted
    generalize change' (t.withJournal journal).moment = m' at hnoted
    obtain ⟨⟨now, cancelled, starts, entries⟩, context⟩ := m
    obtain ⟨⟨now', cancelled', starts', entries'⟩, context'⟩ := m'
    obtain ⟨hcontext, hnow, hcancelled', hstarts⟩ := hnoted
    cases hcontext
    cases hnow
    cases hcancelled'
    cases hstarts
    exact ⟨entries', rfl⟩

theorem Matches.fork {branches : List (Work (Except Fault Unit))} (h : t.Matches t')
    (hbranches : ∀ work ∈ branches, work.Blind) :
    (t.fork branches).2.Matches (t'.fork branches).2 where
  cancelled := t.scene_fork branches ▸ h.cancelled
  hands i station hi := by
    rw [stations_fork] at hi
    rcases Nat.lt_or_ge i t.floor.stations.length with hlt | hge
    · rw [List.getElem?_append_left hlt] at hi
      exact h.hands i station hi
    · rw [List.getElem?_append_right hge, List.getElem?_map] at hi
      obtain ⟨work, hwork, rfl⟩ := Option.map_eq_some_iff.1 hi
      exact hbranches work (List.mem_of_getElem? hwork)
  same := by
    obtain ⟨journal, rfl⟩ := h.same
    rw [fork_withJournal]
    exact ⟨journal, rfl⟩

structure Repeats (th : Thread α) (t : Turn) (th' : Thread α) (t' : Turn) : Prop
    extends t.Matches t' where
  thread : th' = th
  blind : th.Blind

end Turn

open Turn

section InStep

variable {E : Thread α → Turn → Thread β → Turn → Prop}

def Turn.InStep (E : Thread α → Turn → Thread β → Turn → Prop) (depth : Nat) (w : Work α)
    (w' : Work β) : Prop :=
  ∀ {t t' : Turn}, t.Matches t' →
    E (w.proceed depth t).1 (w.proceed depth t).2 (w'.proceed depth t').1 (w'.proceed depth t').2

theorem Turn.Matches.pause {span : Span} {interrupts : Interrupts} {next : Wake → Work α}
    {next' : Wake → Work β} (h : t.Matches t')
    (hready : ∀ {t t'}, t.Matches t' →
      E (.ready (.pause span interrupts next)) t (.ready (.pause span interrupts next')) t')
    (hresting : ∀ instant {t t'}, t.Matches t' →
      E (.resting instant interrupts next) t (.resting instant interrupts next') t')
    (hnext : ∀ wake, InStep E depth (next wake) (next' wake)) :
    E ((Work.pause span interrupts next).proceed depth t).1
      ((Work.pause span interrupts next).proceed depth t).2
      ((Work.pause span interrupts next').proceed depth t').1
      ((Work.pause span interrupts next').proceed depth t').2 := by
  obtain ⟨journal, rfl⟩ := h.same
  have hspent : (t.withJournal journal).isSpent = t.isSpent := rfl
  have hnow : (t.withJournal journal).now = t.now := rfl
  have hwake : ∀ instant, (t.withJournal journal).wake? instant interrupts =
      t.wake? instant interrupts := fun _ => rfl
  simp only [Work.proceed, hspent, hnow, hwake, giveWay_withJournal, payFor_withJournal,
    rest_withJournal]
  split
  · exact hready (h.of_sameWork (t.sameWork_giveWay none))
  · split
    next wake _ => exact hnext wake (h.of_sameWork (t.sameWork_payFor wake))
    · exact hresting _ (h.of_sameWork (t.sameWork_rest depth _ interrupts))

theorem Turn.Matches.rest {instant : Nat} {interrupts : Interrupts} {next : Wake → Work α}
    {next' : Wake → Work β} (h : t.Matches t')
    (hresting : E (.resting instant interrupts next) t (.resting instant interrupts next') t')
    (hnext : ∀ wake, InStep E depth (next wake) (next' wake)) :
    E ((Thread.resting instant interrupts next).resume depth t).1
      ((Thread.resting instant interrupts next).resume depth t).2
      ((Thread.resting instant interrupts next').resume depth t').1
      ((Thread.resting instant interrupts next').resume depth t').2 := by
  obtain ⟨journal, rfl⟩ := h.same
  have hwake : (t.withJournal journal).wake? instant interrupts = t.wake? instant interrupts := rfl
  simp only [Thread.resume, hwake, payFor_withJournal]
  split
  next wake _ =>
    exact hnext wake (h.of_sameWork ((t.sameWork_payFor wake).trans (sameWork_rise _ depth)))
  · exact hresting

theorem Turn.Matches.replies {join : Join} {next : List Reply → Work α}
    {next' : List Reply → Work β} (h : t.Matches t')
    (hjoining : ∀ join {t t'}, t.Matches t' → E (.joining join next) t (.joining join next') t')
    (hnext : ∀ replies, InStep E depth (next replies) (next' replies)) :
    E (meetReplies depth join next t).1 (meetReplies depth join next t).2
      (meetReplies depth join next' t').1 (meetReplies depth join next' t').2 := by
  obtain ⟨journal, rfl⟩ := h.same
  have hcollect := sameWork_collect join t
  unfold meetReplies
  rw [collect_withJournal]
  rcases hc : t.collect join with ⟨join', t₁⟩
  rw [hc] at hcollect
  dsimp only at hcollect ⊢
  split
  · exact hnext _ (h.of_sameWork (hcollect.trans (sameWork_dismiss t₁ t₁.worker)))
  · exact hjoining join' (h.of_sameWork hcollect)

section Within

variable {γ : Type} {next : Option γ → Work α} {next' : Option γ → Work β}
  (hwithin : ∀ limit (inner : Thread γ) {t t'}, inner.Blind → t.Matches t' →
    E (.within limit inner next) t (.within limit inner next') t')
  (hnext : ∀ u, InStep E depth (next u) (next' u))

include hwithin hnext

theorem Turn.Repeats.limit {th th' : Thread γ} {limit : Limit} {solvent : Bool}
    (h : Repeats th t th' t') :
    E (meetLimit depth limit solvent th next t).1 (meetLimit depth limit solvent th next t).2
      (meetLimit depth limit solvent th' next' t').1
      (meetLimit depth limit solvent th' next' t').2 := by
  obtain ⟨hmatches, rfl, hblind⟩ := h
  obtain ⟨journal, rfl⟩ := hmatches.same
  unfold meetLimit
  rw [checkLimit_withJournal]
  rcases hcheck : t.checkLimit depth limit solvent with ⟨_ | limit', t₁⟩
  · obtain ⟨hsame, -⟩ := checkLimit_eq_none hcheck
    exact hnext none (hmatches.of_sameWork hsame)
  · obtain ⟨hsame, -⟩ := checkLimit_eq_some hcheck
    exact hwithin limit' _ hblind (hmatches.of_sameWork hsame)

theorem Turn.Matches.within {limit : Span} {inner : Work γ} (h : t.Matches t')
    (hinner : Repeats (inner.proceed (depth + 1) t).1 (inner.proceed (depth + 1) t).2
      (inner.proceed (depth + 1) t').1 (inner.proceed (depth + 1) t').2) :
    E ((Work.within limit inner next).proceed depth t).1
      ((Work.within limit inner next).proceed depth t).2
      ((Work.within limit inner next').proceed depth t').1
      ((Work.within limit inner next').proceed depth t').2 := by
  obtain ⟨journal, rfl⟩ := h.same
  rcases hp : inner.proceed (depth + 1) t with ⟨th, t₁⟩
  rcases hp' : inner.proceed (depth + 1) (t.withJournal journal) with ⟨th', t₁'⟩
  rw [hp, hp'] at hinner
  obtain rfl : th' = th := hinner.thread
  by_cases hended : ∃ value, th' = .ended value
  · obtain ⟨value, rfl⟩ := hended
    rw [Work.proceed_within_ended hp, Work.proceed_within_ended hp']
    exact hnext (some value) hinner.toMatches
  · have hopen : ∀ value, th' ≠ .ended value := fun value heq => hended ⟨value, heq⟩
    rw [Work.proceed_within_open hp hopen, Work.proceed_within_open hp' hopen]
    exact hinner.limit hwithin hnext

theorem Turn.Matches.resumeWithin {limit : Limit} {inner : Thread γ} (h : t.Matches t')
    (hinner : Repeats (inner.resume (depth + 1) t).1 (inner.resume (depth + 1) t).2
      (inner.resume (depth + 1) t').1 (inner.resume (depth + 1) t').2) :
    E ((Thread.within limit inner next).resume depth t).1
      ((Thread.within limit inner next).resume depth t).2
      ((Thread.within limit inner next').resume depth t').1
      ((Thread.within limit inner next').resume depth t').2 := by
  obtain ⟨journal, rfl⟩ := h.same
  rcases hp : inner.resume (depth + 1) t with ⟨th, t₁⟩
  rcases hp' : inner.resume (depth + 1) (t.withJournal journal) with ⟨th', t₁'⟩
  rw [hp, hp'] at hinner
  obtain rfl : th' = th := hinner.thread
  by_cases hended : ∃ value, th' = .ended value
  · obtain ⟨value, rfl⟩ := hended
    rw [Thread.resume_within_ended hp, Thread.resume_within_ended hp']
    obtain ⟨journal₁, rfl⟩ := hinner.same
    exact hnext (some value) (hinner.toMatches.of_sameWork (sameWork_rise t₁ depth))
  · have hopen : ∀ value, th' ≠ .ended value := fun value heq => hended ⟨value, heq⟩
    rw [Thread.resume_within_open hp hopen, Thread.resume_within_open hp' hopen]
    exact hinner.limit hwithin hnext

end Within

end InStep

namespace Work

/-- On both floors blind work does the same. -/
theorem proceed_repeats (w : Work α) (hw : w.Blind) (depth : Nat) : InStep Repeats depth w w := by
  induction w generalizing depth with
  | done value => exact fun h => ⟨h, rfl, trivial⟩
  | act change next ih =>
    intro t t' h
    obtain ⟨hsteady, hblind, hnext⟩ := hw
    obtain ⟨hnoted, hcancelled⟩ := hsteady _ _ h.noted h.cancelled
    have hmoment : next (t'.act change).moment = next (t.act change).moment := by
      rw [moment_act, moment_act]
      exact hblind _ _ hnoted.even
    simp only [proceed]
    rw [hmoment]
    exact ih _ (hnext _) depth (h.act hnoted hcancelled)
  | pause span interrupts next ih =>
    intro t t' h
    apply h.pause
    · exact fun h => ⟨h, rfl, hw⟩
    · exact fun _ _ _ h => ⟨h, rfl, hw⟩
    · exact fun wake => ih wake (hw wake) depth
  | within limit inner next ihInner ihNext =>
    intro t t' h
    apply h.within
    · exact ihInner hw.1 (depth + 1) h
    · exact fun _ _ _ _ hinner h => ⟨h, rfl, hinner, hw.2⟩
    · exact fun u => ihNext u (hw.2 u) depth
  | fork count branch next _ ih =>
    intro t t' h
    have hbranches : ∀ work ∈ List.ofFn branch, work.Blind := by
      intro work hmem
      obtain ⟨i, rfl⟩ := List.mem_ofFn.1 hmem
      exact hw.1 i
    have hfork := h.fork hbranches
    obtain ⟨journal, rfl⟩ := h.same
    rw [proceed_fork, proceed_fork, fork_withJournal]
    rw [fork_withJournal] at hfork
    apply hfork.replies
    · exact fun _ _ _ h => ⟨h, rfl, hw.2⟩
    · exact fun replies => ih replies (hw.2 replies) depth

end Work

namespace Thread

theorem resume_repeats (th : Thread α) (hth : th.Blind) (h : t.Matches t') (depth : Nat) :
    Repeats (th.resume depth t).1 (th.resume depth t).2 (th.resume depth t').1
      (th.resume depth t').2 := by
  induction th generalizing depth with
  | ended value => exact ⟨h, rfl, trivial⟩
  | ready work => exact work.proceed_repeats hth depth h
  | resting instant interrupts next =>
    exact h.rest ⟨h, rfl, hth⟩ fun wake => (next wake).proceed_repeats (hth wake) depth
  | joining join next =>
    rw [resume_joining, resume_joining]
    apply h.replies
    · exact fun _ _ _ h => ⟨h, rfl, hth⟩
    · exact fun replies => (next replies).proceed_repeats (hth replies) depth
  | within limit inner next ih =>
    apply h.resumeWithin
    · exact ih hth.1 (depth + 1)
    · exact fun _ _ _ _ hinner h => ⟨h, rfl, hinner, hth.2⟩
    · exact fun u => (next u).proceed_repeats (hth.2 u) depth

end Thread

namespace Floor

theorem Matches.call (h : f.Matches f') (worker : Worker) :
    (f.call worker).Matches (f'.call worker) := by
  obtain ⟨hcancelled, hhands, journal, rfl⟩ := h
  rw [call_withJournal]
  refine ⟨?_, ?_, journal, rfl⟩
  · rw [scene_call]
    exact hcancelled
  · rw [stations_congr (f.hands_call worker)]
    exact hhands

theorem Matches.put {station : Station (Except Fault Unit)} (h : f.Matches f')
    (hstation : station.thread.Blind) (i : Nat) : (f.put i station).Matches (f'.put i station) := by
  obtain ⟨hcancelled, hhands, journal, rfl⟩ := h
  rw [put_withJournal]
  refine ⟨?_, forall_put hhands hstation, journal, rfl⟩
  rw [scene_put]
  exact hcancelled

theorem Matches.turnOf (h : f.Matches f') (i : Nat) : (f.turnOf i).Matches (f'.turnOf i) := by
  have hlist : f'.hands = f.hands := by
    obtain ⟨journal, rfl⟩ := h.same
    rfl
  unfold Floor.turnOf
  rw [hlist]
  split
  · exact h
  next hand hhand =>
    have hget : f.stations[i]? = some hand.toStation := by
      rw [stations, List.getElem?_map, hhand]
      rfl
    let t : Turn := { floor := f, worker := .hand i, context := hand.context }
    let t' : Turn := { floor := f', worker := .hand i, context := hand.context }
    have hturn : t.Matches t' := by
      obtain ⟨hcancelled, hhands, journal, rfl⟩ := h
      exact ⟨hcancelled, hhands, journal, rfl⟩
    obtain ⟨hmatches, hthread, hblind⟩ := hand.thread.resume_repeats (h.hands i _ hget) hturn 0
    let r := hand.thread.resume 0 t
    let r' := hand.thread.resume 0 t'
    let station : Station (Except Fault Unit) := ⟨r.2.context, r.1⟩
    have hput : (r.2.floor.put i station).Matches (r'.2.floor.put i station) :=
      hmatches.floor.put hblind i
    have hcontext : r'.2.context = r.2.context := hmatches.context
    have hagain : r'.2.again = r.2.again := hmatches.again
    change (if r.2.again then (r.2.floor.put i ⟨r.2.context, r.1⟩).call (.hand i)
        else r.2.floor.put i ⟨r.2.context, r.1⟩).Matches
      (if r'.2.again then (r'.2.floor.put i ⟨r'.2.context, r'.1⟩).call (.hand i)
        else r'.2.floor.put i ⟨r'.2.context, r'.1⟩)
    rw [hcontext, hagain, show r'.1 = r.1 from hthread]
    split
    · exact hput.call (.hand i)
    · exact hput

theorem Matches.turns (h : f.Matches f') (n : Nat) : (f.turns n).Matches (f'.turns n) := by
  induction n generalizing f f' with
  | zero => exact h
  | succ n ih =>
    have hqueue : f'.queue = f.queue := by
      obtain ⟨journal, rfl⟩ := h.same
      rfl
    simp only [Floor.turns, hqueue]
    split
    · exact h
    next i queue _ =>
      have hpop : Matches { f with queue } { f' with queue } := by
        obtain ⟨hcancelled, hhands, journal, rfl⟩ := h
        exact ⟨hcancelled, hhands, journal, rfl⟩
      exact ih (hpop.turnOf i)

theorem Matches.callYielded (h : f.Matches f') : f.callYielded.Matches f'.callYielded := by
  obtain ⟨hcancelled, hhands, journal, rfl⟩ := h
  rw [callYielded_withJournal]
  refine ⟨?_, ?_, journal, rfl⟩
  · rw [scene_callYielded]
    exact hcancelled
  · rw [stations_congr f.hands_callYielded]
    exact hhands

theorem Matches.ring? (h : f.Matches f') {f₁ : Floor} (hring : f.ring? = some f₁) :
    ∃ f₁', f'.ring? = some f₁' ∧ f₁.Matches f₁' := by
  obtain ⟨hcancelled, hhands, journal, rfl⟩ := h
  obtain ⟨instant, hticks⟩ := ticks_of_ring? hring
  refine ⟨f₁.withJournal journal, ?_, hticks.cancelled.trans hcancelled, ?_, journal, rfl⟩
  · rw [ring?_withJournal, hring]
    rfl
  · rw [stations_congr hticks.hands]
    exact hhands

theorem Matches.round? (h : f.Matches f') {f₁ : Floor} (hround : f.round? = some f₁) :
    ∃ f₁', f'.round? = some f₁' ∧ f₁.Matches f₁' := by
  have hturns := h.turns 61
  simp only [Floor.round?] at hround ⊢
  generalize f.turns 61 = g at hround hturns
  generalize f'.turns 61 = g' at hturns
  have hcalm : (g'.queue.isEmpty && g'.yielded.isEmpty && !g'.leadCalled) =
      (g.queue.isEmpty && g.yielded.isEmpty && !g.leadCalled) := by
    obtain ⟨journal, rfl⟩ := hturns.same
    rfl
  rw [hcalm]
  split at hround
  next hg =>
    rw [if_pos hg]
    exact hturns.ring? hround
  next hg =>
    cases hround
    rw [if_neg hg]
    exact ⟨_, rfl, hturns.callYielded⟩

end Floor

end Workflow
