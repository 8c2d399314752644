import Workflow.Proofs.Work.Notes
import Workflow.Proofs.Work.Sound

/-!
# The clock

The clock moves when no worker can go on. It moves to the earliest alarm, and so nobody oversleeps:
no pause and no limit ends before that instant, and those that end at it have been called.
-/

namespace Workflow

variable {α : Type} {d : Drift} {e : Errands} {owner : Nat → Worker} {worker : Worker}
  {f f' : Floor}

namespace Floor

structure Ticks (f f' : Floor) (instant : Nat) : Prop where
  earliest : ∀ alarm ∈ f.alarms, instant ≤ alarm.instant
  scene : f'.scene = { f.scene with now := max f.scene.now instant }
  hands : f'.hands = f.hands
  called : ∀ worker, f.IsCalled worker → f'.IsCalled worker
  due : ∀ alarm ∈ f.alarms, alarm.instant ≤ instant → f'.IsCalled alarm.worker
  alarms : ∀ alarm ∈ f.alarms, instant < alarm.instant → alarm ∈ f'.alarms
  watchers : f'.watchers = f.watchers
  news : f'.news = f.news
  yielded : f'.yielded = f.yielded

theorem ticks_of_ring? (h : f.ring? = some f') : ∃ instant, Ticks f f' instant := by
  obtain ⟨instant, hmin, rfl⟩ := Option.map_eq_some_iff.1 h
  have hleast := (List.min?_eq_some_iff.1 hmin).2
  dsimp only
  generalize hg : ({ f with
    scene := { f.scene with now := max f.scene.now instant }
    alarms := f.alarms.filter (instant < ·.instant) } : Floor) = g
  have hcalls := g.callsMore_callAll ((f.alarms.filter (·.instant ≤ instant)).map Alarm.worker)
  subst hg
  refine ⟨instant, fun alarm ha => hleast _ (List.mem_map_of_mem ha), hcalls.scene, hcalls.hands,
    hcalls.called, fun alarm ha hle => ?_, fun alarm ha hlt => ?_, hcalls.watchers, hcalls.news,
    hcalls.yielded⟩
  · refine isCalled_callAll _ _ (List.mem_map_of_mem (List.mem_filter.2 ⟨ha, ?_⟩))
    exact decide_eq_true hle
  · rw [hcalls.alarms]
    exact List.mem_filter.2 ⟨ha, decide_eq_true hlt⟩

end Floor

section Ticks

variable {instant : Nat} (ht : Floor.Ticks f f' instant)

include ht

theorem Floor.Ticks.now : f'.scene.now = max f.scene.now instant := by
  rw [ht.scene]

theorem Floor.Ticks.cancelled : f'.scene.cancelled = f.scene.cancelled := by
  rw [ht.scene]

theorem Floor.Ticks.hasEnded (i : Nat) : f'.hasEnded i = f.hasEnded i :=
  hasEnded_congr (stations_congr ht.hands) i

theorem Floor.Ticks.may (d : Drift) : d.may f.scene f'.scene :=
  ht.scene ▸ d.tick f.scene (Nat.le_max_left _ _)

theorem Floor.Ticks.awaits {i : Nat} (h : f.Awaits worker i) : f'.Awaits worker i := by
  refine ⟨(ht.hasEnded i).trans h.1, ?_⟩
  rw [clientOf, ht.hands]
  exact h.2

theorem Floor.Ticks.orderly (ho : f.Orderly owner) : f'.Orderly owner where
  news worker i hi := by
    rw [ht.hands]
    exact ho.news worker i (ht.news ▸ hi)
  yielded worker i hi := by
    rw [ht.hands]
    exact ho.yielded worker i (ht.yielded ▸ hi)
  clients worker i hi := by
    rw [clientOf, ht.hands] at hi
    exact ho.clients worker i hi

theorem Floor.Ticks.rings {depth instant' : Nat} (h : f.Rings worker depth instant') :
    f'.Rings worker depth instant' := by
  have hnow := ht.now
  rcases h with ha | hle
  · rcases Nat.lt_or_ge instant instant' with hlt | hge
    · exact .inl (ht.alarms _ ha hlt)
    · exact .inr (by omega)
  · exact .inr (by omega)

/-- The clock stops at the alarm. -/
theorem Floor.Ticks.le {depth instant' : Nat} (h : f.Rings worker depth instant')
    (hlt : f.scene.now < instant') : f'.scene.now ≤ instant' := by
  have hnow := ht.now
  rcases h with ha | hle
  · have hearliest : instant ≤ instant' := ht.earliest _ ha
    omega
  · omega

/-- The alarm still lies ahead, or it has rung. -/
theorem Floor.Ticks.lt_or_called {depth instant' : Nat} (h : f.Rings worker depth instant')
    (hlt : f.scene.now < instant') : f'.IsCalled worker ∨ f'.scene.now < instant' := by
  have hnow := ht.now
  rcases h with ha | hle
  · rcases Nat.lt_or_ge instant instant' with hlt' | hge
    · exact .inr (by omega)
    · exact .inl (ht.due _ ha hge)
  · omega

theorem Thread.Noted.tick {th : Thread α} {depth : Nat} (h : th.Noted owner worker f depth) :
    th.Noted owner worker f' depth := by
  induction th generalizing depth with
  | ended value | ready work => trivial
  | resting instant' interrupts next =>
    obtain ⟨hinstant, hdeadline, hcancel⟩ := h
    refine ⟨ht.rings hinstant, fun deadline hd => ht.rings (hdeadline deadline hd), fun hc => ?_⟩
    rw [ht.watchers, ht.cancelled]
    exact hcancel hc
  | joining join next =>
    obtain ⟨hsome, hjoin⟩ := h
    refine ⟨hsome, hjoin.subset, hjoin.nodup, fun i hi => ?_, fun hmany i hi => ?_⟩
    · rw [ht.hands]
      exact hjoin.mine i hi
    · rw [Floor.Hears, ht.news, ht.yielded]
      exact (hjoin.hears hmany i hi).imp_left ht.awaits
  | within limit inner next ih => exact ⟨fun hset => ht.rings (h.1 hset), ih h.2⟩

/-- Whoever is woken by the clock is called. -/
theorem Thread.IsIdle.tick {th : Thread α} {depth : Nat} (hnoted : th.Noted owner worker f depth)
    (h : th.IsIdle worker f) : f'.IsCalled worker ∨ th.IsIdle worker f' := by
  induction th generalizing depth with
  | ended value => exact .inr trivial
  | ready work => cases h
  | resting instant' interrupts next =>
    obtain ⟨hinstant, hdeadline, hcancel⟩ := h
    by_cases hcalled : f'.IsCalled worker
    · exact .inl hcalled
    · refine .inr ⟨?_, fun deadline hd => ?_, fun hc => ht.cancelled.trans (hcancel hc)⟩
      · exact (ht.lt_or_called hnoted.1 hinstant).resolve_left hcalled
      · exact (ht.lt_or_called (hnoted.2.1 deadline hd) (hdeadline deadline hd)).resolve_left hcalled
  | joining join next => exact .inr fun i hi => ht.awaits (h i hi)
  | within limit inner next ih =>
    obtain ⟨hset, hlt, hidle⟩ := h
    rcases ih hnoted.2 hidle with hcalled | hidle'
    · exact .inl hcalled
    · exact (ht.lt_or_called (hnoted.1 hset) hlt).imp_right fun hlt' => ⟨hset, hlt', hidle'⟩

theorem Thread.Minded.tick {th : Thread α} (hnoted : th.Noted owner worker f 0)
    (hidle : th.IsIdle worker f) : th.Minded owner worker f' :=
  ⟨hnoted.tick ht, (hidle.tick ht hnoted).imp_left .inl⟩

/-- A worker may sleep until the clock stops. -/
theorem Thread.IsIdle.lasts {th : Thread α} {depth : Nat} (hnoted : th.Noted owner worker f depth)
    (h : th.IsIdle worker f) (d : Drift) : th.Lasts d f.scene f'.scene := by
  induction th generalizing depth with
  | ended value => trivial
  | ready work => cases h
  | resting instant' interrupts next =>
    obtain ⟨hinstant, hdeadline, hcancel⟩ := h
    refine .inr ⟨ht.le hnoted.1 hinstant, fun deadline hd => ?_, fun hc => ?_⟩
    · exact ht.le (hnoted.2.1 deadline hd) (hdeadline deadline hd)
    · exact ⟨f'.scene, ht.may d, d.refl _, ht.cancelled.trans (hcancel hc), rfl⟩
  | joining join next =>
    obtain ⟨hsome, hjoin⟩ := hnoted
    refine .inr fun hnil => hsome ?_
    have hsub := hjoin.subset
    rw [hnil] at hsub
    exact List.subset_nil.1 hsub
  | within limit inner next ih => exact ih hnoted.2 h.2.2

theorem Thread.IsIdle.onTime {th : Thread α} {depth : Nat} (hnoted : th.Noted owner worker f depth)
    (h : th.IsIdle worker f) (e : Errands) : th.OnTime e f' := by
  induction th generalizing depth with
  | ended value | resting instant' interrupts next => trivial
  | ready work => trivial
  | joining join next =>
    obtain ⟨hsome, hjoin⟩ := hnoted
    obtain ⟨i, hi⟩ := List.exists_mem_of_ne_nil _ hsome
    exact .inl ⟨i, hjoin.subset hi, (ht.awaits (h i hi)).1⟩
  | within limit inner next ih =>
    obtain ⟨hset, hlt, hidle⟩ := h
    exact ⟨ht.le (hnoted.1 hset) hlt, ih hnoted.2 hidle⟩

/-- A worker that sleeps until the clock stops still pursues its goal. -/
theorem Station.Pursues.tick {station : Station α} {goal : Prospect α} {least : Nat}
    (h : station.Pursues d e f goal least) (hnoted : station.thread.Noted owner worker f 0)
    (hidle : station.thread.IsIdle worker f) : station.Pursues d e f' goal least where
  isOpen := h.isOpen
  tame := h.tame
  accounts := h.accounts.mono (congrArg List.length (Floor.stations_congr ht.hands)).ge
    fun i hi => (ht.hasEnded i).trans hi
  onTime := hidle.onTime ht hnoted e
  refines r m' hr :=
    h.refines r m' (.of_drift h.isOpen (ht.may d) (hidle.lasts ht hnoted d) hr)

end Ticks

end Workflow
