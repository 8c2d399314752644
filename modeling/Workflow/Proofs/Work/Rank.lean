import Mathlib.SetTheory.Ordinal.Family
import Workflow.Proofs.Work.Proceed

/-!
# How far work is from its end

The rank of a piece of work is an ordinal that falls whenever a worker gets on with it, whatever
comes of its pauses and branches. It is an ordinal since what follows on a node may depend on a
moment, and of these there are infinitely many. Branches have a lower rank than the work that they
are hired for.

A worker that has a turn either gets nearer to the end, or it has looked in vain at what it waits
for. In the latter case next to nothing happens: the worker may have read some news.
-/

namespace Workflow

variable {α β : Type}

namespace Work

noncomputable def rank : {α : Type} → Work α → Ordinal.{0}
  | _, .done _ => 1
  | _, .act _ next => ⨆ m, (next m).rank + 1
  | _, .pause _ _ next => (⨆ wake, (next wake).rank + 1) + 1
  | _, .within _ inner next => (⨆ u, (next u).rank + 1) + (inner.rank + 1)
  | _, .fork count branch next =>
    max (⨆ i, (branch i).rank + 1) ((⨆ replies, (next replies).rank + 1) + (count + 1 : ℕ))

theorem rank_next_act (change : Moment → Moment) (next : Moment → Work α) (m : Moment) :
    (next m).rank < (act change next).rank :=
  Ordinal.lt_iSup_add_one _ m

theorem rank_next_pause (span : Span) (interrupts : Interrupts) (next : Wake → Work α)
    (wake : Wake) : (next wake).rank < (pause span interrupts next).rank :=
  (Ordinal.lt_iSup_add_one _ wake).trans (lt_add_one _)

theorem rank_next_within (limit : Span) (inner : Work β) (next : Option β → Work α)
    (u : Option β) : (next u).rank < (within limit inner next).rank :=
  (Ordinal.lt_iSup_add_one _ u).trans_le le_self_add

theorem rank_inner (limit : Span) (inner : Work β) (next : Option β → Work α) :
    inner.rank < (within limit inner next).rank :=
  (lt_add_one _).trans_le le_add_self

section Fork

variable {count : Nat} (branch : Fin count → Work (Except Fault Unit)) (next : List Reply → Work α)

theorem rank_branch (i : Fin count) : (branch i).rank < (fork count branch next).rank :=
  lt_max_of_lt_left (Ordinal.lt_iSup_add_one _ i)

theorem rank_next_fork (replies : List Reply) :
    (next replies).rank < (fork count branch next).rank :=
  lt_max_of_lt_right ((Ordinal.lt_iSup_add_one _ replies).trans_le le_self_add)

end Fork

theorem rank_pos (w : Work α) : 0 < w.rank := by
  cases w with
  | done value => exact zero_lt_one
  | act change next => exact (rank_next_act change next default).bot_lt
  | pause span interrupts next => exact (rank_next_pause span interrupts next .rested).bot_lt
  | within limit inner next => exact (rank_next_within limit inner next none).bot_lt
  | fork count branch next => exact (rank_next_fork branch next []).bot_lt

end Work

namespace Thread

noncomputable def rank : {α : Type} → Thread α → Ordinal.{0}
  | _, .ended _ => 0
  | _, .ready work => work.rank
  | _, .resting _ _ next => ⨆ wake, (next wake).rank + 1
  | _, .joining join next => (⨆ replies, (next replies).rank + 1) + join.missing.length
  | _, .within limit inner next =>
    (⨆ u, (next u).rank + 1) + (inner.rank + (!limit.isSet).toNat)

theorem rank_resting (instant : Nat) (span : Span) (interrupts : Interrupts)
    (next : Wake → Work α) :
    (resting instant interrupts next).rank < (Work.pause span interrupts next).rank :=
  lt_add_one _

theorem rank_next_resting (instant : Nat) (interrupts : Interrupts) (next : Wake → Work α)
    (wake : Wake) : (next wake).rank < (resting instant interrupts next).rank :=
  Ordinal.lt_iSup_add_one _ wake

theorem rank_next_joining (join : Join) (next : List Reply → Work α) (replies : List Reply) :
    (next replies).rank < (joining join next).rank :=
  (Ordinal.lt_iSup_add_one _ replies).trans_le le_self_add

theorem rank_joining {join join' : Join} (next : List Reply → Work α)
    (h : join'.missing.length < join.missing.length) :
    (joining join' next).rank < (joining join next).rank :=
  add_lt_add_right (Nat.cast_lt.2 h) _

theorem rank_joining_fork {count : Nat} {branch : Fin count → Work (Except Fault Unit)}
    {join : Join} (next : List Reply → Work α) (h : join.missing.length ≤ count) :
    (joining join next).rank < (Work.fork count branch next).rank :=
  lt_max_of_lt_right (add_lt_add_right (Nat.cast_lt.2 (Nat.lt_succ_of_le h)) _)

theorem rank_next_within (limit : Limit) (inner : Thread β) (next : Option β → Work α)
    (u : Option β) : (next u).rank < (within limit inner next).rank :=
  (Ordinal.lt_iSup_add_one _ u).trans_le le_self_add

theorem rank_inner (limit : Limit) (inner : Thread β) (next : Option β → Work α) :
    inner.rank ≤ (within limit inner next).rank :=
  le_self_add.trans le_add_self

section Within

variable {limit limit' : Limit} {inner inner' : Thread β} (next : Option β → Work α)
  (hset : limit.isSet = true → limit'.isSet = true)

include hset

theorem toNat_unset_le : (!limit'.isSet).toNat ≤ (!limit.isSet).toNat := by
  cases hl : limit.isSet with
  | true =>
    rw [hset hl]
  | false => exact Bool.toNat_le _

theorem rank_within_le (hinner : inner'.rank ≤ inner.rank) :
    (within limit' inner' next).rank ≤ (within limit inner next).rank :=
  add_le_add_right (add_le_add hinner (Nat.cast_le.2 (toNat_unset_le hset))) _

/-- Work under a limit gets nearer to its end with what the limit is for. -/
theorem rank_within_lt (hinner : inner'.rank < inner.rank) :
    (within limit' inner' next).rank < (within limit inner next).rank := by
  apply add_lt_add_right
  have hunset : ((!limit'.isSet).toNat : Ordinal.{0}) ≤ (!limit.isSet).toNat :=
    Nat.cast_le.2 (toNat_unset_le hset)
  have hlt := (lt_iff_lt_of_le_iff_le (Ordinal.add_le_add_iff_right (!limit.isSet).toNat)).2 hinner
  exact (add_le_add_right hunset _).trans_lt hlt

end Within

/-- To set the alarm of a limit is a step as well. -/
theorem rank_within_set {limit : Limit} {inner inner' : Thread β} (next : Option β → Work α)
    (hinner : inner'.rank ≤ inner.rank) (hset : limit.isSet = false) :
    (within { limit with isSet := true } inner' next).rank < (within limit inner next).rank := by
  apply add_lt_add_right
  rw [hset, Bool.not_true, Bool.not_false, Bool.toNat_false, Bool.toNat_true, Nat.cast_zero,
    Nat.cast_one, add_zero]
  exact hinner.trans_lt (lt_add_one _)

theorem rank_within_ready (instant : Nat) (span : Span) (inner : Work β)
    (next : Option β → Work α) :
    (within { instant } (.ready inner) next).rank = (Work.within span inner next).rank := by
  rw [rank, Work.rank, rank, Bool.not_false, Bool.toNat_true, Nat.cast_one]

theorem rank_pos {th : Thread α} (h : ∀ value, th ≠ .ended value) : 0 < th.rank := by
  cases th with
  | ended value => exact absurd rfl (h value)
  | ready work => exact work.rank_pos
  | resting instant interrupts next =>
    exact (rank_next_resting instant interrupts next .rested).bot_lt
  | joining join next => exact (rank_next_joining join next []).bot_lt
  | within limit inner next => exact (rank_next_within limit inner next none).bot_lt

theorem exists_ended_of_rank {th : Thread α} (h : th.rank = 0) : ∃ value, th = .ended value := by
  by_contra hnot
  exact (rank_pos fun value heq => hnot ⟨value, heq⟩).ne' h

end Thread

namespace Turn

variable {t t₁ t' : Turn} {r r' : Ordinal.{0}} {depth : Nat} {missing' left : List Nat}

def HiresBelow (r : Ordinal.{0}) (t t' : Turn) : Prop :=
  ∃ new, t'.floor.stations = t.floor.stations ++ new ∧ ∀ station ∈ new, station.thread.rank < r

namespace HiresBelow

theorem of_stations (h : t'.floor.stations = t.floor.stations) : HiresBelow r t t' :=
  ⟨[], by rw [h, List.append_nil], List.forall_mem_nil _⟩

theorem trans (h : HiresBelow r t t₁) (h' : HiresBelow r' t₁ t') (hle : r' ≤ r) :
    HiresBelow r t t' := by
  obtain ⟨new, hnew, hbelow⟩ := h
  obtain ⟨new', hnew', hbelow'⟩ := h'
  refine ⟨new ++ new', by rw [hnew', hnew, List.append_assoc], fun station hmem => ?_⟩
  rcases List.mem_append.1 hmem with hmem | hmem
  · exact hbelow station hmem
  · exact (hbelow' station hmem).trans_le hle

theorem mono (h : HiresBelow r' t t') (hle : r' ≤ r) : HiresBelow r t t' :=
  (of_stations rfl).trans h hle

theorem of_fork {branches : List (Work (Except Fault Unit))}
    (h : ∀ work ∈ branches, work.rank < r) : HiresBelow r t (t.fork branches).2 := by
  refine ⟨_, t.stations_fork branches, fun station hmem => ?_⟩
  obtain ⟨work, hwork, rfl⟩ := List.mem_map.1 hmem
  exact h work hwork

end HiresBelow

/-- In part of a turn the worker has got nearer to the end than the rank, and so are all that it has
hired. -/
structure Nears (r : Ordinal.{0}) (t : Turn) (th : Thread α) (t' : Turn) : Prop where
  rank : th.rank < r
  hires : HiresBelow r t t'

def Gains (r : Ordinal.{0}) (t : Turn) (th : Thread α) (t' : Turn) : Prop :=
  Nears r t th t' ∨
    t.isSpent = true ∧ th.rank ≤ r ∧ t'.floor.stations = t.floor.stations

namespace Gains

variable {th : Thread α}

theorem rank_le (hg : Gains r t th t') : th.rank ≤ r := by
  rcases hg with ⟨hrank, -⟩ | ⟨-, hrank, -⟩
  · exact hrank.le
  · exact hrank

theorem hires (hg : Gains r t th t') : HiresBelow r t t' := by
  rcases hg with ⟨-, hhires⟩ | ⟨-, -, hstations⟩
  · exact hhires
  · exact .of_stations hstations

/-- Work that follows on other work in the same turn. -/
theorem nears (hg : Gains r' t₁ th t') (h : HiresBelow r t t₁) (hlt : r' < r) :
    Nears r t th t' :=
  ⟨hg.rank_le.trans_lt hlt, h.trans hg.hires hlt.le⟩

end Gains

def CanGain (depth : Nat) (w : Work α) : Prop :=
  ∀ t, Gains w.rank t (w.proceed depth t).1 (w.proceed depth t).2

/-- Work that is stuck is dropped at its limit, or an alarm is set for that, or it stays as it is;
then the worker has nothing to do if it was solvent. -/
theorem meetLimit_cases (depth : Nat) (limit : Limit) (solvent : Bool) (th : Thread β)
    (next : Option β → Work α) (t : Turn) :
    (∃ t', SameWork t t' ∧
        meetLimit depth limit solvent th next t = (next none).proceed depth t') ∨
      (∃ t', SameWork t t' ∧ limit.isSet = false ∧
        meetLimit depth limit solvent th next t =
          (.within { limit with isSet := true } th next, t')) ∨
      ∃ t', SameWork t t' ∧ (solvent = true → t' = t) ∧
        meetLimit depth limit solvent th next t = (.within limit th next, t') := by
  unfold meetLimit checkLimit
  cases hbroke : t.isSpent && !solvent with
  | true =>
    rw [Bool.and_eq_true, Bool.not_eq_true'] at hbroke
    refine .inr (.inr ⟨_, t.sameWork_giveWay none, fun hsolvent => ?_, rfl⟩)
    rw [hsolvent] at hbroke
    cases hbroke.2
  | false =>
    by_cases hpassed : limit.instant ≤ t.now
    · refine .inl ⟨_, t.sameWork_spend.trans (sameWork_drop _ depth), ?_⟩
      simp [hpassed]
    · cases hset : limit.isSet with
      | true => exact .inr (.inr ⟨t, .refl t, fun _ => rfl, by simp [hpassed]⟩)
      | false =>
        have hsame := t.sameWork_setAlarm depth limit.instant
        exact .inr (.inl ⟨_, hsame, rfl, by simp [hpassed]⟩)

/-- Branches have all been taken, or some are still missing. -/
theorem meetReplies_cases (depth : Nat) (join : Join) (next : List Reply → Work α) (t : Turn) :
    (∃ t' replies, SameWork t t' ∧
        meetReplies depth join next t = (next replies).proceed depth t') ∨
      meetReplies depth join next t = (.joining (t.collect join).1 next, (t.collect join).2) := by
  unfold meetReplies
  rcases hc : t.collect join with ⟨join', t₁⟩
  have hsame : SameWork t t₁ := by
    have hcollect := sameWork_collect join t
    rwa [hc] at hcollect
  dsimp only
  split
  · exact .inl ⟨_, t₁.replies join', hsame.trans (sameWork_dismiss t₁ t₁.worker), rfl⟩
  · exact .inr rfl

theorem Gains.of_limit {inner th : Thread β} {next : Option β → Work α}
    (hg : Gains inner.rank t th t₁) (limit : Limit) (solvent : Bool)
    (hcan : CanGain depth (next none)) :
    Gains (Thread.within limit inner next).rank t (meetLimit depth limit solvent th next t₁).1
      (meetLimit depth limit solvent th next t₁).2 := by
  have hhires := hg.hires.mono (Thread.rank_inner limit inner next)
  rcases meetLimit_cases depth limit solvent th next t₁ with ⟨t₂, hsame, heq⟩ |
    ⟨t₂, hsame, hset, heq⟩ | ⟨t₂, hsame, -, heq⟩
  · rw [heq]
    have hhires' := hhires.trans (.of_stations hsame.stations) le_rfl
    exact .inl ((hcan t₂).nears hhires' (Thread.rank_next_within limit inner next none))
  · rw [heq]
    exact .inl ⟨Thread.rank_within_set next hg.rank_le hset,
      hhires.trans (.of_stations hsame.stations) le_rfl⟩
  · rw [heq]
    rcases hg with ⟨hrank, -⟩ | ⟨hspent, hrank, hstations⟩
    · exact .inl ⟨Thread.rank_within_lt next id hrank,
        hhires.trans (.of_stations hsame.stations) le_rfl⟩
    · exact .inr ⟨hspent, Thread.rank_within_le next id hrank, hsame.stations.trans hstations⟩

structure Quiet (t t' : Turn) : Prop extends SameWork t t' where
  alarms : t'.floor.alarms = t.floor.alarms
  queue : t'.floor.queue = t.floor.queue
  leadCalled : t'.floor.leadCalled = t.floor.leadCalled

namespace Quiet

theorem refl (t : Turn) : Quiet t t :=
  ⟨.refl t, rfl, rfl, rfl⟩

theorem trans (h : Quiet t t₁) (h' : Quiet t₁ t') : Quiet t t' :=
  ⟨h.toSameWork.trans h'.toSameWork, h'.alarms.trans h.alarms, h'.queue.trans h.queue,
    h'.leadCalled.trans h.leadCalled⟩

end Quiet

def unread (t : Turn) : Nat :=
  t.floor.news.length + t.floor.yielded.length

structure Reads (t t' : Turn) : Prop extends Quiet t t' where
  fewer : t'.unread < t.unread ∨
    t'.floor.news.length = t.floor.news.length ∧
      t'.floor.yielded.length = t.floor.yielded.length ∧ t'.again = t.again

theorem Reads.refl (t : Turn) : Reads t t :=
  ⟨.refl t, .inr ⟨rfl, rfl, rfl⟩⟩

theorem quiet_take (t : Turn) (i : Nat) : Quiet t (t.take i) :=
  ⟨t.sameWork_take i, rfl, rfl, rfl⟩

theorem giveWay_floor (t : Turn) (branch : Option Nat) :
    (t.giveWay branch).floor = t.floor ∨
      (t.giveWay branch).floor =
        { t.floor with yielded := ⟨t.worker, branch⟩ :: t.floor.yielded } := by
  rw [giveWay, onFloor, Floor.giveWay]
  split
  · exact .inl rfl
  · exact .inr rfl

theorem quiet_miss (t : Turn) (i : Nat) (branch : Option Nat) : Quiet t (t.miss i branch) := by
  have hsame := t.sameWork_miss i branch
  unfold miss at hsame ⊢
  split
  next hspent =>
    rw [if_pos hspent] at hsame
    rcases t.giveWay_floor branch with hfloor | hfloor
    all_goals exact ⟨hsame, by rw [hfloor], by rw [hfloor], by rw [hfloor]⟩
  next hspent =>
    rw [if_neg hspent] at hsame
    exact ⟨hsame, rfl, rfl, rfl⟩

theorem quiet_takeNews (news : List Nat) (vain : Nat) (missing : List Nat) (t : Turn) :
    Quiet t (takeNews news vain missing t).2.2 := by
  induction news generalizing vain missing t with
  | nil => exact .refl t
  | cons i rest ih =>
    simp only [takeNews]
    split
    · exact (t.quiet_take i).trans (ih _ _ _)
    · split
      · exact (t.quiet_miss i (some i)).trans ⟨⟨rfl, rfl, rfl, rfl⟩, rfl, rfl, rfl⟩
      · exact (t.quiet_miss i (some i)).trans (ih _ _ _)

theorem length_yielded_miss (t : Turn) (i : Nat) (branch : Option Nat) :
    (t.miss i branch).floor.yielded.length ≤ t.floor.yielded.length + t.isSpent.toNat := by
  unfold miss
  split
  next hspent =>
    rw [hspent]
    rcases t.giveWay_floor branch with hfloor | hfloor
    · rw [hfloor]
      exact Nat.le_succ _
    · rw [hfloor]
      exact Nat.le_refl _
  · exact Nat.le_add_right _ _

/-- News that has been looked at is gone, or the worker has given way on its behalf. -/
theorem length_takeNews (news : List Nat) (vain : Nat) (missing : List Nat) (t : Turn) :
    (takeNews news vain missing t).2.1.length +
        (takeNews news vain missing t).2.2.floor.yielded.length ≤
      news.length + t.floor.yielded.length := by
  induction news generalizing vain missing t with
  | nil => exact Nat.le_refl _
  | cons i rest ih =>
    rw [List.length_cons]
    simp only [takeNews]
    split
    · have htake : (t.take i).floor.yielded.length ≤ t.floor.yielded.length :=
        List.length_filter_le _ _
      have hrest := ih 0 (missing.erase i) (t.take i)
      omega
    · have hmiss := t.length_yielded_miss i (some i)
      have hspent := t.isSpent.toNat_le
      split
      · dsimp only
        omega
      · have hrest := ih (vain + 1) missing (t.miss i (some i))
        omega

theorem length_takeNews_lt {i : Nat} (news : List Nat) (vain : Nat) (missing : List Nat)
    (hspent : t.isSpent = false) :
    (takeNews (i :: news) vain missing t).2.1.length +
        (takeNews (i :: news) vain missing t).2.2.floor.yielded.length <
      (i :: news).length + t.floor.yielded.length := by
  rw [List.length_cons]
  simp only [takeNews]
  split
  · have htake : (t.take i).floor.yielded.length ≤ t.floor.yielded.length :=
      List.length_filter_le _ _
    have hrest := length_takeNews news 0 (missing.erase i) (t.take i)
    omega
  · have hmiss := t.length_yielded_miss i (some i)
    rw [hspent, Bool.toNat_false] at hmiss
    split
    · dsimp only
      omega
    · have hrest := length_takeNews news (vain + 1) missing (t.miss i (some i))
      omega

theorem reads_takeReplies {missing : List Nat} (hspent : t.isSpent = false)
    (h : (takeReplies missing t).1.length = missing.length) :
    Reads t (takeReplies missing t).2 := by
  induction missing generalizing t with
  | nil => exact .refl t
  | cons i rest ih =>
    simp only [takeReplies] at h ⊢
    split at h
    next hlooked =>
      have hle : (takeReplies rest (t.take i)).1.length ≤ rest.length :=
        takeReplies_sublist.length_le
      rw [List.length_cons] at h
      omega
    next hlooked =>
      rw [if_neg hlooked]
      have hmiss : t.miss i none = t.onFloor (·.await t.worker i) := by
        rw [miss, hspent]
        rfl
      rw [hmiss] at h ⊢
      have hreads := ih (t := t.onFloor (·.await t.worker i)) hspent (Nat.succ.inj h)
      have hsame := t.sameWork_miss i none
      rw [hmiss] at hsame
      exact ⟨⟨hsame.trans hreads.toSameWork, hreads.alarms, hreads.queue, hreads.leadCalled⟩,
        hreads.fewer⟩

theorem reads_takeNews {mine others : List (Worker × Nat)} (vain : Nat) (missing : List Nat)
    (hspent : t.isSpent = false) (hlength : mine.length + others.length = t.floor.news.length)
    (hnews : takeNews (mine.map Prod.snd) vain missing t = (missing', left, t₁)) :
    Reads t (t₁.onFloor ({ · with news := others ++ left.map (t₁.worker, ·) })) := by
  have hput : Quiet t₁ (t₁.onFloor ({ · with news := others ++ left.map (t₁.worker, ·) })) :=
    ⟨⟨rfl, rfl, rfl, rfl⟩, rfl, rfl, rfl⟩
  cases mine with
  | nil =>
    cases hnews
    refine ⟨hput, .inr ⟨?_, rfl, rfl⟩⟩
    rw [← hlength, List.length_nil, Nat.zero_add]
    exact List.length_append.trans (Nat.add_zero _)
  | cons note mine =>
    have hquiet := quiet_takeNews ((note :: mine).map Prod.snd) vain missing t
    have hread := length_takeNews_lt (mine.map Prod.snd) vain missing hspent (i := note.2)
    rw [List.map_cons] at hquiet hnews
    rw [hnews] at hquiet hread
    refine ⟨hquiet.trans hput, .inl ?_⟩
    have hleft : (others ++ left.map (t₁.worker, ·)).length = others.length + left.length := by
      rw [List.length_append, List.length_map]
    rw [List.length_cons, List.length_map] at hread
    rw [List.length_cons] at hlength
    dsimp only at hread
    simp only [unread, onFloor, hleft]
    omega

/-- A worker takes some reply, or it has looked in vain. -/
theorem reads_collect {join : Join} (hspent : t.isSpent = false)
    (h : (t.collect join).1.missing.length = join.missing.length) :
    Reads t (t.collect join).2 := by
  unfold collect at h ⊢
  split
  next hfew =>
    rw [if_pos hfew] at h
    exact reads_takeReplies hspent h
  next hmany =>
    refine reads_takeNews 0 join.missing hspent ?_ rfl
    rw [List.partition_eq_filter_filter]
    exact (List.length_eq_length_filter_add _).symm

structure Stalls (r : Ordinal.{0}) (t : Turn) (th : Thread α) (t' : Turn) : Prop
    extends Reads t t' where
  rank : th.rank = r

end Turn

open Turn

namespace Work

variable {depth : Nat}

/-- What remains of work that is begun is nearer to the end. -/
theorem proceed_gains (w : Work α) (depth : Nat) : CanGain depth w := by
  induction w generalizing depth with
  | done value =>
    intro t
    exact .inl ⟨zero_lt_one, .of_stations rfl⟩
  | act change next ih =>
    intro t
    have hhires : HiresBelow (act change next).rank t (t.act change) :=
      .of_stations (Floor.stations_congr (t.hands_act change))
    exact .inl ((ih _ depth _).nears hhires (rank_next_act change next _))
  | pause span interrupts next ih =>
    intro t
    simp only [proceed]
    split
    next hspent => exact .inr ⟨hspent, le_rfl, (t.sameWork_giveWay none).stations⟩
    · split
      next wake _ =>
        have hhires : HiresBelow (pause span interrupts next).rank t (t.payFor wake) :=
          .of_stations (t.sameWork_payFor wake).stations
        exact .inl ((ih wake depth _).nears hhires (rank_next_pause span interrupts next wake))
      · have hsame := t.sameWork_rest depth (t.now + span.pauseTicks) interrupts
        exact .inl ⟨Thread.rank_resting _ _ _ _, .of_stations hsame.stations⟩
  | within span inner next ihInner ihNext =>
    intro t
    have hinner := ihInner (depth + 1) t
    rcases hp : inner.proceed (depth + 1) t with ⟨th, t₁⟩
    rw [hp] at hinner
    by_cases hended : ∃ value, th = .ended value
    · obtain ⟨value, rfl⟩ := hended
      rw [proceed_within_ended hp]
      have hhires := hinner.hires.mono (rank_inner span inner next).le
      exact .inl ((ihNext _ depth t₁).nears hhires (rank_next_within span inner next _))
    · rw [proceed_within_open hp fun value heq => hended ⟨value, heq⟩,
        ← Thread.rank_within_ready (t.now + span.ticks)]
      have hready : Gains (Thread.ready inner).rank t th t₁ := hinner
      exact hready.of_limit _ _ (ihNext none depth)
  | fork count branch next _ ih =>
    intro t
    have hhires : HiresBelow (fork count branch next).rank t (t.fork (List.ofFn branch)).2 := by
      apply HiresBelow.of_fork
      intro work hmem
      obtain ⟨i, rfl⟩ := List.mem_ofFn.1 hmem
      exact rank_branch branch next i
    rw [proceed_fork]
    rcases meetReplies_cases depth (t.fork (List.ofFn branch)).1 next
      (t.fork (List.ofFn branch)).2 with ⟨t', replies, hsame, heq⟩ | heq
    · rw [heq]
      have hhires' := hhires.trans (.of_stations hsame.stations) le_rfl
      exact .inl ((ih replies depth t').nears hhires' (rank_next_fork branch next replies))
    · rw [heq]
      have hsame := sameWork_collect (t.fork (List.ofFn branch)).1 (t.fork (List.ofFn branch)).2
      have hlength : (t.fork (List.ofFn branch)).1.missing.length = count := by
        rw [missing_fork, hands_fork, List.length_map, List.length_range, List.length_ofFn]
      have hle := (collect_sublist (t.fork (List.ofFn branch)).1
        (t.fork (List.ofFn branch)).2).length_le
      exact .inl ⟨Thread.rank_joining_fork next (hle.trans_eq hlength),
        hhires.trans (.of_stations hsame.stations) le_rfl⟩

end Work

namespace Thread

/-- A worker that is not out of budget gets nearer to the end of its work, or it has looked in
vain. -/
theorem resume_nears_or_stalls (th : Thread α) {t : Turn} (hspent : t.isSpent = false)
    (depth : Nat) : Nears th.rank t (th.resume depth t).1 (th.resume depth t).2 ∨
      Stalls th.rank t (th.resume depth t).1 (th.resume depth t).2 := by
  induction th generalizing depth with
  | ended value => exact .inr ⟨.refl t, rfl⟩
  | ready work =>
    rcases work.proceed_gains depth t with hnears | ⟨hspent', -⟩
    · exact .inl hnears
    · rw [hspent] at hspent'
      cases hspent'
  | resting instant interrupts next =>
    simp only [resume]
    split
    next wake _ =>
      have hsame := (t.sameWork_payFor wake).trans (sameWork_rise _ depth)
      exact .inl (((next wake).proceed_gains depth _).nears (.of_stations hsame.stations)
        (rank_next_resting instant interrupts next wake))
    · exact .inr ⟨.refl t, rfl⟩
  | joining join next =>
    rw [resume_joining]
    rcases meetReplies_cases depth join next t with ⟨t', replies, hsame, heq⟩ | heq
    · rw [heq]
      exact .inl (((next replies).proceed_gains depth t').nears (.of_stations hsame.stations)
        (rank_next_joining join next replies))
    · rw [heq]
      have hsame := sameWork_collect join t
      rcases (collect_sublist join t).length_le.lt_or_eq with hlt | hlength
      · exact .inl ⟨rank_joining next hlt, .of_stations hsame.stations⟩
      · refine .inr ⟨reads_collect hspent hlength, ?_⟩
        simp only [rank, hlength]
  | within limit inner next ih =>
    have hinner := ih (depth + 1)
    rcases hp : inner.resume (depth + 1) t with ⟨th', t₁⟩
    rw [hp] at hinner
    have hhires : HiresBelow (within limit inner next).rank t t₁ := by
      rcases hinner with hnears | hstalls
      · exact hnears.hires.mono (rank_inner limit inner next)
      · exact .of_stations hstalls.stations
    by_cases hended : ∃ value, th' = .ended value
    · obtain ⟨value, rfl⟩ := hended
      rw [resume_within_ended hp]
      have hrise := hhires.trans (.of_stations (sameWork_rise t₁ depth).stations) le_rfl
      exact .inl (((next _).proceed_gains depth _).nears hrise
        (rank_next_within limit inner next _))
    · rw [resume_within_open hp fun value heq => hended ⟨value, heq⟩]
      rcases hinner with hnears | hstalls
      · have hgains : Gains inner.rank t th' t₁ := .inl hnears
        have hlimit := hgains.of_limit limit (!t.isSpent) ((next none).proceed_gains depth)
        refine .inl (hlimit.resolve_right ?_)
        rintro ⟨hspent', -⟩
        rw [hspent] at hspent'
        cases hspent'
      · rcases meetLimit_cases depth limit (!t.isSpent) th' next t₁ with ⟨t₂, hsame, heq⟩ |
          ⟨t₂, hsame, hset, heq⟩ | ⟨t₂, -, hstill, heq⟩
        · rw [heq]
          exact .inl (((next none).proceed_gains depth t₂).nears
            (hhires.trans (.of_stations hsame.stations) le_rfl)
            (rank_next_within limit inner next none))
        · rw [heq]
          exact .inl ⟨rank_within_set next hstalls.rank.le hset,
            hhires.trans (.of_stations hsame.stations) le_rfl⟩
        · cases hstill (by rw [hspent]; rfl)
          rw [heq]
          refine .inr ⟨hstalls.toReads, ?_⟩
          simp only [rank, hstalls.rank]

end Thread

end Workflow
