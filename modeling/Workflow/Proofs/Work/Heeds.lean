import Workflow.Proofs.Work.Collects
import Workflow.Proofs.Work.Proceed

/-!
# A turn forgets nobody

By the same inductions as the work itself: when a worker cannot go on, all that may wake it has been
noted, and either nothing of that has come to pass or the worker is going to have another turn:
`Work.proceed_heeds` for work that is begun, `Thread.resume_heeds` for work that is taken up again.
-/

namespace Workflow

namespace Turn

variable {α β : Type} {d : Drift} {owner owner₁ owner' : Nat → Worker} {t t₁ t₂ t' : Turn}
  {depth : Nat}

/-- What remains of some work after a turn under `depth` limits is not forgotten. -/
structure Heeds {α : Type} (owner : Nat → Worker) (depth : Nat) (t : Turn) (owner' : Nat → Worker)
    (th : Thread α) (t' : Turn) : Prop extends Minds owner depth t owner' t' where
  noted : th.Noted owner' t'.worker t'.floor depth
  idle : t'.Stirs ∨ th.IsIdle t'.worker t'.floor

def CanHeed (depth : Nat) (w : Work α) : Prop :=
  ∀ {owner : Nat → Worker} {t : Turn}, t.floor.Orderly owner →
    ∃ owner', Heeds owner depth t owner' (w.proceed depth t).1 (w.proceed depth t).2

theorem Heeds.after {th : Thread α} (h : Minds owner depth t owner₁ t₁)
    (h' : Heeds owner₁ depth t₁ owner' th t') : Heeds owner depth t owner' th t' :=
  { h.trans h'.toMinds with noted := h'.noted, idle := h'.idle }

/-- Notes of the worker itself are only added. -/
theorem Heeds.adds {th : Thread α} (h : Heeds owner depth t owner₁ th t₁)
    (h' : Minds owner₁ depth t₁ owner₁ t₂)
    (hspares : t₁.floor.Spares t₁.worker t₂.floor) (hagain : t₂.again = t₁.again) :
    Heeds owner depth t owner₁ th t₂ := by
  have howners : Floor.KeepsOwners owner₁ t₁.floor owner₁ t₂.floor := by
    have hle := h'.stations.length_le
    rw [Floor.length_stations, Floor.length_stations] at hle
    exact ⟨hle, fun _ _ => rfl⟩
  refine { h.toMinds.trans h' with noted := ?_, idle := ?_ }
  · rw [h'.worker]
    exact h.noted.mono hspares howners
  · rw [Stirs, h'.worker, hagain]
    rcases h.idle with (hagain | hstirs) | hidle
    · exact .inl (.inl hagain)
    · exact .inl (.inr (hspares.stirs hstirs))
    · exact (hidle.mono hspares h.noted).imp_left fun hc => .inr (.inl hc)

/-- Work under a limit is not forgotten, if an alarm has been set for the limit. -/
theorem Heeds.under {th : Thread β} {next : Option β → Work α} {limit : Limit}
    (h : Heeds owner (depth + 1) t owner₁ th t₁)
    (hrings : limit.isSet = true → t₁.floor.Rings t₁.worker depth limit.instant)
    (hidle : t₁.Stirs ∨ limit.isSet = true ∧ t₁.floor.scene.now < limit.instant) :
    Heeds owner depth t owner₁ (.within limit th next) t₁ := by
  refine { h.toMinds.of_le (Nat.le_succ depth) with noted := ⟨hrings, h.noted⟩, idle := ?_ }
  rcases hidle with hstirs | ⟨hset, hlt⟩
  · exact .inl hstirs
  · exact h.idle.imp_right fun hidle => ⟨hset, hlt, hidle⟩

theorem noted_rest (t : Turn) {instant : Nat} (interrupts : Interrupts) (next : Wake → Work α) :
    (Thread.resting instant interrupts next).Noted owner t.worker
      (t.rest depth instant interrupts).floor depth := by
  obtain ⟨cancellable, deadline⟩ := interrupts
  refine ⟨.inl ?_, fun instant' hd => .inl ?_, fun hc => .inl ?_⟩
  · cases cancellable <;> cases deadline <;> exact List.mem_append_right _ List.mem_cons_self
  · obtain rfl : deadline = some instant' := hd
    cases cancellable <;>
      exact List.mem_append_left _ (List.mem_append_right _ List.mem_cons_self)
  · obtain rfl : cancellable = true := hc
    cases deadline <;> exact List.mem_append_right _ List.mem_cons_self

theorem Heeds.of_ended {next : Option β → Work α} {value : β}
    (h : Heeds owner (depth + 1) t owner₁ (.ended value) t₁)
    (h' : Minds owner₁ depth t₁ owner₁ t₂) (hnext : CanHeed depth (next (some value))) :
    ∃ owner', Heeds owner depth t owner' ((next (some value)).proceed depth t₂).1
      ((next (some value)).proceed depth t₂).2 := by
  obtain ⟨owner', hheeds⟩ := hnext h'.orderly
  exact ⟨owner', .after ((h.toMinds.of_le (Nat.le_succ depth)).trans h') hheeds⟩

theorem Heeds.of_limit {th : Thread β} {next : Option β → Work α} {solvent : Bool}
    (h : Heeds owner (depth + 1) t owner₁ th t₁) (limit : Limit)
    (hset : limit.isSet = true → t.floor.Rings t.worker depth limit.instant)
    (hnext : CanHeed depth (next none)) :
    ∃ owner', Heeds owner depth t owner' (meetLimit depth limit solvent th next t₁).1
      (meetLimit depth limit solvent th next t₁).2 := by
  have hrings : limit.isSet = true → t₁.floor.Rings t₁.worker depth limit.instant := by
    intro hs
    rw [h.worker]
    rcases hset hs with ha | hle
    · exact .inl (h.alarms _ ha rfl (Nat.lt_succ_self depth))
    · exact .inr (h.now ▸ hle)
  unfold meetLimit
  rcases hc : t₁.checkLimit depth limit solvent with ⟨limit', t₂⟩
  simp only [checkLimit] at hc
  split at hc
  · cases hc
    have hminds : Minds owner₁ (depth + 1) t₁ owner₁ (t₁.giveWay none) :=
      minds_giveWay h.orderly fun _ hb => by cases hb
    have hgave := h.adds hminds (Floor.spares_giveWay _ _ _) rfl
    refine ⟨owner₁, hgave.under (fun hs => ?_) (.inl (stirs_giveWay t₁ none))⟩
    exact (hrings hs).mono (Floor.spares_giveWay _ _ _)
  · split at hc
    · cases hc
      have hspend : Minds owner₁ depth t₁ owner₁ t₁.spend := .of_floor h.orderly rfl rfl rfl
      have hdrop : Minds owner₁ depth t₁.spend owner₁ (t₁.spend.drop depth) :=
        minds_drop hspend.orderly
      obtain ⟨owner', hheeds⟩ := hnext hdrop.orderly
      have hminds := h.toMinds.of_le (Nat.le_succ depth)
      exact ⟨owner', .after (hminds.trans (hspend.trans hdrop)) hheeds⟩
    next hlater =>
      have hlt : t₁.now < limit.instant := Nat.lt_of_not_le hlater
      split at hc
      next hset' =>
        cases hc
        exact ⟨owner₁, h.under hrings (.inr ⟨hset', hlt⟩)⟩
      next =>
        cases hc
        have hminds : Minds owner₁ (depth + 1) t₁ owner₁ (t₁.setAlarm depth limit.instant) :=
          minds_setAlarm h.orderly depth limit.instant
        have halarm := h.adds hminds (Floor.spares_setAlarm _ _ _) rfl
        refine ⟨owner₁, halarm.under (fun _ => .inl ?_) (.inr ⟨rfl, hlt⟩)⟩
        exact List.mem_append_right _ List.mem_cons_self

theorem Heeds.of_replies {next : List Reply → Work α} {join : Join}
    (hminds : Minds owner depth t owner₁ t₁) (hjoin : join.Noted owner₁ t₁.worker t₁.floor)
    (hnext : ∀ replies, CanHeed depth (next replies)) :
    ∃ owner', Heeds owner depth t owner' (meetReplies depth join next t₁).1
      (meetReplies depth join next t₁).2 := by
  have hcollects : Collects owner₁ depth t₁ (t₁.collect join).1 (t₁.collect join).2 :=
    collects hminds.orderly hjoin
  unfold meetReplies
  rcases hc : t₁.collect join with ⟨join', t₂⟩
  rw [hc] at hcollects
  dsimp only at hcollects ⊢
  split
  · have hdismiss : Minds owner₁ depth t₂ owner₁ (t₂.onFloor (·.dismiss t₂.worker)) :=
      minds_dismiss hcollects.orderly
    obtain ⟨owner', hheeds⟩ := hnext (t₂.replies join') hdismiss.orderly
    exact ⟨owner', .after (hminds.trans (hcollects.toMinds.trans hdismiss)) hheeds⟩
  next hsome =>
    refine ⟨owner₁, { hminds.trans hcollects.toMinds with noted := ⟨?_, ?_⟩, idle := ?_ }⟩
    · exact fun hnil => hsome (List.isEmpty_iff.2 hnil)
    · exact hcollects.noted
    · exact hcollects.idle

end Turn

open Turn

variable {α β : Type} {d : Drift} {depth : Nat}

/-- When work that is begun cannot go on, all that may wake its worker has been noted. -/
theorem Work.proceed_heeds (w : Work α) (hw : w.Only d.Allows) (depth : Nat) : CanHeed depth w := by
  induction w generalizing depth with
  | done value =>
    intro owner t ho
    exact ⟨owner, { Minds.of_floor ho rfl rfl rfl with noted := trivial, idle := .inr trivial }⟩
  | act change next ih =>
    intro owner t ho
    have hact : Minds owner depth t owner (t.act change) := minds_act ho (hw t.moment).1
    obtain ⟨owner', hheeds⟩ := ih (change t.moment) (hw t.moment).2 depth hact.orderly
    simp only [proceed, t.moment_act change]
    exact ⟨owner', .after hact hheeds⟩
  | pause span interrupts next ih =>
    intro owner t ho
    simp only [proceed]
    split
    · have hgave : Minds owner depth t owner (t.giveWay none) :=
        minds_giveWay ho fun _ hb => by cases hb
      exact ⟨owner, { hgave with noted := trivial, idle := .inl (stirs_giveWay t none) }⟩
    · split
      next wake _ =>
        have hpay : Minds owner depth t owner (t.payFor wake) := minds_payFor ho wake
        obtain ⟨owner', hheeds⟩ := ih wake (hw wake) depth hpay.orderly
        exact ⟨owner', .after hpay hheeds⟩
      next hwake =>
        have hrest : Minds owner depth t owner (t.rest depth (t.now + span.pauseTicks) interrupts) :=
          minds_rest ho depth _ interrupts
        have hsame := t.sameWork_rest depth (t.now + span.pauseTicks) interrupts
        refine ⟨owner, { hrest with noted := ?_, idle := .inr ?_ }⟩
        · rw [hsame.worker]
          exact noted_rest t interrupts next
        · rw [Thread.IsIdle, hsame.scene]
          exact idle_of_wake?_eq_none hwake
  | within limit inner next ihInner ihNext =>
    intro owner t ho
    obtain ⟨owner₁, h₁⟩ := ihInner hw.1 (depth + 1) ho
    rcases hp : inner.proceed (depth + 1) t with ⟨th, t₁⟩
    rw [hp] at h₁
    cases th with
    | ended value =>
      rw [proceed_within_ended hp]
      exact h₁.of_ended (.of_floor h₁.orderly rfl rfl rfl) (ihNext _ (hw.2 _) depth)
    | _ =>
      rw [proceed_within_open hp (by rintro _ ⟨⟩)]
      exact h₁.of_limit { instant := t.now + limit.ticks } (fun hset => by cases hset)
        (ihNext none (hw.2 none) depth)
  | fork count branch next _ ih =>
    intro owner t ho
    rw [proceed_fork]
    exact Heeds.of_replies (minds_fork ho _) (noted_fork ho _) fun replies =>
      ih replies (hw.2 replies) depth

/-- When work that is taken up again cannot go on, all that may wake its worker has been noted. -/
theorem Thread.resume_heeds {owner : Nat → Worker} {t : Turn} (th : Thread α) (hth : th.Only d.Allows)
    (hopen : th.IsOpen) (ho : t.floor.Orderly owner) (depth : Nat)
    (hnoted : th.Noted owner t.worker t.floor depth) :
    ∃ owner', Heeds owner depth t owner' (th.resume depth t).1 (th.resume depth t).2 := by
  induction th generalizing depth with
  | ended value => cases hopen
  | ready work => exact work.proceed_heeds hth depth ho
  | resting instant interrupts next =>
    simp only [resume]
    split
    next wake _ =>
      have hpay : Minds owner depth t owner (t.payFor wake) := minds_payFor ho wake
      have hrise : Minds owner depth (t.payFor wake) owner ((t.payFor wake).rise depth) :=
        minds_rise hpay.orderly
      obtain ⟨owner', hheeds⟩ := (next wake).proceed_heeds (hth wake) depth hrise.orderly
      exact ⟨owner', .after (hpay.trans hrise) hheeds⟩
    next hwake =>
      exact ⟨owner, { Minds.of_floor ho rfl rfl rfl with
        noted := hnoted
        idle := .inr (idle_of_wake?_eq_none hwake) }⟩
  | joining join next =>
    rw [resume_joining]
    exact Heeds.of_replies (.of_floor ho rfl rfl rfl) hnoted.2 fun replies =>
      (next replies).proceed_heeds (hth replies) depth
  | within limit inner next ih =>
    obtain ⟨owner₁, h₁⟩ := ih hth.1 hopen (depth + 1) hnoted.2
    have hnext : ∀ u, CanHeed depth (next u) := fun u =>
      (next u).proceed_heeds (hth.2 u) depth
    rcases hp : inner.resume (depth + 1) t with ⟨th', t₁⟩
    rw [hp] at h₁
    cases th' with
    | ended value =>
      rw [resume_within_ended hp]
      exact h₁.of_ended (minds_rise h₁.orderly) (hnext _)
    | _ =>
      rw [resume_within_open hp (by rintro _ ⟨⟩)]
      exact h₁.of_limit limit hnoted.1 (hnext none)

end Workflow
