import Workflow.Proofs.Work.Notes
import Workflow.Proofs.Work.Prospect
import Workflow.Proofs.Work.Spares

/-!
# Workers mind their own notes

What a worker does in a turn concerns its own notes, and those of the hands that it has hired. All
other workers are spared.
-/

namespace Workflow

namespace Turn

variable {α β : Type} {d : Drift} {owner owner₁ owner' : Nat → Worker} {t t₁ t' : Turn}
  {depth : Nat}

/-- Part of a turn: the worker meddles with nothing but its own notes, and keeps the alarms of the
limits that it stands under. The hands that it hires are called. -/
structure Minds (owner : Nat → Worker) (depth : Nat) (t : Turn) (owner' : Nat → Worker)
    (t' : Turn) : Prop where
  worker : t'.worker = t.worker
  now : t'.floor.scene.now = t.floor.scene.now
  stations : t.floor.stations <+: t'.floor.stations
  owners : ∀ i < t.floor.hands.length, owner' i = owner i
  orderly : t'.floor.Orderly owner'
  spares : ∀ worker ≠ t.worker, t.floor.Spares worker t'.floor
  called : ∀ worker, t.floor.IsCalled worker → t'.floor.IsCalled worker
  alarms : ∀ alarm ∈ t.floor.alarms, alarm.worker = t.worker → alarm.depth < depth →
    alarm ∈ t'.floor.alarms
  hired : ∀ i ≥ t.floor.stations.length, ∀ station, t'.floor.stations[i]? = some station →
    (∃ work, station.thread = .ready work) ∧ t'.floor.IsCalled (.hand i)

namespace Minds

theorem trans (h : Minds owner depth t owner₁ t₁) (h' : Minds owner₁ depth t₁ owner' t') :
    Minds owner depth t owner' t' where
  worker := h'.worker.trans h.worker
  now := h'.now.trans h.now
  stations := h.stations.trans h'.stations
  owners i hi := by
    have hle := h.stations.length_le
    rw [Floor.length_stations, Floor.length_stations] at hle
    exact (h'.owners i (hi.trans_le hle)).trans (h.owners i hi)
  orderly := h'.orderly
  spares worker hne := (h.spares worker hne).trans (h'.spares worker (h.worker ▸ hne))
  called worker hc := h'.called worker (h.called worker hc)
  alarms alarm ha hw hd := h'.alarms alarm (h.alarms alarm ha hw hd) (hw.trans h.worker.symm) hd
  hired i hi station hget := by
    by_cases hlt : i < t₁.floor.stations.length
    · obtain ⟨new, hnew⟩ := h'.stations
      rw [← hnew, List.getElem?_append_left hlt] at hget
      obtain ⟨hready, hc⟩ := h.hired i hi station hget
      exact ⟨hready, h'.called _ hc⟩
    · exact h'.hired i (Nat.le_of_not_lt hlt) station hget

theorem of_le {depth' : Nat} (hle : depth ≤ depth') (h : Minds owner depth' t owner' t') :
    Minds owner depth t owner' t' :=
  { h with alarms := fun alarm ha hw hd => h.alarms alarm ha hw (hd.trans_le hle) }

theorem of_sameWork (h : SameWork t t') (horderly : t'.floor.Orderly owner)
    (hspares : ∀ worker ≠ t.worker, t.floor.Spares worker t'.floor)
    (hcalled : ∀ worker, t.floor.IsCalled worker → t'.floor.IsCalled worker)
    (halarms : ∀ alarm ∈ t.floor.alarms, alarm.worker = t.worker → alarm.depth < depth →
      alarm ∈ t'.floor.alarms) : Minds owner depth t owner t' where
  worker := h.worker
  now := congrArg Scene.now h.scene
  stations := h.stations ▸ List.prefix_rfl
  owners _ _ := rfl
  orderly := horderly
  spares := hspares
  called := hcalled
  alarms := halarms
  hired i hi station hget := by
    rw [h.stations, List.getElem?_eq_none hi] at hget
    cases hget

theorem of_floor (horderly : t.floor.Orderly owner) (hworker : t'.worker = t.worker)
    (hcontext : t'.context = t.context) (hfloor : t'.floor = t.floor) :
    Minds owner depth t owner t' := by
  refine .of_sameWork ⟨hworker, hcontext, ?_, ?_⟩ ?_ (fun worker _ => ?_) (fun worker hc => ?_)
    fun alarm ha _ _ => ?_
  all_goals rw [hfloor]
  · exact horderly
  · exact .refl worker _
  · exact hc
  · exact ha

end Minds

section Steps

variable (ho : t.floor.Orderly owner)

include ho

theorem minds_act {change : Moment → Moment} (hchange : d.Allows t.moment (change t.moment)) :
    Minds owner depth t owner (t.act change) where
  worker := rfl
  now := (congrArg Scene.now (Floor.scene_setScene _ _)).trans hchange.2
  stations := Floor.stations_congr (t.hands_act change) ▸ List.prefix_rfl
  owners _ _ := rfl
  orderly := Floor.orderly_setScene _ ho _
  spares worker _ := Floor.spares_setScene _ worker hchange.2 (d.cancelled hchange.1)
  called worker := (Floor.spares_setScene _ worker hchange.2 (d.cancelled hchange.1)).called
  alarms alarm ha _ _ :=
    (Floor.spares_setScene _ alarm.worker hchange.2 (d.cancelled hchange.1)).alarms alarm ha rfl
  hired i hi station hget := by
    rw [Floor.stations_congr (t.hands_act change), List.getElem?_eq_none hi] at hget
    cases hget

theorem minds_payFor (wake : Wake) : Minds owner depth t owner (t.payFor wake) := by
  cases wake <;> exact .of_floor ho rfl rfl rfl

theorem minds_giveWay {branch : Option Nat}
    (hb : ∀ i ∈ branch, i < t.floor.hands.length ∧ owner i = t.worker) :
    Minds owner depth t owner (t.giveWay branch) :=
  .of_sameWork (t.sameWork_giveWay branch) (Floor.orderly_giveWay _ ho hb)
    (fun worker _ => Floor.spares_giveWay _ worker _)
    (fun worker => (Floor.spares_giveWay _ worker _).called)
    fun alarm ha _ _ => (Floor.spares_giveWay _ alarm.worker _).alarms alarm ha rfl

theorem minds_setAlarm (depth' instant : Nat) :
    Minds owner depth t owner (t.setAlarm depth' instant) :=
  .of_sameWork (t.sameWork_setAlarm depth' instant) ⟨ho.news, ho.yielded, ho.clients⟩
    (fun worker _ => Floor.spares_setAlarm _ worker _) (fun _ hc => hc)
    fun _ ha _ _ => List.mem_append_left _ ha

theorem minds_watch : Minds owner depth t owner (t.onFloor (·.watch t.worker)) :=
  .of_sameWork ⟨rfl, rfl, rfl, rfl⟩ ⟨ho.news, ho.yielded, ho.clients⟩
    (fun worker _ => Floor.spares_watch _ worker _) (fun _ hc => hc) fun _ ha _ _ => ha

theorem minds_rise : Minds owner depth t owner (t.rise depth) := by
  refine .of_sameWork (t.sameWork_rise depth) ⟨ho.news, ho.yielded, ho.clients⟩
    (fun worker hne => ?_) (fun _ hc => hc) fun alarm ha _ hd => ?_
  · exact (Floor.spares_clearAlarms _ hne depth).trans (Floor.spares_unwatch _ hne)
  · refine List.mem_filter.2 ⟨ha, ?_⟩
    rw [decide_eq_true hd, Bool.or_true]

theorem minds_dismiss : Minds owner depth t owner (t.onFloor (·.dismiss t.worker)) := by
  refine .of_sameWork (t.sameWork_dismiss t.worker) (Floor.orderly_dismiss _ _ ho)
    (fun worker hne => Floor.spares_dismiss _ hne) (fun worker hc => ?_) fun _ ha _ _ => ha
  cases worker with
  | lead => exact hc
  | hand j => exact hc.imp_right (t.floor.hasEnded_dismiss t.worker j).trans

theorem minds_rest (depth' instant : Nat) (interrupts : Interrupts) :
    Minds owner depth t owner (t.rest depth' instant interrupts) := by
  have hwatch : Minds owner depth t owner
      (if interrupts.cancellable then t.onFloor (·.watch t.worker) else t) := by
    split
    · exact minds_watch ho
    · exact .of_floor ho rfl rfl rfl
  unfold rest
  refine hwatch.trans ?_
  generalize (if interrupts.cancellable then t.onFloor (·.watch t.worker) else t) = t₁ at hwatch
  dsimp only
  split
  next deadline _ =>
    have hdeadline : Minds owner depth t₁ owner (t₁.setAlarm depth' deadline) :=
      minds_setAlarm hwatch.orderly depth' deadline
    exact hdeadline.trans (minds_setAlarm hdeadline.orderly depth' instant)
  · exact minds_setAlarm hwatch.orderly depth' instant

theorem minds_drop : Minds owner depth t owner (t.drop depth) := by
  have hrise : Minds owner depth t owner (t.rise depth) := minds_rise ho
  exact hrise.trans (minds_dismiss hrise.orderly)

theorem minds_take {i : Nat} (hi : owner i = t.worker) : Minds owner depth t owner (t.take i) :=
  .of_sameWork (t.sameWork_take i) (Floor.orderly_release _ i ho)
    (fun _ hne => Floor.spares_release ho hne hi) (fun _ hc => hc) fun _ ha _ _ => ha

theorem minds_miss {i : Nat} {branch : Option Nat} (hi : owner i = t.worker)
    (hb : ∀ i ∈ branch, i < t.floor.hands.length ∧ owner i = t.worker) :
    Minds owner depth t owner (t.miss i branch) := by
  unfold miss
  split
  · exact minds_giveWay ho hb
  · refine .of_sameWork ⟨rfl, rfl, rfl, Floor.stations_await _ _ _⟩ (Floor.orderly_await ho hi)
      (fun _ hne => Floor.spares_await ho hne hi) (fun worker hc => ?_) fun _ ha _ _ => ha
    cases worker with
    | lead => exact hc
    | hand j => exact hc.imp_right (t.floor.hasEnded_await t.worker i j).trans

end Steps

theorem SameWork.length_hands (h : SameWork t t') :
    t'.floor.hands.length = t.floor.hands.length := by
  rw [← Floor.length_stations, h.stations, Floor.length_stations]

section Look

variable {i j : Nat} {branch : Option Nat} {missing news : List Nat} {vain : Nat}

theorem awaits_miss (h : t.floor.Awaits t.worker j) :
    (t.miss i branch).floor.Awaits t.worker j := by
  refine ⟨((t.sameWork_miss i branch).hasEnded j).trans h.1, ?_⟩
  unfold miss
  split
  · rw [Floor.clientOf, giveWay, onFloor, Floor.hands_giveWay]
    exact h.2
  · rw [onFloor, Floor.clientOf_await]
    split
    next hij =>
      obtain ⟨hand, hget, -⟩ := Option.bind_eq_some_iff.1 h.2
      rw [hget]
      rfl
    · exact h.2

theorem yielded_miss {call : Call} (h : call ∈ t.floor.yielded) :
    call ∈ (t.miss i branch).floor.yielded := by
  unfold miss
  split
  · exact Floor.yielded_subset_giveWay _ _ h
  · exact h

theorem yielded_take {call : Call} (hne : call.branch ≠ some i) (h : call ∈ t.floor.yielded) :
    call ∈ (t.take i).floor.yielded :=
  List.mem_filter.2 ⟨h, bne_iff_ne.2 hne⟩

/-- Whoever has looked at a branch in vain is going to be told of it, or has given way. -/
theorem awaits_or_yielded_miss (hi : i < t.floor.hands.length)
    (h : ¬(!t.isSpent && t.floor.hasEnded i) = true) :
    (t.miss i branch).floor.Awaits t.worker i ∨
      ⟨t.worker, branch⟩ ∈ (t.miss i branch).floor.yielded := by
  unfold miss
  split
  · exact .inr (Floor.mem_yielded_giveWay _ _)
  next hspent =>
    refine .inl (Floor.awaits_await _ _ _ hi ?_)
    rw [Bool.not_eq_true] at hspent
    rw [hspent, Bool.not_false, Bool.true_and, Bool.not_eq_true] at h
    exact h

theorem minds_takeReplies (ho : t.floor.Orderly owner)
    (hmine : ∀ i ∈ missing, i < t.floor.hands.length ∧ owner i = t.worker) :
    Minds owner depth t owner (takeReplies missing t).2 := by
  induction missing generalizing t with
  | nil => exact .of_floor ho rfl rfl rfl
  | cons i rest ih =>
    obtain ⟨⟨hi, howner⟩, hmine⟩ := List.forall_mem_cons.1 hmine
    simp only [takeReplies]
    split
    · have htake : Minds owner depth t owner (t.take i) := minds_take ho howner
      exact htake.trans (ih htake.orderly hmine)
    · have hmiss : Minds owner depth t owner (t.miss i none) :=
        minds_miss ho howner fun _ h => by cases h
      refine hmiss.trans (ih hmiss.orderly fun j hj => ?_)
      rw [(t.sameWork_miss i none).length_hands, (t.sameWork_miss i none).worker]
      exact hmine j hj

theorem awaits_takeReplies (h : t.floor.Awaits t.worker j) :
    (takeReplies missing t).2.floor.Awaits t.worker j := by
  induction missing generalizing t with
  | nil => exact h
  | cons i rest ih =>
    simp only [takeReplies]
    split
    · exact ih (t := t.take i) h
    · have hmiss : (t.miss i none).floor.Awaits t.worker j := awaits_miss h
      rw [← (t.sameWork_miss i none).worker] at hmiss ⊢
      exact ih hmiss

theorem yielded_takeReplies {worker : Worker} (h : ⟨worker, none⟩ ∈ t.floor.yielded) :
    ⟨worker, none⟩ ∈ (takeReplies missing t).2.floor.yielded := by
  induction missing generalizing t with
  | nil => exact h
  | cons i rest ih =>
    simp only [takeReplies]
    split
    · exact ih (yielded_take (by rintro ⟨⟩) h)
    · exact ih (yielded_miss h)

/-- The worker is told of each branch that is still missing, or has given way. -/
theorem awaits_or_yielded_takeReplies (hmine : ∀ i ∈ missing, i < t.floor.hands.length) :
    ∀ i ∈ (takeReplies missing t).1, (takeReplies missing t).2.floor.Awaits t.worker i ∨
      ⟨t.worker, none⟩ ∈ (takeReplies missing t).2.floor.yielded := by
  induction missing generalizing t with
  | nil => exact List.forall_mem_nil _
  | cons i rest ih =>
    obtain ⟨hi, hmine⟩ := List.forall_mem_cons.1 hmine
    simp only [takeReplies]
    split
    · exact ih (t := t.take i) hmine
    next hlooked =>
      have hsame := t.sameWork_miss i none
      refine List.forall_mem_cons.2 ⟨?_, ?_⟩
      · rcases awaits_or_yielded_miss hi hlooked with ha | hy
        · refine .inl ?_
          rw [← hsame.worker] at ha ⊢
          exact awaits_takeReplies ha
        · exact .inr (yielded_takeReplies hy)
      · rw [← hsame.worker]
        exact ih fun j hj => hsame.length_hands ▸ hmine j hj

theorem minds_takeNews (ho : t.floor.Orderly owner)
    (hmine : ∀ i ∈ news, i < t.floor.hands.length ∧ owner i = t.worker) :
    Minds owner depth t owner (takeNews news vain missing t).2.2 := by
  induction news generalizing t vain missing with
  | nil => exact .of_floor ho rfl rfl rfl
  | cons i rest ih =>
    obtain ⟨⟨hi, howner⟩, hmine⟩ := List.forall_mem_cons.1 hmine
    simp only [takeNews]
    split
    · have htake : Minds owner depth t owner (t.take i) := minds_take ho howner
      exact htake.trans (ih htake.orderly hmine)
    · have hmiss : Minds owner depth t owner (t.miss i (some i)) :=
        minds_miss ho howner fun j hj => by cases hj; exact ⟨hi, howner⟩
      split
      · exact hmiss.trans (.of_floor hmiss.orderly rfl rfl rfl)
      · refine hmiss.trans (ih hmiss.orderly fun j hj => ?_)
        rw [(t.sameWork_miss i (some i)).length_hands, (t.sameWork_miss i (some i)).worker]
        exact hmine j hj

theorem news_takeNews : (takeNews news vain missing t).2.2.floor.news = t.floor.news := by
  have hmiss : ∀ (t : Turn) i branch, (t.miss i branch).floor.news = t.floor.news :=
    fun t i branch => by
      unfold miss
      split
      · exact Floor.news_giveWay _ _
      · rfl
  induction news generalizing t vain missing with
  | nil => rfl
  | cons i rest ih =>
    simp only [takeNews]
    split
    · exact ih
    · split
      · exact hmiss _ _ _
      · exact ih.trans (hmiss _ _ _)

/-- News is left only by a worker that wants another turn. -/
theorem again_of_takeNews (h : (takeNews news vain missing t).2.1 ≠ []) :
    (takeNews news vain missing t).2.2.again = true := by
  induction news generalizing t vain missing with
  | nil => exact absurd rfl h
  | cons i rest ih =>
    simp only [takeNews] at h ⊢
    split at h
    next hlooked =>
      rw [if_pos hlooked]
      exact ih h
    next hlooked =>
      rw [if_neg hlooked]
      split at h
      next hvain => rw [if_pos hvain]
      next hvain =>
        rw [if_neg hvain]
        exact ih h

/-- There is news of the branches that are still missing, or the worker is told of them, or has
given way on their behalf. -/
theorem hears_of_takeNews (hnews : ∀ i ∈ news, i < t.floor.hands.length) (hnodup : missing.Nodup)
    (h : ∀ i ∈ missing,
      t.floor.Awaits t.worker i ∨ i ∈ news ∨ ⟨t.worker, some i⟩ ∈ t.floor.yielded) :
    ∀ i ∈ (takeNews news vain missing t).1,
      (takeNews news vain missing t).2.2.floor.Awaits t.worker i ∨
        i ∈ (takeNews news vain missing t).2.1 ∨
        ⟨t.worker, some i⟩ ∈ (takeNews news vain missing t).2.2.floor.yielded := by
  induction news generalizing t vain missing with
  | nil => exact h
  | cons i rest ih =>
    obtain ⟨hi, hnews⟩ := List.forall_mem_cons.1 hnews
    simp only [takeNews]
    split
    · refine ih (t := t.take i) hnews (hnodup.erase i) fun j hj => ?_
      have hne : j ≠ i := (hnodup.mem_erase_iff.1 hj).1
      rcases h j (List.mem_of_mem_erase hj) with ha | hn | hy
      · exact .inl ha
      · exact .inr (.inl ((List.mem_cons.1 hn).resolve_left hne))
      · exact .inr (.inr (yielded_take (fun heq => hne (Option.some.inj heq)) hy))
    next hlooked =>
      have hsame := t.sameWork_miss i (some i)
      have hmissed : ∀ j ∈ missing, (t.miss i (some i)).floor.Awaits t.worker j ∨ j ∈ rest ∨
          ⟨t.worker, some j⟩ ∈ (t.miss i (some i)).floor.yielded := fun j hj => by
        rcases h j hj with ha | hn | hy
        · exact .inl (awaits_miss ha)
        · rcases List.mem_cons.1 hn with rfl | hn
          · exact (awaits_or_yielded_miss hi hlooked).imp_right .inr
          · exact .inr (.inl hn)
        · exact .inr (.inr (yielded_miss hy))
      split
      · exact hmissed
      · rw [← hsame.worker] at hmissed ⊢
        exact ih (fun j hj => hsame.length_hands ▸ hnews j hj) hnodup hmissed

end Look

end Turn

end Workflow
