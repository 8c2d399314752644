import Workflow.Proofs.Work.Minds

/-!
# Branches are not lost sight of

Branches that have been hired are yet to be looked at. A worker that has looked at branches is told
of those that are still missing, or is going to have another turn.
-/

namespace Workflow

namespace Turn

variable {α β : Type} {d : Drift} {owner owner₁ owner' : Nat → Worker} {t t₁ t₂ t' : Turn}
  {depth : Nat} {join : Join}

def Stirs (t : Turn) : Prop :=
  t.again = true ∨ t.floor.Stirs t.worker

theorem stirs_of_yielded {branch : Option Nat} (h : ⟨t.worker, branch⟩ ∈ t.floor.yielded) :
    t.Stirs :=
  .inr (.inr ⟨_, h, rfl⟩)

theorem stirs_giveWay (t : Turn) (branch : Option Nat) : (t.giveWay branch).Stirs := by
  have hmem : ⟨t.worker, branch⟩ ∈ (t.giveWay branch).floor.yielded :=
    Floor.mem_yielded_giveWay _ _
  exact stirs_of_yielded hmem

theorem takeNews_subset_news (news : List Nat) (vain : Nat) (missing : List Nat) (t : Turn) :
    (takeNews news vain missing t).2.1 ⊆ news := by
  induction news generalizing vain missing t with
  | nil => exact List.Subset.refl _
  | cons i rest ih =>
    simp only [takeNews]
    split
    · exact List.subset_cons_of_subset i (ih _ _ _)
    · split
      · exact List.subset_cons_self i rest
      · exact List.subset_cons_of_subset i (ih _ _ _)

/-- After a look at the branches a worker is told of those that are still missing, or is going to
have another turn. -/
structure Collects (owner : Nat → Worker) (depth : Nat) (t : Turn) (join : Join) (t' : Turn) :
    Prop extends Minds owner depth t owner t' where
  noted : join.Noted owner t'.worker t'.floor
  idle : t'.Stirs ∨ ∀ i ∈ join.missing, t'.floor.Awaits t'.worker i

section Collect

variable (ho : t.floor.Orderly owner) (hjoin : join.Noted owner t.worker t.floor)

include ho hjoin

theorem collects_few (hfew : join.hands.length ≤ 30) :
    Collects owner depth t { join with missing := (takeReplies join.missing t).1 }
      (takeReplies join.missing t).2 := by
  have hminds : Minds owner depth t owner (takeReplies join.missing t).2 :=
    minds_takeReplies ho hjoin.mine
  have hsame := sameWork_takeReplies join.missing t
  have hlook := awaits_or_yielded_takeReplies fun i hi => (hjoin.mine i hi).1
  refine { hminds with noted := ⟨?_, ?_, fun i hi => ?_, fun hmany => ?_⟩, idle := ?_ }
  · exact List.Subset.trans takeReplies_sublist.subset hjoin.subset
  · exact takeReplies_sublist.nodup hjoin.nodup
  · rw [hsame.length_hands, hsame.worker]
    exact hjoin.mine i (takeReplies_sublist.subset hi)
  · exact absurd hmany (Nat.not_lt_of_le hfew)
  · by_cases hgave : ⟨t.worker, none⟩ ∈ (takeReplies join.missing t).2.floor.yielded
    · exact .inl (stirs_of_yielded (hsame.worker ▸ hgave))
    · rw [hsame.worker]
      exact .inr fun i hi => (hlook i hi).resolve_right hgave

theorem collects_many (hmany : 30 < join.hands.length) {mine others : List (Worker × Nat)}
    (hmine : ∀ worker i, (worker, i) ∈ mine ↔ (worker, i) ∈ t.floor.news ∧ worker = t.worker)
    (hothers : ∀ worker i,
      (worker, i) ∈ others ↔ (worker, i) ∈ t.floor.news ∧ worker ≠ t.worker)
    {missing left : List Nat}
    (hleft : takeNews (mine.map Prod.snd) 0 join.missing t = (missing, left, t₁)) :
    Collects owner depth t { join with missing }
      (t₁.onFloor ({ · with news := others ++ left.map (t₁.worker, ·) })) := by
  have hnews : ∀ i ∈ mine.map Prod.snd, i < t.floor.hands.length ∧ owner i = t.worker := by
    intro i hi
    obtain ⟨⟨worker, _⟩, hmem, rfl⟩ := List.mem_map.1 hi
    obtain ⟨hmem, rfl⟩ := (hmine worker _).1 hmem
    exact ho.news t.worker _ hmem
  have hhears : ∀ i ∈ join.missing, t.floor.Awaits t.worker i ∨ i ∈ mine.map Prod.snd ∨
      ⟨t.worker, some i⟩ ∈ t.floor.yielded := by
    intro i hi
    refine (hjoin.hears hmany i hi).imp_right (Or.imp_left fun hn => ?_)
    exact List.mem_map.2 ⟨(t.worker, i), (hmine t.worker i).2 ⟨hn, rfl⟩, rfl⟩
  have hminds : Minds owner depth t owner (takeNews (mine.map Prod.snd) 0 join.missing t).2.2 :=
    minds_takeNews ho hnews
  have hsame := sameWork_takeNews (mine.map Prod.snd) 0 join.missing t
  have hsame_news : (takeNews (mine.map Prod.snd) 0 join.missing t).2.2.floor.news = t.floor.news :=
    news_takeNews
  have hagain : (takeNews (mine.map Prod.snd) 0 join.missing t).2.1 ≠ [] →
      (takeNews (mine.map Prod.snd) 0 join.missing t).2.2.again = true := again_of_takeNews
  have hsub : (takeNews (mine.map Prod.snd) 0 join.missing t).1.Sublist join.missing :=
    takeNews_sublist
  have hsub_news := takeNews_subset_news (mine.map Prod.snd) 0 join.missing t
  have hlook : ∀ i ∈ (takeNews (mine.map Prod.snd) 0 join.missing t).1, _ :=
    hears_of_takeNews (fun i hi => (hnews i hi).1) hjoin.nodup hhears
  rw [hleft] at hminds hsame hsame_news hagain hsub hsub_news hlook
  dsimp only at hminds hsame hsame_news hagain hsub hsub_news hlook
  rw [← hsame.worker] at hlook
  have hput : Minds owner depth t₁ owner
      (t₁.onFloor ({ · with news := others ++ left.map (t₁.worker, ·) })) := by
    refine .of_sameWork ⟨rfl, rfl, rfl, rfl⟩
      ⟨fun worker i hi => ?_, hminds.orderly.yielded, hminds.orderly.clients⟩
      (fun worker hne => ?_) (fun _ hc => hc) fun _ ha _ _ => ha
    · rcases List.mem_append.1 hi with hi | hi
      · exact hminds.orderly.news worker i (hsame_news ▸ ((hothers worker i).1 hi).1)
      · obtain ⟨_, hmem, heq⟩ := List.mem_map.1 hi
        cases heq
        obtain ⟨hlt, howner⟩ := hnews i (hsub_news hmem)
        exact ⟨hsame.length_hands ▸ hlt, howner.trans hsame.worker.symm⟩
    · refine .of_notes rfl id (fun _ h _ => h) id (fun _ h => h) (fun i hi => ?_) fun _ h _ => h
      rw [hsame_news] at hi
      exact List.mem_append_left _ ((hothers worker i).2 ⟨hi, hsame.worker ▸ hne⟩)
  refine { hminds.trans hput with noted := ⟨?_, ?_, fun i hi => ?_, fun _ i hi => ?_⟩, idle := ?_ }
  · exact List.Subset.trans hsub.subset hjoin.subset
  · exact hsub.nodup hjoin.nodup
  · obtain ⟨hlt, howner⟩ := hjoin.mine i (hsub.subset hi)
    exact ⟨hsame.length_hands ▸ hlt, howner.trans hsame.worker.symm⟩
  · refine (hlook i hi).imp_right (Or.imp_left fun hn => ?_)
    exact List.mem_append_right _ (List.mem_map_of_mem hn)
  · by_cases hnil : left = []
    · by_cases hall : ∀ i ∈ missing, t₁.floor.Awaits t₁.worker i
      · exact .inr hall
      · obtain ⟨i, hi, hn⟩ : ∃ i ∈ missing, ¬t₁.floor.Awaits t₁.worker i := by
          by_contra hnone
          exact hall fun i hi => by_contra fun hn => hnone ⟨i, hi, hn⟩
        rw [hnil] at hlook
        exact .inl (stirs_of_yielded (((hlook i hi).resolve_left hn).resolve_left List.not_mem_nil))
    · exact .inl (.inl (hagain hnil))

theorem collects : Collects owner depth t (t.collect join).1 (t.collect join).2 := by
  unfold collect
  split
  next hfew => exact collects_few ho hjoin hfew
  next hmany =>
    dsimp only
    refine collects_many ho hjoin (Nat.lt_of_not_le hmany) (fun worker i => ?_) (fun worker i => ?_) rfl
    · rw [List.partition_eq_filter_filter, List.mem_filter, beq_iff_eq]
    · rw [List.partition_eq_filter_filter, List.mem_filter, Function.comp_apply, Bool.not_eq_true',
        beq_eq_false_iff_ne]

end Collect

def ownersFrom (n : Nat) (worker : Worker) (owner : Nat → Worker) (i : Nat) : Worker :=
  if i < n then owner i else worker

section Fork

variable (ho : t.floor.Orderly owner) (branches : List (Work (Except Fault Unit)))

include ho

theorem minds_fork :
    Minds owner depth t (ownersFrom t.floor.hands.length t.worker owner) (t.fork branches).2 := by
  have hstations := t.stations_fork branches
  have hlength : (t.fork branches).2.floor.hands.length = t.floor.hands.length + branches.length := by
    rw [← Floor.length_stations, hstations, List.length_append, List.length_map,
      Floor.length_stations]
  let f : Floor :=
    { t.floor with news := t.floor.news ++ (t.fork branches).1.hands.map (t.worker, ·) }
  have hhires : Floor.Hires f (t.fork branches).2.floor := Floor.hires f t.context branches
  have hnews : ∀ worker, t.floor.Spares worker f := fun worker =>
    .of_notes rfl id (fun _ h _ => h) id (fun _ h => h) (fun _ hi => List.mem_append_left _ hi)
      fun _ h _ => h
  have hspares : ∀ worker, t.floor.Spares worker (t.fork branches).2.floor := fun worker =>
    (hnews worker).trans (hhires.spares worker)
  refine
    { worker := rfl
      now := congrArg Scene.now (t.scene_fork branches)
      stations := ⟨_, hstations.symm⟩
      owners := fun i hi => if_pos hi
      orderly := ⟨fun worker i hi => ?_, fun worker i hi => ?_, fun worker i hi => ?_⟩
      spares := fun worker _ => hspares worker
      called := fun worker => (hspares worker).called
      alarms := fun alarm ha _ _ => (hspares alarm.worker).alarms alarm ha rfl
      hired := fun i hi station hget => ⟨?_, ?_⟩ }
  · rw [hlength]
    have hi' : (worker, i) ∈ f.news := hhires.news ▸ hi
    rcases List.mem_append.1 hi' with hi' | hi'
    · obtain ⟨hlt, howner⟩ := ho.news worker i hi'
      exact ⟨by omega, (if_pos hlt).trans howner⟩
    · obtain ⟨_, hmem, heq⟩ := List.mem_map.1 hi'
      cases heq
      rw [hands_fork, List.mem_map] at hmem
      obtain ⟨k, hk, rfl⟩ := hmem
      rw [List.mem_range] at hk
      rw [Floor.length_stations]
      exact ⟨by omega, if_neg (by omega)⟩
  · rw [hlength]
    obtain ⟨hlt, howner⟩ := ho.yielded worker i (hhires.yielded ▸ hi)
    exact ⟨by omega, (if_pos hlt).trans howner⟩
  · have hi' : t.floor.clientOf i = some worker := hhires.clients i worker hi
    have hlt : i < t.floor.hands.length := Floor.lt_of_clientOf hi'
    exact (if_pos hlt).trans (ho.clients worker i hi')
  · rw [hstations, List.getElem?_append_right hi, List.getElem?_map] at hget
    obtain ⟨work, -, rfl⟩ := Option.map_eq_some_iff.1 hget
    exact ⟨work, rfl⟩
  · refine hhires.called i (Floor.length_stations _ ▸ hi) ?_
    rw [← Floor.length_stations]
    exact (List.getElem?_eq_some_iff.1 hget).1

/-- All branches are yet to be looked at. -/
theorem noted_fork :
    (t.fork branches).1.Noted (ownersFrom t.floor.hands.length t.worker owner)
      (t.fork branches).2.worker (t.fork branches).2.floor := by
  have hhires := Floor.hires
    { t.floor with news := t.floor.news ++ (t.fork branches).1.hands.map (t.worker, ·) }
    t.context branches
  have hnews : ∀ i ∈ (t.fork branches).1.hands, (t.worker, i) ∈ (t.fork branches).2.floor.news := by
    intro i hi
    have hmem : (t.worker, i) ∈ t.floor.news ++ (t.fork branches).1.hands.map (t.worker, ·) :=
      List.mem_append_right _ (List.mem_map_of_mem hi)
    exact hhires.news ▸ hmem
  refine ⟨List.Subset.refl _, ?_, fun i hi => ?_, fun _ i hi => .inr (.inl (hnews i hi))⟩
  · rw [missing_fork, hands_fork]
    exact List.pairwise_map.2 (List.nodup_range.imp fun hne heq => hne (Nat.add_left_cancel heq))
  · have hminds : Minds owner 0 t _ (t.fork branches).2 := minds_fork ho branches
    exact hminds.orderly.news t.worker i (hnews i hi)

end Fork

end Turn

end Workflow
