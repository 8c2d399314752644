import Workflow.Proofs.Work.Clock
import Workflow.Proofs.Work.Crew
import Workflow.Proofs.Work.Outline
import Workflow.Proofs.Work.Proceed
import Workflow.Proofs.Work.Shadow

/-!
# Runs in tandem

Work that shadows other work does so to its end. Round by round the two floors have one outline, so
the same workers have their turns on both, and each hand shadows its counterpart. For every hand
there is a tie: it says how the contexts that the hand and its counterpart leave are related.
-/

namespace Workflow

variable {α β : Type} {I J : Context → Context → Prop} {Q : α → Context → Context → Prop}
  {R : β → Context → Context → Prop} {T : Tie} {ties ties₁ ties' : List Tie} {c c' : Context}
  {f f' : Floor} {t t' t₁ t₁' : Turn} {depth : Nat}

inductive Thread.Shadow (ties : List Tie) : {α : Type} → (I : Context → Context → Prop) →
    (Q : α → Context → Context → Prop) → Context → Thread α → Context → Thread α → Prop
  | ended {α : Type} {I : Context → Context → Prop} {Q : α → Context → Context → Prop} {value : α}
      {c c' : Context} (h : Q value c c') : Shadow ties I Q c (.ended value) c' (.ended value)
  | ready {α : Type} {I : Context → Context → Prop} {Q : α → Context → Context → Prop}
      {w w' : Work α} {c c' : Context} (hi : I c c') (h : Work.Shadow I Q c w c' w') :
      Shadow ties I Q c (.ready w) c' (.ready w')
  | resting {α : Type} {I : Context → Context → Prop} {Q : α → Context → Context → Prop}
      {instant : Nat} {interrupts : Interrupts} {next next' : Wake → Work α} {c c' : Context}
      (hi : I c c') (h : ∀ wake, Work.Shadow I Q c (next wake) c' (next' wake)) :
      Shadow ties I Q c (.resting instant interrupts next) c' (.resting instant interrupts next')
  | joining {α : Type} {I : Context → Context → Prop} {Q : α → Context → Context → Prop} {T : Tie}
      {join : Join} {next next' : List Reply → Work α} {c c' : Context} (hi : I c c')
      (htie : ∀ i ∈ join.hands, ties[i]? = some T)
      (h : ∀ replies replies', List.Forall₂ (Reply.Tied T) replies replies' →
        Work.Shadow I Q c (next replies) c' (next' replies')) :
      Shadow ties I Q c (.joining join next) c' (.joining join next')
  | within {α γ : Type} {I J : Context → Context → Prop} {Q : α → Context → Context → Prop}
      {R : γ → Context → Context → Prop} {limit : Limit} {inner inner' : Thread γ}
      {next next' : Option γ → Work α} {c c' : Context} (hi : J c c')
      (hinner : Shadow ties J R c inner c' inner') (hj : ∀ {d d'}, J d d' → I d d')
      (hended : ∀ value d d', R value d d' →
        Work.Shadow I Q d (next (some value)) d' (next' (some value)))
      (hdropped : ∀ d d', J d d' → Work.Shadow I Q d (next none) d' (next' none)) :
      Shadow ties I Q c (.within limit inner next) c' (.within limit inner' next')

def Station.Shadow (ties : List Tie) (T : Tie) (station station' : Station (Except Fault Unit)) :
    Prop :=
  ∃ I, Thread.Shadow ties I T station.context station.thread station'.context station'.thread

theorem tie_of_grown {i : Nat} (hpre : ties <+: ties') (hi : ties[i]? = some T) :
    ties'[i]? = some T := by
  obtain ⟨hlt, rfl⟩ := List.getElem?_eq_some_iff.1 hi
  exact List.prefix_iff_getElem?.1 hpre i hlt

namespace Thread.Shadow

variable {th th' : Thread α}

/-- It does no harm when more hands are hired. -/
theorem grow (h : Shadow ties I Q c th c' th') (hpre : ties <+: ties') :
    Shadow ties' I Q c th c' th' := by
  induction h with
  | ended h => exact .ended h
  | ready hi h => exact .ready hi h
  | resting hi h => exact .resting hi h
  | joining hi htie h => exact .joining hi (fun i hmem => tie_of_grown hpre (htie i hmem)) h
  | within hi _ hj hended hdropped ih => exact .within hi ih hj hended hdropped

theorem of_ended {value : α} (h : Shadow ties I Q c (.ended value) c' th') :
    th' = .ended value ∧ Q value c c' := by
  cases h with
  | ended h => exact ⟨rfl, h⟩

theorem of_open (h : Shadow ties I Q c th c' th') (hopen : ∀ value, th ≠ .ended value) :
    I c c' ∧ ∀ value, th' ≠ .ended value := by
  cases h with
  | ended h => exact absurd rfl (hopen _)
  | ready hi _ => exact ⟨hi, nofun⟩
  | resting hi _ => exact ⟨hi, nofun⟩
  | joining hi _ _ => exact ⟨hi, nofun⟩
  | within hi _ hj _ _ => exact ⟨hj hi, nofun⟩

end Thread.Shadow

namespace Station.Shadow

variable {station station' : Station (Except Fault Unit)}

theorem grow (h : station.Shadow ties T station') (hpre : ties <+: ties') :
    station.Shadow ties' T station' := by
  obtain ⟨I, h⟩ := h
  exact ⟨I, h.grow hpre⟩

theorem outline (h : station.Shadow ties T station') : station'.outline = station.outline := by
  obtain ⟨context, thread⟩ := station
  obtain ⟨context', thread'⟩ := station'
  obtain ⟨I, h⟩ := h
  cases h <;> rfl

end Station.Shadow

namespace Floor

structure Tied (ties : List Tie) (f f' : Floor) : Prop where
  length : ties.length = f.stations.length
  length' : ties.length = f'.stations.length
  hands : ∀ (i : Nat) (T : Tie) (station station' : Station (Except Fault Unit)),
    ties[i]? = some T → f.stations[i]? = some station → f'.stations[i]? = some station' →
      station.Shadow ties T station'

structure Tandem (ties : List Tie) (f f' : Floor) : Prop extends Tied ties f f' where
  outline : f'.outline = f.outline

theorem Tied.of_stations (h : f.Tied ties f') {g g' : Floor} (hg : g.stations = f.stations)
    (hg' : g'.stations = f'.stations) : g.Tied ties g' where
  length := hg ▸ h.length
  length' := hg' ▸ h.length'
  hands := hg ▸ hg' ▸ h.hands

/-- What the hands on both floors leave is tied. -/
theorem Tied.reply? (h : f.Tied ties f') {i : Nat} (hi : ties[i]? = some T) :
    Option.Rel (Reply.Tied T) (f.reply? i) (f'.reply? i) := by
  obtain ⟨hlt, -⟩ := List.getElem?_eq_some_iff.1 hi
  obtain ⟨⟨context, thread⟩, hs⟩ : ∃ station, f.stations[i]? = some station :=
    ⟨_, List.getElem?_eq_getElem (h.length ▸ hlt)⟩
  obtain ⟨⟨context', thread'⟩, hs'⟩ : ∃ station, f'.stations[i]? = some station :=
    ⟨_, List.getElem?_eq_getElem (h.length' ▸ hlt)⟩
  obtain ⟨I, hshadow⟩ := h.hands i T _ _ hi hs hs'
  rw [reply?_eq, reply?_eq, hs, hs']
  cases hshadow with
  | ended h => exact .some ⟨rfl, h⟩
  | ready | resting | joining | within => exact .none

/-- Hands are hired for branches of which the second ones shadow the first ones. -/
theorem Tied.hires (h : f.Tied ties f') {branches branches' : List (Work (Except Fault Unit))}
    {g g' : Floor} (hj : J c c')
    (hbranches : List.Forall₂ (fun w w' => Work.Shadow J T c w c' w') branches branches')
    (hg : g.stations = f.stations ++ branches.map (Turn.newStation c))
    (hg' : g'.stations = f'.stations ++ branches'.map (Turn.newStation c')) :
    g.Tied (ties ++ List.replicate branches.length T) g' where
  length := by
    rw [hg, List.length_append, List.length_append, List.length_replicate, List.length_map,
      h.length]
  length' := by
    rw [hg', List.length_append, List.length_append, List.length_replicate, List.length_map,
      h.length', hbranches.length_eq]
  hands i T₁ station station' hi hs hs' := by
    have hpre : ties <+: ties ++ List.replicate branches.length T := List.prefix_append _ _
    rw [hg] at hs
    rw [hg'] at hs'
    rcases Nat.lt_or_ge i ties.length with hlt | hge
    · rw [List.getElem?_append_left hlt] at hi
      rw [List.getElem?_append_left (h.length ▸ hlt)] at hs
      rw [List.getElem?_append_left (h.length' ▸ hlt)] at hs'
      exact (h.hands i T₁ _ _ hi hs hs').grow hpre
    · rw [List.getElem?_append_right hge] at hi
      rw [List.getElem?_append_right (h.length ▸ hge), List.getElem?_map, ← h.length] at hs
      rw [List.getElem?_append_right (h.length' ▸ hge), List.getElem?_map, ← h.length'] at hs'
      obtain ⟨w, hw, rfl⟩ := Option.map_eq_some_iff.1 hs
      obtain ⟨w', hw', rfl⟩ := Option.map_eq_some_iff.1 hs'
      obtain ⟨hlt, rfl⟩ := List.getElem?_eq_some_iff.1 hw
      obtain ⟨hlt', rfl⟩ := List.getElem?_eq_some_iff.1 hw'
      rw [List.getElem?_replicate, if_pos hlt] at hi
      cases hi
      exact ⟨J, .ready hj (List.Forall₂.get hbranches hlt hlt')⟩

theorem Tandem.call (h : f.Tandem ties f') (worker : Worker) :
    (f.call worker).Tandem ties (f'.call worker) where
  toTied := h.of_stations (stations_congr (f.hands_call worker))
    (stations_congr (f'.hands_call worker))
  outline := by rw [outline_call, outline_call, h.outline]

theorem Tandem.put (h : f.Tandem ties f') {i : Nat} {station station' : Station (Except Fault Unit)}
    (hi : ties[i]? = some T) (hstation : station.Shadow ties T station') :
    (f.put i station).Tandem ties (f'.put i station') where
  length := by rw [stations_put, List.length_modify, h.length]
  length' := by rw [stations_put, List.length_modify, h.length']
  hands j T₁ station₁ station₁' hj hs hs' := by
    rw [getElem?_put] at hs hs'
    split at hs
    next hij =>
      subst hij
      rw [if_pos rfl] at hs'
      obtain ⟨_, -, rfl⟩ := Option.map_eq_some_iff.1 hs
      obtain ⟨_, -, rfl⟩ := Option.map_eq_some_iff.1 hs'
      cases hi.symm.trans hj
      exact hstation
    next hij =>
      rw [if_neg hij] at hs'
      exact h.hands j T₁ _ _ hj hs hs'
  outline := by rw [outline_put, outline_put, h.outline, hstation.outline]

end Floor

namespace Turn

structure Tandem (ties : List Tie) (t t' : Turn) : Prop where
  tied : t.floor.Tied ties t'.floor
  outline : t'.outline = t.outline

/-- In two turns the workers have got to threads of which the second shadows the first. -/
def InTandem (ties : List Tie) (I : Context → Context → Prop) (Q : α → Context → Context → Prop)
    (r r' : Thread α × Turn) : Prop :=
  ∃ ties', ties <+: ties' ∧ r.2.Tandem ties' r'.2 ∧
    Thread.Shadow ties' I Q r.2.context r.1 r'.2.context r'.1

theorem InTandem.of_grown {r r' : Thread α × Turn} (h : InTandem ties' I Q r r')
    (hpre : ties <+: ties') : InTandem ties I Q r r' := by
  obtain ⟨ties₂, hpre', h⟩ := h
  exact ⟨ties₂, hpre.trans hpre', h⟩

namespace Tandem

variable (h : t.Tandem ties t')

include h

theorem floor : t.floor.Tandem ties t'.floor where
  toTied := h.tied
  outline := congrArg Turn.floor h.outline

theorem scene : t'.floor.scene = t.floor.scene :=
  congrArg (·.floor.scene) h.outline

theorem now : t'.now = t.now :=
  congrArg Scene.now h.scene

theorem isSpent : t'.isSpent = t.isSpent :=
  congrArg (fun t => t.budget == 0) h.outline

theorem again : t'.again = t.again :=
  congrArg (fun t => t.again) h.outline

theorem wake? (instant : Nat) (interrupts : Interrupts) :
    t'.wake? instant interrupts = t.wake? instant interrupts := by
  simp only [Turn.wake?, h.now, h.scene]

theorem of_sameWork (hsame : SameWork t t₁) (hsame' : SameWork t' t₁')
    (houtline : t₁'.outline = t₁.outline) : t₁.Tandem ties t₁' where
  tied := h.tied.of_stations hsame.stations hsame'.stations
  outline := houtline

theorem payFor (wake : Wake) : (t.payFor wake).Tandem ties (t'.payFor wake) :=
  h.of_sameWork (t.sameWork_payFor wake) (t'.sameWork_payFor wake) (by
    rw [outline_payFor, outline_payFor, h.outline])

theorem giveWay (branch : Option Nat) : (t.giveWay branch).Tandem ties (t'.giveWay branch) :=
  h.of_sameWork (t.sameWork_giveWay branch) (t'.sameWork_giveWay branch) (by
    rw [outline_giveWay, outline_giveWay, h.outline])

theorem rest (depth instant : Nat) (interrupts : Interrupts) :
    (t.rest depth instant interrupts).Tandem ties (t'.rest depth instant interrupts) :=
  h.of_sameWork (t.sameWork_rest depth instant interrupts)
    (t'.sameWork_rest depth instant interrupts) (by
      rw [outline_rest, outline_rest, h.outline])

theorem rise (depth : Nat) : (t.rise depth).Tandem ties (t'.rise depth) :=
  h.of_sameWork (t.sameWork_rise depth) (t'.sameWork_rise depth)
    (congrArg (Turn.rise depth) h.outline)

theorem dismiss :
    (t.onFloor (·.dismiss t.worker)).Tandem ties (t'.onFloor (·.dismiss t'.worker)) :=
  h.of_sameWork (t.sameWork_dismiss t.worker) (t'.sameWork_dismiss t'.worker) (by
    rw [outline_dismiss, outline_dismiss, h.outline])

theorem checkLimit (depth : Nat) (limit : Limit) (solvent : Bool) :
    (t'.checkLimit depth limit solvent).1 = (t.checkLimit depth limit solvent).1 ∧
      (t'.checkLimit depth limit solvent).2.outline =
        (t.checkLimit depth limit solvent).2.outline := by
  have hcheck := t'.outline_checkLimit depth limit solvent
  rw [h.outline, outline_checkLimit] at hcheck
  obtain ⟨hlimit, houtline⟩ := Prod.mk.inj hcheck
  exact ⟨hlimit.symm, houtline.symm⟩

theorem collect (join : Join) :
    (t'.collect join).1 = (t.collect join).1 ∧
      (t.collect join).2.Tandem ties (t'.collect join).2 := by
  have hcollect := t'.outline_collect join
  rw [h.outline, outline_collect] at hcollect
  obtain ⟨hjoin, houtline⟩ := Prod.mk.inj hcollect
  exact ⟨hjoin.symm,
    h.of_sameWork (sameWork_collect join t) (sameWork_collect join t') houtline.symm⟩

theorem act {change change' : Moment → Moment} {d d' : Context}
    (hmoves : Moment.Moves change change' t.context t'.context d d') :
    (t.act change).Tandem ties (t'.act change') ∧ (t.act change).context = d ∧
      (t'.act change').context = d' := by
  obtain ⟨hd, hd', hscene⟩ := hmoves t.floor.scene
  have hmoment : t'.moment = { t.floor.scene with context := t'.context } := by
    rw [moment, h.scene]
  refine ⟨⟨h.tied.of_stations (Floor.stations_congr (t.hands_act change))
    (Floor.stations_congr (t'.hands_act change')), ?_⟩, hd, ?_⟩
  · have hfloor : t'.floor.outline = t.floor.outline := h.floor.outline
    rw [outline_act, outline_act, h.outline, hfloor, hmoment, hscene]
    rfl
  · rw [← hmoment] at hd'
    exact hd'

theorem fork {branches branches' : List (Work (Except Fault Unit))} (hj : J t.context t'.context)
    (hbranches : List.Forall₂ (fun w w' => Work.Shadow J T t.context w t'.context w') branches
      branches') :
    (t'.fork branches').1 = (t.fork branches).1 ∧
      (t.fork branches).2.Tandem (ties ++ List.replicate branches.length T)
        (t'.fork branches').2 := by
  have hfork := t'.outline_fork branches'
  rw [h.outline, ← hbranches.length_eq, outline_fork] at hfork
  obtain ⟨hjoin, houtline⟩ := Prod.mk.inj hfork
  exact ⟨hjoin.symm, h.tied.hires hj hbranches (t.stations_fork branches)
    (t'.stations_fork branches'), houtline.symm⟩

theorem replies {join : Join} (htie : ∀ i ∈ join.hands, ties[i]? = some T) :
    List.Forall₂ (Reply.Tied T) (t.replies join) (t'.replies join) := by
  unfold Turn.replies
  generalize join.hands = hands at htie
  induction hands with
  | nil => exact .nil
  | cons i hands ih =>
    obtain ⟨hi, hhands⟩ := List.forall_mem_cons.1 htie
    have hreply := h.tied.reply? hi
    rw [List.filterMap_cons, List.filterMap_cons]
    generalize t.floor.reply? i = reply at hreply
    generalize t'.floor.reply? i = reply' at hreply
    cases hreply with
    | none => exact ih hhands
    | some hreply => exact .cons hreply (ih hhands)

end Tandem

/-- Both workers look at the limit of work that has got stuck. -/
theorem Tandem.limit {limit : Limit} {solvent : Bool} {th th' : Thread β}
    {next next' : Option β → Work α} (h : t.Tandem ties t')
    (hth : Thread.Shadow ties J R t.context th t'.context th') (hopen : ∀ value, th ≠ .ended value)
    (hj : ∀ {d d'}, J d d' → I d d')
    (hended : ∀ value d d', R value d d' →
      Work.Shadow I Q d (next (some value)) d' (next' (some value)))
    (hdropped : ∀ d d', J d d' → Work.Shadow I Q d (next none) d' (next' none))
    (hgo : ∀ d d', J d d' → ∀ {t t' : Turn}, t.Tandem ties t' → t.context = d → t'.context = d' →
      InTandem ties I Q ((next none).proceed depth t) ((next' none).proceed depth t')) :
    InTandem ties I Q (meetLimit depth limit solvent th next t)
      (meetLimit depth limit solvent th' next' t') := by
  obtain ⟨hi, -⟩ := hth.of_open hopen
  obtain ⟨hlimit, houtline⟩ := h.checkLimit depth limit solvent
  unfold meetLimit
  rcases hc : t.checkLimit depth limit solvent with ⟨_ | limit₁, t₁⟩
  all_goals
    rcases hc' : t'.checkLimit depth limit solvent with ⟨limit₁', t₁'⟩
    rw [hc, hc'] at hlimit houtline
    dsimp only at hlimit houtline ⊢
    subst hlimit
  · obtain ⟨hsame, -⟩ := checkLimit_eq_none hc
    obtain ⟨hsame', -⟩ := checkLimit_eq_none hc'
    exact hgo _ _ hi (h.of_sameWork hsame hsame' houtline) hsame.context hsame'.context
  · obtain ⟨hsame, -⟩ := checkLimit_eq_some hc
    obtain ⟨hsame', -⟩ := checkLimit_eq_some hc'
    rw [← hsame.context, ← hsame'.context] at hth hi
    exact ⟨ties, List.prefix_rfl, h.of_sameWork hsame hsame' houtline,
      .within hi hth hj hended hdropped⟩

/-- Both workers look at the branches that they wait for. -/
theorem Tandem.meetReplies {join : Join} {next next' : List Reply → Work α}
    (h : t.Tandem ties t') (hi : I t.context t'.context)
    (htie : ∀ i ∈ join.hands, ties[i]? = some T)
    (hnext : ∀ replies replies', List.Forall₂ (Reply.Tied T) replies replies' →
      Work.Shadow I Q t.context (next replies) t'.context (next' replies'))
    (hgo : ∀ replies replies', List.Forall₂ (Reply.Tied T) replies replies' →
      ∀ {t₁ t₁' : Turn}, t₁.Tandem ties t₁' → t₁.context = t.context → t₁'.context = t'.context →
        InTandem ties I Q ((next replies).proceed depth t₁)
          ((next' replies').proceed depth t₁')) :
    InTandem ties I Q (Turn.meetReplies depth join next t)
      (Turn.meetReplies depth join next' t') := by
  have hsame := sameWork_collect join t
  have hsame' := sameWork_collect join t'
  have hhands := hands_collect join t
  obtain ⟨hjoin, hcollect⟩ := h.collect join
  unfold Turn.meetReplies
  rcases hc : t.collect join with ⟨join₁, t₁⟩
  rcases hc' : t'.collect join with ⟨join₁', t₁'⟩
  rw [hc, hc'] at hjoin hcollect
  rw [hc] at hsame hhands
  rw [hc'] at hsame'
  dsimp only at hjoin hcollect hsame hsame' hhands ⊢
  subst hjoin
  rw [← hhands] at htie
  split
  · exact hgo _ _ (hcollect.replies htie) hcollect.dismiss hsame.context hsame'.context
  · rw [← hsame.context, ← hsame'.context] at hi hnext
    exact ⟨ties, List.prefix_rfl, hcollect, .joining hi htie hnext⟩

end Turn

open Turn

/-- Work that shadows other work does so in its turns. -/
theorem Work.Shadow.proceed {w w' : Work α} (h : Work.Shadow I Q c w c' w')
    (ht : t.Tandem ties t') (hc : t.context = c) (hc' : t'.context = c') (depth : Nat) :
    InTandem ties I Q (w.proceed depth t) (w'.proceed depth t') := by
  -- on the work that is shadowed, for any ties: there are more of them once it has forked
  induction h generalizing t t' ties depth with
  | done h =>
    subst hc hc'
    exact ⟨ties, List.prefix_rfl, ht, .ended h⟩
  | @act _ _ _ change change' next next' c c' d d' hmoves _ ih =>
    subst hc hc'
    obtain ⟨hact, rfl, rfl⟩ := ht.act hmoves
    have hnext := ih (t.act change).floor.scene hact rfl rfl depth
    have hmoment : (t'.act change').moment =
        { (t.act change).floor.scene with context := (t'.act change').context } := by
      rw [Turn.moment, hact.scene]
    simp only [Work.proceed, hmoment]
    exact hnext
  | @pause _ _ _ span interrupts next next' c c' hi h ih =>
    subst hc hc'
    have hspent := ht.isSpent
    have hnow := ht.now
    have hwake := ht.wake? (t.now + span.pauseTicks) interrupts
    simp only [Work.proceed, hspent, hnow, hwake]
    split
    · have hsame := t.sameWork_giveWay none
      have hsame' := t'.sameWork_giveWay none
      rw [← hsame.context, ← hsame'.context] at hi h
      exact ⟨ties, List.prefix_rfl, ht.giveWay none, .ready hi (.pause hi h)⟩
    · split
      next wake _ =>
        exact ih wake (ht.payFor wake) (t.sameWork_payFor wake).context
          (t'.sameWork_payFor wake).context depth
      · have hsame := t.sameWork_rest depth (t.now + span.pauseTicks) interrupts
        have hsame' := t'.sameWork_rest depth (t.now + span.pauseTicks) interrupts
        rw [← hsame.context, ← hsame'.context] at hi h
        exact ⟨ties, List.prefix_rfl, ht.rest _ _ _, .resting hi h⟩
  | @within _ _ _ _ _ _ limit inner inner' _ _ _ _ _ hj hended hdropped ihInner ihEnded
      ihDropped =>
    obtain ⟨ties₁, hpre, ht₁, hth⟩ := ihInner ht hc hc' (depth + 1)
    rcases hp : inner.proceed (depth + 1) t with ⟨th, t₁⟩
    rcases hp' : inner'.proceed (depth + 1) t' with ⟨th', t₁'⟩
    rw [hp, hp'] at ht₁ hth
    dsimp only at ht₁ hth
    by_cases hended' : ∃ value, th = .ended value
    · obtain ⟨value, rfl⟩ := hended'
      obtain ⟨rfl, hr⟩ := hth.of_ended
      rw [proceed_within_ended hp, proceed_within_ended hp']
      exact (ihEnded value _ _ hr ht₁ rfl rfl depth).of_grown hpre
    · have hopen : ∀ value, th ≠ .ended value := fun value heq => hended' ⟨value, heq⟩
      rw [proceed_within_open hp hopen, proceed_within_open hp' (hth.of_open hopen).2, ht.now,
        ht.isSpent]
      apply InTandem.of_grown _ hpre
      exact ht₁.limit hth hopen hj hended hdropped fun d d' h _ _ ht hd hd' =>
        ihDropped d d' h ht hd hd' depth
  | @fork _ _ J _ T count branch branch' _ _ _ _ hi hj hbranch h _ ih =>
    subst hc hc'
    have hbranches : List.Forall₂ (fun w w' => Work.Shadow J T t.context w t'.context w')
        (List.ofFn branch) (List.ofFn branch') := by
      rw [List.forall₂_iff_get]
      refine ⟨by rw [List.length_ofFn, List.length_ofFn], fun i hi hi' => ?_⟩
      simp only [List.get_eq_getElem, List.getElem_ofFn]
      exact hbranch _
    obtain ⟨hjoin, hfork⟩ := ht.fork hj hbranches
    have hcontext : (t.fork (List.ofFn branch)).2.context = t.context := rfl
    have hcontext' : (t'.fork (List.ofFn branch')).2.context = t'.context := rfl
    rw [proceed_fork, proceed_fork, hjoin]
    refine (hfork.meetReplies hi ?_ h fun replies replies' hr _ _ ht hd hd' =>
      ih replies replies' hr ht hd hd' depth).of_grown (List.prefix_append ties _)
    intro i hi
    rw [hands_fork, List.mem_map] at hi
    obtain ⟨k, hk, rfl⟩ := hi
    rw [← ht.tied.length, List.getElem?_append_right (Nat.le_add_right _ _),
      Nat.add_sub_cancel_left, List.getElem?_replicate, if_pos (List.mem_range.1 hk)]

/-- What shadows the rest of other work does so when it is taken up. -/
theorem Thread.Shadow.resume {th th' : Thread α} (h : Thread.Shadow ties I Q c th c' th')
    (ht : t.Tandem ties t') (hc : t.context = c) (hc' : t'.context = c') (depth : Nat) :
    InTandem ties I Q (th.resume depth t) (th'.resume depth t') := by
  induction h generalizing t t' depth with
  | ended h =>
    subst hc hc'
    exact ⟨ties, List.prefix_rfl, ht, .ended h⟩
  | ready _ h => exact h.proceed ht hc hc' depth
  | @resting _ _ _ instant interrupts _ _ _ _ hi h =>
    subst hc hc'
    have hwake := ht.wake? instant interrupts
    simp only [resume, hwake]
    split
    next wake _ =>
      have hsame := (t.sameWork_payFor wake).trans (sameWork_rise _ depth)
      have hsame' := (t'.sameWork_payFor wake).trans (sameWork_rise _ depth)
      exact (h wake).proceed ((ht.payFor wake).rise depth) hsame.context hsame'.context depth
    · exact ⟨ties, List.prefix_rfl, ht, .resting hi h⟩
  | joining hi htie h =>
    subst hc hc'
    rw [resume_joining, resume_joining]
    exact ht.meetReplies hi htie h fun replies replies' hr _ _ ht hd hd' =>
      (h replies replies' hr).proceed ht hd hd' depth
  | @within _ _ _ _ _ _ limit inner inner' _ _ _ _ _ _ hj hended hdropped ih =>
    obtain ⟨ties₁, hpre, ht₁, hth⟩ := ih ht hc hc' (depth + 1)
    rcases hp : inner.resume (depth + 1) t with ⟨th, t₁⟩
    rcases hp' : inner'.resume (depth + 1) t' with ⟨th', t₁'⟩
    rw [hp, hp'] at ht₁ hth
    dsimp only at ht₁ hth
    apply InTandem.of_grown _ hpre
    by_cases hended' : ∃ value, th = .ended value
    · obtain ⟨value, rfl⟩ := hended'
      obtain ⟨rfl, hr⟩ := hth.of_ended
      rw [resume_within_ended hp, resume_within_ended hp']
      exact (hended value _ _ hr).proceed (ht₁.rise depth) rfl rfl depth
    · have hopen : ∀ value, th ≠ .ended value := fun value heq => hended' ⟨value, heq⟩
      rw [resume_within_open hp hopen, resume_within_open hp' (hth.of_open hopen).2, ht.isSpent]
      exact ht₁.limit hth hopen hj hended hdropped fun d d' h _ _ ht hd hd' =>
        (hdropped d d' h).proceed ht hd hd' depth

namespace Floor

def StayInTandem (ties : List Tie) (f f' : Floor) : Prop :=
  ∃ ties', ties <+: ties' ∧ f.Tandem ties' f'

theorem StayInTandem.of_grown (h : StayInTandem ties' f f') (hpre : ties <+: ties') :
    StayInTandem ties f f' := by
  obtain ⟨ties₂, hpre', h⟩ := h
  exact ⟨ties₂, hpre.trans hpre', h⟩

theorem Tandem.hands_eq (h : f.Tandem ties f') (i : Nat) :
    f'.hands[i]?.map Hand.outline = f.hands[i]?.map Hand.outline := by
  rw [← List.getElem?_map, ← List.getElem?_map]
  exact congrArg (fun g : Floor => g.hands[i]?) h.outline

theorem Tandem.turnOf (h : f.Tandem ties f') (i : Nat) :
    StayInTandem ties (f.turnOf i) (f'.turnOf i) := by
  have hsame := h.hands_eq i
  unfold Floor.turnOf
  cases hhand : f.hands[i]? with
  | none =>
    rw [hhand, Option.map_none, Option.map_eq_none_iff] at hsame
    rw [hsame]
    exact ⟨ties, List.prefix_rfl, h⟩
  | some hand =>
    rw [hhand, Option.map_some] at hsame
    obtain ⟨hand', hhand', -⟩ := Option.map_eq_some_iff.1 hsame
    rw [hhand']
    have hget : f.stations[i]? = some hand.toStation := by
      rw [stations, List.getElem?_map, hhand, Option.map_some]
    have hget' : f'.stations[i]? = some hand'.toStation := by
      rw [stations, List.getElem?_map, hhand', Option.map_some]
    have hlt : i < ties.length := h.length ▸ (List.getElem?_eq_some_iff.1 hget).1
    obtain ⟨T, hT⟩ : ∃ T, ties[i]? = some T := ⟨_, List.getElem?_eq_getElem hlt⟩
    obtain ⟨I, hshadow⟩ := h.hands i T _ _ hT hget hget'
    let t : Turn := { floor := f, worker := .hand i, context := hand.context }
    let t' : Turn := { floor := f', worker := .hand i, context := hand'.context }
    have ht : t.Tandem ties t' := by
      refine ⟨h.toTied, ?_⟩
      simp only [t, t', Turn.outline, h.outline]
    obtain ⟨ties₁, hpre, hafter, hthread⟩ := hshadow.resume ht rfl rfl 0
    let r := hand.thread.resume 0 t
    let r' := hand'.thread.resume 0 t'
    let station : Station (Except Fault Unit) := ⟨r.2.context, r.1⟩
    let station' : Station (Except Fault Unit) := ⟨r'.2.context, r'.1⟩
    have hstation : station.Shadow ties₁ T station' := ⟨I, hthread⟩
    have hput := hafter.floor.put (tie_of_grown hpre hT) hstation
    refine ⟨ties₁, hpre, ?_⟩
    change Tandem ties₁
      (if r.2.again then (r.2.floor.put i station).call (.hand i) else r.2.floor.put i station)
      (if r'.2.again then (r'.2.floor.put i station').call (.hand i) else r'.2.floor.put i station')
    rw [hafter.again]
    split
    · exact hput.call (.hand i)
    · exact hput

theorem Tandem.turns (h : f.Tandem ties f') (n : Nat) :
    StayInTandem ties (f.turns n) (f'.turns n) := by
  induction n generalizing f f' ties with
  | zero => exact ⟨ties, List.prefix_rfl, h⟩
  | succ n ih =>
    have hqueue : f'.queue = f.queue := (congrArg Floor.queue h.outline :)
    simp only [Floor.turns, hqueue]
    split
    · exact ⟨ties, List.prefix_rfl, h⟩
    next i queue _ =>
      have hpop : Tandem ties { f with queue } { f' with queue } :=
        { toTied := h.of_stations rfl rfl
          outline := congrArg (fun g : Floor => { g with queue }) h.outline }
      obtain ⟨ties₁, hpre, hturn⟩ := hpop.turnOf i
      exact (ih hturn).of_grown hpre

theorem Tandem.callYielded (h : f.Tandem ties f') : f.callYielded.Tandem ties f'.callYielded where
  toTied := h.of_stations (stations_congr f.hands_callYielded) (stations_congr f'.hands_callYielded)
  outline := by rw [outline_callYielded, outline_callYielded, h.outline]

theorem Tandem.ring? (h : f.Tandem ties f') : Option.Rel (Tandem ties) f.ring? f'.ring? := by
  have houtline := f'.outline_ring?
  rw [h.outline, outline_ring?] at houtline
  cases hring : f.ring? with
  | none =>
    rw [hring, Option.map_none] at houtline
    rw [Option.map_eq_none_iff.1 houtline.symm]
    exact .none
  | some g =>
    rw [hring, Option.map_some] at houtline
    obtain ⟨g', hring', hg⟩ := Option.map_eq_some_iff.1 houtline.symm
    obtain ⟨instant, hticks⟩ := ticks_of_ring? hring
    obtain ⟨instant', hticks'⟩ := ticks_of_ring? hring'
    rw [hring']
    exact .some
      { toTied := h.of_stations (stations_congr hticks.hands) (stations_congr hticks'.hands)
        outline := hg }

theorem Tandem.round? (h : f.Tandem ties f') :
    Option.Rel (StayInTandem ties) f.round? f'.round? := by
  obtain ⟨ties₁, hpre, hturns⟩ := h.turns 61
  simp only [Floor.round?]
  generalize f.turns 61 = g at hturns
  generalize f'.turns 61 = g' at hturns
  have hcalm : (g'.queue.isEmpty && g'.yielded.isEmpty && !g'.leadCalled) =
      (g.queue.isEmpty && g.yielded.isEmpty && !g.leadCalled) :=
    (congrArg (fun f => f.queue.isEmpty && f.yielded.isEmpty && !f.leadCalled) hturns.outline :)
  rw [hcalm]
  split
  · have hring := hturns.ring?
    generalize g.ring? = r at hring
    generalize g'.ring? = r' at hring
    cases hring with
    | none => exact .none
    | some hring => exact .some ⟨ties₁, hpre, hring⟩
  · exact .some ⟨ties₁, hpre, hturns.callYielded⟩

end Floor

namespace Crew

variable {crew crew' : Crew α}

structure Tandem (I : Context → Context → Prop) (Q : α → Context → Context → Prop)
    (ties : List Tie) (crew crew' : Crew α) : Prop where
  floor : crew.floor.Tandem ties crew'.floor
  lead : Thread.Shadow ties I Q crew.lead.context crew.lead.thread crew'.lead.context
    crew'.lead.thread

theorem Tandem.leadTurn (h : crew.Tandem I Q ties crew') :
    ∃ ties', crew.leadTurn.Tandem I Q ties' crew'.leadTurn := by
  have hcalled : crew'.floor.leadCalled = crew.floor.leadCalled :=
    (congrArg Floor.leadCalled h.floor.outline :)
  unfold Crew.leadTurn
  rw [hcalled]
  split
  · let t : Turn :=
      { floor := { crew.floor with leadCalled := false }
        worker := .lead
        context := crew.lead.context }
    let t' : Turn :=
      { floor := { crew'.floor with leadCalled := false }
        worker := .lead
        context := crew'.lead.context }
    have ht : t.Tandem ties t' :=
      { tied := h.floor.of_stations rfl rfl
        outline := congrArg (fun f : Floor =>
          ({ floor := { f with leadCalled := false }, worker := .lead, context := default } : Turn))
          h.floor.outline }
    obtain ⟨ties₁, -, hafter, hthread⟩ := h.lead.resume ht rfl rfl 0
    let r := crew.lead.thread.resume 0 t
    let r' := crew'.lead.thread.resume 0 t'
    have hfloor : Floor.Tandem ties₁ (if r.2.again then r.2.floor.call .lead else r.2.floor)
        (if r'.2.again then r'.2.floor.call .lead else r'.2.floor) := by
      rw [hafter.again]
      split
      · exact hafter.floor.call .lead
      · exact hafter.floor
    exact ⟨ties₁, hfloor, hthread⟩
  · exact ⟨ties, h⟩

structure EndAlike (Q : α → Context → Context → Prop) (result result' : α × Moment) : Prop where
  value : result'.1 = result.1
  scene : result'.2.toScene = result.2.toScene
  contexts : Q result.1 result.2.context result'.2.context

theorem Tandem.run (h : crew.Tandem I Q ties crew') (fuel : Nat) :
    Option.Rel (EndAlike Q) (crew.run fuel) (crew'.run fuel) := by
  induction fuel generalizing crew crew' ties with
  | zero => exact .none
  | succ fuel ih =>
    obtain ⟨ties₁, hlead⟩ := h.leadTurn
    by_cases hended : ∃ value, crew.leadTurn.lead.thread = .ended value
    · obtain ⟨value, hended⟩ := hended
      have hthread := hlead.lead
      rw [hended] at hthread
      obtain ⟨hended', hq⟩ := hthread.of_ended
      have hscene : crew'.leadTurn.floor.scene = crew.leadTurn.floor.scene :=
        (congrArg Floor.scene hlead.floor.outline :)
      rw [run_succ_of_ended hended, run_succ_of_ended hended']
      exact .some ⟨rfl, hscene, hq⟩
    · have hopen : ∀ value, crew.leadTurn.lead.thread ≠ .ended value := fun value heq =>
        hended ⟨value, heq⟩
      have hround := hlead.floor.round?
      rw [run_succ_of_open hopen, run_succ_of_open (hlead.lead.of_open hopen).2]
      generalize crew.leadTurn.floor.round? = r at hround
      generalize crew'.leadTurn.floor.round? = r' at hround
      cases hround with
      | none => exact .none
      | some hround =>
        obtain ⟨ties₂, hpre, hfloor⟩ := hround
        exact ih ⟨hfloor, hlead.lead.grow hpre⟩

end Crew

/-- What goes on beside a run that is to be cancelled does the same on all contexts. -/
theorem Work.shadow_cancelAfter (span : Span) (c c' : Context) :
    Shadow (fun _ _ => True) (fun _ _ _ => True) c (cancelAfter span) c' (cancelAfter span) :=
  .pause trivial fun _ => .act (fun _ => ⟨rfl, rfl, rfl⟩) fun _ => .done trivial

/-- Work that shadows other work does so to its end, however long that is carried out and whenever
it is cancelled. -/
theorem Work.Shadow.carryOut {w w' : Work α} {m m' : Moment}
    (h : Work.Shadow I Q m.context w m'.context w') (hi : I m.context m'.context)
    (hscene : m'.toScene = m.toScene) (fuel : Nat) (cancelAt : Option Nat) :
    Option.Rel (Crew.EndAlike Q) (w.carryOut fuel cancelAt m) (w'.carryOut fuel cancelAt m') := by
  let beside := cancelAt.toList.map fun n => cancelAfter (.ofMillis n)
  have hbeside : List.Forall₂ (fun w w' => Work.Shadow (fun _ _ => True)
      (fun _ _ _ => True) m.context w m'.context w') beside beside := by
    rw [List.forall₂_same]
    intro work hmem
    obtain ⟨n, -, rfl⟩ := List.mem_map.1 hmem
    exact shadow_cancelAfter _ _ _
  have hnobody : Floor.Tied [] { scene := m.toScene } { scene := m'.toScene } :=
    { length := rfl
      length' := rfl
      hands := fun i T _ _ hi => by rw [List.getElem?_nil] at hi; cases hi }
  have hfloor : (Crew.of w beside m).floor.Tandem
      ([] ++ List.replicate beside.length fun _ _ _ => True) (Crew.of w' beside m').floor :=
    { toTied := hnobody.hires trivial hbeside Crew.stations_of Crew.stations_of
      outline := by simp only [Crew.of, Floor.outline_hires, hscene] }
  have htandem : (Crew.of w beside m).Tandem I Q _ (Crew.of w' beside m') :=
    ⟨hfloor, .ready hi h⟩
  exact htandem.run fuel

end Workflow
