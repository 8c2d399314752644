import Workflow.Proofs.Work.Turn

/-!
# Going on with work

A turn goes on with some work by recursion on its tree. By induction on the same tree what remains
leads nowhere but where the work led before: `Work.proceed_carries` for work that is begun,
`Thread.resume_carries` for work that is taken up again.
-/

namespace Workflow

namespace Turn

variable {α β : Type} {d : Drift} {e e₁ e₂ : Errands} {t t₁ t₂ : Turn} {least depth : Nat}

def CanProceed (d : Drift) (least depth : Nat) (w : Work α) : Prop :=
  ∀ {e : Errands} {t : Turn}, t.floor.Sound d e → least ≤ t.floor.stations.length →
    ∃ e', Carries d e t (w.Reaches d t.moment) least e' (w.proceed depth t).1
      (w.proceed depth t).2

def meetLimit (depth : Nat) (limit : Limit) (solvent : Bool) (inner : Thread β)
    (next : Option β → Work α) (t : Turn) : Thread α × Turn :=
  match t.checkLimit depth limit solvent with
  | (none, t) => (next none).proceed depth t
  | (some limit, t) => (.within limit inner next, t)

def meetReplies (depth : Nat) (join : Join) (next : List Reply → Work α) (t : Turn) :
    Thread α × Turn :=
  let (join, t) := t.collect join
  if join.missing.isEmpty then
    (next (t.replies join)).proceed depth (t.onFloor (·.dismiss t.worker))
  else (.joining join next, t)

theorem Carries.of_ended {p : Prospect β} {value : β} {next : Option β → Work α} {instant : Nat}
    (h : Carries d e t p least e₁ (.ended value) t₁) (hsame : SameWork t₁ t₂)
    (hinstant : t.now ≤ instant) (hleast : least ≤ t.floor.stations.length)
    (hnext : CanProceed d least depth (next (some value))) :
    ∃ e', Carries d e t (.bounded instant p fun u m => (next u).Reaches d m) least e'
      ((next (some value)).proceed depth t₂).1 ((next (some value)).proceed depth t₂).2 := by
  have hlead := h.toLeads.trans (.of_sameWork h.sound hsame)
  obtain ⟨e', h'⟩ := hnext hlead.sound (hleast.trans hlead.stations.length_le)
  refine ⟨e', h'.after hlead fun r m' hr => ?_⟩
  refine ⟨some value, t₁.moment, h.refines _ _ ⟨rfl, rfl⟩, ?_, .inl ⟨rfl, ?_⟩⟩
  · exact h.now ▸ hinstant
  · exact hsame.moment ▸ hr

theorem Carries.of_limit {p : Prospect β} {th : Thread β} {next : Option β → Work α}
    {solvent : Bool} (h : Carries d e t p least e₁ th t₁) (limit : Limit) (hopen : th.IsOpen)
    (hinstant : t.now ≤ limit.instant) (hleast : least ≤ t.floor.stations.length)
    (htame : ∀ u, (next u).Only d.Allows) (hnext : CanProceed d least depth (next none)) :
    ∃ e', Carries d e t (.bounded limit.instant p fun u m => (next u).Reaches d m) least e'
      (meetLimit depth limit solvent th next t₁).1
      (meetLimit depth limit solvent th next t₁).2 := by
  have hinstant' : t₁.moment.now ≤ limit.instant := h.now ▸ hinstant
  unfold meetLimit
  split
  next t₂ hc =>
    obtain ⟨hsame, hle⟩ := checkLimit_eq_none hc
    have hlead := h.toLeads.trans (.of_sameWork h.sound hsame)
    obtain ⟨e', h'⟩ := hnext hlead.sound (hleast.trans hlead.stations.length_le)
    refine ⟨e', h'.after hlead fun r m' hr => ?_⟩
    refine ⟨none, t₁.moment, h.refines _ _ (h.stands hopen), hinstant', ?_⟩
    exact .inr (.inr ⟨rfl, hle, hsame.moment ▸ hr⟩)
  next limit' t₂ hc =>
    obtain ⟨hsame, hlimit⟩ := checkLimit_eq_some hc
    refine ⟨e₁,
      { toLeads := h.toLeads.trans (.of_sameWork h.sound hsame)
        shape := .inl hopen
        tame := ⟨h.tame, htame⟩
        accounts := h.accounts.mono (congrArg List.length hsame.stations).ge fun i hi =>
          (hsame.hasEnded i).trans hi
        onTime := ⟨?_, h.onTime.of_sameWork hsame⟩
        refines := fun r m' hr => ?_ }⟩
    · rw [hlimit, hsame.scene]
      exact hinstant'
    · obtain ⟨u, m₁, hi, hr⟩ := hr
      rw [hsame.moment] at hi
      exact ⟨u, m₁, h.refines _ _ hi, hlimit ▸ hr⟩

theorem Carries.of_replies {join : Join} {next : List Reply → Work α}
    (hlead : Leads d e t e₁ t₁)
    (hacc : (Thread.joining join next).Accounts t₁.floor least)
    (htime : join.missing = [] ∧ join.hands = [] ∨
      (Thread.joining join next).OnTime e₁ t₁.floor)
    (hleast : least ≤ t.floor.stations.length)
    (htame : ∀ replies, (next replies).Only d.Allows)
    (hnext : ∀ replies, CanProceed d least depth (next replies)) :
    ∃ e', Carries d e t
      (d.Gathers (join.hands.map e₁.prospect) t₁.moment fun replies m => (next replies).Reaches d m)
      least e' (meetReplies depth join next t₁).1 (meetReplies depth join next t₁).2 := by
  have hcollect := sameWork_collect join t₁
  have hhands := hands_collect join t₁
  have hmissing := (collect_sublist join t₁).subset
  have hended : ∀ i ∈ join.hands, i ∈ (t₁.collect join).1.missing ∨ t₁.floor.hasEnded i = true :=
    fun i hi => by
      by_cases hm : i ∈ (t₁.collect join).1.missing
      · exact .inl hm
      · rcases (hacc i hi).2.2 with hmiss | hend
        · exact .inr (hasEnded_of_collect hmiss hm)
        · exact .inr hend
  unfold meetReplies
  rcases hc : t₁.collect join with ⟨join', t₂⟩
  rw [hc] at hcollect hhands hmissing hended
  dsimp only at hcollect hhands hmissing hended ⊢
  split
  next hempty =>
    rw [List.isEmpty_iff] at hempty
    have hall : ∀ i ∈ join.hands, t₁.floor.hasEnded i = true := fun i hi =>
      (hended i hi).resolve_left (hempty ▸ List.not_mem_nil)
    have hsame := hcollect.trans (sameWork_dismiss t₂ t₂.worker)
    have hlead' := hlead.trans (.of_sameWork hlead.sound hsame)
    obtain ⟨ends, hends, hreplies, hfinish⟩ := replies_of_ended hlead.sound hall
    have hreplies' : t₂.replies join' = ends.map fun fin => ⟨fin.2.context, fin.1⟩ := by
      rw [← hreplies, replies, hhands]
      exact List.filterMap_congr fun i _ => Floor.reply?_congr hcollect.stations i
    obtain ⟨e', h'⟩ := hnext (t₂.replies join') hlead'.sound
      (hleast.trans hlead'.stations.length_le)
    refine ⟨e', h'.after hlead' fun r m' hr => ?_⟩
    refine ⟨t₁.floor.scene, d.refl _, .inr ⟨ends, hends, ?_, ?_⟩⟩
    · rcases htime with ⟨-, hnil⟩ | ⟨i, hi, hn⟩ | ⟨i, hi, hn⟩
      · exact .inl ⟨by rw [hnil, List.map_nil], rfl⟩
      · rw [hall i hi] at hn
        cases hn
      · have hmem : e₁.finish i ∈ ends.map Prod.snd := hfinish ▸ List.mem_map_of_mem hi
        obtain ⟨fin, hfin, heq⟩ := List.mem_map.1 hmem
        exact .inr ⟨fin, hfin, heq ▸ hn⟩
    · rw [hsame.moment, hreplies'] at hr
      exact hr
  next hsome =>
    have hsound : t₂.floor.Sound d e₁ := (Leads.of_sameWork hlead.sound hcollect).sound
    refine ⟨e₁,
      { toLeads := hlead.trans (.of_sameWork hlead.sound hcollect)
        shape := .inl trivial
        tame := htame
        accounts := fun i hi => ?_
        onTime := ?_
        refines := fun r m' hr => ?_ }⟩
    · rw [hhands] at hi
      rw [hcollect.hasEnded, hcollect.stations]
      exact ⟨(hacc i hi).1, (hacc i hi).2.1, hended i hi⟩
    · rcases htime with ⟨hnil, -⟩ | htime
      · rw [hnil] at hmissing
        exact absurd (List.isEmpty_iff.2 (List.subset_nil.1 hmissing)) hsome
      · have htime' := htime.of_sameWork hcollect
        rw [Thread.OnTime] at htime' ⊢
        rwa [hhands]
    · rw [Thread.Reaches, hhands, hcollect.moment] at hr
      exact hr

end Turn

open Turn

variable {α β : Type} {d : Drift} {least depth : Nat}

namespace Work

theorem proceed_within_ended {limit : Span} {inner : Work β} {next : Option β → Work α}
    {t t₁ : Turn} {value : β} (h : inner.proceed (depth + 1) t = (.ended value, t₁)) :
    (within limit inner next).proceed depth t = (next (some value)).proceed depth t₁ := by
  simp only [proceed, h]

theorem proceed_within_open {limit : Span} {inner : Work β} {next : Option β → Work α}
    {t t₁ : Turn} {th : Thread β} (h : inner.proceed (depth + 1) t = (th, t₁))
    (hopen : ∀ value, th ≠ .ended value) :
    (within limit inner next).proceed depth t =
      meetLimit depth { instant := t.now + limit.ticks } (!t.isSpent) th next t₁ := by
  cases th with
  | ended value => exact absurd rfl (hopen value)
  | _ => simp only [proceed, h]; rfl

theorem proceed_fork {count : Nat} {branch : Fin count → Work (Except Fault Unit)}
    {next : List Reply → Work α} {t : Turn} :
    (fork count branch next).proceed depth t =
      meetReplies depth (t.fork (List.ofFn branch)).1 next (t.fork (List.ofFn branch)).2 := rfl

/-- What remains of work that is begun leads nowhere but where the work leads. -/
theorem proceed_carries (w : Work α) (hw : w.Only d.Allows) (depth : Nat) :
    CanProceed d least depth w := by
  induction w generalizing depth with
  | done value =>
    intro e t hs _
    exact ⟨e,
      { toLeads := .of_sameWork hs (.refl t)
        shape := .inr ⟨value, rfl⟩
        tame := trivial
        accounts := trivial
        onTime := trivial
        refines := fun _ _ hr => hr }⟩
  | act change next ih =>
    intro e t hs hleast
    have hlead := Leads.of_act hs (hw t.moment).1
    have hmoment := t.moment_act change
    obtain ⟨e', h'⟩ := ih (change t.moment) (hw t.moment).2 depth hlead.sound
      (hleast.trans hlead.stations.length_le)
    simp only [proceed, hmoment]
    refine ⟨e', h'.after hlead fun r m' hr => ?_⟩
    rw [hmoment] at hr
    exact hr
  | pause span interrupts next ih =>
    intro e t hs hleast
    simp only [proceed]
    split
    · have hsame := t.sameWork_giveWay none
      refine ⟨e,
        { toLeads := .of_sameWork hs hsame
          shape := .inl trivial
          tame := hw
          accounts := trivial
          onTime := trivial
          refines := fun r m' hr => ?_ }⟩
      rw [hsame.moment] at hr
      obtain ⟨s, hs', hnow, hr⟩ := hr
      rcases hr with ⟨rfl, rfl⟩ | ⟨s', hs'', hlasts, hr⟩
      · exact ⟨s, hs', .inl hnow, .inl ⟨rfl, rfl⟩⟩
      · have hinstant : (t.moment.within s).now + span.pauseTicks =
            t.moment.now + span.pauseTicks := congrArg (· + span.pauseTicks) hnow
        rw [hinstant] at hlasts hr
        exact ⟨s', d.trans hs' hs'', Drift.Lasts.trans (.inl hnow) hlasts hs' hs'', hr⟩
    · split
      next wake hwake =>
        have hsame := t.sameWork_payFor wake
        obtain ⟨e', h'⟩ := ih wake (hw wake) depth (Leads.of_sameWork hs hsame).sound
          (hleast.trans (Leads.of_sameWork hs hsame).stations.length_le)
        refine ⟨e', h'.after (.of_sameWork hs hsame) fun r m' hr => ?_⟩
        refine ⟨t.floor.scene, d.refl _, .inl rfl, .inr ⟨wake, admits_of_wake? hwake, ?_⟩⟩
        rw [hsame.moment] at hr
        exact hr
      next hwake =>
        have hsame := t.sameWork_rest depth (t.now + span.pauseTicks) interrupts
        refine ⟨e,
          { toLeads := .of_sameWork hs hsame
            shape := .inl trivial
            tame := hw
            accounts := trivial
            onTime := trivial
            refines := fun r m' hr => ?_ }⟩
        rw [hsame.moment] at hr
        exact hr
  | within limit inner next ihInner ihNext =>
    intro e t hs hleast
    have hle : t.now ≤ t.now + limit.ticks := Nat.le_add_right _ _
    obtain ⟨e₁, h₁⟩ := ihInner hw.1 (depth + 1) hs hleast
    rcases hp : inner.proceed (depth + 1) t with ⟨th, t₁⟩
    rw [hp] at h₁
    rcases h₁.shape with hopen | ⟨value, rfl⟩
    · rw [proceed_within_open hp hopen.ne_ended]
      exact h₁.of_limit { instant := t.now + limit.ticks } hopen hle hleast hw.2
        (ihNext none (hw.2 none) depth)
    · rw [proceed_within_ended hp]
      exact h₁.of_ended (.refl t₁) hle hleast (ihNext _ (hw.2 _) depth)
  | fork count branch next _ ih =>
    intro e t hs hleast
    have htame : ∀ work ∈ List.ofFn branch, work.Only d.Allows := fun work hmem => by
      obtain ⟨i, rfl⟩ := List.mem_ofFn.1 hmem
      exact hw.1 i
    have hlead : Leads d e t _ _ := .of_fork hs htame
    have hfresh : ∀ i ∈ (t.fork (List.ofFn branch)).1.hands,
        t.floor.stations.length ≤ i ∧ i < (t.fork (List.ofFn branch)).2.floor.stations.length ∧
          (t.fork (List.ofFn branch)).2.floor.hasEnded i = false := fun i hi => by
      rw [hands_fork, List.mem_map] at hi
      obtain ⟨k, hk, rfl⟩ := hi
      rw [List.mem_range] at hk
      have hget : (t.fork (List.ofFn branch)).2.floor.stations[t.floor.stations.length + k]? =
          some (newStation t.context (List.ofFn branch)[k]) := by
        rw [stations_fork, List.getElem?_append_right (Nat.le_add_right _ _), List.getElem?_map,
          Nat.add_sub_cancel_left, List.getElem?_eq_getElem hk, Option.map_some]
      refine ⟨Nat.le_add_right _ _, (List.getElem?_eq_some_iff.1 hget).1, ?_⟩
      rw [Floor.hasEnded, Floor.reply?_eq, hget]
      rfl
    have hacc : (Thread.joining (t.fork (List.ofFn branch)).1 next).Accounts
        (t.fork (List.ofFn branch)).2.floor least := fun i hi =>
      ⟨hleast.trans (hfresh i hi).1, (hfresh i hi).2.1, .inl hi⟩
    have htime : (t.fork (List.ofFn branch)).1.missing = [] ∧
        (t.fork (List.ofFn branch)).1.hands = [] ∨
        (Thread.joining (t.fork (List.ofFn branch)).1 next).OnTime
          (errandsAfter d e t.floor.stations.length t.moment (List.ofFn branch))
            (t.fork (List.ofFn branch)).2.floor := by
      rcases hh : (t.fork (List.ofFn branch)).1.hands with _ | ⟨i, hands⟩
      · exact .inl ⟨hh, rfl⟩
      · have hi : i ∈ (t.fork (List.ofFn branch)).1.hands := hh ▸ List.mem_cons_self
        exact .inr (.inl ⟨i, hi, (hfresh i hi).2.2⟩)
    obtain ⟨e', h'⟩ := Carries.of_replies hlead hacc htime hleast hw.2
      fun replies => ih replies (hw.2 replies) depth
    rw [hands_fork, errandsAfter_prospect, List.map_ofFn, moment_fork] at h'
    rw [proceed_fork]
    exact ⟨e', h'⟩

end Work

namespace Thread

theorem resume_within_ended {limit : Limit} {inner : Thread β} {next : Option β → Work α}
    {t t₁ : Turn} {value : β} (h : inner.resume (depth + 1) t = (.ended value, t₁)) :
    (within limit inner next).resume depth t =
      (next (some value)).proceed depth (t₁.rise depth) := by
  simp only [resume, h]

theorem resume_within_open {limit : Limit} {inner : Thread β} {next : Option β → Work α}
    {t t₁ : Turn} {th : Thread β} (h : inner.resume (depth + 1) t = (th, t₁))
    (hopen : ∀ value, th ≠ .ended value) :
    (within limit inner next).resume depth t =
      meetLimit depth limit (!t.isSpent) th next t₁ := by
  cases th with
  | ended value => exact absurd rfl (hopen value)
  | _ => simp only [resume, h]; rfl

theorem resume_joining {join : Join} {next : List Reply → Work α} {t : Turn} :
    (joining join next).resume depth t = meetReplies depth join next t := rfl

/-- What remains of work that is taken up again leads nowhere but where the rest of it led. -/
theorem resume_carries (th : Thread α) (hth : th.Only d.Allows) (hopen : th.IsOpen)
    {e : Errands} {t : Turn} (hs : t.floor.Sound d e) (hleast : least ≤ t.floor.stations.length)
    (hacc : th.Accounts t.floor least) (htime : th.OnTime e t.floor) (depth : Nat) :
    ∃ e', Carries d e t (th.Reaches d e t.moment) least e' (th.resume depth t).1
      (th.resume depth t).2 := by
  induction th generalizing depth with
  | ended value => cases hopen
  | ready work =>
    obtain ⟨e', h'⟩ := work.proceed_carries hth depth hs hleast
    exact ⟨e', h'.after (.of_sameWork hs (.refl t)) fun r m' hr =>
      ⟨t.floor.scene, d.refl _, rfl, .inr hr⟩⟩
  | resting instant interrupts next =>
    simp only [resume]
    split
    next wake hwake =>
      have hsame := (t.sameWork_payFor wake).trans (sameWork_rise _ depth)
      have hlead := Leads.of_sameWork hs hsame
      obtain ⟨e', h'⟩ := (next wake).proceed_carries (hth wake) depth hlead.sound
        (hleast.trans hlead.stations.length_le)
      refine ⟨e', h'.after hlead fun r m' hr => ?_⟩
      rw [hsame.moment] at hr
      exact ⟨t.floor.scene, d.refl _, .inl rfl, .inr ⟨wake, admits_of_wake? hwake, hr⟩⟩
    next hwake =>
      exact ⟨e,
        { toLeads := .of_sameWork hs (.refl t)
          shape := .inl trivial
          tame := hth
          accounts := trivial
          onTime := trivial
          refines := fun _ _ hr => hr }⟩
  | joining join next =>
    rw [resume_joining]
    exact Carries.of_replies (.of_sameWork hs (.refl t)) hacc (.inr htime) hleast
      hth fun replies => (next replies).proceed_carries (hth replies) depth
  | within limit inner next ih =>
    obtain ⟨e₁, h₁⟩ := ih hth.1 hopen hacc htime.2 (depth + 1)
    rcases hp : inner.resume (depth + 1) t with ⟨th', t₁⟩
    rw [hp] at h₁
    have hnext : ∀ u, CanProceed d least depth (next u) := fun u =>
      (next u).proceed_carries (hth.2 u) depth
    rcases h₁.shape with hopen' | ⟨value, rfl⟩
    · rw [resume_within_open hp hopen'.ne_ended]
      exact h₁.of_limit limit hopen' htime.1 hleast hth.2 (hnext none)
    · rw [resume_within_ended hp]
      exact h₁.of_ended (sameWork_rise t₁ depth) htime.1 hleast (hnext _)

end Thread

end Workflow
