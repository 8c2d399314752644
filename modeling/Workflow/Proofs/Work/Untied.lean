import Workflow.Proofs.Work.Agree
import Workflow.Proofs.Work.Closed
import Workflow.Proofs.Work.Frame

/-!
# Work without ties

When a limit runs out in the very instant in which something under it ends, either may come first.
Where that does not happen the work is untied, and then it leaves no choice: what comes of it is
settled by the moment at which it begins, by the context and the time. `Work.Sure` says so of a
piece of work, and the combinators keep to it.

The instants of the limits that the work stands under are at hand throughout. Nothing that takes
time begins or ends at one of them, so on two ways through the work that have got to such an instant
the contexts are the same.
-/

namespace Workflow

namespace Moment.Even

variable {m₁ m₂ : Moment}

theorem within (h : Even m₁ m₂) {s₁ s₂ : Scene} (hs₁ : Drift.calm.may m₁.toScene s₁)
    (hs₂ : Drift.calm.may m₂.toScene s₂) (hnow : s₂.now = s₁.now) :
    Even (m₁.within s₁) (m₂.within s₂) :=
  ⟨h.context, hnow, hs₂.2.trans (h.cancelled.trans hs₁.2.symm)⟩

end Moment.Even

namespace Work

variable {α β ε : Type} {limits : List Nat} {w : Work α} {m m₁ m₂ m₁' m₂' : Moment}
  {r r₁ r₂ : Option α}

/-- From the moment on no limit in the work runs out in the very instant in which something under it
ends, and nothing in the work ends at one of the given instants. -/
def Untied : {α : Type} → List Nat → Work α → Moment → Prop
  | _, _, .done _, _ => True
  | _, limits, .act change next, m => (next (change m)).Untied limits (change m)
  | _, limits, .pause span interrupts next, m =>
    m.now + span.pauseTicks ∉ limits ∧
      ∀ wake m', (pause span interrupts done).Reaches .calm m (some wake) m' →
        (next wake).Untied limits m'
  | _, limits, .within limit inner next, m =>
    0 < limit.ticks ∧ m.now + limit.ticks ∉ limits ∧
      inner.Untied ((m.now + limit.ticks) :: limits) m ∧
        ∀ u m', (within limit inner done).Reaches .calm m (some u) m' → (next u).Untied limits m'
  | _, limits, .fork count branch next, m =>
    (∀ i s, Drift.calm.may m.toScene s → s.now = m.now → (branch i).Untied limits (m.within s)) ∧
      ∀ replies m', (fork count branch done).Reaches .calm m (some replies) m' →
        (next replies).Untied limits m'

/-- Untied work that is followed by other work leads to moments from which that is untied. -/
theorem untied_bind {k : α → Work β} (h : (w.bind k).Untied limits m) :
    w.Untied limits m ∧
      ∀ value m', w.Reaches .calm m (some value) m' → (k value).Untied limits m' := by
  induction w generalizing limits m with
  | done value =>
    refine ⟨trivial, fun value' m' hreach => ?_⟩
    obtain ⟨hvalue, rfl⟩ := reaches_done.1 hreach
    cases hvalue
    exact h
  | act change next ih => exact ih (change m) h
  | pause span interrupts next ih =>
    obtain ⟨hend, hnext⟩ := h
    refine ⟨⟨hend, fun wake m' hwake => (ih wake (hnext wake m' hwake)).1⟩,
      fun value m' hreach => ?_⟩
    obtain ⟨wake, m₁, hwake, hreach⟩ :=
      (reaches_bind_some (w := pause span interrupts done) (k := next)).1 hreach
    exact (ih wake (hnext wake m₁ hwake)).2 value m' hreach
  | within limit inner next _ ih =>
    obtain ⟨hpos, hlimit, hinner, hnext⟩ := h
    refine ⟨⟨hpos, hlimit, hinner, fun u m' hu => (ih u (hnext u m' hu)).1⟩,
      fun value m' hreach => ?_⟩
    obtain ⟨u, m₁, hu, hreach⟩ :=
      (reaches_bind_some (w := within limit inner done) (k := next)).1 hreach
    exact (ih u (hnext u m₁ hu)).2 value m' hreach
  | fork count branch next _ ih =>
    obtain ⟨hbranch, hnext⟩ := h
    refine ⟨⟨hbranch, fun replies m' hreplies => (ih replies (hnext replies m' hreplies)).1⟩,
      fun value m' hreach => ?_⟩
    obtain ⟨replies, m₁, hreplies, hreach⟩ :=
      (reaches_bind_some (w := fork count branch done) (k := next)).1 hreach
    exact (ih replies (hnext replies m₁ hreplies)).2 value m' hreach

/-- How two ways through the same work may stand to each other, each of them at its end or before
it. -/
def Match (limits : List Nat) : Option α → Moment → Option α → Moment → Prop
  | some v₁, m₁, some v₂, m₂ => v₁ = v₂ ∧ m₁.Even m₂ ∧ m₁.now ∉ limits
  | some _, m₁, none, m₂ => m₂.now ≤ m₁.now
  | none, m₁, some _, m₂ => m₁.now ≤ m₂.now
  | none, m₁, none, m₂ => m₂.now = m₁.now → m₁.now ∈ limits → m₁.Even m₂

theorem Match.mono {limits' : List Nat} (h : Match limits' r₁ m₁ r₂ m₂) (hsub : limits ⊆ limits') :
    Match limits r₁ m₁ r₂ m₂ := by
  cases r₁ with
  | some v₁ =>
    cases r₂ with
    | some v₂ => exact ⟨h.1, h.2.1, fun hmem => h.2.2 (hsub hmem)⟩
    | none => exact h
  | none =>
    cases r₂ with
    | some v₂ => exact h
    | none => exact fun heq hmem => h heq (hsub hmem)

theorem Match.symm (h : Match limits r₁ m₁ r₂ m₂) : Match limits r₂ m₂ r₁ m₁ := by
  cases r₁ with
  | some v₁ =>
    cases r₂ with
    | some v₂ =>
      obtain ⟨rfl, heven, hfree⟩ := h
      exact ⟨rfl, heven.symm, heven.now.symm ▸ hfree⟩
    | none => exact h
  | none =>
    cases r₂ with
    | some v₂ => exact h
    | none => exact fun heq hmem => (h heq.symm (heq ▸ hmem)).symm

theorem Match.now_le {value : α} (h : Match limits r₁ m₁ (some value) m₂) : m₁.now ≤ m₂.now := by
  cases r₁ with
  | some v₁ => exact h.2.1.now.ge
  | none => exact h

structure Firm (change : Moment → Moment) : Prop where
  now (m : Moment) : (change m).now = m.now
  even {m₁ m₂ : Moment} (h : m₁.Even m₂) : (change m₁).Even (change m₂)

/-- As long as it is untied, what comes of the work is settled by the moment at which it begins. -/
structure Sure (w : Work α) : Prop where
  timeless : w.Only fun m m' => m'.now = m.now
  settled {limits : List Nat} {m₁ m₂ m₁' m₂' : Moment} {r₁ r₂ : Option α} (hm : m₁.Even m₂)
    (hnow : m₁.now ∉ limits) (h₁ : w.Untied limits m₁) (h₂ : w.Untied limits m₂)
    (hr₁ : w.Reaches .calm m₁ r₁ m₁') (hr₂ : w.Reaches .calm m₂ r₂ m₂') :
    Match limits r₁ m₁' r₂ m₂'

theorem Sure.now_le (hw : w.Sure) (h : w.Reaches .calm m r m') : m.now ≤ m'.now :=
  Reaches.keeps (d := .calm) (Q := fun m m' => m.now ≤ m'.now) (fun m => Nat.le_refl m.now)
    Nat.le_trans (fun _ _ hs => hs.1) (hw.timeless.imp fun _ _ hnow => hnow.ge) h

/-- Nothing ends when a limit runs out. -/
theorem Sure.now_not_mem (hw : w.Sure) (hnow : m.now ∉ limits) (h : w.Untied limits m) {value : α}
    (hr : w.Reaches .calm m (some value) m') : m'.now ∉ limits :=
  (hw.settled (.refl m) hnow h h hr hr).2.2

theorem sure_done (value : α) : (done value).Sure where
  timeless := trivial
  settled hm hnow _ _ hr₁ hr₂ := by
    obtain ⟨rfl, rfl⟩ := reaches_done.1 hr₁
    obtain ⟨rfl, rfl⟩ := reaches_done.1 hr₂
    exact ⟨rfl, hm, hnow⟩

theorem sure_bind {k : α → Work β} (hw : w.Sure) (hk : ∀ value, (k value).Sure) :
    (w.bind k).Sure where
  timeless := only_bind hw.timeless fun value => (hk value).timeless
  settled := by
    intro limits m₁ m₂ m₁' m₂' r₁ r₂ hm hnow h₁ h₂ hr₁ hr₂
    obtain ⟨hw₁, hk₁⟩ := untied_bind h₁
    obtain ⟨hw₂, hk₂⟩ := untied_bind h₂
    have hnow₂ : m₂.now ∉ limits := hm.now.symm ▸ hnow
    rw [reaches_bind] at hr₁ hr₂
    obtain ⟨v₁, n₁, hv₁, hr₁⟩ | ⟨rfl, hv₁⟩ := hr₁
    · have hle₁ := (hk v₁).now_le hr₁
      have hfree₁ := hw.now_not_mem hnow hw₁ hv₁
      obtain ⟨v₂, n₂, hv₂, hr₂⟩ | ⟨rfl, hv₂⟩ := hr₂
      · obtain ⟨rfl, hn, -⟩ := hw.settled hm hnow hw₁ hw₂ hv₁ hv₂
        exact (hk v₁).settled hn hfree₁ (hk₁ v₁ n₁ hv₁) (hk₂ v₁ n₂ hv₂) hr₁ hr₂
      · -- the second way is still in the first part
        have hle : m₂'.now ≤ n₁.now := hw.settled hm hnow hw₁ hw₂ hv₁ hv₂
        cases r₁ with
        | some value => exact hle.trans hle₁
        | none =>
          intro heq hmem
          have hsame : n₁.now = m₁'.now := Nat.le_antisymm hle₁ (heq ▸ hle)
          exact absurd (hsame ▸ hmem) hfree₁
    · obtain ⟨v₂, n₂, hv₂, hr₂⟩ | ⟨rfl, hv₂⟩ := hr₂
      · have hle : m₁'.now ≤ n₂.now := hw.settled hm hnow hw₁ hw₂ hv₁ hv₂
        have hle₂ := (hk v₂).now_le hr₂
        have hfree₂ := hw.now_not_mem hnow₂ hw₂ hv₂
        cases r₂ with
        | some value => exact hle.trans hle₂
        | none =>
          intro heq hmem
          have hsame : n₂.now = m₁'.now := Nat.le_antisymm (heq ▸ hle₂) hle
          exact absurd (hsame ▸ hmem) hfree₂
      · exact hw.settled hm hnow hw₁ hw₂ hv₁ hv₂

theorem sure_after {change : Moment → Moment} (hchange : Firm change) (hw : w.Sure) :
    (after change w).Sure where
  timeless := only_after hchange.now hw.timeless
  settled hm hnow h₁ h₂ hr₁ hr₂ :=
    hw.settled (hchange.even hm) ((hchange.now _).symm ▸ hnow) h₁ h₂ hr₁ hr₂

theorem sure_look {next : Moment → Work α} (hblind : Moment.Blind next)
    (hnext : ∀ m, (next m).Sure) : (look next).Sure where
  timeless := only_look (fun _ => rfl) fun m => (hnext m).timeless
  settled := by
    intro limits m₁ m₂ m₁' m₂' r₁ r₂ hm hnow h₁ h₂ hr₁ hr₂
    have heq : next m₂ = next m₁ := hblind m₁ m₂ hm
    exact (hnext m₁).settled hm hnow h₁ (heq ▸ h₂) hr₁ (heq ▸ hr₂)

def restEnd (span : Span) (interrupts : Interrupts) (m : Moment) : Nat :=
  if interrupts.cancellable && m.cancelled then m.now else m.now + span.pauseTicks

theorem rests_calm {span : Span} {interrupts : Interrupts} {s : Scene}
    (h : Drift.calm.Lasts (m.now + span.pauseTicks) interrupts m.toScene s) :
    s.now ≤ restEnd span interrupts m := by
  rw [restEnd]
  rcases h with hnow | ⟨hle, -, hcancel⟩
  · have hstart : s.now = m.now := hnow
    split <;> omega
  · split
    next hcancelled =>
      -- the wait can only have lasted if the run was not cancelled in it
      rw [Bool.and_eq_true] at hcancelled
      obtain ⟨s₁, hs₁, -, hnot, -⟩ := hcancel hcancelled.1
      rw [hs₁.2, hcancelled.2] at hnot
      cases hnot
    · exact hle

/-- How a pause without a deadline may end. -/
theorem wakes_calm {span : Span} {interrupts : Interrupts} {s : Scene} {wake : Wake}
    (hdeadline : interrupts.deadline = none) (hmay : Drift.calm.may m.toScene s)
    (h : Drift.calm.Lasts (m.now + span.pauseTicks) interrupts m.toScene s)
    (hwake : interrupts.Admits (m.now + span.pauseTicks) s wake) :
    s.now = restEnd span interrupts m ∧
      wake = if interrupts.cancellable && m.cancelled then .cancelled else .rested := by
  have hle := rests_calm h
  have hcancelled : s.cancelled = m.cancelled := hmay.2
  rw [restEnd] at hle ⊢
  cases wake with
  | cancelled =>
    obtain ⟨hcancellable, hs⟩ := hwake
    rw [hcancellable, hcancelled.symm.trans hs] at hle ⊢
    exact ⟨Nat.le_antisymm hle hmay.1, rfl⟩
  | expired =>
    have hdue := hwake.2
    rw [hdeadline] at hdue
    cases hdue
  | rested =>
    obtain ⟨hnot, -, hinstant⟩ := hwake
    rw [hcancelled, ← Bool.and_eq_true] at hnot
    rw [if_neg hnot] at hle ⊢
    exact ⟨Nat.le_antisymm hle hinstant, (if_neg hnot).symm⟩

theorem sure_wait (span : Span) {interrupts : Interrupts} (hdeadline : interrupts.deadline = none) :
    (wait span interrupts).Sure where
  timeless := only_wait span interrupts
  settled := by
    intro limits m₁ m₂ m₁' m₂' r₁ r₂ hm hnow h₁ _ hr₁ hr₂
    have hfinish : restEnd span interrupts m₂ = restEnd span interrupts m₁ := by
      rw [restEnd, restEnd, hm.now, hm.cancelled]
    have hfree : restEnd span interrupts m₁ ∉ limits := by
      rw [restEnd]
      split
      · exact hnow
      · exact h₁.1
    obtain ⟨s₁, hs₁, hlasts₁, hr₁⟩ := hr₁
    obtain ⟨s₂, hs₂, hlasts₂, hr₂⟩ := hr₂
    have hle₁ := rests_calm hlasts₁
    have hle₂ := rests_calm hlasts₂
    obtain ⟨rfl, rfl⟩ | ⟨wake₁, hwake₁, rfl, rfl⟩ := hr₁
    · obtain ⟨rfl, rfl⟩ | ⟨wake₂, hwake₂, rfl, rfl⟩ := hr₂
      · exact fun heq _ => hm.within hs₁ hs₂ heq
      · have hend₂ := (wakes_calm hdeadline hs₂ hlasts₂ hwake₂).1
        exact hle₁.trans (hfinish.symm.trans hend₂.symm).le
    · obtain ⟨hend₁, hkind₁⟩ := wakes_calm hdeadline hs₁ hlasts₁ hwake₁
      obtain ⟨rfl, rfl⟩ | ⟨wake₂, hwake₂, rfl, rfl⟩ := hr₂
      · exact hle₂.trans (hfinish.trans hend₁.symm).le
      · obtain ⟨hend₂, hkind₂⟩ := wakes_calm hdeadline hs₂ hlasts₂ hwake₂
        rw [hm.cancelled, ← hkind₁] at hkind₂
        have hnows : s₂.now = s₁.now := hend₂.trans (hfinish.trans hend₁.symm)
        exact ⟨congrArg Wake.outcome hkind₂.symm, hm.within hs₁ hs₂ hnows, hend₁.symm ▸ hfree⟩

/-- Work under a limit has ended by itself, is still under way, or has been dropped. -/
theorem limited_cases {limit : Span} {overrun : ε} {w : Work (Except ε α)}
    {r : Option (Except ε α)} (h : (limited limit overrun w).Reaches .calm m r m') :
    ∃ u, w.Reaches .calm m u m' ∧ m'.now ≤ m.now + limit.ticks ∧
      (u = r ∨ u = none ∧ m'.now = m.now + limit.ticks ∧ r = some (.error overrun)) := by
  obtain ⟨u, n, hw, hle, ⟨hu, h⟩ | ⟨rfl, rfl, rfl⟩ | ⟨rfl, hge, h⟩⟩ := h
  · obtain ⟨rfl, rfl⟩ := reaches_done.1 h
    cases u with
    | none => cases hu
    | some value => exact ⟨_, hw, hle, .inl rfl⟩
  · exact ⟨none, hw, hle, .inl rfl⟩
  · obtain ⟨rfl, rfl⟩ := reaches_done.1 h
    exact ⟨none, hw, hle, .inr ⟨rfl, Nat.le_antisymm hle hge, rfl⟩⟩

theorem sure_limited (limit : Span) (overrun : ε) {w : Work (Except ε α)} (hw : w.Sure) :
    (limited limit overrun w).Sure where
  timeless := only_limited hw.timeless
  settled := by
    intro limits m₁ m₂ m₁' m₂' r₁ r₂ hm hnow h₁ h₂ hr₁ hr₂
    obtain ⟨hpos, hlimit, hu₁, -⟩ := h₁
    obtain ⟨-, -, hu₂, -⟩ := h₂
    rw [hm.now] at hu₂
    have hnow' : m₁.now ∉ (m₁.now + limit.ticks) :: limits := by
      rw [List.mem_cons, not_or]
      exact ⟨by omega, hnow⟩
    have hnow₂ : m₂.now ∉ (m₁.now + limit.ticks) :: limits := hm.now.symm ▸ hnow'
    obtain ⟨u₁, hw₁, hle₁, hr₁⟩ := limited_cases hr₁
    obtain ⟨u₂, hw₂, hle₂, hr₂⟩ := limited_cases hr₂
    rw [hm.now] at hle₂ hr₂
    have hmatch := hw.settled hm hnow' hu₁ hu₂ hw₁ hw₂
    have hinstant : m₁.now + limit.ticks ∈ (m₁.now + limit.ticks) :: limits := List.mem_cons_self
    obtain rfl | ⟨rfl, hend₁, rfl⟩ := hr₁
    · obtain rfl | ⟨rfl, hend₂, rfl⟩ := hr₂
      · exact hmatch.mono (List.subset_cons_self _ _)
      · cases u₁ with
        | none => exact hle₁.trans hend₂.ge
        | some value =>
          -- it would have ended when the limit ran out
          have hle : m₂'.now ≤ m₁'.now := hmatch
          have hend : m₁'.now = m₁.now + limit.ticks :=
            Nat.le_antisymm hle₁ (hend₂.symm.le.trans hle)
          exact absurd (hend ▸ hinstant) (hw.now_not_mem hnow' hu₁ hw₁)
    · obtain rfl | ⟨rfl, hend₂, rfl⟩ := hr₂
      · cases u₂ with
        | none => exact hle₂.trans hend₁.ge
        | some value =>
          have hle : m₁'.now ≤ m₂'.now := hmatch
          have hend : m₂'.now = m₁.now + limit.ticks :=
            Nat.le_antisymm hle₂ (hend₁.symm.le.trans hle)
          exact absurd (hend ▸ hinstant) (hw.now_not_mem hnow₂ hu₂ hw₂)
      · exact ⟨rfl, hmatch (hend₂.trans hend₁.symm) (hend₁.symm ▸ hinstant), hend₁.symm ▸ hlimit⟩

abbrev Hired (m : Moment) (branch : Work (Except Fault Unit)) : Prospect (Except Fault Unit) :=
  Drift.calm.Begins m fun m => branch.Reaches .calm m

def Last (m : Moment) (branches : List (Work (Except Fault Unit))) (s : Scene) : Prop :=
  branches = [] ∧ s.now = m.now ∨
    ∃ (i : Nat) (hi : i < branches.length) (o : Option (Except Fault Unit)) (n : Moment),
      Hired m branches[i] o n ∧ n.now = s.now

def AllEnd (m : Moment) (branches : List (Work (Except Fault Unit))) (s : Scene)
    (ends : List (Except Fault Unit × Moment)) : Prop :=
  List.Forall₂ (fun branch fin => Hired m branch (some fin.1) fin.2 ∧ fin.2.now ≤ s.now) branches
    ends

/-- Branches side by side: the last moment is that of some branch, and when there are replies, no
branch has ended later. -/
theorem together_cases {branches : List (Work (Except Fault Unit))} {r : Option (List Reply)}
    (h : (together branches).Reaches .calm m r m') :
    ∃ s, Drift.calm.may m.toScene s ∧ m' = m.within s ∧
      Last m branches s ∧
      ∀ replies, r = some replies → ∃ ends, AllEnd m branches s ends ∧
        replies = ends.map fun fin => ⟨fin.2.context, fin.1⟩ := by
  have hparts : (List.ofFn fun i => Drift.calm.Begins m fun m => (branches.get i).Reaches .calm m) =
      branches.map (Hired m) :=
    List.ofFn_getElem_eq_map branches (Hired m)
  obtain ⟨s, hs, hcases⟩ := h
  rw [hparts] at hcases
  obtain ⟨rfl, rfl, hend⟩ | ⟨ends, hends, hend, hr⟩ := hcases
  · refine ⟨s, hs, rfl, ?_, nofun⟩
    rcases hend with ⟨hnil, hnow⟩ | ⟨part, hpart, o, n, ho, hn⟩
    · exact .inl ⟨List.map_eq_nil_iff.1 hnil, hnow⟩
    · obtain ⟨branch, hbranch, rfl⟩ := List.mem_map.1 hpart
      obtain ⟨i, hi, rfl⟩ := List.getElem_of_mem hbranch
      exact .inr ⟨i, hi, o, n, ho, hn⟩
  · obtain ⟨rfl, rfl⟩ := reaches_done.1 hr
    rw [List.forall₂_map_left_iff] at hends
    refine ⟨s, hs, rfl, ?_, fun replies hreplies =>
      ⟨ends, hends.imp fun branch fin h => ⟨h.1, h.2.1⟩, (Option.some.inj hreplies).symm⟩⟩
    rcases hend with ⟨hnil, hnow⟩ | ⟨fin, hfin, hn⟩
    · exact .inl ⟨List.map_eq_nil_iff.1 hnil, hnow⟩
    · obtain ⟨i, hi, rfl⟩ := List.getElem_of_mem hfin
      have hi' : i < branches.length := hends.length_eq ▸ hi
      exact .inr ⟨i, hi', _, _, (hends.get hi' hi).1, hn⟩

theorem match_hired {branch : Work (Except Fault Unit)} {o₁ o₂ : Option (Except Fault Unit)}
    (hw : branch.Sure) (hm : m₁.Even m₂) (hnow : m₁.now ∉ limits)
    (h₁ : ∀ s, Drift.calm.may m₁.toScene s → s.now = m₁.now → branch.Untied limits (m₁.within s))
    (h₂ : ∀ s, Drift.calm.may m₂.toScene s → s.now = m₂.now → branch.Untied limits (m₂.within s))
    (ho₁ : Hired m₁ branch o₁ m₁') (ho₂ : Hired m₂ branch o₂ m₂') :
    Match limits o₁ m₁' o₂ m₂' := by
  obtain ⟨s₁, hs₁, hnow₁, ho₁⟩ := ho₁
  obtain ⟨s₂, hs₂, hnow₂, ho₂⟩ := ho₂
  have hnows : s₂.now = s₁.now := hnow₂.trans (hm.now.trans hnow₁.symm)
  have heven := hm.within hs₁ hs₂ hnows
  have hfree : (m₁.within s₁).now ∉ limits := hnow₁.symm ▸ hnow
  obtain ⟨rfl, rfl⟩ | ho₁ := ho₁
  · obtain ⟨rfl, rfl⟩ | ho₂ := ho₂
    · exact fun _ hmem => absurd hmem hfree
    · have hle : s₁.now ≤ m₂'.now := hnows.symm.le.trans (hw.now_le ho₂)
      cases o₂ with
      | some value => exact hle
      | none => exact fun _ hmem => absurd hmem hfree
  · obtain ⟨rfl, rfl⟩ | ho₂ := ho₂
    · have hle : s₂.now ≤ m₁'.now := hnows.le.trans (hw.now_le ho₁)
      cases o₁ with
      | some value => exact hle
      | none =>
        intro heq hmem
        have hstart : m₁'.now = s₁.now := heq.symm.trans hnows
        exact absurd (hstart ▸ hmem) hfree
    · exact hw.settled heven hfree (h₁ s₁ hs₁ hnow₁) (h₂ s₂ hs₂ hnow₂) ho₁ ho₂

section Together

variable {branches : List (Work (Except Fault Unit))} {s₁ s₂ : Scene}
  (hmatch : ∀ branch ∈ branches, ∀ o₁ n₁ o₂ n₂, Hired m₁ branch o₁ n₁ → Hired m₂ branch o₂ n₂ →
    Match limits o₁ n₁ o₂ n₂)

include hmatch

/-- Nobody waits at one moment for longer than until the last branch has ended at the other. -/
theorem now_le_of_hired {ends : List (Except Fault Unit × Moment)} (hm : m₁.Even m₂)
    (hlast : Last m₁ branches s₁) (hs₂ : Drift.calm.may m₂.toScene s₂)
    (hends : AllEnd m₂ branches s₂ ends) : s₁.now ≤ s₂.now := by
  obtain ⟨-, hstart⟩ | ⟨i, hi, o, n, ho, hn⟩ := hlast
  · exact hstart.le.trans (hm.now.symm.le.trans hs₂.1)
  · obtain ⟨hfin, hle⟩ := hends.get hi (hends.length_eq ▸ hi)
    have hnow := (hmatch branches[i] (List.getElem_mem hi) _ _ _ _ ho hfin).now_le
    exact hn.symm.le.trans (hnow.trans hle)

theorem replies_eq_of_hired {ends₁ ends₂ : List (Except Fault Unit × Moment)}
    (hends₁ : AllEnd m₁ branches s₁ ends₁) (hends₂ : AllEnd m₂ branches s₂ ends₂) :
    ends₁.map (fun fin => (⟨fin.2.context, fin.1⟩ : Reply)) =
      ends₂.map fun fin => ⟨fin.2.context, fin.1⟩ := by
  induction hends₁ generalizing ends₂ with
  | nil =>
    cases hends₂
    rfl
  | cons hfirst₁ _ ih =>
    obtain ⟨hbranch, hmatch⟩ := List.forall_mem_cons.1 hmatch
    cases hends₂ with
    | cons hfirst₂ hrest₂ =>
      obtain ⟨hvalue, heven, -⟩ := hbranch _ _ _ _ hfirst₁.1 hfirst₂.1
      rw [List.map_cons, List.map_cons, ih hmatch hrest₂, heven.context, hvalue]

theorem now_not_mem_of_hired {ends₁ ends₂ : List (Except Fault Unit × Moment)}
    (hnow : m₁.now ∉ limits) (hlast : Last m₁ branches s₁) (hends₁ : AllEnd m₁ branches s₁ ends₁)
    (hends₂ : AllEnd m₂ branches s₂ ends₂) : s₁.now ∉ limits := by
  obtain ⟨-, hstart⟩ | ⟨i, hi, o, n, ho, hn⟩ := hlast
  · exact hstart.symm ▸ hnow
  · obtain ⟨hfin₁, hle⟩ := hends₁.get hi (hends₁.length_eq ▸ hi)
    obtain ⟨hfin₂, -⟩ := hends₂.get hi (hends₂.length_eq ▸ hi)
    have hbranch := hmatch branches[i] (List.getElem_mem hi)
    obtain ⟨-, heven, hfree⟩ := hbranch _ _ _ _ hfin₁ hfin₂
    -- the branch that has got as far as the scene ends there
    have hlate := (hbranch _ _ _ _ ho hfin₂).now_le
    rw [heven.now, hn] at hlate
    exact Nat.le_antisymm hle hlate ▸ hfree

end Together

theorem sure_together {branches : List (Work (Except Fault Unit))}
    (h : ∀ branch ∈ branches, branch.Sure) : (together branches).Sure where
  timeless := only_together fun branch hbranch => (h branch hbranch).timeless
  settled := by
    intro limits m₁ m₂ m₁' m₂' r₁ r₂ hm hnow h₁ h₂ hr₁ hr₂
    have hmatch : ∀ branch ∈ branches, ∀ o₁ n₁ o₂ n₂, Hired m₁ branch o₁ n₁ →
        Hired m₂ branch o₂ n₂ → Match limits o₁ n₁ o₂ n₂ := by
      intro branch hbranch o₁ n₁ o₂ n₂ ho₁ ho₂
      obtain ⟨i, hi, rfl⟩ := List.getElem_of_mem hbranch
      exact match_hired (h _ hbranch) hm hnow (h₁.1 ⟨i, hi⟩) (h₂.1 ⟨i, hi⟩) ho₁ ho₂
    have hmatch' : ∀ branch ∈ branches, ∀ o₂ n₂ o₁ n₁, Hired m₂ branch o₂ n₂ →
        Hired m₁ branch o₁ n₁ → Match limits o₂ n₂ o₁ n₁ :=
      fun branch hbranch _ _ _ _ ho₂ ho₁ => (hmatch branch hbranch _ _ _ _ ho₁ ho₂).symm
    obtain ⟨s₁, hs₁, rfl, hlast₁, hreplies₁⟩ := together_cases hr₁
    obtain ⟨s₂, hs₂, rfl, hlast₂, hreplies₂⟩ := together_cases hr₂
    cases r₁ with
    | none =>
      cases r₂ with
      | none => exact fun heq _ => hm.within hs₁ hs₂ heq
      | some replies₂ =>
        obtain ⟨ends₂, hends₂, -⟩ := hreplies₂ _ rfl
        exact now_le_of_hired hmatch hm hlast₁ hs₂ hends₂
    | some replies₁ =>
      obtain ⟨ends₁, hends₁, rfl⟩ := hreplies₁ _ rfl
      have hle₂ := now_le_of_hired hmatch' hm.symm hlast₂ hs₁ hends₁
      cases r₂ with
      | none => exact hle₂
      | some replies₂ =>
        obtain ⟨ends₂, hends₂, rfl⟩ := hreplies₂ _ rfl
        have hle₁ := now_le_of_hired hmatch hm hlast₁ hs₂ hends₂
        exact ⟨replies_eq_of_hired hmatch hends₁ hends₂,
          hm.within hs₁ hs₂ (Nat.le_antisymm hle₂ hle₁),
          now_not_mem_of_hired hmatch hnow hlast₁ hends₁ hends₂⟩

/-- The combinators keep work sure. -/
theorem closed_sure : Closed Firm (fun interrupts => interrupts.deadline = none) Sure where
  done := sure_done
  bind := sure_bind
  after := sure_after
  look := sure_look
  wait := sure_wait
  limited := sure_limited
  together := sure_together

end Work

end Workflow
