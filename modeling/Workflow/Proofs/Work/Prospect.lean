import Mathlib.Data.List.Forall2
import Mathlib.Data.Nat.Basic
import Mathlib.Order.Basic
import Workflow.Work.Basic

/-!
# Prospects of work

What may come of a piece of work, whatever the other workers on the floor do meanwhile and whenever
its turns come. A prospect holds of the values in which the work may end, each with the moment at
that point, and of the moments at which it may stand on the way.

A worker that waits knows little of what becomes of the scene. `Drift` says how much: its relation
leads from the scene in which the wait begins to those in which it may end. Time passes only as far
as there is a reason to wait: a pause lasts until its instant, and work under a limit is dropped
then; branches begin at once, and are waited for no longer than the last of them takes. Branches
have prospects of their own, each from a copy of the context; only their replies come together.
-/

namespace Workflow

/-- What may become of the scene while a worker waits. -/
structure Drift where
  may : Scene → Scene → Prop
  refl (s : Scene) : may s s
  trans {s₁ s₂ s₃ : Scene} : may s₁ s₂ → may s₂ s₃ → may s₁ s₃
  tick (s : Scene) {t : Nat} : s.now ≤ t → may s { s with now := t }
  now_le {s s' : Scene} : may s s' → s.now ≤ s'.now
  cancelled {s s' : Scene} : may s s' → s.cancelled = true → s'.cancelled = true

def Moment.within (m : Moment) (s : Scene) : Moment :=
  { s with context := m.context }

@[simp] theorem Moment.toScene_within (m : Moment) (s : Scene) : (m.within s).toScene = s := rfl

@[simp] theorem Moment.context_within (m : Moment) (s : Scene) :
    (m.within s).context = m.context := rfl

@[simp] theorem Moment.within_toScene (m : Moment) : m.within m.toScene = m := rfl

@[simp] theorem Moment.within_within (m : Moment) (s s' : Scene) :
    (m.within s).within s' = m.within s' := rfl

def Interrupts.Admits (interrupts : Interrupts) (instant : Nat) (s : Scene) : Wake → Prop
  | .cancelled => interrupts.cancellable = true ∧ s.cancelled = true
  | .expired =>
    ¬(interrupts.cancellable = true ∧ s.cancelled = true) ∧
      interrupts.deadline.any (· ≤ s.now) = true
  | .rested =>
    ¬(interrupts.cancellable = true ∧ s.cancelled = true) ∧
      interrupts.deadline.any (· ≤ s.now) = false ∧ instant ≤ s.now

/-- What may come of work: a value, or nothing while it is under way, and the moment then. -/
abbrev Prospect (α : Type) := Option α → Moment → Prop

namespace Prospect

variable {α β γ : Type}

def bind (p : Prospect α) (k : α → Moment → Prospect β) : Prospect β := fun r m' =>
  (∃ value m₁, p (some value) m₁ ∧ k value m₁ r m') ∨ (r = none ∧ p none m')

/-- Work that is dropped at `instant`, unless it has ended; at that very instant either may come
first. -/
def bounded (instant : Nat) (inner : Prospect β) (goesOn : Option β → Moment → Prospect α) :
    Prospect α := fun r m' =>
  ∃ u m₁, inner u m₁ ∧ m₁.now ≤ instant ∧
    (u.isSome = true ∧ goesOn u m₁ r m' ∨
      u = none ∧ r = none ∧ m' = m₁ ∨ u = none ∧ instant ≤ m₁.now ∧ goesOn none m₁ r m')

theorem bounded_bind (instant : Nat) (inner : Prospect γ)
    (goesOn : Option γ → Moment → Prospect α) (k : α → Moment → Prospect β) :
    bounded instant inner (fun u m => (goesOn u m).bind k) =
      (bounded instant inner goesOn).bind k := by
  funext r m'
  apply propext
  constructor
  · rintro ⟨u, m₁, hi, hp, ⟨hu, ⟨value, m₂, hg, hk⟩ | ⟨rfl, hg⟩⟩ | ⟨rfl, rfl, rfl⟩ |
      ⟨rfl, hle, ⟨value, m₂, hg, hk⟩ | ⟨rfl, hg⟩⟩⟩
    · exact .inl ⟨value, m₂, ⟨u, m₁, hi, hp, .inl ⟨hu, hg⟩⟩, hk⟩
    · exact .inr ⟨rfl, u, m₁, hi, hp, .inl ⟨hu, hg⟩⟩
    · exact .inr ⟨rfl, none, m', hi, hp, .inr (.inl ⟨rfl, rfl, rfl⟩)⟩
    · exact .inl ⟨value, m₂, ⟨none, m₁, hi, hp, .inr (.inr ⟨rfl, hle, hg⟩)⟩, hk⟩
    · exact .inr ⟨rfl, none, m₁, hi, hp, .inr (.inr ⟨rfl, hle, hg⟩)⟩
  · rintro (⟨value, m₂, ⟨u, m₁, hi, hp, ⟨hu, hg⟩ | ⟨-, hn, -⟩ | ⟨rfl, hle, hg⟩⟩, hk⟩ |
      ⟨rfl, u, m₁, hi, hp, ⟨hu, hg⟩ | ⟨rfl, -, rfl⟩ | ⟨rfl, hle, hg⟩⟩)
    · exact ⟨u, m₁, hi, hp, .inl ⟨hu, .inl ⟨value, m₂, hg, hk⟩⟩⟩
    · cases hn
    · exact ⟨none, m₁, hi, hp, .inr (.inr ⟨rfl, hle, .inl ⟨value, m₂, hg, hk⟩⟩)⟩
    · exact ⟨u, m₁, hi, hp, .inl ⟨hu, .inr ⟨rfl, hg⟩⟩⟩
    · exact ⟨none, m', hi, hp, .inr (.inl ⟨rfl, rfl, rfl⟩)⟩
    · exact ⟨none, m₁, hi, hp, .inr (.inr ⟨rfl, hle, .inr ⟨rfl, hg⟩⟩)⟩

end Prospect

namespace Drift

variable {α β γ : Type} (d : Drift)

/-- A pause that is to last until `instant` may last from one scene to the other. If that takes any
time, then whatever could have cut it short did not do so before the very last instant. -/
def Lasts (instant : Nat) (interrupts : Interrupts) (s s' : Scene) : Prop :=
  s'.now = s.now ∨ s'.now ≤ instant ∧ (∀ deadline ∈ interrupts.deadline, s'.now ≤ deadline) ∧
    (interrupts.cancellable = true →
      ∃ s₁, d.may s s₁ ∧ d.may s₁ s' ∧ s₁.cancelled = false ∧ s₁.now = s'.now)

def Rests (instant : Nat) (interrupts : Interrupts) (m : Moment)
    (goesOn : Wake → Moment → Prospect α) : Prospect α := fun r m' =>
  ∃ s, d.may m.toScene s ∧ d.Lasts instant interrupts m.toScene s ∧
    (r = none ∧ m' = m.within s ∨
      ∃ wake, interrupts.Admits instant s wake ∧ goesOn wake (m.within s) r m')

def Begins (m : Moment) (work : Moment → Prospect α) : Prospect α := fun r m' =>
  ∃ s, d.may m.toScene s ∧ s.now = m.now ∧
    (r = none ∧ m' = m.within s ∨ work (m.within s) r m')

def Gathers (parts : List (Prospect (Except Fault Unit))) (m : Moment)
    (goesOn : List Reply → Moment → Prospect α) : Prospect α := fun r m' =>
  ∃ s, d.may m.toScene s ∧
    (r = none ∧ m' = m.within s ∧
        (parts = [] ∧ s.now = m.now ∨ ∃ part ∈ parts, ∃ o m₁, part o m₁ ∧ m₁.now = s.now) ∨
      ∃ ends : List (Except Fault Unit × Moment),
        List.Forall₂ (fun part (fin : Except Fault Unit × Moment) =>
          part (some fin.1) fin.2 ∧ d.may fin.2.toScene s) parts ends ∧
        (parts = [] ∧ s.now = m.now ∨ ∃ fin ∈ ends, fin.2.now = s.now) ∧
        goesOn (ends.map fun fin => ⟨fin.2.context, fin.1⟩) (m.within s) r m')

variable {d} in
/-- One wait after the other is a single one. -/
theorem Lasts.trans {instant : Nat} {interrupts : Interrupts} {s s₁ s' : Scene}
    (h : d.Lasts instant interrupts s s₁) (h' : d.Lasts instant interrupts s₁ s')
    (hs : d.may s s₁) (hs' : d.may s₁ s') : d.Lasts instant interrupts s s' := by
  rcases h' with hnow' | ⟨hinstant, hdeadline, hcancel⟩
  · rcases h with hnow | ⟨hinstant, hdeadline, hcancel⟩
    · exact .inl (hnow'.trans hnow)
    · refine .inr ⟨hnow' ▸ hinstant, fun deadline hd => hnow' ▸ hdeadline deadline hd, fun hc => ?_⟩
      obtain ⟨s₀, h₀, h₁, hn, hs₀⟩ := hcancel hc
      exact ⟨s₀, h₀, d.trans h₁ hs', hn, hs₀.trans hnow'.symm⟩
  · refine .inr ⟨hinstant, hdeadline, fun hc => ?_⟩
    obtain ⟨s₀, h₀, h₁, hn, hs₀⟩ := hcancel hc
    exact ⟨s₀, d.trans hs h₀, h₁, hn, hs₀⟩

theorem rests_bind (instant : Nat) (interrupts : Interrupts) (m : Moment)
    (goesOn : Wake → Moment → Prospect α) (k : α → Moment → Prospect β) :
    d.Rests instant interrupts m (fun wake m => (goesOn wake m).bind k) =
      (d.Rests instant interrupts m goesOn).bind k := by
  funext r m'
  apply propext
  constructor
  · rintro ⟨s, hs, hp, ⟨rfl, rfl⟩ | ⟨wake, hw, ⟨value, m₁, hg, hk⟩ | ⟨rfl, hg⟩⟩⟩
    · exact .inr ⟨rfl, s, hs, hp, .inl ⟨rfl, rfl⟩⟩
    · exact .inl ⟨value, m₁, ⟨s, hs, hp, .inr ⟨wake, hw, hg⟩⟩, hk⟩
    · exact .inr ⟨rfl, s, hs, hp, .inr ⟨wake, hw, hg⟩⟩
  · rintro (⟨value, m₁, ⟨s, hs, hp, ⟨hn, -⟩ | ⟨wake, hw, hg⟩⟩, hk⟩ |
      ⟨rfl, s, hs, hp, ⟨-, rfl⟩ | ⟨wake, hw, hg⟩⟩)
    · cases hn
    · exact ⟨s, hs, hp, .inr ⟨wake, hw, .inl ⟨value, m₁, hg, hk⟩⟩⟩
    · exact ⟨s, hs, hp, .inl ⟨rfl, rfl⟩⟩
    · exact ⟨s, hs, hp, .inr ⟨wake, hw, .inr ⟨rfl, hg⟩⟩⟩

theorem gathers_bind (parts : List (Prospect (Except Fault Unit))) (m : Moment)
    (goesOn : List Reply → Moment → Prospect α) (k : α → Moment → Prospect β) :
    d.Gathers parts m (fun replies m => (goesOn replies m).bind k) =
      (d.Gathers parts m goesOn).bind k := by
  funext r m'
  apply propext
  constructor
  · rintro ⟨s, hs, ⟨rfl, rfl, hp⟩ | ⟨ends, he, hp, ⟨value, m₁, hg, hk⟩ | ⟨rfl, hg⟩⟩⟩
    · exact .inr ⟨rfl, s, hs, .inl ⟨rfl, rfl, hp⟩⟩
    · exact .inl ⟨value, m₁, ⟨s, hs, .inr ⟨ends, he, hp, hg⟩⟩, hk⟩
    · exact .inr ⟨rfl, s, hs, .inr ⟨ends, he, hp, hg⟩⟩
  · rintro (⟨value, m₁, ⟨s, hs, ⟨hn, -⟩ | ⟨ends, he, hp, hg⟩⟩, hk⟩ |
      ⟨rfl, s, hs, ⟨-, rfl, hp⟩ | ⟨ends, he, hp, hg⟩⟩)
    · cases hn
    · exact ⟨s, hs, .inr ⟨ends, he, hp, .inl ⟨value, m₁, hg, hk⟩⟩⟩
    · exact ⟨s, hs, .inl ⟨rfl, rfl, hp⟩⟩
    · exact ⟨s, hs, .inr ⟨ends, he, hp, .inr ⟨rfl, hg⟩⟩⟩

end Drift

namespace Work

variable {α β : Type}

/-- What may come of the work from a moment on. -/
def Reaches (d : Drift) : {α : Type} → Work α → Moment → Prospect α
  | _, .done value, m => fun r m' => r = some value ∧ m' = m
  | _, .act change next, m => (next (change m)).Reaches d (change m)
  | _, .pause span interrupts next, m =>
    d.Rests (m.now + span.pauseTicks) interrupts m fun wake m => (next wake).Reaches d m
  | _, .within limit inner next, m =>
    .bounded (m.now + limit.ticks) (inner.Reaches d m) fun u m => (next u).Reaches d m
  | _, .fork _ branch next, m =>
    d.Gathers (List.ofFn fun i => d.Begins m fun m => (branch i).Reaches d m) m
      fun replies m => (next replies).Reaches d m

theorem reaches_bind (d : Drift) (w : Work α) (k : α → Work β) (m : Moment) :
    (w.bind k).Reaches d m = (w.Reaches d m).bind fun value m => (k value).Reaches d m := by
  induction w generalizing m with
  | done value =>
    funext r m'
    apply propext
    constructor
    · intro h
      exact .inl ⟨value, m, ⟨rfl, rfl⟩, h⟩
    · rintro (⟨_, _, ⟨hv, rfl⟩, h⟩ | ⟨-, hn, -⟩)
      · cases hv
        exact h
      · cases hn
  | act change next ih => exact ih (change m) k (change m)
  | pause span interrupts next ih =>
    simp only [pause_bind, Reaches, ih]
    exact d.rests_bind _ _ _ _ _
  | within limit inner next _ ih =>
    simp only [within_bind, Reaches, ih]
    exact Prospect.bounded_bind _ _ _ _
  | fork count branch next _ ih =>
    simp only [fork_bind, Reaches, ih]
    exact d.gathers_bind _ _ _ _

theorem reaches_done {d : Drift} {value : α} {m m' : Moment} {r : Option α} :
    (done value).Reaches d m r m' ↔ r = some value ∧ m' = m := Iff.rfl

theorem reaches_after {d : Drift} {f : Moment → Moment} {w : Work α} {m m' : Moment}
    {r : Option α} : (after f w).Reaches d m r m' ↔ w.Reaches d (f m) r m' := Iff.rfl

theorem reaches_look {d : Drift} {next : Moment → Work α} {m m' : Moment} {r : Option α} :
    (look next).Reaches d m r m' ↔ (next m).Reaches d m r m' := Iff.rfl

theorem reaches_bind_some {d : Drift} {w : Work α} {k : α → Work β} {m m' : Moment} {value : β} :
    (w.bind k).Reaches d m (some value) m' ↔
      ∃ v m₁, w.Reaches d m (some v) m₁ ∧ (k v).Reaches d m₁ (some value) m' := by
  rw [reaches_bind]
  constructor
  · rintro (h | ⟨hn, -⟩)
    · exact h
    · cases hn
  · exact .inl

/-- Work that succeeds within its limit succeeds without it. -/
theorem reaches_of_limited {d : Drift} {ε : Type} {limit : Span} {overrun : ε}
    {w : Work (Except ε α)} {m m' : Moment} {value : α}
    (h : (limited limit overrun w).Reaches d m (some (.ok value)) m') :
    w.Reaches d m (some (.ok value)) m' := by
  obtain ⟨u, m₁, hw, -, ⟨hu, h⟩ | ⟨-, hn, -⟩ | ⟨rfl, -, h⟩⟩ := h
  · obtain ⟨hr, rfl⟩ := reaches_done.1 h
    cases u with
    | none => cases hu
    | some outcome =>
      cases hr
      exact hw
  · cases hn
  · obtain ⟨hr, -⟩ := reaches_done.1 h
    cases hr

def Only (R : Moment → Moment → Prop) : {α : Type} → Work α → Prop
  | _, .done _ => True
  | _, .act change next => ∀ m, R m (change m) ∧ (next (change m)).Only R
  | _, .pause _ _ next => ∀ wake, (next wake).Only R
  | _, .within _ inner next => inner.Only R ∧ ∀ u, (next u).Only R
  | _, .fork _ branch next => (∀ i, (branch i).Only R) ∧ ∀ replies, (next replies).Only R

theorem only_bind {R : Moment → Moment → Prop} {w : Work α} {k : α → Work β} (hw : w.Only R)
    (hk : ∀ value, (k value).Only R) : (w.bind k).Only R := by
  induction w with
  | done value => exact hk value
  | act change next ih => exact fun m => ⟨(hw m).1, ih (change m) (hw m).2 hk⟩
  | pause span interrupts next ih => exact fun wake => ih wake (hw wake) hk
  | within limit inner next _ ih => exact ⟨hw.1, fun u => ih u (hw.2 u) hk⟩
  | fork count branch next _ ih => exact ⟨hw.1, fun replies => ih replies (hw.2 replies) hk⟩

end Work

def Drift.Allows (d : Drift) (m m' : Moment) : Prop :=
  d.may m.toScene m'.toScene ∧ m'.now = m.now

def Drift.free : Drift where
  may s s' := s.now ≤ s'.now ∧ (s.cancelled = true → s'.cancelled = true)
  refl _ := ⟨Nat.le_refl _, id⟩
  trans h h' := ⟨h.1.trans h'.1, h'.2 ∘ h.2⟩
  tick _ _ h := ⟨h, id⟩
  now_le h := h.1
  cancelled h := h.2

def Drift.calm : Drift where
  may s s' := s.now ≤ s'.now ∧ s'.cancelled = s.cancelled
  refl _ := ⟨Nat.le_refl _, rfl⟩
  trans h h' := ⟨h.1.trans h'.1, h'.2.trans h.2⟩
  tick _ _ h := ⟨h, rfl⟩
  now_le h := h.1
  cancelled h hc := h.2.trans hc

end Workflow
