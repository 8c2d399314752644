import Workflow.Retry.Loop

/-!
# What the combinators keep to

A property of work may be kept by all the ways in which work is put together: one piece after the
other, under a limit, side by side. `Work.Closed` says so of a property, where `Does` tells which
changes may be made and `Rests` which pauses. What is written with the combinators alone has such a
property if its own parts do; retry loops do.
-/

namespace Workflow

structure Moment.Noted (m m' : Moment) : Prop where
  context : m'.context = m.context
  now : m'.now = m.now
  cancelled : m'.cancelled = m.cancelled
  starts : m'.starts = m.starts

namespace Moment.Noted

variable {m₁ m₂ m₃ : Moment}

theorem refl (m : Moment) : Noted m m :=
  ⟨rfl, rfl, rfl, rfl⟩

theorem symm (h : Noted m₁ m₂) : Noted m₂ m₁ :=
  ⟨h.context.symm, h.now.symm, h.cancelled.symm, h.starts.symm⟩

theorem trans (h : Noted m₁ m₂) (h' : Noted m₂ m₃) : Noted m₁ m₃ :=
  ⟨h'.context.trans h.context, h'.now.trans h.now, h'.cancelled.trans h.cancelled,
    h'.starts.trans h.starts⟩

theorem report (m : Moment) (level : Level) (message : String) (fields : List (String × String)) :
    Noted m (m.report level message fields) :=
  ⟨rfl, rfl, rfl, rfl⟩

theorem data (h : Noted m₁ m₂) : m₂.data = m₁.data :=
  congrArg Context.data h.context

end Moment.Noted

structure Moment.Even (m m' : Moment) : Prop where
  context : m'.context = m.context
  now : m'.now = m.now
  cancelled : m'.cancelled = m.cancelled

namespace Moment.Even

variable {m₁ m₂ m₃ : Moment}

theorem refl (m : Moment) : Even m m :=
  ⟨rfl, rfl, rfl⟩

theorem symm (h : Even m₁ m₂) : Even m₂ m₁ :=
  ⟨h.context.symm, h.now.symm, h.cancelled.symm⟩

theorem data (h : Even m₁ m₂) : m₂.data = m₁.data :=
  congrArg Context.data h.context

end Moment.Even

theorem Moment.Noted.even {m m' : Moment} (h : m.Noted m') : m.Even m' :=
  ⟨h.context, h.now, h.cancelled⟩

/-- What is made of a moment depends neither on what has been reported nor on what has been counted.
-/
def Moment.Blind {β : Type 1} (next : Moment → β) : Prop :=
  ∀ m m', Moment.Even m m' → next m' = next m

namespace Work

variable {α β ε ε' : Type}

/-- The combinators keep to the property. -/
structure Closed (Does : (Moment → Moment) → Prop) (Rests : Interrupts → Prop)
    (T : ∀ {α : Type}, Work α → Prop) : Prop where
  done {α : Type} (value : α) : T (.done value)
  bind {α β : Type} {w : Work α} {k : α → Work β} (hw : T w) (hk : ∀ value, T (k value)) :
    T (w.bind k)
  after {α : Type} {f : Moment → Moment} {w : Work α} (hf : Does f) (hw : T w) : T (.after f w)
  look {α : Type} {next : Moment → Work α} (hblind : Moment.Blind next)
    (hnext : ∀ m, T (next m)) : T (.look next)
  wait (span : Span) {interrupts : Interrupts} (h : Rests interrupts) : T (.wait span interrupts)
  limited {α ε : Type} (limit : Span) (overrun : ε) {w : Work (Except ε α)} (hw : T w) :
    T (.limited limit overrun w)
  together {branches : List (Work (Except Fault Unit))} (h : ∀ branch ∈ branches, T branch) :
    T (.together branches)

namespace Closed

variable {Does : (Moment → Moment) → Prop} {Rests : Interrupts → Prop}
  {T : ∀ {α : Type}, Work α → Prop} (h : Closed Does Rests T)

include h

theorem idle : T (idle : Work (Except ε Unit)) :=
  h.done _

theorem fail (fault : ε) : T (fail fault : Work (Except ε α)) :=
  h.done _

theorem change {f : Moment → Moment} (hf : Does f) : T (change f : Work (Except ε Unit)) :=
  h.after hf h.idle

theorem andThen {w : Work (Except ε α)} {next : α → Work (Except ε β)} (hw : T w)
    (hnext : ∀ value, T (next value)) : T (w.andThen next) := by
  apply h.bind hw
  intro outcome
  cases outcome with
  | error fault => exact h.fail fault
  | ok value => exact hnext value

theorem mapFault {w : Work (Except ε α)} {f : ε → ε'} (hw : T w) : T (w.mapFault f) :=
  h.bind hw fun _ => h.done _

end Closed

end Work

namespace Retrier

variable {α : Type} {Does : (Moment → Moment) → Prop} {Rests : Interrupts → Prop}
  {T : ∀ {α : Type}, Work α → Prop} (h : Work.Closed Does Rests T) (r : Retrier)
  {op : Nat → Work (Except Fault α)} {onRetry : List RetryEvent → Moment → Moment}

include h

theorem closed_attempt (hop : ∀ n, T (op n)) (n : Nat) : T (r.attempt op n) := by
  unfold attempt
  split
  · exact h.limited _ _ (hop n)
  · exact hop n

variable (hop : ∀ n, T (op n)) (hwait : Rests r.interrupts)
  (hstop : ∀ n fault reason, Does (r.reportStop n fault reason))
  (hretry : ∀ events n fault delay, Does fun m => onRetry events (r.reportRetry n fault delay m))

include hop hwait hstop hretry

/-- A retry loop keeps to the property if what remains of it after the next attempt does. -/
theorem closed_loop_of_rest {left : Nat} (hrest : ∀ rest, left = rest + 1 →
      ∀ n attempts events, T (r.loop op onRetry rest n attempts events))
    (n : Nat) (attempts : List (Nat × Nat)) (events : List RetryEvent) :
    T (r.loop op onRetry left n attempts events) := by
  unfold loop
  apply h.look
  · intro m m' hm
    simp only [hm.now]
  intro m
  apply h.bind (closed_attempt h r hop n)
  intro outcome
  cases outcome with
  | ok value => exact h.done _
  | error fault =>
    dsimp only
    split
    next reason _ => exact h.after (hstop n fault reason) (h.done _)
    · cases left with
      | zero => exact h.done _
      | succ rest =>
        apply h.after (hretry _ n fault _)
        apply h.bind (h.wait _ hwait)
        intro outcome
        cases outcome with
        | ok _ => exact hrest rest rfl _ _ _
        | error interrupt => exact h.done _

/-- A retry loop keeps to the property if its attempts, its waits and its reports do. -/
theorem closed_loop (left n : Nat) (attempts : List (Nat × Nat)) (events : List RetryEvent) :
    T (r.loop op onRetry left n attempts events) := by
  induction left generalizing n attempts events with
  | zero =>
    apply closed_loop_of_rest h r hop hwait hstop hretry
    intro rest hrest
    cases hrest
  | succ left ih =>
    apply closed_loop_of_rest h r hop hwait hstop hretry
    intro rest hrest
    cases hrest
    exact ih

end Retrier

end Workflow
