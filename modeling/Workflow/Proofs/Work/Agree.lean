import Mathlib.Data.List.OfFn
import Workflow.Proofs.Work.Prospect
import Workflow.Retry.Loop

/-!
# Work that leaves no choice

Two pieces of work agree if they come to the same from moments with the same context, however long
each of them takes and whatever its workers wait for. As long as nobody cancels the run and nothing
is dropped for being late, work agrees with itself: only the data decide on what comes of it.
-/

namespace Workflow

structure Moment.Alike (m₁ m₂ : Moment) : Prop where
  context : m₁.context = m₂.context
  cancelled : m₁.cancelled = m₂.cancelled

namespace Moment.Alike

variable {m₁ m₂ : Moment}

theorem data (h : Alike m₁ m₂) : m₁.data = m₂.data :=
  congrArg Context.data h.context

theorem update (h : Alike m₁ m₂) (f : Context → Context) : Alike (m₁.update f) (m₂.update f) :=
  ⟨congrArg f h.context, h.cancelled⟩

theorem record (h : Alike m₁ m₂) (action suffix : String) (value : Json) :
    Alike (m₁.record action suffix value) (m₂.record action suffix value) :=
  h.update (·.set (action ++ "_" ++ suffix) value)

theorem report (h : Alike m₁ m₂) (level : Level) (message : String)
    (fields : List (String × String)) :
    Alike (m₁.report level message fields) (m₂.report level message fields) :=
  ⟨h.context, h.cancelled⟩

theorem within (h : Alike m₁ m₂) {s₁ s₂ : Scene} (hs₁ : Drift.calm.may m₁.toScene s₁)
    (hs₂ : Drift.calm.may m₂.toScene s₂) : Alike (m₁.within s₁) (m₂.within s₂) :=
  ⟨h.context, (hs₁.2.trans h.cancelled).trans hs₂.2.symm⟩

end Moment.Alike

namespace Work

variable {α β γ δ ε ε' : Type} {d : Drift} {m m' : Moment}

/-- The reply of a branch that has been hired at a moment. -/
def Leaves (d : Drift) (m : Moment) (branch : Work (Except Fault Unit)) (reply : Reply) : Prop :=
  ∃ s m₁, d.may m.toScene s ∧ s.now = m.now ∧ branch.Reaches d (m.within s) (some reply.outcome) m₁ ∧
    m₁.context = reply.context

/-- Branches come together with the reply that each of them has left, and nothing else has changed
but the scene. -/
theorem reaches_together {branches : List (Work (Except Fault Unit))} {replies : List Reply}
    (h : (together branches).Reaches d m (some replies) m') :
    (∃ s, d.may m.toScene s ∧ m' = m.within s) ∧
      List.Forall₂ (Leaves d m) branches replies := by
  obtain ⟨s, hs, ⟨hn, -⟩ | ⟨ends, hends, -, h⟩⟩ := h
  · cases hn
  · obtain ⟨hreplies, rfl⟩ := reaches_done.1 h
    cases hreplies
    refine ⟨⟨s, hs, rfl⟩, ?_⟩
    have hparts : (List.ofFn fun i => d.Begins m fun m => (branches.get i).Reaches d m) =
        branches.map fun branch => d.Begins m fun m => branch.Reaches d m :=
      List.ofFn_getElem_eq_map branches fun branch => d.Begins m fun m => branch.Reaches d m
    rw [hparts, List.forall₂_map_left_iff] at hends
    rw [List.forall₂_map_right_iff]
    refine hends.imp ?_
    rintro branch ⟨outcome, m₁⟩ ⟨⟨s₁, hs₁, hnow, ⟨hn, -⟩ | hbranch⟩, -⟩
    · cases hn
    · exact ⟨s₁, m₁, hs₁, hnow, hbranch, rfl⟩

theorem context_of_together {branches : List (Work (Except Fault Unit))}
    (h : (together branches).Reaches d m none m') : m'.context = m.context := by
  obtain ⟨s, -, ⟨-, rfl, -⟩ | ⟨ends, -, -, hn, -⟩⟩ := h
  · rfl
  · cases hn

/-- The two pieces of work lead from moments that are alike to moments that are alike, with values
that are related. -/
def Agree (V : α → β → Prop) (w₁ : Work α) (w₂ : Work β) : Prop :=
  ∀ (m₁ m₂ m₁' m₂' : Moment) (v₁ : α) (v₂ : β), m₁.Alike m₂ →
    w₁.Reaches .calm m₁ (some v₁) m₁' → w₂.Reaches .calm m₂ (some v₂) m₂' →
      V v₁ v₂ ∧ m₁'.Alike m₂'

variable {V : α → β → Prop} {W : γ → δ → Prop} {w₁ : Work α} {w₂ : Work β}

theorem agree_done {v₁ : α} {v₂ : β} (h : V v₁ v₂) : Agree V (done v₁) (done v₂) := by
  intro _ _ _ _ _ _ hm h₁ h₂
  obtain ⟨hv₁, rfl⟩ := reaches_done.1 h₁
  obtain ⟨hv₂, rfl⟩ := reaches_done.1 h₂
  cases hv₁
  cases hv₂
  exact ⟨h, hm⟩

theorem Agree.bind {k₁ : α → Work γ} {k₂ : β → Work δ} (hw : Agree V w₁ w₂)
    (hk : ∀ v₁ v₂, V v₁ v₂ → Agree W (k₁ v₁) (k₂ v₂)) : Agree W (w₁.bind k₁) (w₂.bind k₂) := by
  intro m₁ m₂ m₁' m₂' _ _ hm h₁ h₂
  obtain ⟨v₁, n₁, hw₁, hk₁⟩ := reaches_bind_some.1 h₁
  obtain ⟨v₂, n₂, hw₂, hk₂⟩ := reaches_bind_some.1 h₂
  obtain ⟨hv, hn⟩ := hw _ _ _ _ _ _ hm hw₁ hw₂
  exact hk v₁ v₂ hv _ _ _ _ _ _ hn hk₁ hk₂

theorem agree_after {f₁ f₂ : Moment → Moment} (hf : ∀ m₁ m₂, m₁.Alike m₂ → (f₁ m₁).Alike (f₂ m₂))
    (h : Agree V w₁ w₂) : Agree V (after f₁ w₁) (after f₂ w₂) :=
  fun m₁ m₂ _ _ _ _ hm h₁ h₂ => h _ _ _ _ _ _ (hf m₁ m₂ hm) h₁ h₂

theorem agree_look {next₁ : Moment → Work α} {next₂ : Moment → Work β}
    (h : ∀ m₁ m₂, m₁.Alike m₂ → Agree V (next₁ m₁) (next₂ m₂)) :
    Agree V (look next₁) (look next₂) :=
  fun m₁ m₂ _ _ _ _ hm h₁ h₂ => h m₁ m₂ hm _ _ _ _ _ _ hm h₁ h₂

theorem agree_change {f₁ f₂ : Moment → Moment}
    (hf : ∀ m₁ m₂, m₁.Alike m₂ → (f₁ m₁).Alike (f₂ m₂)) :
    Agree Eq (change f₁ : Work (Except ε Unit)) (change f₂) :=
  agree_after hf (agree_done rfl)

theorem Agree.mapFault {w₁ w₂ : Work (Except ε α)} (h : Agree Eq w₁ w₂) (f : ε → ε') :
    Agree Eq (w₁.mapFault f) (w₂.mapFault f) :=
  h.bind fun _ _ hv => agree_done (congrArg _ hv)

theorem Agree.andThen {w₁ w₂ : Work (Except ε α)} {next₁ next₂ : α → Work (Except ε γ)}
    (h : Agree Eq w₁ w₂) (hn : ∀ value, Agree Eq (next₁ value) (next₂ value)) :
    Agree Eq (w₁.andThen next₁) (w₂.andThen next₂) := by
  refine h.bind ?_
  rintro outcome _ rfl
  cases outcome with
  | error fault => exact agree_done rfl
  | ok value => exact hn value

/-- A pause without a deadline ends by cancellation if the run has been cancelled, and otherwise
only when it is over. -/
theorem agree_wait (span₁ span₂ : Span) {interrupts : Interrupts}
    (hdeadline : interrupts.deadline = none) :
    Agree Eq (wait span₁ interrupts) (wait span₂ interrupts) := by
  intro m₁ m₂ m₁' m₂' v₁ v₂ hm h₁ h₂
  obtain ⟨s₁, hs₁, -, ⟨hn, -⟩ | ⟨wake₁, hwake₁, h₁⟩⟩ := h₁
  · cases hn
  obtain ⟨s₂, hs₂, -, ⟨hn, -⟩ | ⟨wake₂, hwake₂, h₂⟩⟩ := h₂
  · cases hn
  obtain ⟨hv₁, rfl⟩ := reaches_done.1 h₁
  obtain ⟨hv₂, rfl⟩ := reaches_done.1 h₂
  have halike := hm.within hs₁ hs₂
  have hcancelled : s₁.cancelled = s₂.cancelled := halike.cancelled
  have hwakes : wake₁ = wake₂ := by
    cases wake₁ with
    | cancelled =>
      cases wake₂ with
      | cancelled => rfl
      | rested | expired => exact absurd (hcancelled ▸ hwake₁) hwake₂.1
    | expired =>
      have hdue := hwake₁.2
      rw [hdeadline] at hdue
      cases hdue
    | rested =>
      cases wake₂ with
      | rested => rfl
      | cancelled => exact absurd (hcancelled.symm ▸ hwake₂) hwake₁.1
      | expired =>
        have hdue := hwake₂.2
        rw [hdeadline] at hdue
        cases hdue
  subst hwakes
  exact ⟨Option.some.inj (hv₁.trans hv₂.symm), halike⟩

/-- Branches that agree one by one leave the same replies. -/
theorem agree_together {branches₁ branches₂ : List (Work (Except Fault Unit))}
    (h : List.Forall₂ (Agree Eq) branches₁ branches₂) :
    Agree Eq (together branches₁) (together branches₂) := by
  intro m₁ m₂ m₁' m₂' replies₁ replies₂ hm h₁ h₂
  obtain ⟨⟨s₁, hs₁, rfl⟩, hreplies₁⟩ := reaches_together h₁
  obtain ⟨⟨s₂, hs₂, rfl⟩, hreplies₂⟩ := reaches_together h₂
  refine ⟨?_, hm.within hs₁ hs₂⟩
  clear h₁ h₂
  induction h generalizing replies₁ replies₂ with
  | nil =>
    cases hreplies₁
    cases hreplies₂
    rfl
  | cons hbranch _ ih =>
    cases hreplies₁ with
    | cons hleaves₁ hrest₁ =>
      cases hreplies₂ with
      | cons hleaves₂ hrest₂ =>
        obtain ⟨t₁, n₁, ht₁, -, hreach₁, hn₁⟩ := hleaves₁
        obtain ⟨t₂, n₂, ht₂, -, hreach₂, hn₂⟩ := hleaves₂
        obtain ⟨houtcome, halike⟩ := hbranch _ _ _ _ _ _ (hm.within ht₁ ht₂) hreach₁ hreach₂
        have hreply : ∀ a b : Reply, a.context = b.context → a.outcome = b.outcome → a = b :=
          fun ⟨_, _⟩ ⟨_, _⟩ hc ho => by cases hc; cases ho; rfl
        rw [hreply _ _ (hn₁.symm.trans (halike.context.trans hn₂)) houtcome, ih _ _ hrest₁ hrest₂]

end Work

namespace Retrier

variable {α : Type} {r₁ r₂ : Retrier} {op₁ op₂ : Nat → Work (Except Fault α)}
  {onRetry₁ onRetry₂ : List RetryEvent → Moment → Moment}
  {E : List RetryEvent → List RetryEvent → Prop}

/-- Where the attempts take as long as they need, a retry loop ends in the same way, however long it
waits between them. What it records of its retries is related by `E`. -/
theorem agree_loop (hlimit₁ : r₁.policy.attemptTimeout = none)
    (hlimit₂ : r₂.policy.attemptTimeout = none) (hretryable : r₂.retryable = r₁.retryable)
    (hinterrupts : r₂.interrupts = r₁.interrupts) (hwait : r₁.interrupts.deadline = none)
    (hop : ∀ n, Work.Agree Eq (op₁ n) (op₂ n))
    (hretry : ∀ events₁ events₂, E events₁ events₂ → ∀ m₁ m₂, m₁.Alike m₂ →
      (onRetry₁ events₁ m₁).Alike (onRetry₂ events₂ m₂))
    (hevents : ∀ n fault events₁ events₂, E events₁ events₂ →
      E (⟨n, r₁.delay (n - 1), fault⟩ :: events₁)
        (⟨n, r₂.delay (n - 1), fault⟩ :: events₂))
    (left n : Nat) (attempts₁ attempts₂ : List (Nat × Nat)) {events₁ events₂ : List RetryEvent}
    (he : E events₁ events₂) :
    Work.Agree (fun end₁ end₂ : Retried α => end₁.result = end₂.result)
      (r₁.loop op₁ onRetry₁ left n attempts₁ events₁)
      (r₂.loop op₂ onRetry₂ left n attempts₂ events₂) := by
  have hattempt : ∀ (r : Retrier) (op : Nat → Work (Except Fault α)) n,
      r.policy.attemptTimeout = none → r.attempt op n = op n := fun r op n hlimit => by
    rw [attempt, hlimit]
  have hstop? : ∀ left fault, r₂.stop? left fault = r₁.stop? left fault := fun left fault => by
    rw [stop?, hretryable, ← stop?]
  have hstop : ∀ n fault reason (m₁ m₂ : Moment), m₁.Alike m₂ →
      (r₁.reportStop n fault reason m₁).Alike (r₂.reportStop n fault reason m₂) :=
    fun n fault reason m₁ m₂ hm => by
      cases reason with
      | permanent | rejected => exact ⟨hm.context, hm.cancelled⟩
      | exhausted | interrupted => exact hm
  induction left generalizing n attempts₁ attempts₂ events₁ events₂ with
  | zero =>
    rw [loop, loop]
    refine Work.agree_look fun m₁ m₂ _ => ?_
    dsimp only
    rw [hattempt _ _ _ hlimit₁, hattempt _ _ _ hlimit₂]
    refine (hop n).bind ?_
    rintro outcome _ rfl
    cases outcome with
    | ok value => exact Work.agree_done rfl
    | error fault =>
      dsimp only
      rw [hstop?]
      split
      next reason _ => exact Work.agree_after (hstop n fault reason) (Work.agree_done rfl)
      · exact Work.agree_done rfl
  | succ left ih =>
    rw [loop, loop]
    refine Work.agree_look fun m₁ m₂ _ => ?_
    dsimp only
    rw [hattempt _ _ _ hlimit₁, hattempt _ _ _ hlimit₂]
    refine (hop n).bind ?_
    rintro outcome _ rfl
    cases outcome with
    | ok value => exact Work.agree_done rfl
    | error fault =>
      dsimp only
      rw [hstop?]
      split
      next reason _ => exact Work.agree_after (hstop n fault reason) (Work.agree_done rfl)
      · have hmore := hevents n fault events₁ events₂ he
        refine Work.agree_after
          (fun _ _ hm => hretry _ _ hmore _ _ ⟨hm.context, hm.cancelled⟩) ?_
        rw [hinterrupts]
        refine (Work.agree_wait _ _ hwait).bind ?_
        rintro outcome _ rfl
        cases outcome with
        | ok _ => exact ih _ _ _ hmore
        | error interrupt => exact Work.agree_done rfl

end Retrier

end Workflow
