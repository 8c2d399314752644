import Mathlib.Data.List.Forall2
import Workflow.Retry.Loop

/-!
# Work that shadows other work

Two pieces of work on two contexts may do the same in all that anybody else can see: they make the
same changes of the scene, pause for the same spans, fork into as many branches, and end with the
same value. The second then shadows the first. What the two contexts have to do with each other
meanwhile is said by two relations: one that holds whenever the work may be dropped, and one that
holds when it ends.
-/

namespace Workflow

variable {α β ε ε' : Type}

/-- How the replies of two branches have to do with each other, by their common outcome. -/
abbrev Tie := Except Fault Unit → Context → Context → Prop

structure Reply.Tied (T : Tie) (reply reply' : Reply) : Prop where
  outcome : reply'.outcome = reply.outcome
  contexts : T reply.outcome reply.context reply'.context

def Moment.Moves (change change' : Moment → Moment) (c c' d d' : Context) : Prop :=
  ∀ s : Scene, (change { s with context := c }).context = d ∧
    (change' { s with context := c' }).context = d' ∧
    (change' { s with context := c' }).toScene = (change { s with context := c }).toScene

namespace Work

/-- On the second context the second work shadows what the first does on the first. While the work
may be dropped the contexts are related by `I`, and when it ends with a value by `Q`. -/
inductive Shadow : {α : Type} → (I : Context → Context → Prop) →
    (Q : α → Context → Context → Prop) → Context → Work α → Context → Work α → Prop
  | done {α : Type} {I : Context → Context → Prop} {Q : α → Context → Context → Prop} {value : α}
      {c c' : Context} (h : Q value c c') : Shadow I Q c (.done value) c' (.done value)
  | act {α : Type} {I : Context → Context → Prop} {Q : α → Context → Context → Prop}
      {change change' : Moment → Moment} {next next' : Moment → Work α} {c c' d d' : Context}
      (hmoves : Moment.Moves change change' c c' d d')
      (h : ∀ s : Scene, Shadow I Q d (next { s with context := d }) d'
        (next' { s with context := d' })) :
      Shadow I Q c (.act change next) c' (.act change' next')
  | pause {α : Type} {I : Context → Context → Prop} {Q : α → Context → Context → Prop}
      {span : Span} {interrupts : Interrupts} {next next' : Wake → Work α} {c c' : Context}
      (hi : I c c') (h : ∀ wake, Shadow I Q c (next wake) c' (next' wake)) :
      Shadow I Q c (.pause span interrupts next) c' (.pause span interrupts next')
  | within {α γ : Type} {I J : Context → Context → Prop} {Q : α → Context → Context → Prop}
      {R : γ → Context → Context → Prop} {limit : Span} {inner inner' : Work γ}
      {next next' : Option γ → Work α} {c c' : Context} (hinner : Shadow J R c inner c' inner')
      (hj : ∀ {d d'}, J d d' → I d d')
      (hended : ∀ value d d', R value d d' →
        Shadow I Q d (next (some value)) d' (next' (some value)))
      (hdropped : ∀ d d', J d d' → Shadow I Q d (next none) d' (next' none)) :
      Shadow I Q c (.within limit inner next) c' (.within limit inner' next')
  | fork {α : Type} {I J : Context → Context → Prop} {Q : α → Context → Context → Prop} {T : Tie}
      {count : Nat} {branch branch' : Fin count → Work (Except Fault Unit)}
      {next next' : List Reply → Work α} {c c' : Context} (hi : I c c') (hj : J c c')
      (hbranch : ∀ i, Shadow J T c (branch i) c' (branch' i))
      (h : ∀ replies replies', List.Forall₂ (Reply.Tied T) replies replies' →
        Shadow I Q c (next replies) c' (next' replies')) :
      Shadow I Q c (.fork count branch next) c' (.fork count branch' next')

namespace Shadow

variable {I I' : Context → Context → Prop} {Q Q' : α → Context → Context → Prop}
  {c c' d d' : Context} {w w' : Work α}

theorem mono (h : Shadow I Q c w c' w') (hi : ∀ {d d'}, I d d' → I' d d')
    (hq : ∀ value d d', Q value d d' → Q' value d d') : Shadow I' Q' c w c' w' := by
  induction h with
  | done h => exact .done (hq _ _ _ h)
  | act hmoves _ ih => exact .act hmoves fun s => ih s hi hq
  | pause hc _ ih => exact .pause (hi hc) fun wake => ih wake hi hq
  | within hinner hj _ _ _ ihEnded ihDropped =>
    exact .within hinner (fun h => hi (hj h)) (fun value d d' h => ihEnded value d d' h hi hq)
      fun d d' h => ihDropped d d' h hi hq
  | fork hc hj hbranch _ _ ih =>
    exact .fork (hi hc) hj hbranch fun replies replies' h => ih replies replies' h hi hq

theorem bind {R : β → Context → Context → Prop} {k k' : α → Work β} (h : Shadow I Q c w c' w')
    (hk : ∀ value d d', Q value d d' → Shadow I R d (k value) d' (k' value)) :
    Shadow I R c (w.bind k) c' (w'.bind k') := by
  induction h with
  | done h => exact hk _ _ _ h
  | act hmoves _ ih => exact .act hmoves fun s => ih s hk
  | pause hc _ ih => exact .pause hc fun wake => ih wake hk
  | within hinner hj _ _ _ ihEnded ihDropped =>
    exact .within hinner hj (fun value d d' h => ihEnded value d d' h hk)
      fun d d' h => ihDropped d d' h hk
  | fork hc hj hbranch _ _ ih =>
    exact .fork hc hj hbranch fun replies replies' h => ih replies replies' h hk

theorem look {next next' : Moment → Work α}
    (h : ∀ s : Scene, Shadow I Q c (next { s with context := c }) c'
      (next' { s with context := c' })) :
    Shadow I Q c (Work.look next) c' (Work.look next') :=
  .act (fun _ => ⟨rfl, rfl, rfl⟩) h

theorem after {f f' : Moment → Moment} (h : Shadow I Q d w d' w')
    (hmoves : Moment.Moves f f' c c' d d') :
    Shadow I Q c (Work.after f w) c' (Work.after f' w') :=
  .act hmoves fun _ => h

theorem change {R : Except ε Unit → Context → Context → Prop} {f f' : Moment → Moment}
    (h : R (.ok ()) d d') (hmoves : Moment.Moves f f' c c' d d') :
    Shadow I R c (Work.change f) c' (Work.change f') :=
  after (.done h) hmoves

theorem wait {R : Except Fault Unit → Context → Context → Prop} (span : Span)
    (interrupts : Interrupts) (hi : I c c') (h : ∀ outcome, R outcome c c') :
    Shadow I R c (Work.wait span interrupts) c' (Work.wait span interrupts) :=
  .pause hi fun _ => .done (h _)

/-- If the same holds whenever work may be dropped and when it ends, it holds under a limit. -/
theorem limited {w w' : Work (Except ε α)} (h : Shadow I (fun _ => I) c w c' w') (limit : Span)
    (overrun : ε) :
    Shadow I (fun _ => I) c (Work.limited limit overrun w) c' (Work.limited limit overrun w') :=
  .within h id (fun _ _ _ h => .done h) fun _ _ h => .done h

theorem andThen {R : Except ε α → Context → Context → Prop}
    {S : Except ε β → Context → Context → Prop} {w w' : Work (Except ε α)}
    {next next' : α → Work (Except ε β)} (h : Shadow I R c w c' w')
    (hnext : ∀ value d d', R (.ok value) d d' → Shadow I S d (next value) d' (next' value))
    (herror : ∀ fault d d', R (.error fault) d d' → S (.error fault) d d') :
    Shadow I S c (w.andThen next) c' (w'.andThen next') :=
  h.bind fun outcome d d' hr => by
    cases outcome with
    | ok value => exact hnext value d d' hr
    | error fault => exact .done (herror fault d d' hr)

theorem mapFault {R : Context → Context → Prop} {w w' : Work (Except ε α)}
    (h : Shadow I (fun _ => R) c w c' w') (f : ε → ε') :
    Shadow I (fun _ => R) c (w.mapFault f) c' (w'.mapFault f) :=
  h.bind fun _ _ _ hr => .done hr

/-- Branches side by side, and what is done with their replies. -/
theorem together {J : Context → Context → Prop} {T : Tie}
    {branches branches' : List (Work (Except Fault Unit))} {k k' : List Reply → Work α}
    (hi : I c c') (hj : J c c')
    (h : List.Forall₂ (fun w w' => Shadow J T c w c' w') branches branches')
    (hk : ∀ replies replies', List.Forall₂ (Reply.Tied T) replies replies' →
      Shadow I Q c (k replies) c' (k' replies')) :
    Shadow I Q c ((Work.together branches).bind k) c' ((Work.together branches').bind k') := by
  have hlength := h.length_eq
  obtain ⟨count, hcount⟩ : ∃ count, branches.length = count := ⟨_, rfl⟩
  have hcount' : branches'.length = count := hlength.symm.trans hcount
  have htogether : ∀ works : List (Work (Except Fault Unit)), (hw : works.length = count) →
      Work.together works = .fork count (fun i => works.get (i.cast hw.symm)) .done := by
    intro works hw
    subst hw
    rfl
  rw [htogether branches hcount, htogether branches' hcount']
  refine .fork hi hj (fun i => ?_) hk
  exact List.Forall₂.get h (hcount ▸ i.isLt) (hcount' ▸ i.isLt)

end Shadow

end Work

namespace Retrier

open Work

variable (r : Retrier) {I₀ I : Context → Context → Prop} {op : Nat → Work (Except Fault α)}
  {onRetry : List RetryEvent → Moment → Moment}

theorem shadow_attempt {c c' : Context} {n : Nat}
    (hop : Shadow I (fun _ => I) c (op n) c' (op n)) :
    Shadow I (fun _ => I) c (r.attempt op n) c' (r.attempt op n) := by
  unfold attempt
  split
  · exact hop.limited _ _
  · exact hop

theorem moves_reportStop (n : Nat) (fault : Fault) (reason : RetryStop) (c c' : Context) :
    Moment.Moves (r.reportStop n fault reason) (r.reportStop n fault reason) c c' c c' := by
  intro s
  cases reason <;> exact ⟨rfl, rfl, rfl⟩

section Loop

variable (hrelated : ∀ {c c'}, I c c' → I₀ c c')
  (hop : ∀ n c c', I₀ c c' → Shadow I (fun _ => I) c (op n) c' (op n))
  (hretry : ∀ events n fault delay c c', I c c' → ∃ d d', I d d' ∧
    Moment.Moves (fun m => onRetry events (r.reportRetry n fault delay m))
      (fun m => onRetry events (r.reportRetry n fault delay m)) c c' d d')

include hop hretry

/-- A retry loop shadows itself if what remains of it after the next attempt does. -/
theorem shadow_loop_of_rest {left : Nat} (hrest : ∀ rest, left = rest + 1 →
      ∀ n attempts events c c', I c c' →
        Shadow I (fun _ => I) c (r.loop op onRetry rest n attempts events) c'
          (r.loop op onRetry rest n attempts events))
    (n : Nat) (attempts : List (Nat × Nat)) (events : List RetryEvent) {c c' : Context}
    (h : I₀ c c') :
    Shadow I (fun _ => I) c (r.loop op onRetry left n attempts events) c'
      (r.loop op onRetry left n attempts events) := by
  unfold loop
  apply Shadow.look
  intro s
  apply (r.shadow_attempt (hop n c c' h)).bind
  intro outcome d d' hd
  cases outcome with
  | ok value => exact .done hd
  | error fault =>
    dsimp only
    split
    next reason _ => exact .after (.done hd) (r.moves_reportStop n fault reason d d')
    · cases left with
      | zero => exact .done hd
      | succ rest =>
        obtain ⟨e, e', he, hmoves⟩ := hretry (⟨n, r.delay (n - 1), fault⟩ :: events) n fault
          (r.delay (n - 1)) d d' hd
        refine .after ?_ hmoves
        -- the contexts stay as they are during the wait
        apply (Shadow.wait (R := fun _ c c' => c = e ∧ c' = e') _ _ he fun _ => ⟨rfl, rfl⟩).bind
        rintro outcome _ _ ⟨rfl, rfl⟩
        cases outcome with
        | ok _ => exact hrest rest rfl _ _ _ _ _ he
        | error interrupt => exact .done he

include hrelated

/-- A retry loop shadows itself if its attempts and what it notes of its retries do. The contexts
are related by `I` from the first attempt on. -/
theorem shadow_loop (left n : Nat) (attempts : List (Nat × Nat)) (events : List RetryEvent)
    {c c' : Context} (h : I₀ c c') :
    Shadow I (fun _ => I) c (r.loop op onRetry left n attempts events) c'
      (r.loop op onRetry left n attempts events) := by
  induction left generalizing n attempts events c c' with
  | zero =>
    apply shadow_loop_of_rest r hop hretry _ n attempts events h
    intro rest hrest
    cases hrest
  | succ left ih =>
    apply shadow_loop_of_rest r hop hretry _ n attempts events h
    intro rest hrest n attempts events c c' hc
    cases hrest
    exact ih n attempts events (hrelated hc)

end Loop

end Retrier

end Workflow
