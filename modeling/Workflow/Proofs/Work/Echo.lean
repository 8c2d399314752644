import Workflow.Proofs.Work.Blind

/-!
# Work that echoes other work

One piece of work echoes another if it does the same, apart from changes in between that are of no
consequence but for the journal. A run of the one is then a run of the other: round by round the
floors differ in the journal alone, and at the end the values are related.

The first work may end early with a value for which nothing is said, such as the one that tells that
it has run out of steps.
-/

namespace Workflow

variable {α β γ δ : Type} {early : α → Prop} {V : α → Moment → β → Moment → Prop} {w : Work α}
  {w' : Work β} {th : Thread α} {th' : Thread β} {t t' : Turn} {m m' : Moment} {depth : Nat}

/-- From moments that differ in the journal alone the second work echoes the first, and the values
in which they end are related by `V`. -/
inductive Work.Echo (early : α → Prop) (V : α → Moment → β → Moment → Prop) :
    Moment → Work α → Moment → Work β → Prop
  | early {value : α} {w' : Work β} {m m' : Moment} (h : early value) :
      Echo early V m (.done value) m' w'
  | done {value : α} {value' : β} {m m' : Moment} (h : V value m value' m') :
      Echo early V m (.done value) m' (.done value')
  | act {change change' : Moment → Moment} {next : Moment → Work α} {next' : Moment → Work β}
      {m m' : Moment} (hnoted : (change m).Noted (change' m'))
      (hcancelled : (change m).cancelled = false)
      (h : Echo early V (change m) (next (change m)) (change' m') (next' (change' m'))) :
      Echo early V m (.act change next) m' (.act change' next')
  | first {change : Moment → Moment} {next : Moment → Work α} {w' : Work β} {m m' : Moment}
      (hnoted : m.Noted (change m)) (h : Echo early V (change m) (next (change m)) m' w') :
      Echo early V m (.act change next) m' w'
  | second {change : Moment → Moment} {w : Work α} {next : Moment → Work β} {m m' : Moment}
      (hnoted : m'.Noted (change m')) (h : Echo early V m w (change m') (next (change m'))) :
      Echo early V m w m' (.act change next)
  | pause {span : Span} {interrupts : Interrupts} {next : Wake → Work α} {next' : Wake → Work β}
      {m m' : Moment} (h : ∀ wake (m m' : Moment), m.Noted m' → m.cancelled = false →
        Echo early V m (next wake) m' (next' wake)) :
      Echo early V m (.pause span interrupts next) m' (.pause span interrupts next')
  | within {γ : Type} {limit : Span} {inner : Work γ} {next : Option γ → Work α}
      {next' : Option γ → Work β} {m m' : Moment} (hinner : inner.Blind)
      (h : ∀ u (m m' : Moment), m.Noted m' → m.cancelled = false →
        Echo early V m (next u) m' (next' u)) :
      Echo early V m (.within limit inner next) m' (.within limit inner next')
  | fork {count : Nat} {branch : Fin count → Work (Except Fault Unit)}
      {next : List Reply → Work α} {next' : List Reply → Work β} {m m' : Moment}
      (hbranch : ∀ i, (branch i).Blind)
      (h : ∀ replies (m m' : Moment), m.Noted m' → m.cancelled = false →
        Echo early V m (next replies) m' (next' replies)) :
      Echo early V m (.fork count branch next) m' (.fork count branch next')

def Work.Echoes (early : α → Prop) (V : α → Moment → β → Moment → Prop) (w : Work α) (w' : Work β) :
    Prop :=
  ∀ m m', m.Noted m' → m.cancelled = false → Echo early V m w m' w'

/-- From one moment on the first work does nothing of consequence but for the journal, until all
that remains at the other moment is the second. -/
inductive Work.Drifts : Moment → Work α → Moment → Work α → Prop
  | refl (m : Moment) (w : Work α) : Drifts m w m w
  | act {change : Moment → Moment} {next : Moment → Work α} {w : Work α} {m m' : Moment}
      (hnoted : m.Noted (change m)) (h : Drifts (change m) (next (change m)) m' w) :
      Drifts m (.act change next) m' w

namespace Work

theorem Drifts.first {w₁ : Work α} {m₁ : Moment} (h : Drifts m w m₁ w₁)
    (hecho : Echo early V m₁ w₁ m' w') : Echo early V m w m' w' := by
  induction h with
  | refl => exact hecho
  | act hnoted _ ih => exact .first hnoted (ih hecho)

theorem Drifts.second {w₁ : Work β} {m₁ : Moment} (h : Drifts m' w' m₁ w₁)
    (hecho : Echo early V m w m₁ w₁) : Echo early V m w m' w' := by
  induction h with
  | refl => exact hecho
  | act hnoted _ ih => exact .second hnoted (ih hecho)

theorem Drifts.noted {w₁ : Work α} {m₁ : Moment} (h : Drifts m w m₁ w₁) : m.Noted m₁ := by
  induction h with
  | refl => exact .refl _
  | act hnoted _ ih => exact hnoted.trans ih

theorem Echo.bind {early' : γ → Prop} {W : γ → Moment → δ → Moment → Prop} {k : α → Work γ}
    {k' : β → Work δ} (h : Echo early V m w m' w') (hm : m.Noted m') (hc : m.cancelled = false)
    (hlate : ∀ value, ¬early value)
    (hk : ∀ value (m : Moment) value' m', V value m value' m' → m.Noted m' → m.cancelled = false →
      Echo early' W m (k value) m' (k' value')) :
    Echo early' W m (w.bind k) m' (w'.bind k') := by
  induction h with
  | early h => exact absurd h (hlate _)
  | done h => exact hk _ _ _ _ h hm hc
  | act hnoted hcancelled _ ih => exact .act hnoted hcancelled (ih hnoted hcancelled)
  | first hnoted _ ih => exact .first hnoted (ih (hnoted.symm.trans hm) (hnoted.cancelled.trans hc))
  | second hnoted _ ih => exact .second hnoted (ih (hm.trans hnoted) hc)
  | pause _ ih => exact .pause fun wake m m' hm hc => ih wake m m' hm hc hm hc
  | within hinner _ ih => exact .within hinner fun u m m' hm hc => ih u m m' hm hc hm hc
  | fork hbranch _ ih => exact .fork hbranch fun replies m m' hm hc => ih replies m m' hm hc hm hc

/-- Blind work that goes on differently is echoed if what it goes on with is. -/
theorem Blind.bind_echoes {u : Work γ} {k : γ → Work α} {k' : γ → Work β} (hu : u.Blind)
    (hk : ∀ value, Echoes early V (k value) (k' value)) :
    Echoes early V (u.bind k) (u.bind k') := by
  induction u with
  | done value => exact hk value
  | act change next ih =>
    intro m m' hm hc
    obtain ⟨hsteady, hblind, hnext⟩ := hu
    obtain ⟨hnoted, hcancelled⟩ := hsteady m m' hm hc
    have hnext' := ih (change m) (hnext _) hk (change m) (change m') hnoted hcancelled
    refine .act hnoted hcancelled ?_
    rw [hblind _ _ hnoted.even]
    exact hnext'
  | pause span interrupts next ih => exact fun _ _ _ _ => .pause fun wake => ih wake (hu wake) hk
  | within limit inner next _ ih =>
    exact fun _ _ _ _ => .within hu.1 fun value => ih value (hu.2 value) hk
  | fork count branch next _ ih =>
    exact fun _ _ _ _ => .fork hu.1 fun replies => ih replies (hu.2 replies) hk

end Work

inductive Thread.Echo (early : α → Prop) (V : α → Moment → β → Moment → Prop) :
    Thread α → Thread β → Prop
  | ready {w : Work α} {w' : Work β} (h : w.Echoes early V w') :
      Echo early V (.ready w) (.ready w')
  | resting {instant : Nat} {interrupts : Interrupts} {next : Wake → Work α}
      {next' : Wake → Work β} (h : ∀ wake, (next wake).Echoes early V (next' wake)) :
      Echo early V (.resting instant interrupts next) (.resting instant interrupts next')
  | joining {join : Join} {next : List Reply → Work α} {next' : List Reply → Work β}
      (h : ∀ replies, (next replies).Echoes early V (next' replies)) :
      Echo early V (.joining join next) (.joining join next')
  | within {γ : Type} {limit : Limit} {inner : Thread γ} {next : Option γ → Work α}
      {next' : Option γ → Work β} (hinner : inner.Blind)
      (h : ∀ u, (next u).Echoes early V (next' u)) :
      Echo early V (.within limit inner next) (.within limit inner next')

inductive Turn.Echo (early : α → Prop) (V : α → Moment → β → Moment → Prop) :
    Thread α → Turn → Thread β → Turn → Prop
  | early {value : α} {th' : Thread β} {t t' : Turn} (h : early value) :
      Echo early V (.ended value) t th' t'
  | ended {value : α} {value' : β} {t t' : Turn} (h : V value t.moment value' t'.moment)
      (ht : t.Matches t') : Echo early V (.ended value) t (.ended value') t'
  | goesOn {th : Thread α} {th' : Thread β} {t t' : Turn} (h : th.Echo early V th')
      (ht : t.Matches t') : Echo early V th t th' t'

open Turn

/-- Work that echoes other work does so in its turns. -/
theorem Work.Echo.proceed (h : w.Echo early V m m' w') (ht : t.Matches t') (hm : t.moment = m)
    (hm' : t'.moment = m') (depth : Nat) :
    Turn.Echo early V (w.proceed depth t).1 (w.proceed depth t).2 (w'.proceed depth t').1
      (w'.proceed depth t').2 := by
  induction h generalizing t t' with
  | early h => exact .early h
  | done h =>
    subst hm hm'
    exact .ended h ht
  | @act change change' next next' m m' hnoted hcancelled _ ih =>
    subst hm hm'
    have hact := ih (ht.act hnoted hcancelled) (moment_act _ _) (moment_act _ _)
    simp only [Work.proceed, moment_act]
    exact hact
  | @first change next w' m m' hnoted _ ih =>
    subst hm hm'
    have hact : (t.act change).Matches (t'.act id) :=
      ht.act (hnoted.symm.trans ht.noted) (hnoted.cancelled.trans ht.cancelled)
    rw [act_id (ht.noted.cancelled.trans ht.cancelled)] at hact
    simp only [Work.proceed, moment_act]
    exact ih hact (moment_act _ _) rfl
  | @second change w next m m' hnoted _ ih =>
    subst hm hm'
    have hact : (t.act id).Matches (t'.act change) := ht.act (ht.noted.trans hnoted) ht.cancelled
    rw [act_id ht.cancelled] at hact
    simp only [Work.proceed, moment_act]
    exact ih hact rfl (moment_act _ _)
  | pause h ih =>
    apply ht.pause
    · exact fun ht => .goesOn (.ready fun _ _ _ _ => .pause h) ht
    · exact fun _ _ _ ht => .goesOn (.resting h) ht
    · exact fun wake _ _ ht => ih wake _ _ ht.noted ht.cancelled ht rfl rfl
  | @within _ _ inner _ _ _ _ hinner h ih =>
    apply ht.within
    · exact inner.proceed_repeats hinner (depth + 1) ht
    · exact fun _ _ _ _ hinner ht => .goesOn (.within hinner h) ht
    · exact fun u _ _ ht => ih u _ _ ht.noted ht.cancelled ht rfl rfl
  | @fork _ branch _ _ _ _ hbranch h ih =>
    have hbranches : ∀ work ∈ List.ofFn branch, work.Blind := by
      intro work hmem
      obtain ⟨i, rfl⟩ := List.mem_ofFn.1 hmem
      exact hbranch i
    have hfork := ht.fork hbranches
    obtain ⟨journal, rfl⟩ := ht.same
    rw [proceed_fork, proceed_fork, fork_withJournal]
    rw [fork_withJournal] at hfork
    apply hfork.replies
    · exact fun _ _ _ ht => .goesOn (.joining h) ht
    · exact fun replies _ _ ht => ih replies _ _ ht.noted ht.cancelled ht rfl rfl

theorem Work.Echoes.proceed (h : w.Echoes early V w') (depth : Nat) :
    InStep (Turn.Echo early V) depth w w' :=
  fun ht => (h _ _ ht.noted ht.cancelled).proceed ht rfl rfl depth

theorem Thread.Echo.resume (h : th.Echo early V th') (ht : t.Matches t') (depth : Nat) :
    Turn.Echo early V (th.resume depth t).1 (th.resume depth t).2 (th'.resume depth t').1
      (th'.resume depth t').2 := by
  cases h with
  | ready h => exact h.proceed depth ht
  | resting h => exact ht.rest (.goesOn (.resting h) ht) fun wake => (h wake).proceed depth
  | joining h =>
    rw [resume_joining, resume_joining]
    apply ht.replies
    · exact fun _ _ _ ht => .goesOn (.joining h) ht
    · exact fun replies => (h replies).proceed depth
  | @within _ _ inner _ _ hinner h =>
    apply ht.resumeWithin
    · exact inner.resume_repeats hinner ht (depth + 1)
    · exact fun _ _ _ _ hinner ht => .goesOn (.within hinner h) ht
    · exact fun u => (h u).proceed depth

theorem Thread.Echo.ne_ended (h : th.Echo early V th') (value : α) : th ≠ .ended value := by
  rintro rfl
  cases h

theorem Thread.Echo.ne_ended' (h : th.Echo early V th') (value : β) : th' ≠ .ended value := by
  rintro rfl
  cases h

namespace Crew

variable {c : Crew α} {c' : Crew β} {value : α} {fuel : Nat}

/-- The second crew echoes the first: its floor differs in the journal alone, and what remains of
its work echoes what remains of the other's. -/
structure Echo (early : α → Prop) (V : α → Moment → β → Moment → Prop) (c : Crew α) (c' : Crew β) :
    Prop where
  floor : c.floor.Matches c'.floor
  context : c'.lead.context = c.lead.context
  thread : c.lead.thread.Echo early V c'.lead.thread

inductive Follows (early : α → Prop) (V : α → Moment → β → Moment → Prop) (c : Crew α)
    (c' : Crew β) : Prop
  | early {value : α} (hended : c.lead.thread = .ended value) (h : early value)
  | ended {value : α} {value' : β} (hended : c.lead.thread = .ended value)
      (hended' : c'.lead.thread = .ended value') (h : V value c.moment value' c'.moment)
      (hm : c.moment.Noted c'.moment)
  | goesOn (h : c.Echo early V c')

def back (th : Thread α) (t : Turn) : Crew α :=
  { floor := if t.again then t.floor.call .lead else t.floor, lead := ⟨t.context, th⟩ }

theorem moment_back (th : Thread α) (t : Turn) : (back th t).moment = t.moment := by
  simp only [back, moment]
  split
  · rw [Floor.scene_call]
    rfl
  · rfl

theorem follows_back (h : Turn.Echo early V th t th' t') :
    (back th t).Follows early V (back th' t') := by
  cases h with
  | early h => exact .early rfl h
  | ended h ht =>
    apply Follows.ended rfl rfl
    · rw [moment_back, moment_back]
      exact h
    · rw [moment_back, moment_back]
      exact ht.noted
  | goesOn h ht =>
    refine .goesOn ⟨?_, ht.context, h⟩
    simp only [back, ht.again]
    split
    · exact ht.floor.call .lead
    · exact ht.floor

theorem Echo.leadTurn (h : c.Echo early V c') : c.leadTurn.Follows early V c'.leadTurn := by
  obtain ⟨hfloor, hcontext, hthread⟩ := h
  have hcalled : c'.floor.leadCalled = c.floor.leadCalled := by
    obtain ⟨journal, hsame⟩ := hfloor.same
    rw [hsame]
    rfl
  unfold Crew.leadTurn
  rw [hcalled]
  split
  · let t : Turn :=
      { floor := { c.floor with leadCalled := false }, worker := .lead, context := c.lead.context }
    let t' : Turn :=
      { floor := { c'.floor with leadCalled := false }, worker := .lead, context := c'.lead.context }
    have hturn : t.Matches t' := by
      obtain ⟨hcancelled, hhands, journal, hsame⟩ := hfloor
      refine ⟨hcancelled, hhands, journal, ?_⟩
      simp only [t', hsame, hcontext]
      rfl
    have hback := follows_back (hthread.resume hturn 0)
    exact hback
  · exact .goesOn ⟨hfloor, hcontext, hthread⟩

/-- A run that does not end early is echoed to its end. -/
theorem Echo.run (h : c.Echo early V c') (hrun : c.run fuel = some (value, m))
    (hlate : ¬early value) :
    ∃ value' m', c'.run fuel = some (value', m') ∧ V value m value' m' ∧ m.Noted m' := by
  induction fuel generalizing c c' with
  | zero => cases hrun
  | succ fuel ih =>
    have hfollows := h.leadTurn
    simp only [Crew.run] at hrun ⊢
    generalize c.leadTurn = c₁ at hrun hfollows
    generalize c'.leadTurn = c₁' at hfollows
    cases hfollows with
    | early hended h =>
      rw [hended] at hrun
      cases hrun
      exact absurd h hlate
    | ended hended hended' h hm =>
      rw [hended] at hrun
      cases hrun
      rw [hended']
      exact ⟨_, _, rfl, h, hm⟩
    | goesOn h =>
      split at hrun
      next hended => exact absurd hended (h.thread.ne_ended _)
      · split at hrun
        next floor hround =>
          obtain ⟨floor', hround', hmatches⟩ := h.floor.round? hround
          split
          next hended => exact absurd hended (h.thread.ne_ended' _)
          · rw [hround']
            have hnext : Crew.Echo early V { c₁ with floor } { c₁' with floor := floor' } :=
              ⟨hmatches, h.context, h.thread⟩
            exact ih hnext hrun
        · cases hrun

end Crew

/-- When nobody cancels it, work that does not end early is echoed to its end. -/
theorem Work.Echoes.carryOut {value : α} {fuel : Nat} (h : w.Echoes early V w')
    (hm : m.cancelled = false) (hrun : w.carryOut fuel none m = some (value, m'))
    (hlate : ¬early value) :
    ∃ value' m₁, w'.carryOut fuel none m = some (value', m₁) ∧ V value m' value' m₁ ∧
      m'.Noted m₁ := by
  have hfloor : (Crew.of w [] m).floor.Matches (Crew.of w' [] m).floor :=
    ⟨hm, nofun, m.journal, rfl⟩
  have hecho : (Crew.of w [] m).Echo early V (Crew.of w' [] m) := ⟨hfloor, rfl, .ready h⟩
  exact hecho.run hrun hlate

end Workflow
