import Workflow.Proofs.Work.Closed
import Workflow.Proofs.Work.Prospect

/-!
# Work that abides by rules

Rules say how the pauses of some work may be cut short, whether it may have branches, and what it
may make of a moment. Unlike `Work.Only` this follows the work: a change is judged by the very
moments at which it is made, as long as nothing is waited for on the way.
-/

namespace Workflow

structure Rules where
  rests : Interrupts → Prop
  forks : Prop
  acts : Moment → Moment → Prop

structure Rules.Chain (d : Drift) (rules : Rules) : Prop where
  refl (m : Moment) : rules.acts m m
  trans {m₁ m₂ m₃ : Moment} : rules.acts m₁ m₂ → rules.acts m₂ m₃ → rules.acts m₁ m₃
  wait (m : Moment) (s : Scene) : d.may m.toScene s → rules.acts m (m.within s)

variable {α β : Type} {rules : Rules}

namespace Work

def Abides (rules : Rules) : {α : Type} → Work α → Moment → Prop
  | _, .done _, _ => True
  | _, .act change next, m => rules.acts m (change m) ∧ (next (change m)).Abides rules (change m)
  | _, .pause _ interrupts next, _ => rules.rests interrupts ∧ ∀ wake m, (next wake).Abides rules m
  | _, .within _ inner next, m => inner.Abides rules m ∧ ∀ u m, (next u).Abides rules m
  | _, .fork _ branch next, _ =>
    rules.forks ∧ (∀ i m, (branch i).Abides rules m) ∧ ∀ replies m, (next replies).Abides rules m

theorem abides_bind {w : Work α} {k : α → Work β} {m : Moment} (hw : w.Abides rules m)
    (hk : ∀ value m, (k value).Abides rules m) : (w.bind k).Abides rules m := by
  induction w generalizing m with
  | done value => exact hk value m
  | act change next ih => exact ⟨hw.1, ih (change m) hw.2 hk⟩
  | pause span interrupts next ih => exact ⟨hw.1, fun wake m => ih wake (hw.2 wake m) hk⟩
  | within limit inner next _ ih => exact ⟨hw.1, fun u m => ih u (hw.2 u m) hk⟩
  | fork count branch next _ ih =>
    exact ⟨hw.1, hw.2.1, fun replies m => ih replies (hw.2.2 replies m) hk⟩

/-- All pauses of the work may be cut short in the given ways. -/
def Pauses (rests : Interrupts → Prop) : {α : Type} → Work α → Prop
  | _, .done _ => True
  | _, .act _ next => ∀ m, (next m).Pauses rests
  | _, .pause _ interrupts next => rests interrupts ∧ ∀ wake, (next wake).Pauses rests
  | _, .within _ inner next => inner.Pauses rests ∧ ∀ u, (next u).Pauses rests
  | _, .fork _ branch next =>
    (∀ i, (branch i).Pauses rests) ∧ ∀ replies, (next replies).Pauses rests

theorem pauses_bind {rests : Interrupts → Prop} {w : Work α} {k : α → Work β} (hw : w.Pauses rests)
    (hk : ∀ value, (k value).Pauses rests) : (w.bind k).Pauses rests := by
  induction w with
  | done value => exact hk value
  | act change next ih => exact fun m => ih m (hw m) hk
  | pause span interrupts next ih => exact ⟨hw.1, fun wake => ih wake (hw.2 wake) hk⟩
  | within limit inner next _ ih => exact ⟨hw.1, fun u => ih u (hw.2 u) hk⟩
  | fork count branch next _ ih => exact ⟨hw.1, fun replies => ih replies (hw.2 replies) hk⟩

theorem pauses_of_forall {rests : Interrupts → Prop} (h : ∀ interrupts, rests interrupts)
    (w : Work α) : w.Pauses rests := by
  induction w with
  | done value => trivial
  | act change next ih => exact ih
  | pause span interrupts next ih => exact ⟨h interrupts, ih⟩
  | within limit inner next ihInner ihNext => exact ⟨ihInner, ihNext⟩
  | fork count branch next ihBranch ihNext => exact ⟨ihBranch, ihNext⟩

theorem closed_pauses (rests : Interrupts → Prop) :
    Closed (fun _ => True) rests (Pauses rests) where
  done _ := trivial
  bind := pauses_bind
  after _ hw _ := hw
  look _ hnext := hnext
  wait _ _ h := ⟨h, fun _ => trivial⟩
  limited _ _ _ hw := ⟨hw, fun _ => trivial⟩
  together h := ⟨fun i => h _ (List.getElem_mem i.isLt), fun _ => trivial⟩

/-- Work whose changes are of a kind, wherever they are made, abides by the rules that ask for it.
-/
theorem Only.abides {w : Work α} (hw : w.Only rules.acts) (hrests : w.Pauses rules.rests)
    (hforks : rules.forks) (m : Moment) : w.Abides rules m := by
  induction w generalizing m with
  | done value => trivial
  | act change next ih => exact ⟨(hw m).1, ih _ (hw m).2 (hrests _) _⟩
  | pause span interrupts next ih =>
    exact ⟨hrests.1, fun wake m => ih wake (hw wake) (hrests.2 wake) m⟩
  | within limit inner next ihInner ihNext =>
    exact ⟨ihInner hw.1 hrests.1 m, fun u m => ihNext u (hw.2 u) (hrests.2 u) m⟩
  | fork count branch next ihBranch ihNext =>
    exact ⟨hforks, fun i m => ihBranch i (hw.1 i) (hrests.1 i) m,
      fun replies m => ihNext replies (hw.2 replies) (hrests.2 replies) m⟩

/-- What comes of work is a change as the rules demand. -/
theorem Abides.acts {d : Drift} (hrules : rules.Chain d) {w : Work α} {m m' : Moment}
    {r : Option α} (hw : w.Abides rules m) (h : w.Reaches d m r m') : rules.acts m m' := by
  induction w generalizing m m' with
  | done value =>
    obtain ⟨-, rfl⟩ := h
    exact hrules.refl m'
  | act change next ih => exact hrules.trans hw.1 (ih _ hw.2 h)
  | pause span interrupts next ih =>
    obtain ⟨s, hs, -, ⟨-, rfl⟩ | ⟨wake, -, h⟩⟩ := h
    · exact hrules.wait m s hs
    · exact hrules.trans (hrules.wait m s hs) (ih wake (hw.2 wake _) h)
  | within limit inner next ihInner ihNext =>
    obtain ⟨u, m₁, hinner, -, ⟨-, h⟩ | ⟨-, -, rfl⟩ | ⟨-, -, h⟩⟩ := h
    · exact hrules.trans (ihInner hw.1 hinner) (ihNext u (hw.2 u _) h)
    · exact ihInner hw.1 hinner
    · exact hrules.trans (ihInner hw.1 hinner) (ihNext none (hw.2 none _) h)
  | fork count branch next _ ih =>
    obtain ⟨s, hs, ⟨-, rfl, -⟩ | ⟨ends, -, -, h⟩⟩ := h
    · exact hrules.wait m s hs
    · exact hrules.trans (hrules.wait m s hs) (ih _ (hw.2.2 _ _) h)

end Work

end Workflow
