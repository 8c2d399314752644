import Workflow.Proofs.Action.Records
import Workflow.Proofs.Work.Ends
import Workflow.Proofs.Work.Frame

/-!
# What an action leaves untouched

Whatever comes of work that is shadowed, the work that shadows it could have come to the same. So an
action that ignores some keys, which shadows itself while it leaves alone what is under them, has
not changed it by the time that it ends, however it is interrupted on the way and whatever other
workers do. A composite that its parts shun may therefore count on its records: what it has put
under a key of its own is there until it puts something else there.
-/

namespace Workflow

namespace Work.Shadow

variable {α : Type} {I : Context → Context → Prop} {Q : α → Context → Context → Prop} {T : Tie}
  {c c' : Context} {w w' : Work α} {d : Drift} {m m' : Moment} {r : Option α}

/-- How the two contexts are related at the end, or on the way if there is no value yet. -/
def Ends (I : Context → Context → Prop) (Q : α → Context → Context → Prop) :
    Option α → Context → Context → Prop
  | some value => Q value
  | none => I

theorem exists_tied {parts : List (Prospect (Except Fault Unit))}
    {ends : List (Except Fault Unit × Moment)}
    (hends : List.Forall₂ (fun part fin => part (some fin.1) fin.2) parts ends)
    (hparts : ∀ part ∈ parts, ∀ outcome m₁, part (some outcome) m₁ →
      ∃ e, T outcome m₁.context e) :
    ∃ replies', List.Forall₂ (Reply.Tied T) (ends.map fun fin => ⟨fin.2.context, fin.1⟩)
      replies' := by
  induction hends with
  | nil => exact ⟨[], .nil⟩
  | cons hpart _ ih =>
    obtain ⟨hfirst, hrest⟩ := List.forall_mem_cons.1 hparts
    obtain ⟨e, he⟩ := hfirst _ _ hpart
    obtain ⟨replies', hreplies⟩ := ih hrest
    exact ⟨⟨e, _⟩ :: replies', .cons ⟨rfl, he⟩ hreplies⟩

/-- To whatever the shadowed work comes, there is a context to which the other may come with it. -/
theorem exists_ends (h : Shadow I Q c w c' w') (hreaches : w.Reaches d m r m')
    (hm : m.context = c) : ∃ e, Ends I Q r m'.context e := by
  induction h generalizing m m' with
  | done h =>
    obtain ⟨rfl, rfl⟩ := hreaches
    exact ⟨_, hm ▸ h⟩
  | @act α _ _ change _ next _ c _ _ _ hmoves _ ih =>
    obtain rfl : (change m).context = _ := hm ▸ (hmoves m.toScene).1
    exact ih (change m).toScene hreaches rfl
  | pause hi _ ih =>
    obtain ⟨s, -, -, ⟨rfl, rfl⟩ | ⟨wake, -, hgoes⟩⟩ := hreaches
    · exact ⟨_, hm ▸ hi⟩
    · exact ih wake hgoes hm
  | within _ hj _ _ ihInner ihEnded ihDropped =>
    obtain ⟨u, m₁, hinner, -, ⟨hu, hgoes⟩ | ⟨rfl, rfl, rfl⟩ | ⟨rfl, -, hgoes⟩⟩ := hreaches
    · obtain ⟨e, he⟩ := ihInner hinner hm
      cases u with
      | none => cases hu
      | some value => exact ihEnded value _ e he hgoes rfl
    · obtain ⟨e, he⟩ := ihInner hinner hm
      exact ⟨e, hj he⟩
    · obtain ⟨e, he⟩ := ihInner hinner hm
      exact ihDropped _ e he hgoes rfl
  | @fork _ _ _ _ T _ branch _ _ _ _ _ hi _ _ _ ihBranch ihNext =>
    obtain ⟨s, -, ⟨rfl, rfl, -⟩ | ⟨ends, hends, -, hgoes⟩⟩ := hreaches
    · exact ⟨_, hm ▸ hi⟩
    · have hbranches : ∀ part ∈ List.ofFn fun i => d.Begins m fun m => (branch i).Reaches d m,
          ∀ outcome m₁, part (some outcome) m₁ → ∃ e, T outcome m₁.context e := by
        intro part hpart outcome m₁ hbegins
        obtain ⟨i, rfl⟩ := List.mem_ofFn.1 hpart
        obtain ⟨s₁, -, -, ⟨hnone, -⟩ | hbranch⟩ := hbegins
        · cases hnone
        · exact ihBranch i hbranch hm
      obtain ⟨replies', htied⟩ := exists_tied (hends.imp fun _ _ h => h.1) hbranches
      exact ihNext _ replies' htied hgoes hm

end Work.Shadow

structure Data.Keeps (keys : List String) (old new : Data) : Prop where
  ordered : new.Ordered
  same : ∀ key ∈ keys, new.get? key = old.get? key

namespace Action

variable {keys : List String} {action : Action} {site : Site} {d : Drift} {m m' : Moment}

/-- However far an action that ignores the keys has got, it has left alone what is under them. -/
theorem Ignores.keeps {r : Option (Except Fault Unit)} (h : action.Ignores keys)
    (hordered : m.data.Ordered) (hrun : (action.run site).Reaches d m r m') :
    m.data.Keeps keys m'.data := by
  have hsame : m.context.AgreeOff keys m.context := ⟨rfl, hordered, hordered, fun _ _ => rfl⟩
  obtain ⟨e, he⟩ := (h site _ _ _ _ hsame.held).exists_ends hrun rfl
  have hheld : Context.Held keys m.context m.context m'.context e := by
    cases r with
    | some outcome => exact he
    | none => exact he
  exact ⟨hheld.data.ordered, hheld.held⟩

/-- By itself an action comes to an end, and what comes of it then is as its prospects say. -/
theorem exists_execution (action : Action) (site : Site) (cancelAt : Option Nat) (m : Moment) :
    ∃ outcome m', (∃ fuel, ∀ more ≥ fuel,
        (action.run site).carryOut more cancelAt m = some (outcome, m')) ∧
      (action.run site).Reaches .free m (some outcome) m' := by
  have honly : (action.run site).Only Drift.free.Allows :=
    (action.works_run site).imp fun _ _ => Moment.Works.allows
  have hcancel : ∀ n ∈ cancelAt, ∀ m : Moment, Drift.free.Allows m m.cancel :=
    fun _ _ m => ⟨⟨Nat.le_refl _, fun _ => rfl⟩, rfl⟩
  obtain ⟨outcome, m', fuel, hends⟩ := Work.exists_carryOut honly hcancel m
  exact ⟨outcome, m', ⟨fuel, hends⟩, Work.reaches_of_carryOut honly hcancel (hends fuel le_rfl)⟩

/-- However many rounds an execution is given, it ends in one way. -/
theorem execution_unique {w : Work (Except Fault Unit)} {cancelAt : Option Nat} {fuel : Nat}
    {ended ended' : Except Fault Unit × Moment} (h : w.carryOut fuel cancelAt m = some ended)
    (hends : ∃ fuel, ∀ more ≥ fuel, w.carryOut more cancelAt m = some ended') : ended' = ended := by
  obtain ⟨enough, hends⟩ := hends
  have hmore := Work.carryOut_of_le h (Nat.le_max_left fuel enough)
  rw [hends _ (Nat.le_max_right fuel enough)] at hmore
  exact Option.some.inj hmore

end Action

end Workflow
