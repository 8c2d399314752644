import Workflow.Proofs.Action.Builtin
import Workflow.Proofs.Work.Crew

/-!
# What actions leave alone

An action of the built-in kinds changes the data of its context and nothing else of it, it loses no
key of the data, and it does not cancel the run. That holds at every point on the way: also of an
action that fails, that a cancellation cuts short, or that a time limit drops.
-/

namespace Workflow

structure Context.Extends (ctx ctx' : Context) : Prop where
  identity : ctx'.identity = ctx.identity
  currentState : ctx'.currentState = ctx.currentState
  history : ctx'.history = ctx.history
  path : ctx'.path = ctx.path
  keys (key : String) : ctx.data.has key = true → ctx'.data.has key = true

namespace Context.Extends

variable {ctx ctx₁ ctx₂ ctx₃ : Context}

theorem refl (ctx : Context) : Extends ctx ctx :=
  ⟨rfl, rfl, rfl, rfl, fun _ => id⟩

theorem trans (h : Extends ctx₁ ctx₂) (h' : Extends ctx₂ ctx₃) : Extends ctx₁ ctx₃ where
  identity := h'.identity.trans h.identity
  currentState := h'.currentState.trans h.currentState
  history := h'.history.trans h.history
  path := h'.path.trans h.path
  keys key := h'.keys key ∘ h.keys key

theorem of_data {data : Data} (hcontext : ctx₂ = { ctx₁ with data })
    (hdata : ctx₁.data.Grown data) : Extends ctx₁ ctx₂ := by
  subst hcontext
  exact ⟨rfl, rfl, rfl, rfl, hdata.keys⟩

end Context.Extends

/-- The work changes nothing of the context but the data, of which it loses no key, and it does not
cancel the run. -/
structure Work.DataOnly {α : Type} (w : Work α) : Prop where
  /-- Each change that the work makes, or one of its branches on a copy of the context. -/
  changes : w.Only fun m m' => m.context.Extends m'.context ∧ m'.cancelled = m.cancelled
  /-- Whatever comes of the work among other workers, one of whom may cancel the run. Nothing comes
  of it as long as it is under way, and if it is dropped. -/
  context {m m' : Moment} {r : Option α} (h : w.Reaches .free m r m') : m.context.Extends m'.context
  /-- Unless one of the others cancels the run, it is not cancelled. -/
  cancelled {m m' : Moment} {r : Option α} (h : w.Reaches .calm m r m') :
    m'.cancelled = m.cancelled
  /-- The work may be carried out by itself, also when the run is cancelled after some time. -/
  carriedOut {fuel : Nat} {cancelAt : Option Nat} {m m' : Moment} {value : α}
    (h : w.carryOut fuel cancelAt m = some (value, m')) :
    m.context.Extends m'.context ∧
      (m.cancelled = true ∨ cancelAt = none → m'.cancelled = m.cancelled)

namespace Moment.Tidies

variable {m m' : Moment}

theorem extends_context (h : m.Tidies m') : m.context.Extends m'.context :=
  .of_data h.works.context h.data

theorem allows_free (h : m.Tidies m') : Drift.free.Allows m m' :=
  h.works.allows

end Moment.Tidies

namespace Work

variable {α : Type} {w : Work α} {m m' : Moment} {r : Option α}

/-- Work that keeps everything tidy extends the context, whatever the others do to the scene. -/
theorem Reaches.extends_context (hw : w.Only Moment.Tidies) (h : w.Reaches .free m r m') :
    m.context.Extends m'.context :=
  Reaches.keeps (Q := fun m m' => m.context.Extends m'.context) (d := .free) (fun _ => .refl _)
    Context.Extends.trans (fun _ _ _ => .refl _)
    (hw.imp fun _ _ h => h.extends_context) h

theorem dataOnly_of_tidies (hw : w.Only Moment.Tidies) : w.DataOnly where
  changes := hw.imp fun _ _ h => ⟨h.extends_context, h.cancelled⟩
  context := Reaches.extends_context hw
  cancelled h := (h.kept hw).cancelled
  carriedOut := by
    intro fuel cancelAt m m' value h
    have hcancel : ∀ n ∈ cancelAt, ∀ m : Moment, Drift.free.Allows m m.cancel :=
      fun _ _ m => ⟨⟨Nat.le_refl _, fun _ => rfl⟩, rfl⟩
    have hfree := reaches_of_carryOut (hw.imp fun _ _ h => h.allows_free) hcancel h
    refine ⟨hfree.extends_context hw, ?_⟩
    rintro (hm | rfl)
    · have hlater := hfree.later (hw.imp fun _ _ h => h.works)
      exact (hlater.cancelled hm).trans hm.symm
    · have hcalm := reaches_of_carryOut (hw.imp fun _ _ h => h.allows) (fun _ hn => by cases hn) h
      exact (hcalm.kept hw).cancelled

end Work

/-- Actions of the built-in kinds touch nothing but the data and lose no key of them, at whatever
place, and also under a time limit that drops them midway. -/
theorem Registry.dataOnly_of_buildAction {spec : ActionSpec} {action : Action}
    (h : builtins.buildAction spec = .ok action) (site : Site) :
    (action.run site).DataOnly ∧
      ∀ limit overrun, (Work.limited limit overrun (action.run site)).DataOnly := by
  have htidy := Action.tidies_run (builtin_buildNested h) site
  exact ⟨Work.dataOnly_of_tidies htidy,
    fun _ _ => Work.dataOnly_of_tidies (Work.only_limited htidy)⟩

/-- A sequence that sets a value and then waits between two attempts is dropped there: the value
stays, and so does what was there before. -/
theorem Registry.dataOnly_of_buildAction_dropped :
    ∃ action outcome m',
      builtins.buildAction
          { kind := "sequence"
            params := [("actions", .array
              [.object [("params", .object [("key", "a"), ("value", .int 1)]), ("type", "set")],
                .object [("params", .object [("action", .object [("type", "fail")])]),
                  ("type", "retry")]])] } = .ok action ∧
      (Work.limited (.ofSeconds 2) (.deadline "late") (action.run { owner := "s" })).carryOut 9 none
          { context := { identity := { session := "s" }, data := [("b", .null)] } } =
        some (outcome, m') ∧
      outcome.toOption = none ∧ m'.now = 2000 ∧ m'.data.has "a" = true ∧
      Context.Extends { identity := { session := "s" }, data := [("b", .null)] } m'.context := by
  let spec : ActionSpec :=
    { kind := "sequence"
      params := [("actions", .array
        [.object [("params", .object [("key", "a"), ("value", .int 1)]), ("type", "set")],
          .object [("params", .object [("action", .object [("type", "fail")])]),
            ("type", "retry")]])] }
  let retrying : Action := .retry "retry" { maxAttempts := 3, backoff := .linear (.ofSeconds 1) }
    .nothing false (.leaf "fail" (.fail "action failed" false))
  let action : Action := .sequence "sequence" [.leaf "set" (.set "a" (.int 1)), retrying]
  let m : Moment := { context := { identity := { session := "s" }, data := [("b", .null)] } }
  let work := Work.limited (.ofSeconds 2) (.deadline "late") (action.run { owner := "s" })
  have hbuilt : builtins.buildAction spec = .ok action := rfl
  have hsome : ((work.carryOut 9 none m).map fun done =>
      (done.1.toOption, done.2.now, done.2.data.has "a")) = some (none, 2000, true) := by
    decide +kernel
  obtain ⟨⟨outcome, m'⟩, hrun, hends⟩ := Option.map_eq_some_iff.1 hsome
  obtain ⟨houtcome, hnow, hkey⟩ : outcome.toOption = none ∧ m'.now = 2000 ∧
      m'.data.has "a" = true := by
    simpa only [Prod.mk.injEq] using hends
  exact ⟨action, outcome, m', hbuilt, hrun, houtcome, hnow, hkey,
    (((dataOnly_of_buildAction hbuilt { owner := "s" }).2 _ _).carriedOut hrun).1⟩

end Workflow
