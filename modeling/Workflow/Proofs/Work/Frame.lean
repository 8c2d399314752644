import Workflow.Proofs.Work.Rules

/-!
# Work that changes only some things

`Work.Only` says of a piece of work that each of its changes is of some kind. The combinators keep
to it, and if changes of that kind can be put together, then all that comes of the work is a change
of that kind.
-/

namespace Workflow.Work

variable {α β ε ε' : Type} {d : Drift} {R R' Q : Moment → Moment → Prop} {w : Work α}

theorem Only.imp (hw : w.Only R) (h : ∀ m m', R m m' → R' m m') : w.Only R' := by
  induction w with
  | done value => trivial
  | act change next ih => exact fun m => ⟨h _ _ (hw m).1, ih _ (hw m).2⟩
  | pause span interrupts next ih => exact fun wake => ih wake (hw wake)
  | within limit inner next ihInner ihNext =>
    exact ⟨ihInner hw.1, fun u => ihNext u (hw.2 u)⟩
  | fork count branch next ihBranch ihNext =>
    exact ⟨fun i => ihBranch i (hw.1 i), fun replies => ihNext replies (hw.2 replies)⟩

/-- What comes of work is a change of the kind of its changes, if waiting is one as well. -/
theorem Reaches.keeps (hrefl : ∀ m, Q m m) (htrans : ∀ {m₁ m₂ m₃}, Q m₁ m₂ → Q m₂ m₃ → Q m₁ m₃)
    (hwait : ∀ m s, d.may m.toScene s → Q m (m.within s)) {m m' : Moment} {r : Option α}
    (hw : w.Only Q) (h : w.Reaches d m r m') : Q m m' := by
  let rules : Rules := { rests := fun _ => True, forks := True, acts := Q }
  have hchain : rules.Chain d := ⟨hrefl, htrans, hwait⟩
  have habides : w.Abides rules m := hw.abides (pauses_of_forall (fun _ => trivial) w) trivial m
  exact habides.acts hchain h

theorem only_change {f : Moment → Moment} (h : ∀ m, R m (f m)) :
    (change f : Work (Except ε Unit)).Only R :=
  fun m => ⟨h m, trivial⟩

theorem only_after {f : Moment → Moment} (h : ∀ m, R m (f m)) (hw : w.Only R) :
    (after f w).Only R :=
  fun m => ⟨h m, hw⟩

theorem only_look {next : Moment → Work α} (h : ∀ m, R m m) (hw : ∀ m, (next m).Only R) :
    (look next).Only R :=
  fun m => ⟨h m, hw m⟩

theorem only_andThen {w : Work (Except ε α)} {next : α → Work (Except ε β)} (hw : w.Only R)
    (hn : ∀ value, (next value).Only R) : (w.andThen next).Only R :=
  only_bind hw fun outcome => by
    cases outcome with
    | error fault => trivial
    | ok value => exact hn value

theorem only_wait (span : Span) (interrupts : Interrupts) : (wait span interrupts).Only R :=
  fun _ => trivial

theorem only_limited {limit : Span} {overrun : ε} {w : Work (Except ε α)} (hw : w.Only R) :
    (limited limit overrun w).Only R :=
  ⟨hw, fun _ => trivial⟩

theorem only_together {branches : List (Work (Except Fault Unit))}
    (h : ∀ branch ∈ branches, branch.Only R) : (together branches).Only R :=
  ⟨fun i => h _ (List.getElem_mem i.isLt), fun _ => trivial⟩

/-- The combinators keep to changes of a kind. -/
theorem closed_only (h : ∀ m, R m m) :
    Closed (fun f => ∀ m, R m (f m)) (fun _ => True) (Only R) where
  done _ := trivial
  bind := only_bind
  after := only_after
  look _ := only_look h
  wait span interrupts _ := only_wait span interrupts
  limited _ _ := only_limited
  together := only_together

end Work

namespace Retrier

variable {α : Type} {R : Moment → Moment → Prop} (r : Retrier) {op : Nat → Work (Except Fault α)}
  {onRetry : List RetryEvent → Moment → Moment}

/-- A retry loop changes nothing by itself but for its reports. -/
theorem only_loop (hrefl : ∀ m, R m m) (hop : ∀ n, (op n).Only R)
    (hstop : ∀ n fault reason m, R m (r.reportStop n fault reason m))
    (hretry : ∀ events n fault delay m, R m (onRetry events (r.reportRetry n fault delay m)))
    (left n : Nat) (attempts : List (Nat × Nat)) (events : List RetryEvent) :
    (r.loop op onRetry left n attempts events).Only R :=
  closed_loop (Work.closed_only hrefl) r hop trivial hstop hretry left n attempts events

end Workflow.Retrier
