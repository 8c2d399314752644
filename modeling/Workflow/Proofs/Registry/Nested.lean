import Mathlib.Logic.Relation
import Workflow.Proofs.Registry.Retimed

/-!
# Nested specifications

An action holds further specifications in its slots, and all of them are built along with it. Most
of them show: one who walks through the parameters and does not know the slots takes them for
specifications. Others are hidden: those that are written by position, and those within a table
that has a `type` of its own and so passes for a specification itself.

Building fails for want of a kind only if an action of that kind is nested somewhere in the
specification and the kind is not a built-in one.
-/

namespace Workflow

namespace Slot

inductive Shows : Slot → Json → ActionSpec → Prop
  | alone {fields : Table Json} {part : ActionSpec}
      (hpart : ActionSpec.ofJson? false (.object fields) = some part) :
      Shows .action (.object fields) part
  | listed {items : List Json} {fields : Table Json} {part : ActionSpec}
      (hitem : .object fields ∈ items)
      (hpart : ActionSpec.ofJson? false (.object fields) = some part) :
      Shows .actions (.array items) part
  | step {items : List Json} {table fields : Table Json} {part : ActionSpec}
      (hstep : .object table ∈ items) (htype : ∀ text, table.get? "type" ≠ some (.string text))
      (hfield : table.get? "action" = some (.object fields))
      (hpart : ActionSpec.ofJson? false (.object fields) = some part) :
      Shows .parts (.array items) part

/-- The value of the slot holds the specification as an array, or in a table that has a `type` of
its own. -/
inductive Hides : Slot → Json → ActionSpec → Prop
  | positional {items values : List Json} {part : ActionSpec}
      (hitem : .array values ∈ items)
      (hpart : ActionSpec.ofJson? false (.array values) = some part) :
      Hides .actions (.array items) part
  | typed {items : List Json} {table fields : Table Json} {text : String} {part : ActionSpec}
      (hstep : .object table ∈ items) (htype : table.get? "type" = some (.string text))
      (hfield : table.get? "action" = some (.object fields))
      (hpart : ActionSpec.ofJson? false (.object fields) = some part) :
      Hides .parts (.array items) part

variable {slot : Slot} {value : Json} {part : ActionSpec}

theorem depth_le_of_listed {items : List Json} {item : Json} (hitem : item ∈ items)
    (hpart : ActionSpec.ofJson? false item = some part) :
    part.depth ≤ (Json.array items).depth :=
  (ActionSpec.depth_le_of_ofJson? hpart).trans
    ((Json.depth_le_of_mem hitem).trans (Nat.le_succ _))

theorem depth_le_of_step {items : List Json} {table fields : Table Json}
    (hstep : .object table ∈ items) (hfield : table.get? "action" = some (.object fields))
    (hpart : ActionSpec.ofJson? false (.object fields) = some part) :
    part.depth ≤ (Json.array items).depth :=
  calc part.depth
    _ ≤ (Json.object fields).depth := ActionSpec.depth_le_of_ofJson? hpart
    _ ≤ Json.fieldsDepth table := Json.depth_le_of_get? hfield
    _ ≤ (Json.object table).depth := Nat.le_succ _
    _ ≤ Json.itemsDepth items := Json.depth_le_of_mem hstep
    _ ≤ (Json.array items).depth := Nat.le_succ _

theorem Shows.depth_le (h : slot.Shows value part) : part.depth ≤ value.depth := by
  cases h with
  | alone hpart => exact ActionSpec.depth_le_of_ofJson? hpart
  | listed hitem hpart => exact depth_le_of_listed hitem hpart
  | step hstep _ hfield hpart => exact depth_le_of_step hstep hfield hpart

theorem Hides.depth_le (h : slot.Hides value part) : part.depth ≤ value.depth := by
  cases h with
  | positional hitem hpart => exact depth_le_of_listed hitem hpart
  | typed hstep _ hfield hpart => exact depth_le_of_step hstep hfield hpart

theorem Shows.finite (h : slot.Shows value part) : part.Finite := by
  cases h with
  | alone hpart | listed _ hpart | step _ _ _ hpart => exact ActionSpec.finite_of_ofJson? hpart

theorem shows_or_hides_of_listed {items : List Json} {item : Json} (hitem : item ∈ items)
    (hpart : ActionSpec.ofJson? false item = some part) :
    actions.Shows (.array items) part ∨ actions.Hides (.array items) part := by
  cases item with
  | object fields => exact .inl (.listed hitem hpart)
  | array values => exact .inr (.positional hitem hpart)
  | null | bool | int | float | string => cases hpart

theorem shows_or_hides_of_step {items : List Json} {table fields : Table Json}
    (hstep : .object table ∈ items) (hfield : table.get? "action" = some (.object fields))
    (hpart : ActionSpec.ofJson? false (.object fields) = some part) :
    parts.Shows (.array items) part ∨ parts.Hides (.array items) part := by
  by_cases htype : ∃ text, table.get? "type" = some (.string text)
  · obtain ⟨text, htype⟩ := htype
    exact .inr (.typed hstep htype hfield hpart)
  · exact .inl (.step hstep (not_exists.1 htype) hfield hpart)

end Slot

namespace ActionSpec

variable (spec part : ActionSpec)

def Shows : Prop :=
  ∃ key value, spec.params.get? key = some value ∧ (spec.slot key).Shows value part

def Hides : Prop :=
  ∃ key value, spec.params.get? key = some value ∧ (spec.slot key).Hides value part

def Holds : Prop :=
  spec.Shows part ∨ spec.Hides part

def Nests : Prop :=
  Relation.ReflTransGen Holds spec part

/-- On the way from the action to the nested specification there is a hidden one. -/
def Conceals : Prop :=
  ∃ host first, Relation.ReflTransGen Shows spec host ∧ host.Hides first ∧ first.Nests part

variable {spec part}

theorem Holds.depth_lt (h : spec.Holds part) : part.depth < spec.depth := by
  rcases h with ⟨key, value, hvalue, h⟩ | ⟨key, value, hvalue, h⟩
  · exact Nat.lt_succ_of_le (h.depth_le.trans (Json.depth_le_of_get? hvalue))
  · exact Nat.lt_succ_of_le (h.depth_le.trans (Json.depth_le_of_get? hvalue))

/-- What is nested and not concealed is come to by what shows alone. -/
theorem Nests.shown_or_conceals (h : spec.Nests part) :
    Relation.ReflTransGen Shows spec part ∨ spec.Conceals part := by
  induction h with
  | refl => exact .inl .refl
  | tail _ hlast ih =>
    rcases ih with hshown | ⟨host, first, hhost, hhides, hnests⟩
    · rcases hlast with hshows | hhides
      · exact .inl (hshown.tail hshows)
      · exact .inr ⟨_, _, hshown, hhides, .refl⟩
    · exact .inr ⟨host, first, hhost, hhides, hnests.tail hlast⟩

end ActionSpec

section Wants

variable {α β : Type} {Q : String → String → Prop} {x : Except Fault α} {fault : Fault}

/-- If the computation fails because a kind is unknown, then `Q` holds of that kind and its
category. -/
def Wants (Q : String → String → Prop) (x : Except Fault α) : Prop :=
  ∀ category kind, x = .error (.unknownType category kind) → Q category kind

theorem wants_ok (a : α) : Wants Q (.ok a : Except Fault α) :=
  nofun

theorem wants_error (h : ∀ category kind, fault = .unknownType category kind → Q category kind) :
    Wants Q (.error fault : Except Fault α) := by
  rintro category kind ⟨⟩
  exact h category kind rfl

theorem Wants.imp {Q' : String → String → Prop} (h : Wants Q x)
    (himp : ∀ category kind, Q category kind → Q' category kind) : Wants Q' x :=
  fun category kind heq => himp category kind (h category kind heq)

theorem Wants.bind {f : α → Except Fault β} (h : Wants Q x) (hf : ∀ a, x = .ok a → Wants Q (f a)) :
    Wants Q (x >>= f) := by
  cases x with
  | error fault =>
    rintro category kind ⟨⟩
    exact h category kind rfl
  | ok a => exact hf a rfl

theorem wants_mapM {f : α → Except Fault β} {as : List α} (h : ∀ a ∈ as, Wants Q (f a)) :
    Wants Q (as.mapM f) := by
  induction as with
  | nil => exact wants_ok []
  | cons a as ih =>
    rw [List.forall_mem_cons] at h
    rw [List.mapM_cons]
    exact h.1.bind fun _ _ => (ih h.2).bind fun _ _ => wants_ok _

theorem wants_foldlM {f : β → α → Except Fault β} {as : List α}
    (h : ∀ a ∈ as, ∀ b, Wants Q (f b a)) (b : β) : Wants Q (as.foldlM f b) := by
  induction as generalizing b with
  | nil => exact wants_ok b
  | cons a as ih =>
    rw [List.forall_mem_cons] at h
    rw [List.foldlM_cons]
    exact (h.1 b).bind fun b' _ => ih h.2 b'

theorem wants_parse (text : String) : Wants Q (Condition.parse text) := by
  unfold Condition.parse
  dsimp only
  -- either the text states a condition, or it is reported as no expression
  repeat' split
  all_goals first
    | exact wants_ok _
    | exact wants_error nofun

end Wants

namespace Params

variable {α : Type} {Q : String → String → Prop} {p : Params} {slots : String → Slot}
  {key expected : String} {read? : Json → Option α} {spec : ActionSpec}

theorem wants_optional : Wants Q (p.optional key expected read?) := by
  unfold optional
  split
  · exact wants_ok _
  · split
    · exact wants_ok _
    · exact wants_error nofun

theorem wants_require {read : Except Fault (Option α)} (h : Wants Q read) :
    Wants Q (p.require key read) := by
  rcases read with fault | _ | result
  · exact wants_error fun category kind heq => h category kind (congrArg _ heq)
  · exact wants_error nofun
  · exact wants_ok result

theorem wants_count? : Wants Q (p.count? key) := by
  have hint : Wants Q (p.int? key) := wants_optional
  unfold count?
  split
  · exact wants_ok _
  · split
    · exact wants_ok _
    · exact wants_error nofun
  next heq =>
    rw [heq] at hint
    exact wants_error fun category kind hfault => hint category kind (congrArg _ hfault)

theorem wants_action? : Wants Q (p.action? key) := by
  unfold action?
  split
  · exact wants_ok none
  · exact wants_optional

theorem wants_condition : Wants Q (p.condition key) :=
  (wants_require wants_optional).bind fun _ _ => (wants_parse _).bind fun _ _ => wants_ok _

theorem wants_condition? : Wants Q (p.condition? key) := by
  refine Wants.bind wants_optional fun text _ => ?_
  cases text with
  | none => exact wants_ok none
  | some text => exact (wants_parse text).bind fun _ _ => wants_ok _

def Holds (p : Params) (slots : String → Slot) (spec : ActionSpec) : Prop :=
  ∃ key value, p.value? key = some value ∧
    ((slots key).Shows value spec ∨ (slots key).Hides value spec)

theorem holds_of_action? (hslot : slots key = .action) (h : p.action? key = .ok (some spec)) :
    p.Holds slots spec := by
  obtain ⟨fields, hvalue, hspec⟩ := heldAction?_eq_some (action?_eq_ok.1 h)
  refine ⟨key, _, hvalue, .inl ?_⟩
  rw [hslot]
  exact .alone hspec

theorem holds_of_mem_actions {specs : List ActionSpec} (hslot : slots key = .actions)
    (h : p.actions key = .ok specs) (hmem : spec ∈ specs) : p.Holds slots spec := by
  obtain ⟨value, hvalue, hspecs⟩ := Option.bind_eq_some_iff.1 (require_optional_eq_ok.1 h)
  obtain ⟨items, rfl, hitems⟩ := Json.exists_of_items? hspecs
  obtain ⟨item, hitem, hspec⟩ := hitems spec hmem
  refine ⟨key, _, hvalue, ?_⟩
  rw [hslot]
  exact Slot.shows_or_hides_of_listed hitem hspec

theorem holds_of_mem_tables {tables : List Data} {table : Data} {i : Nat}
    (hslot : slots key = .parts) (h : p.tables key = .ok tables) (hmem : table ∈ tables)
    (haction : (p.part key i table).action "action" = .ok spec) : p.Holds slots spec := by
  obtain ⟨value, hvalue, htables⟩ := Option.bind_eq_some_iff.1 (require_optional_eq_ok.1 h)
  obtain ⟨items, rfl, hitems⟩ := Json.exists_of_items? htables
  obtain ⟨item, hitem, htable⟩ := hitems table hmem
  obtain ⟨fields, hfield, hspec⟩ :=
    heldAction?_eq_some (action?_eq_ok.1 (require_eq_ok.1 haction))
  refine ⟨key, _, hvalue, ?_⟩
  rw [hslot]
  cases item with
  | object other =>
    cases htable
    exact Slot.shows_or_hides_of_step hitem hfield hspec
  | null | bool | int | float | string | array => cases htable

end Params

namespace ActionKind

open Params

variable {Q : String → String → Prop} {nested : Builder} {slots : String → Slot} {p : Params}
  {name key : String}

theorem wants_buildRequired (hnested : ∀ part, p.action key = .ok part → Wants Q (nested part)) :
    Wants Q (buildRequired nested p key) :=
  (wants_require wants_action?).bind hnested

def WantsParts (Q : String → String → Prop) (nested : Builder) (slots : String → Slot)
    (p : Params) : Prop :=
  ∀ part, p.Holds slots part → Wants Q (nested part)

namespace WantsParts

theorem required (h : WantsParts Q nested slots p) (hslot : slots key = .action) :
    Wants Q (buildRequired nested p key) :=
  wants_buildRequired fun part hpart => h part (holds_of_action? hslot (require_eq_ok.1 hpart))

theorem optional (h : WantsParts Q nested slots p) (hslot : slots key = .action) :
    Wants Q (buildOptional nested p key) := by
  refine Wants.bind wants_action? fun part hpart => ?_
  cases part with
  | none => exact wants_ok none
  | some part => exact (h part (holds_of_action? hslot hpart)).bind fun _ _ => wants_ok _

theorem listed (h : WantsParts Q nested slots p) (hslot : slots key = .actions)
    {specs : List ActionSpec} (hspecs : p.actions key = .ok specs) :
    Wants Q (specs.mapM nested) :=
  wants_mapM fun part hpart => h part (holds_of_mem_actions hslot hspecs hpart)

theorem parts {α : Type} {read : Params → Except Fault α} (h : WantsParts Q nested slots p)
    (hslot : slots key = .parts)
    (hread : ∀ part : Params, Wants Q (buildRequired nested part "action") → Wants Q (read part)) :
    Wants Q (p.parts key read) := by
  refine (wants_require wants_optional).bind fun tables htables => wants_mapM ?_
  rintro ⟨table, i⟩ hmem
  refine hread _ (wants_buildRequired fun part hpart => h part ?_)
  exact holds_of_mem_tables hslot htables (List.fst_mem_of_mem_zipIdx hmem) hpart

theorem sequence (h : WantsParts Q nested (slot .sequence) p) :
    Wants Q (buildSequence nested name p) :=
  (wants_require wants_optional).bind fun _ hspecs =>
    (h.listed rfl hspecs).bind fun _ _ => wants_ok _

theorem conditional (h : WantsParts Q nested (slot .conditional) p) :
    Wants Q (buildConditional nested name p) :=
  wants_condition.bind fun _ _ => (h.optional rfl).bind fun _ _ =>
    (h.optional rfl).bind fun _ _ => wants_ok _

theorem choice (h : WantsParts Q nested (slot .choice) p) :
    Wants Q (buildChoice nested name p) := by
  refine (h.parts rfl fun part hpart => ?_).bind fun _ _ =>
    (h.optional rfl).bind fun _ _ => wants_ok _
  exact wants_condition.bind fun _ _ => hpart.bind fun _ _ => wants_ok _

theorem retry (h : WantsParts Q nested (slot .retry) p) : Wants Q (buildRetry nested name p) :=
  (h.required rfl).bind fun _ _ => wants_count?.bind fun _ _ =>
    wants_optional.bind fun _ _ => wants_ok _

theorem retryWithBackoff (h : WantsParts Q nested (slot .retryWithBackoff) p) :
    Wants Q (buildRetryWithBackoff nested name p) := by
  have hpolicy : Wants Q (backoffPolicy p) :=
    Wants.bind wants_optional fun _ _ => Wants.bind wants_optional fun _ _ =>
      Wants.bind wants_optional fun _ _ => wants_count?.bind fun _ _ =>
        Wants.bind wants_optional fun _ _ => Wants.bind wants_optional fun _ _ => wants_ok _
  exact hpolicy.bind fun _ _ => (h.required rfl).bind fun _ _ =>
    Wants.bind wants_optional fun _ _ => wants_ok _

theorem fallback (h : WantsParts Q nested (slot .fallback) p) :
    Wants Q (buildFallback nested name p) :=
  (h.required rfl).bind fun _ _ => (h.required rfl).bind fun _ _ => wants_ok _

theorem validated (h : WantsParts Q nested (slot .validated) p) :
    Wants Q (buildValidated nested name p) := by
  refine (h.parts rfl fun part hpart => ?_).bind fun _ _ =>
    Wants.bind wants_optional fun _ _ => wants_ok _
  exact hpart.bind fun _ _ => wants_condition?.bind fun _ _ => wants_ok _

theorem parallel (h : WantsParts Q nested (slot .parallel) p) :
    Wants Q (buildParallel nested name p) := by
  have hstrategy : Wants Q (mergeStrategy p) := by
    refine Wants.bind wants_optional fun text _ => ?_
    split
    · exact wants_ok _
    · split
      · exact wants_ok _
      · exact wants_error nofun
  exact hstrategy.bind fun _ _ => (wants_require wants_optional).bind fun _ hspecs =>
    (h.listed rfl hspecs).bind fun _ _ => Wants.bind wants_optional fun _ _ => wants_ok _

theorem progressive (h : WantsParts Q nested (slot .progressive) p) :
    Wants Q (buildProgressive nested name p) := by
  refine (h.parts rfl fun part hpart => ?_).bind fun _ _ => wants_ok _
  exact hpart.bind fun _ _ => wants_condition?.bind fun _ _ =>
    Wants.bind wants_optional fun _ _ => wants_ok _

end WantsParts

/-- What an action of a built-in kind wants, the parts in its slots want. -/
theorem wants_build {kind : ActionKind} {spec : ActionSpec} (hkind : kind.Builtin)
    (h : WantsParts Q nested (slot kind) spec.parameters) : Wants Q (kind.build nested spec) := by
  unfold build
  cases kind with
  | noop => exact wants_ok _
  | set =>
    exact (wants_require wants_optional).bind fun _ _ =>
      (wants_require (wants_ok _)).bind fun _ _ => wants_ok _
  | copy =>
    exact (wants_require wants_optional).bind fun _ _ =>
      (wants_require wants_optional).bind fun _ _ => wants_ok _
  | fail =>
    exact Wants.bind wants_optional fun _ _ => Wants.bind wants_optional fun _ _ => wants_ok _
  | delay => exact Wants.bind wants_optional fun _ _ => wants_ok _
  | log => exact (wants_require wants_optional).bind fun _ _ => wants_ok _
  | sequence => exact h.sequence
  | conditional => exact h.conditional
  | choice => exact h.choice
  | retry => exact h.retry
  | retryWithBackoff => exact h.retryWithBackoff
  | fallback => exact h.fallback
  | validated => exact h.validated
  | parallel => exact h.parallel
  | progressive => exact h.progressive
  | named | flaky | mark | cancel | raise | failPermanently | testedConditional | testedChoice
  | testedValidated | testedProgressive | retryWithPolicy =>
    exact absurd hkind (by simp [Builtin, Registry.builtinActions])

end ActionKind

namespace ActionSpec

def Lacks (spec : ActionSpec) (category kind : String) : Prop :=
  category = "action" ∧ Registry.builtins.hasAction kind = false ∧
    ∃ part, spec.Nests part ∧ part.kind = kind

theorem Lacks.of_holds {spec part : ActionSpec} {category kind : String} (hpart : spec.Holds part)
    (h : part.Lacks category kind) : spec.Lacks category kind := by
  obtain ⟨hcategory, hkind, culprit, hnests, rfl⟩ := h
  exact ⟨hcategory, hkind, culprit, .head hpart hnests, rfl⟩

end ActionSpec

namespace Registry

/-- The fuel is never what is wanting, as a specification is nested less deep than the one that
holds it. -/
theorem wants_buildNested {fuel : Nat} {spec : ActionSpec} (hfuel : spec.depth ≤ fuel) :
    Wants spec.Lacks (builtins.buildNested fuel spec) := by
  induction fuel generalizing spec with
  | zero => exact absurd hfuel (Nat.not_succ_le_zero _)
  | succ fuel ih =>
    rw [buildNested]
    split
    next meaning hmeaning =>
      refine ActionKind.wants_build (builtin_of_get? hmeaning) ?_
      rintro part ⟨key, value, hvalue, hpart⟩
      have hslot : meaning.slot key = spec.slot key := by rw [ActionSpec.slot, hmeaning]
      rw [hslot] at hpart
      have hholds : spec.Holds part :=
        hpart.imp (fun h => ⟨key, value, hvalue, h⟩) fun h => ⟨key, value, hvalue, h⟩
      have hdepth : part.depth ≤ fuel :=
        Nat.le_of_lt_succ (Nat.lt_of_lt_of_le hholds.depth_lt hfuel)
      exact fun category kind h => (ih hdepth category kind h).of_holds hholds
    next hmeaning =>
      refine wants_error ?_
      rintro _ _ ⟨⟩
      exact ⟨rfl, by rw [hasAction, Table.has, hmeaning]; rfl, spec, .refl, rfl⟩

/-- An action cannot be built for want of a kind only if an action of that kind is nested in its
specification. -/
theorem wants_buildAction (spec : ActionSpec) : Wants spec.Lacks (builtins.buildAction spec) :=
  wants_buildNested (Nat.le_refl _)

end Registry

end Workflow
