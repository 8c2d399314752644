import Workflow.Proofs.Action.Agree
import Workflow.Proofs.Registry.Mirrors
import Workflow.Proofs.Spec.Finite

/-!
# Specifications that differ in times

Two specifications of an action are retimed if they differ in nothing but how long delays are and
how long fixed retries wait, at whatever depth. If an action can be built from the one, then an
action can be built from the other, and the two actions differ in their times only.

What a kind of action reads under a name is a slot. Slots for times may be filled differently, and
slots for actions with actions that are retimed.
-/

namespace Workflow

inductive Slot where
  | plain
  /-- How long the action waits. -/
  | span
  | action
  | actions
  /-- A list of parts, each of which holds an action. -/
  | parts
  deriving DecidableEq

def ActionKind.slot : ActionKind → String → Slot
  | .delay, "duration" | .retry, "backoff" => .span
  | .conditional, "then" | .conditional, "else" | .choice, "default" | .retry, "action"
  | .retryWithBackoff, "action" | .fallback, "primary" | .fallback, "fallback" => .action
  | .sequence, "actions" | .parallel, "actions" => .actions
  | .choice, "branches" | .validated, "steps" | .progressive, "steps" => .parts
  | _, _ => .plain

def Slot.ofPart : String → Slot
  | "action" => .action
  | _ => .plain

namespace Slot

variable (R : ActionSpec → ActionSpec → Prop)

def PartAlike (part part' : Data) : Prop :=
  Option.Rel (Option.Rel R) (Params.heldAction? (part.get? "action"))
      (Params.heldAction? (part'.get? "action")) ∧
    ∀ key, key ≠ "action" → part'.get? key = part.get? key

/-- The slot is filled alike: with the same value, with any two times, or with actions that are
related. -/
def Alike (value value' : Option Json) : Slot → Prop
  | plain => value' = value
  | span =>
    (Params.held? Params.spanOf? value').isSome = (Params.held? Params.spanOf? value).isSome
  | action => Option.Rel (Option.Rel R) (Params.heldAction? value) (Params.heldAction? value')
  | actions =>
    Option.Rel (List.Forall₂ R) (value.bind Params.actionsOf?) (value'.bind Params.actionsOf?)
  | parts =>
    Option.Rel (List.Forall₂ (PartAlike R)) (value.bind Params.tablesOf?)
      (value'.bind Params.tablesOf?)

end Slot

namespace ActionSpec

def slot (spec : ActionSpec) (key : String) : Slot :=
  match Registry.builtins.actions.get? spec.kind with
  | some kind => kind.slot key
  | none => .plain

def RetimedTo : (depth : Nat) → ActionSpec → ActionSpec → Prop
  | 0, spec, spec' => spec' = spec
  | depth + 1, spec, spec' =>
    spec'.kind = spec.kind ∧ spec'.label = spec.label ∧
      ∀ key, (spec.slot key).Alike (RetimedTo depth) (spec.params.get? key) (spec'.params.get? key)

/-- The specifications differ in nothing but the durations of delays and the backoffs of fixed
retries, at whatever depth. -/
def Retimed (spec spec' : ActionSpec) : Prop :=
  ∃ depth, RetimedTo depth spec spec'

end ActionSpec

namespace Json

theorem depth_le_of_mem {item : Json} {items : List Json} (h : item ∈ items) :
    item.depth ≤ itemsDepth items := by
  induction items with
  | nil => cases h
  | cons first items ih =>
    rw [itemsDepth]
    rcases List.mem_cons.1 h with rfl | h
    · exact Nat.le_max_left _ _
    · exact (ih h).trans (Nat.le_max_right _ _)

theorem depth_le_of_get? {key : String} {value : Json} {fields : Table Json}
    (h : fields.get? key = some value) : value.depth ≤ fieldsDepth fields := by
  induction fields with
  | nil => cases h
  | cons field fields ih =>
    rw [Table.get?_cons] at h
    rw [fieldsDepth]
    split at h
    · cases h
      exact Nat.le_max_left _ _
    · exact (ih h).trans (Nat.le_max_right _ _)

mutual

theorem depth_finite : (value : Json) → value.finite.depth = value.depth
  | null | bool _ | int _ | string _ => rfl
  | float x => by
    rw [finite]
    split <;> rfl
  | array items => congrArg (· + 1) (itemsDepth_finiteItems items)
  | object fields => congrArg (· + 1) (fieldsDepth_finiteFields fields)

theorem itemsDepth_finiteItems : (items : List Json) →
    itemsDepth (finiteItems items) = itemsDepth items
  | [] => rfl
  | item :: items => by
    rw [finiteItems, itemsDepth, itemsDepth, depth_finite item, itemsDepth_finiteItems items]

theorem fieldsDepth_finiteFields : (fields : List (String × Json)) →
    fieldsDepth (finiteFields fields) = fieldsDepth fields
  | [] => rfl
  | (_, value) :: fields => by
    rw [finiteFields, fieldsDepth, fieldsDepth, depth_finite value, fieldsDepth_finiteFields fields]

end

theorem mem_of_items? {α : Type} {decode? : Json → Option α} {value : Json} {results : List α}
    (h : items? decode? value = some results) :
    ∀ result ∈ results, ∃ item, item.depth < value.depth ∧ decode? item = some result := by
  obtain ⟨items, rfl, hitems⟩ := exists_of_items? h
  intro result hresult
  obtain ⟨item, hitem, hdecode⟩ := hitems result hresult
  exact ⟨item, Nat.lt_succ_of_le (depth_le_of_mem hitem), hdecode⟩

end Json

namespace ActionSpec

/-- A specification is nested less deep than the value that it is read from. -/
theorem depth_le_of_ofJson? {surplus : Bool} {value : Json} {spec : ActionSpec}
    (h : ofJson? surplus value = some spec) : spec.depth ≤ value.depth := by
  obtain ⟨record, hrecord, h⟩ := Option.bind_eq_some_iff.1 h
  obtain ⟨kind, -, h⟩ := Option.bind_eq_some_iff.1 h
  obtain ⟨label, -, h⟩ := Option.bind_eq_some_iff.1 h
  obtain ⟨params, hparams, h⟩ := Option.bind_eq_some_iff.1 h
  cases h
  have hfield : ∀ field, record.field? 2 "params" = some field → field.depth < value.depth := by
    intro field hfield
    cases value with
    | object fields =>
      cases hrecord
      exact Nat.lt_succ_of_le (Json.depth_le_of_get? hfield)
    | array items =>
      rw [Json.Record.ofJson?] at hrecord
      split at hrecord
      · cases hrecord
        exact Nat.lt_succ_of_le (Json.depth_le_of_mem (List.mem_of_getElem? hfield))
      · cases hrecord
    | null | bool | int | float | string => cases hrecord
  have hvalue : 0 < value.depth := by
    cases value with
    | object fields | array items => exact Nat.succ_pos _
    | null | bool | int | float | string => cases hrecord
  rcases Json.Record.withDefault?_eq_some hparams with ⟨-, rfl⟩ | ⟨field, hrecord, hparams⟩
  · exact hvalue
  · have hless := hfield field hrecord
    cases field with
    | object fields =>
      cases hparams
      rw [depth, Json.fieldsDepth_finiteFields]
      exact hless.le
    | null | bool | int | float | string | array => cases hparams

theorem depth_le_of_heldAction? {value : Json} {spec : ActionSpec}
    (h : Params.heldAction? (some value) = some (some spec)) : spec.depth ≤ value.depth := by
  obtain ⟨fields, heq, hspec⟩ := Params.heldAction?_eq_some h
  cases heq
  exact depth_le_of_ofJson? hspec

end ActionSpec

namespace Slot

variable {R R' : ActionSpec → ActionSpec → Prop} {value value' : Option Json}

theorem rel_heldAction? {bound : Nat}
    (h : Option.Rel (Option.Rel R) (Params.heldAction? value) (Params.heldAction? value'))
    (hdepth : ∀ json ∈ value', json.depth ≤ bound) :
    Option.Rel (Option.Rel fun spec spec' => R spec spec' ∧ spec'.depth ≤ bound)
      (Params.heldAction? value) (Params.heldAction? value') := by
  refine rel_imp_of_mem h fun _ held' hheld' hrel =>
    rel_imp_of_mem hrel fun _ spec' hspec' hrel => ⟨hrel, ?_⟩
  rw [Option.mem_def] at hheld' hspec'
  subst hspec'
  cases value' with
  | none => cases hheld'
  | some json => exact (ActionSpec.depth_le_of_heldAction? hheld').trans (hdepth json rfl)

/-- The actions in a slot are nested less deep than what they are read from. -/
theorem Alike.bounded {slot : Slot} {bound : Nat} (h : slot.Alike R value value')
    (hdepth : ∀ json ∈ value', json.depth ≤ bound) :
    slot.Alike (fun spec spec' => R spec spec' ∧ spec'.depth ≤ bound) value value' := by
  cases slot with
  | plain | span => exact h
  | action => exact rel_heldAction? h hdepth
  | actions =>
    refine rel_imp_of_mem h fun specs specs' hspecs' h => forall₂_and_right h fun spec' hspec' => ?_
    obtain ⟨json, hjson, hread⟩ := Option.bind_eq_some_iff.1 hspecs'
    obtain ⟨item, hitem, hread⟩ := Json.mem_of_items? hread spec' hspec'
    exact (ActionSpec.depth_le_of_ofJson? hread).trans (hitem.le.trans (hdepth json hjson))
  | parts =>
    refine rel_imp_of_mem h fun parts parts' hparts' h => ?_
    obtain ⟨json, hjson, hread⟩ := Option.bind_eq_some_iff.1 hparts'
    have hbounds : ∀ part' ∈ parts', Json.fieldsDepth part' ≤ bound := by
      intro part' hpart'
      obtain ⟨item, hitem, hfields⟩ := Json.mem_of_items? hread part' hpart'
      cases item with
      | object fields =>
        cases hfields
        exact (Nat.le_succ _).trans (hitem.le.trans (hdepth json hjson))
      | null | bool | int | float | string | array => cases hfields
    refine (forall₂_and_right h hbounds).imp ?_
    rintro part part' ⟨⟨haction, hrest⟩, hbound⟩
    refine ⟨rel_heldAction? haction fun json hjson => ?_, hrest⟩
    exact (Json.depth_le_of_get? hjson).trans hbound

end Slot

structure Params.Alike (R : ActionSpec → ActionSpec → Prop) (slot : String → Slot)
    (p p' : Params) : Prop where
  owner : p'.owner = p.owner
  value (key : String) : (slot key).Alike R (p.value? key) (p'.value? key)

namespace Params.Alike

variable {R : ActionSpec → ActionSpec → Prop} {slot : String → Slot} {p p' : Params} {key : String}

theorem same (h : Alike R slot p p') (hslot : slot key = .plain) : p.Same p' key := by
  have hvalue := h.value key
  rw [hslot] at hvalue
  exact ⟨h.owner, hvalue⟩

theorem part {part part' : Data} (h : Alike R slot p p') (i : Nat)
    (hpart : Slot.PartAlike R part part') :
    Alike R Slot.ofPart (p.part key i part) (p'.part key i part') := by
  refine ⟨by rw [Params.part, Params.part, h.owner], fun name => ?_⟩
  by_cases hname : name = "action"
  · subst hname
    exact hpart.1
  · have hplain : Slot.ofPart name = .plain := by
      unfold Slot.ofPart
      split
      · exact absurd rfl hname
      · rfl
    rw [hplain]
    exact hpart.2 name hname

theorem action? (h : Alike R slot p p') (hslot : slot key = .action) :
    Mirrors (Option.Rel R) (p.action? key) (p'.action? key) := by
  intro spec hspec
  have hvalue := h.value key
  rw [hslot, Slot.Alike, action?_eq_ok.1 hspec] at hvalue
  cases hheld : heldAction? (p'.value? key) with
  | none =>
    rw [hheld] at hvalue
    cases hvalue
  | some spec' =>
    rw [hheld] at hvalue
    cases hvalue with
    | some hrel => exact ⟨spec', action?_eq_ok.2 hheld, hrel⟩

theorem action (h : Alike R slot p p') (hslot : slot key = .action) :
    Mirrors R (p.action key) (p'.action key) := by
  intro spec hspec
  obtain ⟨spec', hspec', hrel⟩ := h.action? hslot _ (require_eq_ok.1 hspec)
  cases hrel with
  | some hrel => exact ⟨_, require_eq_ok.2 hspec', hrel⟩

theorem listed {α : Type} {V : List α → List α → Prop} {expected : String}
    {read? : Json → Option (List α)}
    (h : Option.Rel V ((p.value? key).bind read?) ((p'.value? key).bind read?)) :
    Mirrors V (p.require key (p.optional key expected read?))
      (p'.require key (p'.optional key expected read?)) := by
  intro values hvalues
  rw [require_optional_eq_ok] at hvalues
  rw [hvalues] at h
  cases hvalues' : (p'.value? key).bind read? with
  | none =>
    rw [hvalues'] at h
    cases h
  | some values' =>
    rw [hvalues'] at h
    cases h with
    | some hrel => exact ⟨values', require_optional_eq_ok.2 hvalues', hrel⟩

theorem actions (h : Alike R slot p p') (hslot : slot key = .actions) :
    Mirrors (List.Forall₂ R) (p.actions key) (p'.actions key) := by
  have hvalue := h.value key
  rw [hslot] at hvalue
  exact listed hvalue

theorem tables (h : Alike R slot p p') (hslot : slot key = .parts) :
    Mirrors (List.Forall₂ (Slot.PartAlike R)) (p.tables key) (p'.tables key) := by
  have hvalue := h.value key
  rw [hslot] at hvalue
  exact listed hvalue

theorem parts {α : Type} {V : α → α → Prop} {read read' : Params → Except Fault α}
    (h : Alike R slot p p') (hslot : slot key = .parts)
    (hread : ∀ part part', Alike R Slot.ofPart part part' → Mirrors V (read part) (read' part')) :
    Mirrors (List.Forall₂ V) (p.parts key read) (p'.parts key read') := by
  refine (h.tables hslot).bind fun tables tables' htables => ?_
  refine mirrors_mapM (forall₂_zipIdx htables 0) ?_
  rintro ⟨part, i⟩ ⟨part', _⟩ ⟨hpart, rfl⟩
  exact hread _ _ (h.part _ hpart)

/-- If how long to wait can be read on the one side, then also on the other. -/
theorem span? (h : Alike R slot p p') (hslot : slot key = .span) :
    Mirrors (fun _ _ => True) (p.span? key) (p'.span? key) := by
  intro span hspan
  have hvalue := h.value key
  rw [hslot, Slot.Alike, optional_eq_ok.1 hspan, Option.isSome_some, Option.isSome_iff_exists]
    at hvalue
  obtain ⟨span', hspan'⟩ := hvalue
  exact ⟨span', optional_eq_ok.2 hspan', trivial⟩

end Params.Alike

namespace ActionKind

variable {R : ActionSpec → ActionSpec → Prop} {nested nested' : Builder} {slots : String → Slot}
  {p p' : Params} {name key : String}

section Build

variable (hnested : ∀ spec spec', R spec spec' →
  Mirrors Action.Retimed (nested spec) (nested' spec'))

include hnested

theorem mirrors_buildRequired (h : p.Alike R slots p') (hslot : slots key = .action) :
    Mirrors Action.Retimed (buildRequired nested p key) (buildRequired nested' p' key) :=
  (h.action hslot).bind hnested

theorem mirrors_buildOptional (h : p.Alike R slots p') (hslot : slots key = .action) :
    Mirrors (Option.Rel Action.Retimed) (buildOptional nested p key)
      (buildOptional nested' p' key) := by
  refine (h.action? hslot).bind ?_
  rintro _ _ (hspec | _)
  · exact (hnested _ _ hspec).bind fun _ _ haction => mirrors_ok (.some haction)
  · exact mirrors_ok .none

theorem mirrors_buildSequence (h : p.Alike R (slot .sequence) p') :
    Mirrors Action.Retimed (buildSequence nested name p) (buildSequence nested' name p') :=
  (h.actions rfl).bind fun _ _ hspecs =>
    (mirrors_mapM hspecs hnested).bind fun _ _ hactions => mirrors_ok (.sequence name hactions)

theorem mirrors_buildConditional (h : p.Alike R (slot .conditional) p') :
    Mirrors Action.Retimed (buildConditional nested name p) (buildConditional nested' name p') :=
  .bind_eq (h.same rfl).condition fun test =>
    (mirrors_buildOptional hnested h rfl).bind fun _ _ hyes =>
      (mirrors_buildOptional hnested h rfl).bind fun _ _ hno =>
        mirrors_ok (.conditional name test hyes hno)

theorem mirrors_buildChoice (h : p.Alike R (slot .choice) p') :
    Mirrors Action.Retimed (buildChoice nested name p) (buildChoice nested' name p') := by
  refine Mirrors.bind (h.parts (V := Step.Rel Action.Retimed) rfl fun part part' hpart => ?_)
    fun _ _ hbranches => (mirrors_buildOptional hnested h rfl).bind fun _ _ hdefault =>
      mirrors_ok (.choice name hbranches hdefault)
  exact .bind_eq (hpart.same rfl).condition fun test =>
    (mirrors_buildRequired hnested hpart rfl).bind fun _ _ haction =>
      mirrors_ok (.mk (some test) false haction)

theorem mirrors_buildRetry (h : p.Alike R (slot .retry) p') :
    Mirrors Action.Retimed (buildRetry nested name p) (buildRetry nested' name p') :=
  (mirrors_buildRequired hnested h rfl).bind fun _ _ hbody =>
    .bind_eq (h.same rfl).count? fun _ =>
      (h.span? rfl).bind fun _ _ _ => mirrors_ok (.backoff name _ _ _ hbody)

theorem mirrors_buildRetryWithBackoff (h : p.Alike R (slot .retryWithBackoff) p') :
    Mirrors Action.Retimed (buildRetryWithBackoff nested name p)
      (buildRetryWithBackoff nested' name p') := by
  have hspan : ∀ key, slot .retryWithBackoff key = .plain → p'.span? key = p.span? key :=
    fun key hslot => (h.same hslot).optional _ _
  have hfloat : ∀ key, slot .retryWithBackoff key = .plain → p'.float? key = p.float? key :=
    fun key hslot => (h.same hslot).optional _ _
  have hpolicy : backoffPolicy p' = backoffPolicy p := by
    unfold backoffPolicy
    rw [hspan "base_delay" rfl, hspan "max_delay" rfl, hspan "attempt_timeout" rfl,
      hfloat "factor" rfl, hfloat "jitter" rfl, (h.same rfl).count?]
  exact .bind_eq hpolicy fun policy =>
    (mirrors_buildRequired hnested h rfl).bind fun _ _ hbody =>
      .bind_eq ((h.same rfl).optional _ _) fun _ => mirrors_ok (.retry name policy _ true hbody)

theorem mirrors_buildFallback (h : p.Alike R (slot .fallback) p') :
    Mirrors Action.Retimed (buildFallback nested name p) (buildFallback nested' name p') :=
  (mirrors_buildRequired hnested h rfl).bind fun _ _ hprimary =>
    (mirrors_buildRequired hnested h rfl).bind fun _ _ hsecondary =>
      mirrors_ok (.fallback name hprimary hsecondary)

theorem mirrors_buildValidated (h : p.Alike R (slot .validated) p') :
    Mirrors Action.Retimed (buildValidated nested name p) (buildValidated nested' name p') := by
  refine Mirrors.bind (h.parts (V := Step.Rel Action.Retimed) rfl fun part part' hpart => ?_)
    fun _ _ hsteps => .bind_eq (h.same rfl).bool? fun _ => mirrors_ok (.validated name _ hsteps)
  exact (mirrors_buildRequired hnested hpart rfl).bind fun _ _ haction =>
    .bind_eq (hpart.same rfl).condition? fun test => mirrors_ok (.mk test false haction)

theorem mirrors_buildParallel (h : p.Alike R (slot .parallel) p') :
    Mirrors Action.Retimed (buildParallel nested name p) (buildParallel nested' name p') := by
  have hstrategy : mergeStrategy p' = mergeStrategy p := by
    unfold mergeStrategy
    rw [(h.same rfl).string?, (h.same rfl).mismatch]
  exact .bind_eq hstrategy fun strategy =>
    (h.actions rfl).bind fun _ _ hspecs =>
      (mirrors_mapM hspecs hnested).bind fun _ _ hbranches =>
        .bind_eq (h.same rfl).bool? fun _ => mirrors_ok (.parallel name strategy _ hbranches)

theorem mirrors_buildProgressive (h : p.Alike R (slot .progressive) p') :
    Mirrors Action.Retimed (buildProgressive nested name p) (buildProgressive nested' name p') := by
  refine Mirrors.bind (h.parts (V := Step.Rel Action.Retimed) rfl fun part part' hpart => ?_)
    fun _ _ hsteps => mirrors_ok (.progressive name hsteps)
  exact (mirrors_buildRequired hnested hpart rfl).bind fun _ _ haction =>
    .bind_eq (hpart.same rfl).condition? fun test =>
      .bind_eq (hpart.same rfl).bool? fun _ => mirrors_ok (.mk test _ haction)

/-- Specifications of a built-in kind that fill its slots alike give actions that differ in times
only. -/
theorem mirrors_build {kind : ActionKind} {spec spec' : ActionSpec} (hkind : kind.Builtin)
    (hname : spec'.name = spec.name) (h : spec.parameters.Alike R (slot kind) spec'.parameters) :
    Mirrors Action.Retimed (kind.build nested spec) (kind.build nested' spec') := by
  unfold build
  rw [hname]
  cases kind with
  | noop => exact mirrors_ok (.leaf _ _)
  | set =>
    exact .bind_eq (h.same rfl).string fun _ =>
      .bind_eq ((h.same rfl).require (congrArg _ (h.same rfl).value)) fun _ =>
        mirrors_ok (.leaf _ _)
  | copy =>
    exact .bind_eq (h.same rfl).string fun _ => .bind_eq (h.same rfl).string fun _ =>
      mirrors_ok (.leaf _ _)
  | fail =>
    exact .bind_eq (h.same rfl).string? fun _ => .bind_eq (h.same rfl).bool? fun _ =>
      mirrors_ok (.leaf _ _)
  | delay => exact (h.span? rfl).bind fun _ _ _ => mirrors_ok (.delay _ _ _)
  | log => exact .bind_eq (h.same rfl).string fun _ => mirrors_ok (.leaf _ _)
  | sequence => exact mirrors_buildSequence hnested h
  | conditional => exact mirrors_buildConditional hnested h
  | choice => exact mirrors_buildChoice hnested h
  | retry => exact mirrors_buildRetry hnested h
  | retryWithBackoff => exact mirrors_buildRetryWithBackoff hnested h
  | fallback => exact mirrors_buildFallback hnested h
  | validated => exact mirrors_buildValidated hnested h
  | parallel => exact mirrors_buildParallel hnested h
  | progressive => exact mirrors_buildProgressive hnested h
  | named | flaky | mark | cancel | raise | failPermanently | testedConditional | testedChoice
  | testedValidated | testedProgressive | retryWithPolicy =>
    exact absurd hkind (by simp [Builtin, Registry.builtinActions])

end Build

end ActionKind

theorem Slot.Alike.refl {R : ActionSpec → ActionSpec → Prop} (hR : ∀ spec, R spec spec)
    (slot : Slot) (value : Option Json) : slot.Alike R value value := by
  have hlist : ∀ {α : Type} {V : α → α → Prop}, (∀ a, V a a) → ∀ values? : Option (List α),
      Option.Rel (List.Forall₂ V) values? values? := fun hV values? => by
    cases values? with
    | none => exact .none
    | some values => exact .some (List.forall₂_same.2 fun a _ => hV a)
  have hheld : ∀ held : Option (Option ActionSpec), Option.Rel (Option.Rel R) held held :=
    fun held => by
      rcases held with _ | _ | spec
      · exact .none
      · exact .some .none
      · exact .some (.some (hR spec))
  cases slot with
  | plain | span => rfl
  | action => exact hheld _
  | actions => exact hlist hR _
  | parts => exact hlist (fun _ => ⟨hheld _, fun _ _ => rfl⟩) _

namespace ActionSpec

variable {spec spec' : ActionSpec} {depth : Nat}

theorem RetimedTo.refl (depth : Nat) (spec : ActionSpec) : RetimedTo depth spec spec := by
  induction depth generalizing spec with
  | zero => rfl
  | succ depth ih => exact ⟨rfl, rfl, fun key => Slot.Alike.refl ih _ _⟩

/-- It is enough to look at the one parameter in which the specifications differ. -/
theorem RetimedTo.of_get? (key : String) (hkind : spec'.kind = spec.kind)
    (hlabel : spec'.label = spec.label)
    (h : (spec.slot key).Alike (RetimedTo depth) (spec.params.get? key) (spec'.params.get? key))
    (hrest : ∀ other, other ≠ key → spec'.params.get? other = spec.params.get? other) :
    RetimedTo (depth + 1) spec spec' := by
  refine ⟨hkind, hlabel, fun other => ?_⟩
  by_cases hother : other = key
  · subst hother
    exact h
  · rw [hrest other hother]
    exact Slot.Alike.refl (.refl depth) _ _

end ActionSpec

namespace Registry

/-- Specifications that differ in times only give actions that differ in times only. -/
theorem mirrors_buildNested {fuel fuel' depth : Nat} {spec spec' : ActionSpec}
    (h : spec.RetimedTo depth spec') (hfuel : spec'.depth ≤ fuel') :
    Mirrors Action.Retimed (builtins.buildNested fuel spec) (builtins.buildNested fuel' spec') := by
  induction fuel' generalizing fuel depth spec spec' with
  | zero => exact absurd hfuel (Nat.not_succ_le_zero _)
  | succ fuel' ih =>
    have hmore : ∃ depth, spec.RetimedTo (depth + 1) spec' := by
      cases depth with
      | zero =>
        cases h
        exact ⟨0, .refl 1 spec⟩
      | succ depth => exact ⟨depth, h⟩
    obtain ⟨depth, hkind, hlabel, hslots⟩ := hmore
    cases fuel with
    | zero => exact mirrors_error _ _
    | succ fuel =>
      rw [buildNested, buildNested, hkind]
      cases hmeaning : builtins.actions.get? spec.kind with
      | none => exact mirrors_error _ _
      | some meaning =>
        have hname : spec'.name = spec.name := by
          rw [ActionSpec.name, hkind, hlabel, ← ActionSpec.name]
        have hslot : ∀ key, spec.slot key = meaning.slot key := fun key => by
          rw [ActionSpec.slot, hmeaning]
        apply ActionKind.mirrors_build (R := fun t t' => t.RetimedTo depth t' ∧ t'.depth ≤ fuel')
        · exact fun t t' ht => ih ht.1 ht.2
        · exact builtin_of_get? hmeaning
        · exact hname
        · refine ⟨hname, fun key => ?_⟩
          rw [← hslot key]
          refine (hslots key).bounded fun json hjson => ?_
          exact (Json.depth_le_of_get? hjson).trans (Nat.le_of_succ_le_succ hfuel)

theorem mirrors_buildAction {spec spec' : ActionSpec} (h : spec.Retimed spec') :
    Mirrors Action.Retimed (builtins.buildAction spec) (builtins.buildAction spec') :=
  have ⟨_, h⟩ := h
  mirrors_buildNested h (Nat.le_refl _)

end Registry

end Workflow
