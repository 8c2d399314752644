import Workflow.Proofs.Spec.Finite

/-!
# Specifications are read back from what they are written as

`Json.Faithful` joins the two directions of a format: what is read fits it, and what fits it is read
back from what it is written as. The parts of a specification are faithful from the inside out, a
record because each of its fields is. So a specification that has been read, in whichever of the
accepted forms, is not changed by writing it and reading it again.
-/

namespace Workflow

namespace Json

variable {α : Type}

/-- Only values that fit are read, and each of them is read from what it is written as. -/
structure Faithful (decode? : Json → Option α) (encode : α → Json) (Fits : α → Prop) : Prop where
  fits : ∀ {json : Json} {value : α}, decode? json = some value → Fits value
  back : ∀ {value : α}, Fits value → decode? (encode value) = some value

theorem faithful_string : Faithful string? string fun _ => True where
  fits _ := trivial
  back _ := rfl

theorem faithful_bool : Faithful bool? bool fun _ => True where
  fits _ := trivial
  back _ := rfl

theorem faithful_asNat (limit : Nat) : Faithful (asNat? limit) ofNat (· ≤ limit) where
  fits {json n} h := by
    cases json with
    | int m =>
      obtain ⟨hm, heq⟩ := Option.ite_none_right_eq_some.1 h
      cases heq
      simp only [Bool.and_eq_true, decide_eq_true_eq] at hm
      omega
    | null | bool | float | string | array | object => cases h
  back {n} h := by
    have hn : (0 : Int) ≤ n ∧ (n : Int) ≤ limit := by omega
    simp only [ofNat, asNat?, hn.1, hn.2, decide_true, Bool.and_true, if_true, Int.toNat_natCast]

theorem faithful_word : Faithful word? ofNat (· ≤ 0xFFFFFFFFFFFFFFFF) :=
  faithful_asNat 0xFFFFFFFFFFFFFFFF

theorem faithful_halfWord : Faithful halfWord? ofNat (· ≤ 0xFFFFFFFF) :=
  faithful_asNat 0xFFFFFFFF

theorem faithful_signedHalfWord :
    Faithful signedHalfWord? int fun n => -0x80000000 ≤ n ∧ n < 0x80000000 where
  fits {json n} h := by
    cases json with
    | int m =>
      obtain ⟨hm, heq⟩ := Option.ite_none_right_eq_some.1 h
      cases heq
      simpa only [Bool.and_eq_true, decide_eq_true_eq] using hm
    | null | bool | float | string | array | object => cases h
  back {n} h := by
    simp only [signedHalfWord?, h.1, h.2, decide_true, Bool.and_true, if_true]

theorem faithful_table : Faithful table? object fun fields => finiteFields fields = fields where
  fits {json fields} h := by
    cases json with
    | object read =>
      cases h
      exact finiteFields_finiteFields read
    | null | bool | int | float | string | array => cases h
  back h := congrArg some h

variable {decode? : Json → Option α} {encode : α → Json} {Fits : α → Prop}

theorem Faithful.items (h : Faithful decode? encode Fits) :
    Faithful (items? decode?) (fun values => array (values.map encode))
      (fun values => ∀ value ∈ values, Fits value) where
  fits {json values} hread value hmem := by
    obtain ⟨_, -, hitems⟩ := exists_of_items? hread
    obtain ⟨_, -, hitem⟩ := hitems value hmem
    exact h.fits hitem
  back {values} hfits := by
    change (values.map encode).mapM decode? = some values
    induction values with
    | nil => rfl
    | cons value values ih =>
      obtain ⟨hvalue, hvalues⟩ := List.forall_mem_cons.1 hfits
      rw [List.map_cons, List.mapM_cons, h.back hvalue, ih hvalues]
      rfl

namespace Record

variable {record : Record} {position : Nat} {name : String} {default value : α}

theorem fits_of_withDefault? (h : Faithful decode? encode Fits) (hdefault : Fits default)
    (hread : record.withDefault? position name decode? default = some value) : Fits value := by
  rcases withDefault?_eq_some hread with ⟨-, rfl⟩ | ⟨_, -, hvalue⟩
  · exact hdefault
  · exact h.fits hvalue

theorem fits_of_optional? {result : Option α} (h : Faithful decode? encode Fits)
    (hread : record.optional? position name decode? = some result) :
    ∀ value ∈ result, Fits value := by
  rintro value rfl
  unfold optional? at hread
  split at hread
  next => cases hread
  next => cases hread
  next =>
    obtain ⟨_, hvalue, heq⟩ := Option.map_eq_some_iff.1 hread
    cases heq
    exact h.fits hvalue

theorem required?_encode (h : Faithful decode? encode Fits) (value : α)
    (hfield : record.field? position name = some (encode value)) (hvalue : Fits value) :
    record.required? position name decode? = some value := by
  rw [required?, hfield, Option.bind_some, h.back hvalue]

theorem withDefault?_encode (h : Faithful decode? encode Fits) (value : α)
    (hfield : record.field? position name = some (encode value)) (hvalue : Fits value) :
    record.withDefault? position name decode? default = some value := by
  rw [withDefault?, hfield]
  exact h.back hvalue

/-- An absent value is written as `null`, so that `null` must not stand for a value as well. -/
theorem optional?_encode (h : Faithful decode? encode Fits) (result : Option α)
    (hnull : decode? null = none)
    (hfield : record.field? position name = some (ofOption encode result))
    (hresult : ∀ value ∈ result, Fits value) :
    record.optional? position name decode? = some result := by
  rw [optional?, hfield]
  cases result with
  | none => rfl
  | some value =>
    have hback := h.back (hresult value rfl)
    rw [ofOption]
    split
    next heq => cases heq
    next heq =>
      rw [Option.some.inj heq, hnull] at hback
      cases hback
    next heq => rw [← Option.some.inj heq, hback, Option.map_some]

end Record

end Json

open Json (Faithful)
open Json.Record

theorem ActionSpec.faithful (surplus : Bool) :
    Faithful (ActionSpec.ofJson? surplus) ActionSpec.toJson ActionSpec.Finite where
  fits := ActionSpec.finite_of_ofJson?
  back {spec} h := by
    rw [ofJson?, toJson, Json.Record.ofJson?, Option.bind_some, ofRecord?,
      required?_encode Json.faithful_string spec.kind ?_ trivial,
      optional?_encode Json.faithful_string spec.label rfl ?_ (fun _ _ => trivial),
      withDefault?_encode Json.faithful_table spec.params ?_ h]
    all_goals rfl

structure StateSpec.Expressible (spec : StateSpec) : Prop where
  actions : ∀ action ∈ spec.actions, action.Finite
  timeout : ∀ seconds ∈ spec.timeoutSecs, seconds ≤ 0xFFFFFFFFFFFFFFFF
  params : Json.finiteFields spec.params = spec.params
  metadata : Json.finiteFields spec.metadata = spec.metadata

theorem StateSpec.faithful (surplus : Bool) :
    Faithful (StateSpec.ofJson? surplus) StateSpec.toJson StateSpec.Expressible where
  fits h := by
    obtain ⟨record, -, h⟩ := Option.bind_eq_some_iff.1 h
    obtain ⟨name, -, h⟩ := Option.bind_eq_some_iff.1 h
    obtain ⟨kind, -, h⟩ := Option.bind_eq_some_iff.1 h
    obtain ⟨actions, hactions, h⟩ := Option.bind_eq_some_iff.1 h
    obtain ⟨onError, -, h⟩ := Option.bind_eq_some_iff.1 h
    obtain ⟨timeoutSecs, htimeout, h⟩ := Option.bind_eq_some_iff.1 h
    obtain ⟨params, hparams, h⟩ := Option.bind_eq_some_iff.1 h
    obtain ⟨metadata, hmetadata, h⟩ := Option.bind_eq_some_iff.1 h
    cases h
    exact ⟨
      fits_of_withDefault? (ActionSpec.faithful surplus).items (List.forall_mem_nil _) hactions,
      fits_of_optional? Json.faithful_word htimeout,
      (fits_of_withDefault? Json.faithful_table rfl hparams :),
      (fits_of_withDefault? Json.faithful_table rfl hmetadata :)⟩
  back {spec} h := by
    rw [ofJson?, toJson, Json.Record.ofJson?, Option.bind_some, ofRecord?,
      required?_encode Json.faithful_string spec.name ?_ trivial,
      withDefault?_encode Json.faithful_string spec.kind ?_ trivial,
      withDefault?_encode (ActionSpec.faithful surplus).items spec.actions ?_ h.actions,
      optional?_encode Json.faithful_string spec.onError rfl ?_ (fun _ _ => trivial),
      optional?_encode Json.faithful_word spec.timeoutSecs rfl ?_ h.timeout,
      withDefault?_encode Json.faithful_table spec.params ?_ h.params,
      withDefault?_encode Json.faithful_table spec.metadata ?_ h.metadata]
    all_goals rfl

def EdgeSpec.Expressible (spec : EdgeSpec) : Prop :=
  -0x80000000 ≤ spec.priority ∧ spec.priority < 0x80000000

theorem EdgeSpec.faithful (surplus : Bool) :
    Faithful (EdgeSpec.ofJson? surplus) EdgeSpec.toJson EdgeSpec.Expressible where
  fits h := by
    obtain ⟨record, -, h⟩ := Option.bind_eq_some_iff.1 h
    obtain ⟨origin, -, h⟩ := Option.bind_eq_some_iff.1 h
    obtain ⟨target, -, h⟩ := Option.bind_eq_some_iff.1 h
    obtain ⟨condition, -, h⟩ := Option.bind_eq_some_iff.1 h
    obtain ⟨priority, hpriority, h⟩ := Option.bind_eq_some_iff.1 h
    cases h
    exact (fits_of_withDefault? Json.faithful_signedHalfWord (by decide) hpriority :)
  back {spec} h := by
    rw [ofJson?, toJson, Json.Record.ofJson?, Option.bind_some, ofRecord?,
      required?_encode Json.faithful_string spec.origin ?_ trivial,
      required?_encode Json.faithful_string spec.target ?_ trivial,
      withDefault?_encode Json.faithful_string spec.condition ?_ trivial,
      withDefault?_encode Json.faithful_signedHalfWord spec.priority ?_ h]
    all_goals rfl

def Settings.Expressible (settings : Settings) : Prop :=
  settings.actionTimeoutSecs ≤ 0xFFFFFFFFFFFFFFFF

theorem Settings.faithful (surplus : Bool) :
    Faithful (Settings.ofJson? surplus) Settings.toJson Settings.Expressible where
  fits h := by
    obtain ⟨record, -, h⟩ := Option.bind_eq_some_iff.1 h
    obtain ⟨cancellation, -, h⟩ := Option.bind_eq_some_iff.1 h
    obtain ⟨actionTimeoutSecs, htimeout, h⟩ := Option.bind_eq_some_iff.1 h
    cases h
    exact (fits_of_withDefault? Json.faithful_word (Nat.zero_le _) htimeout :)
  back {settings} h := by
    rw [ofJson?, toJson, Json.Record.ofJson?, Option.bind_some, ofRecord?,
      withDefault?_encode Json.faithful_bool settings.cancellation ?_ trivial,
      withDefault?_encode Json.faithful_word settings.actionTimeoutSecs ?_ h]
    all_goals rfl

namespace WorkflowSpec

/-- What can be written of a workflow: the bounds of all its numbers, all else is free. -/
structure Expressible (spec : WorkflowSpec) : Prop where
  settings : spec.settings.Expressible
  states : ∀ state ∈ spec.states, state.Expressible
  transitions : ∀ edge ∈ spec.transitions, edge.Expressible

theorem faithful (surplus : Bool) : Faithful (ofJson? surplus) toJson Expressible where
  fits h := by
    obtain ⟨record, -, h⟩ := Option.bind_eq_some_iff.1 h
    obtain ⟨name, -, h⟩ := Option.bind_eq_some_iff.1 h
    obtain ⟨initialState, -, h⟩ := Option.bind_eq_some_iff.1 h
    obtain ⟨finalStates, -, h⟩ := Option.bind_eq_some_iff.1 h
    obtain ⟨settings, hsettings, h⟩ := Option.bind_eq_some_iff.1 h
    obtain ⟨states, hstates, h⟩ := Option.bind_eq_some_iff.1 h
    obtain ⟨transitions, htransitions, h⟩ := Option.bind_eq_some_iff.1 h
    cases h
    have hdefault : Settings.Expressible {} := Nat.zero_le _
    exact ⟨fits_of_withDefault? (Settings.faithful surplus) hdefault hsettings,
      fits_of_withDefault? (StateSpec.faithful surplus).items (List.forall_mem_nil _) hstates,
      fits_of_withDefault? (EdgeSpec.faithful surplus).items (List.forall_mem_nil _) htransitions⟩
  back {spec} h := by
    rw [ofJson?, toJson, Json.Record.ofJson?, Option.bind_some, ofRecord?,
      required?_encode Json.faithful_string spec.name ?_ trivial,
      required?_encode Json.faithful_string spec.initialState ?_ trivial,
      withDefault?_encode Json.faithful_string.items spec.finalStates ?_ (fun _ _ => trivial),
      withDefault?_encode (Settings.faithful surplus) spec.settings ?_ h.settings,
      withDefault?_encode (StateSpec.faithful surplus).items spec.states ?_ h.states,
      withDefault?_encode (EdgeSpec.faithful surplus).items spec.transitions ?_ h.transitions]
    all_goals rfl

/-- A specification that has been read, with or without `surplus`, is written as a value that is
read as the same specification, which is then written as the same value. What can be read of some
value at all are exactly the expressible specifications. -/
theorem read_back :
    (∀ (surplus : Bool) (json : Json) (spec : WorkflowSpec), ofJson? surplus json = some spec →
      ∀ again, ofJson? again spec.toJson = some spec ∧
        (ofJson? again spec.toJson).map toJson = some spec.toJson) ∧
    ∀ (surplus : Bool) (spec : WorkflowSpec),
      (∃ json, ofJson? surplus json = some spec) ↔ spec.Expressible := by
  refine ⟨fun surplus json spec hread again => ?_, fun surplus spec => ⟨?_, fun h => ?_⟩⟩
  · have hback := (faithful again).back ((faithful surplus).fits hread)
    exact ⟨hback, by rw [hback, Option.map_some]⟩
  · rintro ⟨json, hread⟩
    exact (faithful surplus).fits hread
  · exact ⟨spec.toJson, (faithful surplus).back h⟩

def ordersByPosition : Json :=
  .array ["orders", "open", .array ["closed"], .array [false],
    .array [.object [("actions", .array [.array ["noop", .null]]), ("name", "open"),
      ("on_error", .null), ("shade", "red")], .array ["closed", "final"]],
    .array [.object [("from", "open"), ("priority", .int (-1)), ("to", "closed")]]]

theorem read_back_orders :
    ∃ spec : WorkflowSpec, ofJson? false ordersByPosition = some spec ∧
      spec.transitions = [{ origin := "open", target := "closed", priority := -1 }] ∧
      ofJson? false spec.toJson = some spec ∧
      (ofJson? false spec.toJson).map toJson = some spec.toJson :=
  ⟨_, rfl, rfl, read_back.1 false ordersByPosition _ rfl false⟩

end WorkflowSpec

end Workflow
