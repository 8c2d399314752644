import Mathlib.Data.List.Forall2
import Mathlib.Data.Nat.Basic
import Mathlib.Order.Basic
import Workflow.Work.Crew

/-!
# What an operation on the floor leaves alone

Most operations on a floor are about calls, alarms and news. They change neither the scene nor the
stations of the hands, that is how far their work has got. The few others are `setScene` and
`ring?`, which change the scene, `hire`, which adds a station, and `put`, which replaces one.
-/

namespace Workflow

namespace Floor

def stations (f : Floor) : List (Station (Except Fault Unit)) :=
  f.hands.map Hand.toStation

theorem length_stations (f : Floor) : f.stations.length = f.hands.length :=
  List.length_map _

theorem stations_congr {f f' : Floor} (h : f'.hands = f.hands) : f'.stations = f.stations :=
  congrArg (List.map Hand.toStation) h

theorem reply?_eq (f : Floor) (i : Nat) :
    f.reply? i = f.stations[i]?.bind fun station =>
      match station.thread with
      | .ended outcome => some ⟨station.context, outcome⟩
      | _ => none := by
  rw [reply?, stations, List.getElem?_map, Option.bind_map]
  rfl

theorem reply?_congr {f f' : Floor} (h : f'.stations = f.stations) (i : Nat) :
    f'.reply? i = f.reply? i := by
  rw [reply?_eq, reply?_eq, h]

theorem hasEnded_congr {f f' : Floor} (h : f'.stations = f.stations) (i : Nat) :
    f'.hasEnded i = f.hasEnded i := by
  rw [hasEnded, hasEnded, reply?_congr h]

theorem hasEnded_of_grown {f f' : Floor} (h : f.stations <+: f'.stations) {i : Nat}
    (hi : i < f.stations.length) : f'.hasEnded i = f.hasEnded i := by
  obtain ⟨new, hnew⟩ := h
  rw [hasEnded, hasEnded, reply?_eq, reply?_eq, ← hnew, List.getElem?_append_left hi]

theorem lt_of_hasEnded {f : Floor} {i : Nat} (h : f.hasEnded i = true) : i < f.stations.length := by
  by_contra hn
  simp [hasEnded, reply?_eq, List.getElem?_eq_none (Nat.le_of_not_lt hn)] at h

theorem hasEnded_mono {f f' : Floor} (h : f.stations <+: f'.stations) (i : Nat)
    (hi : f.hasEnded i = true) : f'.hasEnded i = true :=
  (hasEnded_of_grown h (lt_of_hasEnded hi)).trans hi

theorem hasEnded_iff {f : Floor} {i : Nat} :
    f.hasEnded i = true ↔
      ∃ context outcome, f.stations[i]? = some ⟨context, .ended outcome⟩ := by
  rw [hasEnded, reply?_eq]
  cases f.stations[i]? with
  | none => simp
  | some station =>
    obtain ⟨context, thread⟩ := station
    cases thread <;> simp

@[simp] theorem scene_call (f : Floor) (worker : Worker) : (f.call worker).scene = f.scene := by
  unfold call
  split
  · rfl
  · split <;> rfl

@[simp] theorem hands_call (f : Floor) (worker : Worker) : (f.call worker).hands = f.hands := by
  unfold call
  split
  · rfl
  · split <;> rfl

@[simp] theorem scene_callAll (f : Floor) (workers : List Worker) :
    (f.callAll workers).scene = f.scene := by
  induction workers generalizing f with
  | nil => rfl
  | cons worker workers ih =>
    rw [callAll, List.foldl_cons, ← callAll, ih, scene_call]

@[simp] theorem hands_callAll (f : Floor) (workers : List Worker) :
    (f.callAll workers).hands = f.hands := by
  induction workers generalizing f with
  | nil => rfl
  | cons worker workers ih =>
    rw [callAll, List.foldl_cons, ← callAll, ih, hands_call]

@[simp] theorem scene_tell (f : Floor) (worker : Worker) (i : Nat) :
    (f.tell worker i).scene = f.scene := scene_call _ _

@[simp] theorem hands_tell (f : Floor) (worker : Worker) (i : Nat) :
    (f.tell worker i).hands = f.hands := hands_call _ _

@[simp] theorem scene_announce (f : Floor) (i : Nat) : (f.announce i).scene = f.scene := by
  unfold announce
  split
  · exact scene_tell _ _ _
  · rfl

@[simp] theorem hands_announce (f : Floor) (i : Nat) : (f.announce i).hands = f.hands := by
  unfold announce
  split
  · exact hands_tell _ _ _
  · rfl

@[simp] theorem scene_giveWay (f : Floor) (call : Call) : (f.giveWay call).scene = f.scene := by
  unfold giveWay
  split <;> rfl

@[simp] theorem hands_giveWay (f : Floor) (call : Call) : (f.giveWay call).hands = f.hands := by
  unfold giveWay
  split <;> rfl

@[simp] theorem scene_setScene (f : Floor) (scene : Scene) : (f.setScene scene).scene = scene := by
  unfold setScene
  split
  · exact scene_callAll _ _
  · rfl

@[simp] theorem hands_setScene (f : Floor) (scene : Scene) :
    (f.setScene scene).hands = f.hands := by
  unfold setScene
  split
  · exact hands_callAll _ _
  · rfl

@[simp] theorem stations_await (f : Floor) (client : Worker) (i : Nat) :
    (f.await client i).stations = f.stations := by
  apply List.ext_getElem?
  intro j
  simp only [stations, await, List.getElem?_map, List.getElem?_modify]
  cases f.hands[j]? with
  | none => rfl
  | some hand => by_cases h : i = j <;> simp [h]

@[simp] theorem stations_dismiss (f : Floor) (worker : Worker) :
    (f.dismiss worker).stations = f.stations := by
  simp only [stations, dismiss, List.map_map]
  apply List.map_congr_left
  intro hand _
  simp only [Function.comp_apply]
  split <;> rfl

@[simp] theorem scene_hire (f : Floor) (hand : Hand) : (f.hire hand).scene = f.scene :=
  scene_call _ _

@[simp] theorem stations_hire (f : Floor) (hand : Hand) :
    (f.hire hand).stations = f.stations ++ [hand.toStation] := by
  simp [stations, hire]

@[simp] theorem scene_put (f : Floor) (i : Nat) (station : Station (Except Fault Unit)) :
    (f.put i station).scene = f.scene := by
  simp only [put]
  split
  · exact scene_announce _ _
  · rfl

theorem stations_put (f : Floor) (i : Nat) (station : Station (Except Fault Unit)) :
    (f.put i station).stations = f.stations.modify i fun _ => station := by
  have h : (f.hands.modify i fun hand => { hand with toStation := station }).map Hand.toStation =
      f.stations.modify i fun _ => station := by
    apply List.ext_getElem?
    intro j
    simp only [stations, List.getElem?_map, List.getElem?_modify]
    cases f.hands[j]? with
    | none => rfl
    | some hand => by_cases h : i = j <;> simp [h]
  simp only [put]
  split
  · rw [stations, hands_announce, h]
  · exact h

theorem getElem?_put (f : Floor) (i : Nat) (station : Station (Except Fault Unit)) (j : Nat) :
    (f.put i station).stations[j]? =
      if i = j then f.stations[j]?.map fun _ => station else f.stations[j]? := by
  rw [stations_put, List.getElem?_modify]
  split <;> simp

/-- What holds of all stations holds of them when hand `i` has been put where it has got to. -/
theorem forall_put {P : Nat → Station (Except Fault Unit) → Prop} {f : Floor} {i : Nat}
    {station : Station (Except Fault Unit)}
    (h : ∀ j station, f.stations[j]? = some station → P j station) (hi : P i station) (j : Nat)
    (station' : Station (Except Fault Unit)) (hj : (f.put i station).stations[j]? = some station') :
    P j station' := by
  rw [getElem?_put] at hj
  split at hj
  next hij =>
    subst hij
    obtain ⟨_, -, rfl⟩ := Option.map_eq_some_iff.1 hj
    exact hi
  next => exact h j station' hj

def callBack (f : Floor) (call : Call) : Floor :=
  match call.branch with
  | some i => f.tell call.worker i
  | none => f.call call.worker

theorem callYielded_eq (f : Floor) :
    f.callYielded = f.yielded.foldl callBack { f with yielded := [] } := rfl

theorem callYielded_induction {P : Floor → Prop} (f : Floor)
    (hclear : P { f with yielded := [] })
    (htell : ∀ f worker i, P f → P (f.tell worker i))
    (hcall : ∀ f worker, P f → P (f.call worker)) :
    P f.callYielded := by
  unfold callYielded
  generalize { f with yielded := [] } = g at hclear
  induction f.yielded generalizing g with
  | nil => exact hclear
  | cons call calls ih =>
    apply ih
    dsimp only
    split
    · exact htell _ _ _ hclear
    · exact hcall _ _ hclear

@[simp] theorem scene_callYielded (f : Floor) : f.callYielded.scene = f.scene :=
  f.callYielded_induction (P := fun g => g.scene = f.scene) rfl
    (fun _ _ _ h => (scene_tell _ _ _).trans h) fun _ _ h => (scene_call _ _).trans h

@[simp] theorem hands_callYielded (f : Floor) : f.callYielded.hands = f.hands :=
  f.callYielded_induction (P := fun g => g.hands = f.hands) rfl
    (fun _ _ _ h => (hands_tell _ _ _).trans h) fun _ _ h => (hands_call _ _).trans h

end Floor

namespace Turn

@[simp] theorem toScene_moment (t : Turn) : t.moment.toScene = t.floor.scene := rfl

@[simp] theorem context_moment (t : Turn) : t.moment.context = t.context := rfl

@[simp] theorem moment_act (change : Moment → Moment) (t : Turn) :
    (t.act change).moment = change t.moment := by
  simp only [act, moment, Floor.scene_setScene]

@[simp] theorem hands_act (change : Moment → Moment) (t : Turn) :
    (t.act change).floor.hands = t.floor.hands :=
  Floor.hands_setScene _ _

structure SameWork (t t' : Turn) : Prop where
  worker : t'.worker = t.worker
  context : t'.context = t.context
  scene : t'.floor.scene = t.floor.scene
  stations : t'.floor.stations = t.floor.stations

namespace SameWork

variable {t t' t'' : Turn}

theorem refl (t : Turn) : SameWork t t :=
  ⟨rfl, rfl, rfl, rfl⟩

theorem trans (h : SameWork t t') (h' : SameWork t' t'') : SameWork t t'' :=
  ⟨h'.worker.trans h.worker, h'.context.trans h.context, h'.scene.trans h.scene,
    h'.stations.trans h.stations⟩

theorem moment (h : SameWork t t') : t'.moment = t.moment := by
  simp only [Turn.moment, h.scene, h.context]

theorem now (h : SameWork t t') : t'.now = t.now := by
  simp only [Turn.now, h.scene]

theorem hasEnded (h : SameWork t t') (i : Nat) : t'.floor.hasEnded i = t.floor.hasEnded i :=
  Floor.hasEnded_congr h.stations i

end SameWork

theorem sameWork_spend (t : Turn) : SameWork t t.spend :=
  ⟨rfl, rfl, rfl, rfl⟩

theorem sameWork_payFor (t : Turn) (wake : Wake) : SameWork t (t.payFor wake) := by
  cases wake with
  | cancelled => exact .refl t
  | rested | expired => exact t.sameWork_spend

theorem sameWork_giveWay (t : Turn) (branch : Option Nat) : SameWork t (t.giveWay branch) :=
  ⟨rfl, rfl, Floor.scene_giveWay _ _, Floor.stations_congr (Floor.hands_giveWay _ _)⟩

theorem sameWork_setAlarm (t : Turn) (depth instant : Nat) :
    SameWork t (t.setAlarm depth instant) :=
  ⟨rfl, rfl, rfl, rfl⟩

theorem sameWork_rest (t : Turn) (depth instant : Nat) (interrupts : Interrupts) :
    SameWork t (t.rest depth instant interrupts) := by
  unfold rest
  split <;> split <;> exact ⟨rfl, rfl, rfl, rfl⟩

theorem sameWork_rise (t : Turn) (depth : Nat) : SameWork t (t.rise depth) :=
  ⟨rfl, rfl, rfl, rfl⟩

theorem sameWork_dismiss (t : Turn) (worker : Worker) :
    SameWork t (t.onFloor (·.dismiss worker)) :=
  ⟨rfl, rfl, rfl, Floor.stations_dismiss _ _⟩

theorem sameWork_drop (t : Turn) (depth : Nat) : SameWork t (t.drop depth) :=
  (t.sameWork_rise depth).trans (sameWork_dismiss _ _)

theorem sameWork_take (t : Turn) (i : Nat) : SameWork t (t.take i) :=
  ⟨rfl, rfl, rfl, rfl⟩

theorem sameWork_miss (t : Turn) (i : Nat) (branch : Option Nat) :
    SameWork t (t.miss i branch) := by
  unfold miss
  split
  · exact t.sameWork_giveWay branch
  · exact ⟨rfl, rfl, rfl, Floor.stations_await _ _ _⟩

end Turn

end Workflow
