import Workflow.Proofs.Work.Floor

/-!
# Collecting replies

Looking at branches takes the replies of some that have ended. It changes nothing about the work of
anybody, and what is no longer missing afterwards has ended.
-/

namespace Workflow.Turn

theorem sameWork_takeReplies (missing : List Nat) (t : Turn) :
    SameWork t (takeReplies missing t).2 := by
  induction missing generalizing t with
  | nil => exact .refl t
  | cons i rest ih =>
    simp only [takeReplies]
    split
    · exact (t.sameWork_take i).trans (ih _)
    · exact (t.sameWork_miss i none).trans (ih _)

theorem takeReplies_sublist {missing : List Nat} {t : Turn} :
    (takeReplies missing t).1.Sublist missing := by
  induction missing generalizing t with
  | nil => exact .slnil
  | cons i rest ih =>
    simp only [takeReplies]
    split
    · exact .cons i ih
    · exact .cons_cons i ih

theorem hasEnded_of_takeReplies {missing : List Nat} {t : Turn} {i : Nat} (hi : i ∈ missing)
    (hn : i ∉ (takeReplies missing t).1) : t.floor.hasEnded i = true := by
  induction missing generalizing t with
  | nil => cases hi
  | cons j rest ih =>
    simp only [takeReplies] at hn
    split at hn
    next h =>
      rcases List.mem_cons.1 hi with rfl | hi
      · exact (Bool.and_eq_true _ _ ▸ h).2
      · rw [← (t.sameWork_take j).hasEnded]
        exact ih hi hn
    next h =>
      simp only [List.mem_cons, not_or] at hn
      rcases List.mem_cons.1 hi with rfl | hi
      · exact absurd rfl hn.1
      · rw [← (t.sameWork_miss j none).hasEnded]
        exact ih hi hn.2

theorem sameWork_takeNews (news : List Nat) (vain : Nat) (missing : List Nat) (t : Turn) :
    SameWork t (takeNews news vain missing t).2.2 := by
  induction news generalizing vain missing t with
  | nil => exact .refl t
  | cons i rest ih =>
    simp only [takeNews]
    split
    · exact (t.sameWork_take i).trans (ih _ _ _)
    · split
      · exact (t.sameWork_miss i (some i)).trans ⟨rfl, rfl, rfl, rfl⟩
      · exact (t.sameWork_miss i (some i)).trans (ih _ _ _)

theorem takeNews_sublist {news : List Nat} {vain : Nat} {missing : List Nat} {t : Turn} :
    (takeNews news vain missing t).1.Sublist missing := by
  induction news generalizing t vain missing with
  | nil => exact .refl missing
  | cons i rest ih =>
    simp only [takeNews]
    split
    · exact ih.trans (List.erase_sublist)
    · split
      · exact .refl missing
      · exact ih

theorem hasEnded_of_takeNews {news : List Nat} {vain : Nat} {missing : List Nat} {t : Turn}
    {i : Nat} (hi : i ∈ missing) (hn : i ∉ (takeNews news vain missing t).1) :
    t.floor.hasEnded i = true := by
  induction news generalizing vain missing t with
  | nil => exact absurd hi hn
  | cons j rest ih =>
    simp only [takeNews] at hn
    split at hn
    next h =>
      by_cases hij : i = j
      · subst hij
        exact (Bool.and_eq_true _ _ ▸ h).2
      · rw [← (t.sameWork_take j).hasEnded]
        exact ih ((List.mem_erase_of_ne hij).2 hi) hn
    next h =>
      split at hn
      · exact absurd hi hn
      · rw [← (t.sameWork_miss j (some j)).hasEnded]
        exact ih hi hn

theorem sameWork_collect (join : Join) (t : Turn) : SameWork t (t.collect join).2 := by
  simp only [collect]
  split
  · exact sameWork_takeReplies _ _
  · exact (sameWork_takeNews _ _ _ _).trans ⟨rfl, rfl, rfl, rfl⟩

@[simp] theorem hands_collect (join : Join) (t : Turn) : (t.collect join).1.hands = join.hands := by
  simp only [collect]
  split <;> rfl

theorem collect_sublist (join : Join) (t : Turn) :
    (t.collect join).1.missing.Sublist join.missing := by
  simp only [collect]
  split
  · exact takeReplies_sublist
  · exact takeNews_sublist

theorem hasEnded_of_collect {join : Join} {t : Turn} {i : Nat} (hi : i ∈ join.missing)
    (hn : i ∉ (t.collect join).1.missing) : t.floor.hasEnded i = true := by
  simp only [collect] at hn
  split at hn
  · exact hasEnded_of_takeReplies hi hn
  · exact hasEnded_of_takeNews hi hn

def newStation (context : Context) (work : Work (Except Fault Unit)) :
    Station (Except Fault Unit) :=
  ⟨context, .ready work⟩

theorem hire_foldl (context : Context) (branches : List (Work (Except Fault Unit))) (f : Floor) :
    (branches.foldl (fun f work => f.hire { context, thread := .ready work }) f).scene = f.scene ∧
      (branches.foldl (fun f work => f.hire { context, thread := .ready work }) f).stations =
        f.stations ++ branches.map (newStation context) := by
  induction branches generalizing f with
  | nil => simp
  | cons work branches ih =>
    obtain ⟨hscene, hstations⟩ := ih (f.hire { context, thread := .ready work })
    simp only [List.foldl_cons, List.map_cons]
    refine ⟨hscene.trans (Floor.scene_hire _ _), ?_⟩
    rw [hstations, Floor.stations_hire, List.append_assoc]
    rfl

variable (branches : List (Work (Except Fault Unit))) (t : Turn)

theorem hands_fork :
    (t.fork branches).1.hands =
      (List.range branches.length).map (t.floor.stations.length + ·) := by
  rw [Floor.length_stations]
  rfl

theorem missing_fork : (t.fork branches).1.missing = (t.fork branches).1.hands := rfl

theorem moment_fork : (t.fork branches).2.moment = t.moment := by
  simp only [fork, onFloor, moment, (hire_foldl t.context branches _).1]

theorem scene_fork : (t.fork branches).2.floor.scene = t.floor.scene :=
  (hire_foldl t.context branches _).1

theorem stations_fork :
    (t.fork branches).2.floor.stations =
      t.floor.stations ++ branches.map (newStation t.context) :=
  (hire_foldl t.context branches _).2

end Workflow.Turn
