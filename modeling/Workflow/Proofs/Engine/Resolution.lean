import Workflow.Proofs.Engine.Step

/-!
# The edge that a run takes

Which edge a run takes is decided by the first one that is not closed, in the order in which they
are considered: those to the preferred state come first, and then all that leave the current one,
those to the preferred state among them. The data are those that the work of the state has left;
what its verdict adds to them comes later.
-/

namespace Workflow

namespace Transition

def answer (t : Transition) (data : Data) : Except Fault Bool :=
  match t.guard? with
  | none => .ok true
  | some guard => guard.evaluate data

def Decides (data : Data) (ts : List Transition) (t : Transition) : Prop :=
  ∃ before after, ts = before ++ t :: after ∧ (∀ u ∈ before, u.answer data = .ok false) ∧
    t.answer data ≠ .ok false

/-- What some edges out of `current` decide: the first one that is not closed is taken, unless its
guard gives no answer. -/
inductive Ruling (current : String) (data : Data) (ts : List Transition) :
    Except Fault Transition → Prop
  | taken {t : Transition} (hdecides : Decides data ts t) (hopen : t.answer data = .ok true) :
      Ruling current data ts (.ok t)
  | failed {t : Transition} {cause : Fault} (hdecides : Decides data ts t)
      (hcause : t.answer data = .error cause) :
      Ruling current data ts (.error (.transition t.origin t.target cause))
  | stuck (hclosed : ∀ t ∈ ts, t.answer data = .ok false) :
      Ruling current data ts (.error (.noTransition current))

variable {current : String} {data : Data} {ts : List Transition} {t t' : Transition}
  {outcome : Except Fault Transition}

theorem isOpen_eq (t : Transition) (data : Data) :
    t.isOpen data = (t.answer data).mapError (.transition t.origin t.target) := by
  unfold isOpen answer
  cases t.guard? with
  | none | some guard => rfl

theorem decides_cons_self (h : t.answer data ≠ .ok false) : Decides data (t :: ts) t :=
  ⟨[], ts, rfl, List.forall_mem_nil _, h⟩

theorem Decides.cons (h : Decides data ts t) (hclosed : t'.answer data = .ok false) :
    Decides data (t' :: ts) t := by
  obtain ⟨before, after, rfl, hbefore, ht⟩ := h
  exact ⟨t' :: before, after, rfl, List.forall_mem_cons.2 ⟨hclosed, hbefore⟩, ht⟩

theorem Ruling.cons (h : Ruling current data ts outcome) (hclosed : t.answer data = .ok false) :
    Ruling current data (t :: ts) outcome := by
  cases h with
  | taken hdecides hopen => exact .taken (hdecides.cons hclosed) hopen
  | failed hdecides hcause => exact .failed (hdecides.cons hclosed) hcause
  | stuck hall => exact .stuck (List.forall_mem_cons.2 ⟨hclosed, hall⟩)

def settle (current : String) : Except Fault (Option Transition) → Except Fault Transition
  | .error fault => .error fault
  | .ok (some t) => .ok t
  | .ok none => .error (.noTransition current)

theorem firstOpen?_append (data : Data) (ts ts' : List Transition) :
    firstOpen? data (ts ++ ts') =
      match firstOpen? data ts with
      | .ok none => firstOpen? data ts'
      | found => found := by
  induction ts with
  | nil => rfl
  | cons t ts ih =>
    simp only [List.cons_append, firstOpen?]
    cases t.isOpen data with
    | error fault => rfl
    | ok isOpen =>
      cases isOpen with
      | true => rfl
      | false => exact ih

theorem firstOpen?_of_closed (h : ∀ t ∈ ts, t.answer data = .ok false) :
    firstOpen? data ts = .ok none := by
  induction ts with
  | nil => rfl
  | cons t ts ih =>
    obtain ⟨ht, hts⟩ := List.forall_mem_cons.1 h
    rw [firstOpen?, isOpen_eq, ht]
    exact ih hts

/-- An edge after closed ones, whatever else comes after it. -/
theorem firstOpen?_of_decides (h : Decides data ts t) :
    firstOpen? data ts = firstOpen? data [t] := by
  obtain ⟨before, after, rfl, hbefore, ht⟩ := h
  rw [firstOpen?_append, firstOpen?_of_closed hbefore]
  simp only [firstOpen?, isOpen_eq]
  cases hanswer : t.answer data with
  | error cause => rfl
  | ok isOpen =>
    cases isOpen with
    | true => rfl
    | false => exact absurd hanswer ht

theorem ruling_settle (current : String) (data : Data) (ts : List Transition) :
    Ruling current data ts (settle current (firstOpen? data ts)) := by
  induction ts with
  | nil => exact .stuck (List.forall_mem_nil _)
  | cons t ts ih =>
    rw [firstOpen?, isOpen_eq]
    cases hanswer : t.answer data with
    | error cause => exact .failed (decides_cons_self (by simp [hanswer])) hanswer
    | ok isOpen =>
      cases isOpen with
      | true => exact .taken (decides_cons_self (by simp [hanswer])) hanswer
      | false => exact ih.cons hanswer

/-- Some edges decide one thing, and the search finds it. -/
theorem ruling_iff :
    Ruling current data ts outcome ↔ outcome = settle current (firstOpen? data ts) := by
  constructor
  · intro h
    cases h with
    | taken hdecides hopen =>
      rw [firstOpen?_of_decides hdecides, firstOpen?, isOpen_eq, hopen]
      rfl
    | failed hdecides hcause =>
      rw [firstOpen?_of_decides hdecides, firstOpen?, isOpen_eq, hcause]
      rfl
    | stuck hclosed =>
      rw [firstOpen?_of_closed hclosed]
      rfl
  · rintro rfl
    exact ruling_settle current data ts

/-- Nothing is decided only where there is nothing to decide it. -/
theorem Ruling.eq_noTransition_iff (h : Ruling current data ts outcome) :
    outcome = .error (.noTransition current) ↔ ∀ t ∈ ts, t.answer data = .ok false := by
  constructor
  · rintro rfl
    cases h with
    | stuck hclosed => exact hclosed
  · intro hclosed
    exact (ruling_iff.1 h).trans (ruling_iff.1 (.stuck hclosed)).symm

/-- What comes after an edge that is not closed has no say. -/
theorem ruling_append_cons_congr {before after after' : List Transition}
    (ht : t.answer data ≠ .ok false) :
    Ruling current data (before ++ t :: after) outcome ↔
      Ruling current data (before ++ t :: after') outcome := by
  have halone : ∀ after, firstOpen? data (t :: after) = firstOpen? data [t] := fun after =>
    firstOpen?_of_decides (decides_cons_self ht)
  rw [ruling_iff, ruling_iff, firstOpen?_append, firstOpen?_append, halone after, halone after']

end Transition

namespace Engine

open Transition (Ruling)

variable (e : Engine) (current : String)

/-- The edges that are considered, in order: those from `current` to the preferred state, if there
is a preference, and then all that leave `current`. -/
def considered (preferred : String) : List Transition :=
  (if preferred = "" then [] else (e.outgoing current).filter (·.target == preferred)) ++
    e.outgoing current

theorem firstOpen_eq_settle (data : Data) :
    e.firstOpen current data =
      Transition.settle current (Transition.firstOpen? data (e.outgoing current)) := by
  unfold firstOpen
  cases Transition.firstOpen? data (e.outgoing current) with
  | error fault => rfl
  | ok found =>
    cases found with
    | none | some t => rfl

/-- The two searches are one search of the edges that are considered. -/
theorem ruling_iff_eq_pick {preferred : String} {data : Data}
    {outcome : Except Fault Transition} :
    Ruling current data (e.considered current preferred) outcome ↔
      outcome = e.pick current preferred data := by
  rw [Transition.ruling_iff]
  unfold pick considered
  by_cases hpreferred : preferred = ""
  · rw [if_pos hpreferred, if_pos (String.isEmpty_iff.2 hpreferred), firstOpen_eq_settle]
    rfl
  · rw [if_neg hpreferred, if_neg (mt String.isEmpty_iff.1 hpreferred),
      Transition.firstOpen?_append]
    cases Transition.firstOpen? data ((e.outgoing current).filter (·.target == preferred)) with
    | error fault => rfl
    | ok found =>
      cases found with
      | some t => rfl
      | none => rw [firstOpen_eq_settle]

theorem resolve_congr {e' : Engine} {preferred : String}
    (h : e'.outgoing current = e.outgoing current) :
    e'.resolve current preferred = e.resolve current preferred := by
  simp only [resolve, firstOpen, h]

def heed (run : Run) (verdict : Verdict) (m : Moment) : Except Fault Transition → Progress × Moment
  | .ok t => (.goesOn run, e.take current t verdict m)
  | .error fault => (.ended run (.error fault), m)

variable {e current} in
theorem follow_reaches_iff {verdict : Verdict} {m : Moment} {outcome : Except Fault Transition}
    (h : (e.resolve current verdict.next).Gives m outcome) (hlast : e.isLast verdict = false) :
    ∃ m₁, m.Noted m₁ ∧ ∀ d run r m',
      (e.follow current run (.ok verdict)).Reaches d m r m' ↔
        r = some (e.heed current run verdict m₁ outcome).1 ∧
          m' = (e.heed current run verdict m₁ outcome).2 := by
  obtain ⟨m₁, hm, hreaches⟩ := h
  refine ⟨m₁, hm, fun d run r m' => ?_⟩
  simp only [follow, hlast, Bool.false_eq_true, if_false, Work.reaches_bind]
  constructor
  · rintro (⟨_, _, hresolve, h⟩ | ⟨-, hresolve⟩)
    · obtain ⟨hr, rfl⟩ := (hreaches _ _ _).1 hresolve
      cases hr
      cases outcome with
      | ok t | error fault => exact h
    · cases ((hreaches _ _ _).1 hresolve).1
  · intro h
    refine .inl ⟨outcome, m₁, (hreaches _ _ _).2 ⟨rfl, rfl⟩, ?_⟩
    cases outcome with
    | ok t | error fault => exact h

structure Resolved (verdict : Verdict) (m : Moment) (outcome : Except Fault Transition) : Prop where
  /-- It comes out as the considered edges decide. -/
  ruling : ∀ other, Ruling current m.data (e.considered current verdict.next) other ↔
    other = outcome
  stuck : outcome = .error (.noTransition current) ↔
    ∀ t ∈ e.considered current verdict.next, t.answer m.data = .ok false
  gives : (e.resolve current verdict.next).Gives m outcome
  /-- The data of the verdict come in when an edge is taken, and so after the search. -/
  follow : e.isLast verdict = false → ∃ m₁, m.Noted m₁ ∧ ∀ d run r m',
    (e.follow current run (.ok verdict)).Reaches d m r m' ↔
      r = some (e.heed current run verdict m₁ outcome).1 ∧
        m' = (e.heed current run verdict m₁ outcome).2
  target : ∀ t m₁, outcome = .ok t →
    (e.take current t verdict m₁).context.currentState = t.target
  /-- The edges that leave other states may be any. -/
  elsewhere : ∀ e' : Engine, e'.outgoing current = e.outgoing current →
    e'.resolve current verdict.next = e.resolve current verdict.next
  /-- So may those after the first one that is not closed. -/
  later : ∀ (e' : Engine) (before after after' : List Transition) (t : Transition),
    e.considered current verdict.next = before ++ t :: after →
    e'.considered current verdict.next = before ++ t :: after' →
    t.answer m.data ≠ .ok false → (e'.resolve current verdict.next).Gives m outcome

/-- The first of the considered edges that is not closed decides how the search comes out, and
nothing else has any influence on it. -/
theorem resolution_ruled (verdict : Verdict) (m : Moment) :
    ∃ outcome, e.Resolved current verdict m outcome := by
  have hgives := e.resolve_gives current verdict.next m
  have hruling : ∀ other, Ruling current m.data (e.considered current verdict.next) other ↔
      other = e.pick current verdict.next m.data := fun _ => e.ruling_iff_eq_pick current
  have hlater : ∀ (e' : Engine) (before after after' : List Transition) (t : Transition),
      e.considered current verdict.next = before ++ t :: after →
      e'.considered current verdict.next = before ++ t :: after' →
      t.answer m.data ≠ .ok false →
      e'.pick current verdict.next m.data = e.pick current verdict.next m.data := by
    intro e' before after after' t h h' ht
    rw [← hruling, h, Transition.ruling_append_cons_congr ht, ← h', ruling_iff_eq_pick]
  exact ⟨_, {
    ruling := hruling
    stuck := ((hruling _).2 rfl).eq_noTransition_iff
    gives := hgives
    follow := follow_reaches_iff hgives
    target := fun _ _ _ => rfl
    elsewhere := fun _ => e.resolve_congr current
    later := fun e' _ _ _ _ h h' ht =>
      hlater e' _ _ _ _ h h' ht ▸ e'.resolve_gives current verdict.next m }⟩

def crossroads : Engine :=
  { (default : Engine) with
    transitions :=
      [.always "asked" "denied", .guarded "asked" "granted" (.exactly "consent" (.bool true)),
        .always "denied" "asked", .guarded "asked" "granted" (.failing (.failed "unsure"))] }

def consent : Verdict :=
  { next := "granted", data := [("consent", .bool true)] }

/-- The preferred state has a say before the edge that is always open, and the data of the verdict
come too late to open the first edge to it: the second one decides. -/
theorem resolution_ruled_crossroads :
    crossroads.isLast consent = false ∧
      ∃ m₁, Moment.Noted default m₁ ∧ ∀ d run r m',
        (crossroads.follow "asked" run (.ok consent)).Reaches d default r m' ↔
          r = some (.ended run (.error (.transition "asked" "granted" (.failed "unsure")))) ∧
            m' = m₁ := by
  have hlast : crossroads.isLast consent = false := rfl
  have hdecides : Transition.Decides (default : Moment).data
      (crossroads.considered "asked" consent.next)
      (.guarded "asked" "granted" (.failing (.failed "unsure"))) :=
    ⟨[.guarded "asked" "granted" (.exactly "consent" (.bool true))], _, rfl,
      List.forall_mem_singleton.2 rfl, nofun⟩
  obtain ⟨outcome, h⟩ := crossroads.resolution_ruled "asked" consent default
  obtain rfl : .error (.transition "asked" "granted" (.failed "unsure")) = outcome :=
    (h.ruling _).1 (.failed hdecides rfl)
  exact ⟨hlast, h.follow hlast⟩

end Engine

end Workflow
