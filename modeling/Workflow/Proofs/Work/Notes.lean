import Workflow.Proofs.Work.Calls

/-!
# What a waiting worker has noted

A worker that cannot go on has left a note of all that may wake it: an alarm for each instant at
which it has something to do, and its name with the hands that it waits for and with those that wait
for cancellation. Unless it is called, nothing of all this has come to pass yet.
-/

namespace Workflow

def Floor.Rings (f : Floor) (worker : Worker) (depth instant : Nat) : Prop :=
  ⟨instant, worker, depth⟩ ∈ f.alarms ∨ instant ≤ f.scene.now

def Floor.Hears (f : Floor) (worker : Worker) (i : Nat) : Prop :=
  f.Awaits worker i ∨ (worker, i) ∈ f.news ∨ ⟨worker, some i⟩ ∈ f.yielded

structure Join.Noted (owner : Nat → Worker) (worker : Worker) (f : Floor) (join : Join) : Prop where
  subset : join.missing ⊆ join.hands
  nodup : join.missing.Nodup
  mine : ∀ i ∈ join.missing, i < f.hands.length ∧ owner i = worker
  hears : 30 < join.hands.length → ∀ i ∈ join.missing, f.Hears worker i

namespace Thread

variable {α : Type}

/-- All that may wake the worker, which stands under `depth` limits, has been noted. -/
def Noted (owner : Nat → Worker) (worker : Worker) (f : Floor) : Nat → {α : Type} → Thread α → Prop
  | depth, _, .resting instant interrupts _ =>
    f.Rings worker depth instant ∧
      (∀ deadline ∈ interrupts.deadline, f.Rings worker depth deadline) ∧
      (interrupts.cancellable = true → worker ∈ f.watchers ∨ f.scene.cancelled = true)
  | _, _, .joining join _ => join.missing ≠ [] ∧ join.Noted owner worker f
  | depth, _, .within limit inner _ =>
    (limit.isSet = true → f.Rings worker depth limit.instant) ∧
      inner.Noted owner worker f (depth + 1)
  | _, _, _ => True

/-- Notes are not about calls. -/
theorem Noted.uncall {owner : Nat → Worker} {worker : Worker} {f : Floor} {depth : Nat}
    {th : Thread α} (h : th.Noted owner worker f depth) (queue : List Nat) (leadCalled : Bool) :
    th.Noted owner worker { f with queue, leadCalled } depth := by
  induction th generalizing depth with
  | ended value | ready work => trivial
  | resting instant interrupts next => exact h
  | joining join next => exact ⟨h.1, h.2.subset, h.2.nodup, h.2.mine, h.2.hears⟩
  | within limit inner next ih => exact ⟨h.1, ih h.2⟩

def IsIdle (worker : Worker) (f : Floor) : {α : Type} → Thread α → Prop
  | _, .ended _ => True
  | _, .ready _ => False
  | _, .resting instant interrupts _ =>
    f.scene.now < instant ∧ (∀ deadline ∈ interrupts.deadline, f.scene.now < deadline) ∧
      (interrupts.cancellable = true → f.scene.cancelled = false)
  | _, .joining join _ => ∀ i ∈ join.missing, f.Awaits worker i
  | _, .within limit inner _ =>
    limit.isSet = true ∧ f.scene.now < limit.instant ∧ inner.IsIdle worker f

structure Minded (owner : Nat → Worker) (worker : Worker) (f : Floor) (th : Thread α) : Prop where
  noted : th.Noted owner worker f 0
  idle : f.Stirs worker ∨ th.IsIdle worker f

end Thread

structure Floor.KeepsOwners (owner : Nat → Worker) (f : Floor) (owner' : Nat → Worker)
    (f' : Floor) : Prop where
  length : f.hands.length ≤ f'.hands.length
  owner : ∀ i < f.hands.length, owner' i = owner i

section Spared

variable {α : Type} {owner owner' : Nat → Worker} {worker : Worker} {f f' : Floor}
  (hs : Floor.Spares worker f f')

include hs

theorem Floor.Rings.mono {depth instant : Nat} (h : f.Rings worker depth instant) :
    f'.Rings worker depth instant := by
  rcases h with ha | hle
  · exact .inl (hs.alarms _ ha rfl)
  · exact .inr (hs.now ▸ hle)

theorem Join.Noted.mono {join : Join} (ho : Floor.KeepsOwners owner f owner' f')
    (h : join.Noted owner worker f) : join.Noted owner' worker f' where
  subset := h.subset
  nodup := h.nodup
  mine i hi := by
    obtain ⟨hlt, howner⟩ := h.mine i hi
    exact ⟨hlt.trans_le ho.length, (ho.owner i hlt).trans howner⟩
  hears hmany i hi := by
    rcases h.hears hmany i hi with ha | hn | hy
    · exact (hs.awaits i ha).imp_right fun hn => .inl hn.1
    · exact .inr (.inl (hs.news i hn))
    · rcases hs.yielded i hy with hy' | ⟨hn, -⟩
      · exact .inr (.inr hy')
      · exact .inr (.inl hn)

theorem Thread.Noted.mono {th : Thread α} {depth : Nat}
    (ho : Floor.KeepsOwners owner f owner' f') (h : th.Noted owner worker f depth) :
    th.Noted owner' worker f' depth := by
  induction th generalizing depth with
  | ended value | ready work => trivial
  | resting instant interrupts next =>
    obtain ⟨hinstant, hdeadline, hcancel⟩ := h
    refine ⟨hinstant.mono hs, fun deadline hd => (hdeadline deadline hd).mono hs, fun hc => ?_⟩
    rcases hcancel hc with hw | hcancelled
    · exact hs.watches hw
    · exact .inr (hs.cancelled hcancelled)
  | joining join next => exact ⟨h.1, h.2.mono hs ho⟩
  | within limit inner next ih => exact ⟨fun hset => (h.1 hset).mono hs, ih h.2⟩

/-- What wakes a worker also calls it. -/
theorem Thread.IsIdle.mono {th : Thread α} {depth : Nat} (hnoted : th.Noted owner worker f depth)
    (h : th.IsIdle worker f) : f'.IsCalled worker ∨ th.IsIdle worker f' := by
  induction th generalizing depth with
  | ended value => exact .inr trivial
  | ready work => cases h
  | resting instant interrupts next =>
    obtain ⟨hinstant, hdeadline, hcancel⟩ := h
    have hnow := hs.now
    by_cases hwoken : interrupts.cancellable = true ∧ f'.scene.cancelled = true
    · obtain ⟨hc, hcancelled⟩ := hwoken
      have hn := hcancel hc
      have hw := (hnoted.2.2 hc).resolve_right (by rw [hn]; exact Bool.false_ne_true)
      exact .inl (hs.cancels hw hn hcancelled)
    · refine .inr ⟨by omega, fun deadline hd => ?_, fun hc => ?_⟩
      · have := hdeadline deadline hd
        omega
      · exact Bool.eq_false_iff.2 fun hcancelled => hwoken ⟨hc, hcancelled⟩
  | joining join next =>
    by_cases hall : ∀ i ∈ join.missing, f'.Awaits worker i
    · exact .inr hall
    · obtain ⟨i, hi, hn⟩ : ∃ i ∈ join.missing, ¬f'.Awaits worker i := by
        by_contra hnone
        exact hall fun i hi => by_contra fun hn => hnone ⟨i, hi, hn⟩
      exact .inl ((hs.awaits i (h i hi)).resolve_left hn).2
  | within limit inner next ih =>
    obtain ⟨hset, hlt, hidle⟩ := h
    exact (ih hnoted.2 hidle).imp_right fun hidle' => ⟨hset, hs.now ▸ hlt, hidle'⟩

theorem Thread.Minded.mono {th : Thread α} (ho : Floor.KeepsOwners owner f owner' f')
    (h : th.Minded owner worker f) : th.Minded owner' worker f' where
  noted := h.noted.mono hs ho
  idle := by
    rcases h.idle with hstirs | hidle
    · exact .inl (hs.stirs hstirs)
    · exact (hidle.mono hs h.noted).imp_left .inl

end Spared

end Workflow
