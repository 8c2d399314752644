import Workflow.Proofs.Work.Collect

/-!
# What is noted for a worker

A worker that waits relies on what the floor has noted: its alarms, that it wants to know about
cancellation, the hands that are going to tell it when they have ended, the news that it has not
read, and that it has given way. A floor spares a worker if all of this is still there, or else the
worker has been called. `owner` tells which hand was hired by whom; a worker meddles only with its
own hands.
-/

namespace Workflow

namespace Floor

def IsCalled (f : Floor) : Worker → Prop
  | .lead => f.leadCalled = true
  | .hand i => i ∈ f.queue ∨ f.hasEnded i = true

def Stirs (f : Floor) (worker : Worker) : Prop :=
  f.IsCalled worker ∨ ∃ call ∈ f.yielded, call.worker = worker

def clientOf (f : Floor) (i : Nat) : Option Worker :=
  f.hands[i]?.bind Hand.client

def Awaits (f : Floor) (worker : Worker) (i : Nat) : Prop :=
  f.hasEnded i = false ∧ f.clientOf i = some worker

theorem lt_of_clientOf {f : Floor} {worker : Worker} {i : Nat}
    (h : f.clientOf i = some worker) : i < f.hands.length := by
  by_contra hge
  rw [clientOf, List.getElem?_eq_none (Nat.le_of_not_lt hge)] at h
  cases h

/-- All that a worker is told or waits for concerns the hands that it has hired. -/
structure Orderly (owner : Nat → Worker) (f : Floor) : Prop where
  news : ∀ worker i, (worker, i) ∈ f.news → i < f.hands.length ∧ owner i = worker
  yielded : ∀ worker i, ⟨worker, some i⟩ ∈ f.yielded → i < f.hands.length ∧ owner i = worker
  clients : ∀ worker i, f.clientOf i = some worker → owner i = worker

/-- What the worker relies on is still there, or it has been called. -/
structure Spares (worker : Worker) (f f' : Floor) : Prop where
  now : f'.scene.now = f.scene.now
  cancelled : f.scene.cancelled = true → f'.scene.cancelled = true
  called : f.IsCalled worker → f'.IsCalled worker
  stirs : f.Stirs worker → f'.Stirs worker
  alarms : ∀ alarm ∈ f.alarms, alarm.worker = worker → alarm ∈ f'.alarms
  watches : worker ∈ f.watchers → worker ∈ f'.watchers ∨ f'.scene.cancelled = true
  cancels : worker ∈ f.watchers → f.scene.cancelled = false → f'.scene.cancelled = true →
    f'.IsCalled worker
  awaits : ∀ i, f.Awaits worker i →
    f'.Awaits worker i ∨ (worker, i) ∈ f'.news ∧ f'.IsCalled worker
  news : ∀ i, (worker, i) ∈ f.news → (worker, i) ∈ f'.news
  yielded : ∀ i, ⟨worker, some i⟩ ∈ f.yielded →
    ⟨worker, some i⟩ ∈ f'.yielded ∨ (worker, i) ∈ f'.news ∧ f'.IsCalled worker

namespace Spares

variable {worker : Worker} {f f' f'' : Floor}

theorem trans (h : Spares worker f f') (h' : Spares worker f' f'') : Spares worker f f'' where
  now := h'.now.trans h.now
  cancelled := h'.cancelled ∘ h.cancelled
  called := h'.called ∘ h.called
  stirs := h'.stirs ∘ h.stirs
  alarms alarm ha hw := h'.alarms alarm (h.alarms alarm ha hw) hw
  watches hw := by
    rcases h.watches hw with hw' | hc
    · exact h'.watches hw'
    · exact .inr (h'.cancelled hc)
  cancels hw hn hc := by
    cases hc' : f'.scene.cancelled with
    | true => exact h'.called (h.cancels hw hn hc')
    | false =>
      have hw' := (h.watches hw).resolve_right (by rw [hc']; exact Bool.false_ne_true)
      exact h'.cancels hw' hc' hc
  awaits i hi := by
    rcases h.awaits i hi with hi' | ⟨hn, hc⟩
    · exact h'.awaits i hi'
    · exact .inr ⟨h'.news i hn, h'.called hc⟩
  news i hi := h'.news i (h.news i hi)
  yielded i hi := by
    rcases h.yielded i hi with hi' | ⟨hn, hc⟩
    · exact h'.yielded i hi'
    · exact .inr ⟨h'.news i hn, h'.called hc⟩

/-- Nothing has happened that the worker would notice, but perhaps that it has been called. -/
theorem of_notes (hscene : f'.scene = f.scene) (hcalled : f.IsCalled worker → f'.IsCalled worker)
    (halarms : ∀ alarm ∈ f.alarms, alarm.worker = worker → alarm ∈ f'.alarms)
    (hwatches : worker ∈ f.watchers → worker ∈ f'.watchers)
    (hawaits : ∀ i, f.Awaits worker i → f'.Awaits worker i)
    (hnews : ∀ i, (worker, i) ∈ f.news → (worker, i) ∈ f'.news)
    (hyielded : ∀ call ∈ f.yielded, call.worker = worker → call ∈ f'.yielded) :
    Spares worker f f' where
  now := congrArg Scene.now hscene
  cancelled hc := hscene ▸ hc
  called := hcalled
  stirs := Or.imp hcalled fun ⟨call, hcall, hw⟩ => ⟨call, hyielded call hcall hw, hw⟩
  alarms := halarms
  watches hw := .inl (hwatches hw)
  cancels _ hn hc := by
    rw [hscene, hn] at hc
    cases hc
  awaits i hi := .inl (hawaits i hi)
  news := hnews
  yielded i hi := .inl (hyielded _ hi rfl)

theorem refl (worker : Worker) (f : Floor) : Spares worker f f :=
  .of_notes rfl id (fun _ h _ => h) id (fun _ h => h) (fun _ h => h) fun _ h _ => h

end Spares

section Calling

variable (f : Floor) (worker other : Worker) (i : Nat)

structure CallsMore (f f' : Floor) : Prop where
  called : ∀ worker, f.IsCalled worker → f'.IsCalled worker
  alarms : f'.alarms = f.alarms
  watchers : f'.watchers = f.watchers
  news : f'.news = f.news
  yielded : f'.yielded = f.yielded
  hands : f'.hands = f.hands
  scene : f'.scene = f.scene

namespace CallsMore

variable {f f' f'' : Floor}

theorem refl (f : Floor) : CallsMore f f :=
  ⟨fun _ => id, rfl, rfl, rfl, rfl, rfl, rfl⟩

theorem trans (h : CallsMore f f') (h' : CallsMore f' f'') : CallsMore f f'' where
  called worker hc := h'.called worker (h.called worker hc)
  alarms := h'.alarms.trans h.alarms
  watchers := h'.watchers.trans h.watchers
  news := h'.news.trans h.news
  yielded := h'.yielded.trans h.yielded
  hands := h'.hands.trans h.hands
  scene := h'.scene.trans h.scene

theorem clientOf (h : CallsMore f f') (i : Nat) : f'.clientOf i = f.clientOf i := by
  rw [Floor.clientOf, h.hands, Floor.clientOf]

theorem hasEnded (h : CallsMore f f') (i : Nat) : f'.hasEnded i = f.hasEnded i :=
  hasEnded_congr (stations_congr h.hands) i

theorem spares (h : CallsMore f f') (worker : Worker) : Spares worker f f' :=
  .of_notes h.scene (h.called worker) (fun _ ha _ => h.alarms ▸ ha) (fun hw => h.watchers ▸ hw)
    (fun i hi => ⟨(h.hasEnded i).trans hi.1, (h.clientOf i).trans hi.2⟩)
    (fun _ hn => h.news ▸ hn) fun _ hy _ => h.yielded ▸ hy

theorem orderly (h : CallsMore f f') {owner : Nat → Worker} (ho : f.Orderly owner) :
    f'.Orderly owner where
  news worker i hn := by
    rw [h.hands]
    exact ho.news worker i (h.news ▸ hn)
  yielded worker i hy := by
    rw [h.hands]
    exact ho.yielded worker i (h.yielded ▸ hy)
  clients worker i hc := ho.clients worker i ((h.clientOf i).symm.trans hc)

end CallsMore

theorem callsMore_call : CallsMore f (f.call worker) := by
  cases worker with
  | lead =>
    refine ⟨fun other h => ?_, rfl, rfl, rfl, rfl, rfl, rfl⟩
    cases other with
    | lead => rfl
    | hand j => exact h
  | hand i =>
    simp only [call]
    split
    · exact .refl f
    · refine ⟨fun other h => ?_, rfl, rfl, rfl, rfl, rfl, rfl⟩
      cases other with
      | lead => exact h
      | hand j => exact h.imp_left (List.mem_append_left _)

theorem callsMore_callAll (workers : List Worker) : CallsMore f (f.callAll workers) := by
  induction workers generalizing f with
  | nil => exact .refl f
  | cons worker workers ih => exact (f.callsMore_call worker).trans (ih _)

theorem isCalled_call : (f.call worker).IsCalled worker := by
  cases worker with
  | lead => rfl
  | hand i =>
    simp only [call]
    split
    next h =>
      rw [Bool.or_eq_true] at h
      exact h.imp_left List.contains_iff_mem.1
    · exact .inl (List.mem_append_right _ List.mem_cons_self)

theorem isCalled_callAll {workers : List Worker} (h : worker ∈ workers) :
    (f.callAll workers).IsCalled worker := by
  induction workers generalizing f with
  | nil => cases h
  | cons first workers ih =>
    rcases List.mem_cons.1 h with rfl | h
    · exact (callsMore_callAll _ workers).called _ (f.isCalled_call worker)
    · exact ih _ h

/-- A floor on which a worker has been told of hand `i`. -/
theorem mem_news_tell : (worker, i) ∈ (f.tell worker i).news := by
  unfold tell
  rw [(callsMore_call _ worker).news]
  dsimp only
  split
  next h => exact List.contains_iff_mem.1 h
  · exact List.mem_append_right _ List.mem_cons_self

theorem eq_or_mem_of_tell {other : Worker} {j : Nat} (h : (other, j) ∈ (f.tell worker i).news) :
    (other, j) = (worker, i) ∨ (other, j) ∈ f.news := by
  unfold tell at h
  rw [(callsMore_call _ worker).news] at h
  dsimp only at h
  split at h
  · exact .inr h
  · exact (List.mem_append.1 h).symm.imp_left List.mem_singleton.1

theorem spares_tell : Spares other f (f.tell worker i) := by
  have hnote : Spares other f { f with
      news := if f.news.contains (worker, i) then f.news else f.news ++ [(worker, i)] } := by
    refine .of_notes rfl id (fun _ h _ => h) id (fun _ h => h) (fun j h => ?_) fun _ h _ => h
    dsimp only
    split
    · exact h
    · exact List.mem_append_left _ h
  exact hnote.trans ((callsMore_call _ worker).spares other)

theorem isCalled_tell : (f.tell worker i).IsCalled worker :=
  isCalled_call _ worker

theorem orderly_tell {owner : Nat → Worker} (ho : f.Orderly owner) (hi : i < f.hands.length)
    (howner : owner i = worker) : (f.tell worker i).Orderly owner := by
  have hcalls := callsMore_call { f with
    news := if f.news.contains (worker, i) then f.news else f.news ++ [(worker, i)] } worker
  refine ⟨fun other j hj => ?_, fun other j hj => ?_, fun other j hj => ?_⟩
  · rw [hands_tell]
    rcases f.eq_or_mem_of_tell worker i hj with heq | hj
    · cases heq
      exact ⟨hi, howner⟩
    · exact ho.news other j hj
  · rw [hands_tell]
    exact ho.yielded other j (hcalls.yielded ▸ hj)
  · exact ho.clients other j ((hcalls.clientOf j).symm.trans hj)

theorem mem_yielded_giveWay (call : Call) : call ∈ (f.giveWay call).yielded := by
  unfold giveWay
  split
  next h => exact List.mem_of_mem_head? h
  · exact List.mem_cons_self

theorem yielded_subset_giveWay (call : Call) : f.yielded ⊆ (f.giveWay call).yielded := by
  unfold giveWay
  split
  · exact List.Subset.refl _
  · exact List.subset_cons_self _ _

theorem news_giveWay (call : Call) : (f.giveWay call).news = f.news := by
  unfold giveWay
  split <;> rfl

theorem spares_giveWay (call : Call) : Spares worker f (f.giveWay call) := by
  unfold giveWay
  split
  · exact .refl worker f
  · exact .of_notes rfl id (fun _ h _ => h) id (fun _ h => h) (fun _ h => h)
      fun _ h _ => List.mem_cons_of_mem _ h

theorem orderly_giveWay {owner : Nat → Worker} (ho : f.Orderly owner) {call : Call}
    (hcall : ∀ i ∈ call.branch, i < f.hands.length ∧ owner i = call.worker) :
    (f.giveWay call).Orderly owner := by
  unfold giveWay
  split
  · exact ho
  · refine ⟨ho.news, fun other j hj => ?_, ho.clients⟩
    rcases List.mem_cons.1 hj with heq | hj
    · subst heq
      exact hcall j rfl
    · exact ho.yielded other j hj

end Calling

end Floor

end Workflow
