import Workflow.Proofs.Work.Calls

/-!
# Operations that spare a worker

What one worker does on the floor leaves alone what the others rely on. Cancellation, the end of a
hand's work and the end of a round wake some of them; then they are called.
-/

namespace Workflow

namespace Floor

section Waiting

variable {owner : Nat → Worker} (f : Floor) (worker other : Worker) (i : Nat)

/-- If the run is cancelled, all that wait for it are called. -/
theorem spares_setScene {scene : Scene} (hnow : scene.now = f.scene.now)
    (hcancel : f.scene.cancelled = true → scene.cancelled = true) :
    Spares worker f (f.setScene scene) := by
  unfold setScene
  split
  next h =>
    have hcalls := callsMore_callAll { f with scene, watchers := [] } f.watchers
    have hcalled : worker ∈ f.watchers →
        ({ f with scene, watchers := [] }.callAll f.watchers).IsCalled worker :=
      isCalled_callAll _ worker
    generalize { f with scene, watchers := [] }.callAll f.watchers = g at hcalls hcalled
    have hscene : g.scene = scene := hcalls.scene
    rw [Bool.and_eq_true, Bool.not_eq_true'] at h
    exact
      { now := by rw [hscene, hnow]
        cancelled := fun _ => by rw [hscene, h.1]
        called := hcalls.called worker
        stirs := Or.imp (hcalls.called worker) fun ⟨call, hcall, hw⟩ =>
          ⟨call, by rw [hcalls.yielded]; exact hcall, hw⟩
        alarms := fun _ ha _ => by rw [hcalls.alarms]; exact ha
        watches := fun _ => .inr (by rw [hscene, h.1])
        cancels := fun hw _ _ => hcalled hw
        awaits := fun i hi => .inl ⟨(hcalls.hasEnded i).trans hi.1, (hcalls.clientOf i).trans hi.2⟩
        news := fun _ hn => by rw [hcalls.news]; exact hn
        yielded := fun _ hy => .inl (by rw [hcalls.yielded]; exact hy) }
  next h =>
    exact
      { now := hnow
        cancelled := hcancel
        called := id
        stirs := id
        alarms := fun _ ha _ => ha
        watches := .inl
        cancels := fun _ hn hc => by
          rw [Bool.and_eq_true, Bool.not_eq_true'] at h
          exact absurd ⟨hc, hn⟩ h
        awaits := fun _ => .inl
        news := fun _ => id
        yielded := fun _ => .inl }

theorem orderly_setScene (ho : f.Orderly owner) (scene : Scene) :
    (f.setScene scene).Orderly owner := by
  have hscene : { f with scene }.Orderly owner := ⟨ho.news, ho.yielded, ho.clients⟩
  unfold setScene
  split
  · exact (callsMore_callAll { f with scene, watchers := [] } f.watchers).orderly
      ⟨ho.news, ho.yielded, ho.clients⟩
  · exact hscene

theorem spares_setAlarm (alarm : Alarm) : Spares worker f (f.setAlarm alarm) :=
  .of_notes rfl id (fun _ ha _ => List.mem_append_left _ ha) id (fun _ h => h) (fun _ h => h)
    fun _ h _ => h

theorem spares_watch : Spares worker f (f.watch other) :=
  .of_notes rfl id (fun _ h _ => h) (List.mem_append_left _) (fun _ h => h) (fun _ h => h)
    fun _ h _ => h

variable {worker other} in
theorem spares_clearAlarms (hne : worker ≠ other) (depth : Nat) :
    Spares worker f (f.clearAlarms other depth) := by
  refine .of_notes rfl id (fun alarm ha hw => ?_) id (fun _ h => h) (fun _ h => h) fun _ h _ => h
  refine List.mem_filter.2 ⟨ha, ?_⟩
  rw [hw, bne_iff_ne.2 hne, Bool.true_or]

variable {worker other} in
theorem spares_unwatch (hne : worker ≠ other) : Spares worker f (f.unwatch other) :=
  .of_notes rfl id (fun _ h _ => h) (fun hw => List.mem_filter.2 ⟨hw, bne_iff_ne.2 hne⟩)
    (fun _ h => h) (fun _ h => h) fun _ h _ => h

theorem clientOf_await (j : Nat) :
    (f.await worker i).clientOf j =
      if i = j then f.hands[j]?.map fun _ => worker else f.clientOf j := by
  rw [clientOf, await, List.getElem?_modify, clientOf]
  cases f.hands[j]? with
  | none => simp
  | some hand => by_cases h : i = j <;> simp [h]

theorem hasEnded_await (j : Nat) : (f.await worker i).hasEnded j = f.hasEnded j :=
  hasEnded_congr (stations_await f worker i) j

variable {f worker other i} in
theorem spares_await (ho : f.Orderly owner) (hne : worker ≠ other) (hi : owner i = other) :
    Spares worker f (f.await other i) := by
  refine .of_notes rfl (fun hc => ?_) (fun _ h _ => h) id (fun j hj => ?_) (fun _ h => h)
    fun _ h _ => h
  · cases worker with
    | lead => exact hc
    | hand j => exact hc.imp_right (f.hasEnded_await other i j).trans
  · refine ⟨(f.hasEnded_await other i j).trans hj.1, ?_⟩
    have hij : i ≠ j := by
      rintro rfl
      exact hne ((ho.clients worker i hj.2).symm.trans hi)
    rw [clientOf_await, if_neg hij]
    exact hj.2

variable {f other i} in
theorem orderly_await (ho : f.Orderly owner) (hi : owner i = other) :
    (f.await other i).Orderly owner := by
  have hlength : (f.await other i).hands.length = f.hands.length := List.length_modify _ _ _
  refine ⟨fun worker j hj => ?_, fun worker j hj => ?_, fun worker j hj => ?_⟩
  · rw [hlength]
    exact ho.news worker j hj
  · rw [hlength]
    exact ho.yielded worker j hj
  · rw [clientOf_await] at hj
    split at hj
    next hij =>
      subst hij
      obtain ⟨_, -, rfl⟩ := Option.map_eq_some_iff.1 hj
      exact hi
    · exact ho.clients worker j hj

theorem awaits_await (hi : i < f.hands.length) (hn : f.hasEnded i = false) :
    (f.await worker i).Awaits worker i := by
  refine ⟨(f.hasEnded_await worker i i).trans hn, ?_⟩
  rw [clientOf_await, if_pos rfl, List.getElem?_eq_getElem hi]
  rfl

variable {f worker other i} in
theorem spares_release (ho : f.Orderly owner) (hne : worker ≠ other) (hi : owner i = other) :
    Spares worker f (f.release i) := by
  refine .of_notes rfl id (fun _ h _ => h) id (fun _ h => h) (fun _ h => h) fun call hcall hw => ?_
  refine List.mem_filter.2 ⟨hcall, bne_iff_ne.2 fun hbranch => hne ?_⟩
  obtain ⟨caller, branch⟩ := call
  cases hw
  cases hbranch
  exact (ho.yielded caller i hcall).2.symm.trans hi

theorem orderly_release (ho : f.Orderly owner) : (f.release i).Orderly owner :=
  ⟨ho.news, fun worker j hj => ho.yielded worker j (List.mem_filter.1 hj).1, ho.clients⟩

theorem clientOf_dismiss (j : Nat) :
    (f.dismiss worker).clientOf j =
      if f.clientOf j = some worker then none else f.clientOf j := by
  have hand : ∀ hand? : Option Hand,
      (hand?.map fun hand =>
        if hand.client = some worker then { hand with client := none } else hand).bind Hand.client =
        if hand?.bind Hand.client = some worker then none else hand?.bind Hand.client := fun hand? => by
    cases hand? with
    | none => rfl
    | some hand => by_cases h : hand.client = some worker <;> simp [h]
  rw [clientOf, dismiss, List.getElem?_map]
  exact hand f.hands[j]?

theorem hasEnded_dismiss (j : Nat) : (f.dismiss worker).hasEnded j = f.hasEnded j :=
  hasEnded_congr (stations_dismiss f worker) j

variable {worker other} in
theorem spares_dismiss (hne : worker ≠ other) : Spares worker f (f.dismiss other) := by
  refine .of_notes rfl (fun hc => ?_) (fun _ h _ => h) id (fun j hj => ?_)
    (fun j hj => List.mem_filter.2 ⟨hj, bne_iff_ne.2 hne⟩) fun call hcall hw => ?_
  · cases worker with
    | lead => exact hc
    | hand j => exact hc.imp_right (f.hasEnded_dismiss other j).trans
  · refine ⟨(f.hasEnded_dismiss other j).trans hj.1, ?_⟩
    rw [clientOf_dismiss, hj.2, if_neg fun h => hne (Option.some.inj h)]
  · refine List.mem_filter.2 ⟨hcall, ?_⟩
    rw [hw, bne_iff_ne.2 hne, Bool.true_or]

theorem orderly_dismiss (ho : f.Orderly owner) : (f.dismiss other).Orderly owner := by
  have hlength : (f.dismiss other).hands.length = f.hands.length := List.length_map _
  refine ⟨fun worker j hj => ?_, fun worker j hj => ?_, fun worker j hj => ?_⟩
  · rw [hlength]
    exact ho.news worker j (List.mem_filter.1 hj).1
  · rw [hlength]
    exact ho.yielded worker j (List.mem_filter.1 hj).1
  · rw [clientOf_dismiss] at hj
    split at hj
    · cases hj
    · exact ho.clients worker j hj

end Waiting

section Hands

variable {owner : Nat → Worker} (f : Floor) (worker other : Worker) (i : Nat)

theorem spares_hire (hand : Hand) : Spares worker f (f.hire hand) := by
  have hlt : ∀ j < f.hands.length, (f.hands ++ [hand])[j]? = f.hands[j]? := fun j hj =>
    List.getElem?_append_left hj
  have hended : ∀ j < f.hands.length,
      { f with hands := f.hands ++ [hand] }.hasEnded j = f.hasEnded j := fun j hj => by
    rw [hasEnded, reply?, hlt j hj, hasEnded, reply?]
  have hnew : Spares worker f { f with hands := f.hands ++ [hand] } := by
    refine .of_notes rfl (fun hc => ?_) (fun _ h _ => h) id (fun j hj => ?_) (fun _ h => h)
      fun _ h _ => h
    · cases worker with
      | lead => exact hc
      | hand j =>
        refine hc.imp_right fun h => ?_
        exact (hended j (f.length_stations ▸ lt_of_hasEnded h)).trans h
    · have hj' : j < f.hands.length := lt_of_clientOf hj.2
      refine ⟨(hended j hj').trans hj.1, ?_⟩
      rw [clientOf, hlt j hj']
      exact hj.2
  exact hnew.trans ((callsMore_call _ _).spares worker)

theorem isCalled_hire (hand : Hand) : (f.hire hand).IsCalled (.hand f.hands.length) :=
  isCalled_call _ _

variable {f worker i} in
theorem clientOf_of_hire {hand : Hand} (hhand : hand.client = none)
    (h : (f.hire hand).clientOf i = some worker) : f.clientOf i = some worker := by
  rw [hire, (callsMore_call _ _).clientOf, clientOf] at h
  rcases Nat.lt_or_ge i f.hands.length with hlt | hge
  · rw [List.getElem?_append_left hlt] at h
    exact h
  · rw [List.getElem?_append_right hge] at h
    obtain ⟨hand', hget, hclient⟩ := Option.bind_eq_some_iff.1 h
    rw [List.mem_singleton.1 (List.mem_of_getElem? hget), hhand] at hclient
    cases hclient

structure Hires (f f' : Floor) : Prop where
  length : f.hands.length ≤ f'.hands.length
  spares : ∀ worker, Spares worker f f'
  called : ∀ i ≥ f.hands.length, i < f'.hands.length → f'.IsCalled (.hand i)
  clients : ∀ i worker, f'.clientOf i = some worker → f.clientOf i = some worker
  news : f'.news = f.news
  yielded : f'.yielded = f.yielded

theorem hires (context : Context) (works : List (Work (Except Fault Unit))) :
    Hires f (works.foldl (fun f work => f.hire { context, thread := .ready work }) f) := by
  induction works generalizing f with
  | nil =>
    exact ⟨Nat.le_refl _, fun worker => .refl worker f,
      fun i hi hlt => absurd hlt (Nat.not_lt_of_le hi),
      fun _ _ => id, rfl, rfl⟩
  | cons work works ih =>
    let hand : Hand := { context, thread := .ready work }
    have hcalls := callsMore_call { f with hands := f.hands ++ [hand] } (.hand f.hands.length)
    have hlength : (f.hire hand).hands.length = f.hands.length + 1 := by
      rw [hire, hcalls.hands, List.length_append]
      rfl
    have h := ih (f.hire hand)
    have hle := h.length
    rw [hlength] at hle
    refine
      { length := (Nat.le_succ _).trans hle
        spares := fun worker => (spares_hire f worker hand).trans (h.spares worker)
        called := fun i hi hlt => ?_
        clients := fun i worker hi => clientOf_of_hire rfl (h.clients i worker hi)
        news := h.news.trans hcalls.news
        yielded := h.yielded.trans hcalls.yielded }
    rcases Nat.eq_or_lt_of_le hi with rfl | hgt
    · exact (h.spares _).called (isCalled_hire f hand)
    · exact h.called i (hlength ▸ hgt) hlt

theorem spares_announce : Spares worker f (f.announce i) := by
  unfold announce
  split
  · exact spares_tell f _ worker i
  · exact .refl worker f

theorem orderly_announce (ho : f.Orderly owner) (hi : i < f.hands.length) :
    (f.announce i).Orderly owner := by
  unfold announce
  split
  next client hclient => exact orderly_tell f client i ho hi (ho.clients client i hclient)
  · exact ho

theorem clientOf_station (station : Station (Except Fault Unit)) (j : Nat) :
    { f with hands := f.hands.modify i fun hand => { hand with toStation := station } }.clientOf j =
      f.clientOf j := by
  rw [clientOf, clientOf, List.getElem?_modify]
  cases f.hands[j]? with
  | none => rfl
  | some hand => by_cases h : i = j <;> simp [h]

/-- A worker that waits for hand `i` is told when its work has ended. -/
theorem spares_put {station : Station (Except Fault Unit)} (hi : f.hasEnded i = false) :
    Spares worker f (f.put i station) := by
  let g : Floor := { f with
    hands := f.hands.modify i fun hand => { hand with toStation := station } }
  have hclient : ∀ j, g.clientOf j = f.clientOf j := f.clientOf_station i station
  have hended : ∀ j, i ≠ j → g.hasEnded j = f.hasEnded j := fun j hj => by
    rw [hasEnded, reply?, List.getElem?_modify, hasEnded, reply?]
    cases f.hands[j]? with
    | none => rfl
    | some hand => simp [hj]
  have hcalled : f.IsCalled worker → g.IsCalled worker := fun hc => by
    cases worker with
    | lead => exact hc
    | hand j =>
      refine hc.imp_right fun h => (hended j ?_).trans h
      rintro rfl
      rw [hi] at h
      cases h
  show Spares worker f (if g.hasEnded i then g.announce i else g)
  split
  next hg =>
    have hannounce := spares_announce g worker i
    exact
      { now := hannounce.now
        cancelled := hannounce.cancelled
        called := hannounce.called ∘ hcalled
        stirs := hannounce.stirs ∘ Or.imp_left hcalled
        alarms := hannounce.alarms
        watches := hannounce.watches
        cancels := hannounce.cancels
        awaits := fun j hj => by
          by_cases hij : i = j
          · subst hij
            have hclient' : g.hands[i]?.bind Hand.client = some worker := (hclient i).trans hj.2
            refine .inr ?_
            rw [announce, hclient']
            exact ⟨mem_news_tell g worker i, isCalled_tell g worker i⟩
          · exact hannounce.awaits j ⟨(hended j hij).trans hj.1, (hclient j).trans hj.2⟩
        news := hannounce.news
        yielded := hannounce.yielded }
  next hg =>
    refine .of_notes rfl hcalled (fun _ h _ => h) id (fun j hj => ?_) (fun _ h => h) fun _ h _ => h
    refine ⟨?_, (hclient j).trans hj.2⟩
    by_cases hij : i = j
    · subst hij
      exact Bool.eq_false_iff.2 hg
    · exact (hended j hij).trans hj.1

theorem orderly_put {station : Station (Except Fault Unit)} (ho : f.Orderly owner) :
    (f.put i station).Orderly owner := by
  let g : Floor := { f with
    hands := f.hands.modify i fun hand => { hand with toStation := station } }
  have hlength : g.hands.length = f.hands.length := List.length_modify _ _ _
  have hclient : ∀ j, g.clientOf j = f.clientOf j := f.clientOf_station i station
  have hg : g.Orderly owner :=
    ⟨fun worker j hj => hlength ▸ ho.news worker j hj,
      fun worker j hj => hlength ▸ ho.yielded worker j hj,
      fun worker j hj => ho.clients worker j ((hclient j).symm.trans hj)⟩
  show (if g.hasEnded i then g.announce i else g).Orderly owner
  split
  next hended => exact orderly_announce g i hg (g.length_stations ▸ lt_of_hasEnded hended)
  · exact hg

end Hands

section Round

variable {owner : Nat → Worker} (f : Floor) (worker : Worker)

variable {f worker} in
theorem spares_pop {i : Nat} {queue : List Nat} (hqueue : f.queue = i :: queue)
    (hne : worker ≠ .hand i) : Spares worker f { f with queue } := by
  refine .of_notes rfl (fun hc => ?_) (fun _ h _ => h) id (fun _ h => h) (fun _ h => h)
    fun _ h _ => h
  cases worker with
  | lead => exact hc
  | hand j =>
    refine hc.imp_left fun hj => ?_
    rw [hqueue] at hj
    exact (List.mem_cons.1 hj).resolve_left fun hji => hne (congrArg Worker.hand hji)

variable {f worker} in
theorem spares_leadTurn (hne : worker ≠ .lead) :
    Spares worker f { f with leadCalled := false } := by
  refine .of_notes rfl (fun hc => ?_) (fun _ h _ => h) id (fun _ h => h) (fun _ h => h)
    fun _ h _ => h
  cases worker with
  | lead => exact absurd rfl hne
  | hand j => exact hc

theorem spares_callBack (call : Call) : Spares worker f (f.callBack call) := by
  unfold callBack
  split
  · exact spares_tell f _ worker _
  · exact (callsMore_call f _).spares worker

theorem spares_callBacks (calls : List Call) : Spares worker f (calls.foldl callBack f) := by
  induction calls generalizing f with
  | nil => exact .refl worker f
  | cons call calls ih => exact (spares_callBack f worker call).trans (ih _)

theorem called_callBacks {calls : List Call} {branch : Option Nat}
    (h : ⟨worker, branch⟩ ∈ calls) :
    (calls.foldl callBack f).IsCalled worker ∧
      ∀ i ∈ branch, (worker, i) ∈ (calls.foldl callBack f).news := by
  induction calls generalizing f with
  | nil => cases h
  | cons call calls ih =>
    rcases List.mem_cons.1 h with rfl | h
    · have hspares := spares_callBacks (f.callBack ⟨worker, branch⟩) worker calls
      cases branch with
      | none =>
        refine ⟨hspares.called (isCalled_call f worker), fun i hi => ?_⟩
        cases hi
      | some i =>
        refine ⟨hspares.called (isCalled_tell f worker i), fun j hj => ?_⟩
        cases hj
        exact hspares.news i (mem_news_tell f worker i)
    · exact ih _ h

theorem orderly_callBacks (ho : f.Orderly owner) {calls : List Call}
    (hcalls : ∀ worker i, ⟨worker, some i⟩ ∈ calls → i < f.hands.length ∧ owner i = worker) :
    (calls.foldl callBack f).Orderly owner := by
  induction calls generalizing f with
  | nil => exact ho
  | cons call calls ih =>
    obtain ⟨caller, branch⟩ := call
    have hlength : (f.callBack ⟨caller, branch⟩).hands = f.hands := by
      cases branch with
      | none => exact hands_call f caller
      | some i => exact hands_tell f caller i
    refine ih _ ?_ fun worker i hi => ?_
    · cases branch with
      | none => exact (callsMore_call f caller).orderly ho
      | some i =>
        obtain ⟨hi, howner⟩ := hcalls caller i List.mem_cons_self
        exact orderly_tell f caller i ho hi howner
    · rw [hlength]
      exact hcalls worker i (List.mem_cons_of_mem _ hi)

/-- Those that have given way are called at the end of the round. -/
theorem spares_callYielded : Spares worker f f.callYielded := by
  have h := spares_callBacks { f with yielded := [] } worker f.yielded
  rw [callYielded_eq]
  exact
    { now := h.now
      cancelled := h.cancelled
      called := h.called
      stirs := fun hs => by
        rcases hs with hc | ⟨⟨caller, branch⟩, hcall, rfl⟩
        · exact .inl (h.called hc)
        · exact .inl (called_callBacks _ caller hcall).1
      alarms := h.alarms
      watches := h.watches
      cancels := h.cancels
      awaits := h.awaits
      news := h.news
      yielded := fun i hi => by
        obtain ⟨hc, hn⟩ := called_callBacks { f with yielded := [] } worker hi
        exact .inr ⟨hn i rfl, hc⟩ }

theorem orderly_callYielded (ho : f.Orderly owner) : f.callYielded.Orderly owner := by
  rw [callYielded_eq]
  refine orderly_callBacks { f with yielded := [] } ⟨ho.news, fun worker i hi => ?_, ho.clients⟩
    ho.yielded
  cases hi

end Round

end Floor

end Workflow
