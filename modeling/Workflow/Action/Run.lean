import Workflow.Action.Basic
import Workflow.Action.Template
import Workflow.Retry.Loop

/-!
# Running actions

The meaning of actions: the work that each kind stands for, by recursion on the tree.
-/

namespace Workflow

namespace Leaf

def markedFault (permanent : Bool) (fault : Fault) : Fault :=
  if permanent then .permanent fault else fault

def run (name : String) (place : Place) : Leaf → Work (Except Fault Unit)
  | noop => .idle
  | set key value => .change (·.set key value)
  | copy origin target =>
    .look fun m =>
      match m.data.get? origin with
      | some value => .change (·.set target value)
      | none => .fail (.failed ("key not found: " ++ origin))
  | fail message permanent => .fail (markedFault permanent (.failed message))
  | delay span => .wait span {}
  | log message =>
    .change fun m =>
      m.report .info (Template.render m.data message)
        [("action", name), ("state", m.context.currentState)]
  | apply f =>
    .look fun m =>
      .after (·.update fun ctx => { ctx with data := (f m.data).1 }) (.done (f m.data).2)
  | flaky failures permanent =>
    .act (·.start place) fun m =>
      let count := m.startsAt place
      if count ≤ failures then
        .fail (markedFault permanent
          (.failed (name ++ " attempt " ++ toString count ++ " failed")))
      else .change (·.record name "executed" true)
  | mark extra => .change fun m => (m.record name "executed" true).update (·.merge extra)
  | cancel none => .change Moment.cancel
  | cancel (some fault) => .after Moment.cancel (.fail fault)
  | raise fault => .fail fault

end Leaf

namespace Action

def indexed (name part : String) (i : Nat) : String :=
  name ++ "[" ++ part ++ " " ++ toString i ++ "]"

/-- Records which branch of a choice runs; `-1` stands for none or the default. -/
def recordChoice (name : String) (index : Int) (m : Moment) : Moment :=
  (m.set "branch_taken" (.int index)).record name "branch_taken" (.int index)

def retrier (site : Site) (name : String) (policy : RetryPolicy) (veto : Veto) : Retrier where
  policy
  label := name
  retryable fault := veto.allows fault
  draws := site.draws.number

def retryFault (name : String) (failure : RetryFailure) : Fault :=
  match failure.reason with
  | .exhausted => .exhausted name failure.attempts failure.fault
  | _ => .action name failure.fault

/-- Records the waits of a retry action in order, from its retries, last one first. -/
def recordDelays (name : String) (events : List RetryEvent) (m : Moment) : Moment :=
  m.record name "delays_ms" (.array (events.reverse.map fun event => .ofNat event.delay.millisWord))

structure Findings where
  completed : Nat := 0
  errors : List String := []
  failedStep : Option Nat := none

def recordCompleted (name : String) (findings : Findings) (m : Moment) : Moment :=
  m.record name "completed_steps" (.ofNat findings.completed)

def recordProblem (name : String) (i : Nat) (findings : Findings) (m : Moment) : Moment :=
  let m := if findings.failedStep = some i then m.record name "failed_step" (.ofNat i) else m
  (m.record name "errors" (.array (findings.errors.map Json.string))).record name "valid" false

def Findings.add (findings : Findings) (i : Nat) (fault : Fault) : Findings :=
  { findings with
    errors := findings.errors ++ [fault.message]
    failedStep := findings.failedStep.or (some i) }

/-- What a validated sequence finds in step `i` after it has run: a fault, or nothing when the step
is good. It fails when the test cannot be evaluated. -/
def verdict (name : String) (i : Nat) (action : String) (test : Option Predicate)
    (outcome : Except Fault Unit) (data : Data) : Except Fault (Option Fault) :=
  match outcome, test with
  | .error fault, _ => .ok (some (.action action fault))
  | .ok (), none => .ok none
  | .ok (), some test =>
    match test.evaluate data with
    | .error fault => .error (.action (indexed name "validator" i) fault)
    | .ok true => .ok none
    | .ok false =>
      .ok (some (.failed
        ("validation failed after step " ++ toString i ++ " (" ++ action ++ ")")))

structure Taken where
  completed : List Nat := []
  skipped : List Nat := []

def recordTaken (name suffix : String) (steps : List Nat) (m : Moment) : Moment :=
  m.record name suffix (.array (steps.map Json.ofNat))

def branchFaults (names : List String) (replies : List Reply) : List Fault :=
  (names.zip replies).filterMap fun (name, reply) =>
    match reply.outcome with
    | .error fault => some (.action name fault)
    | .ok () => none

/-- What the branches that succeeded have changed in the data. -/
def branchChanges (base : Data) (replies : List Reply) : List Data :=
  replies.filterMap fun reply =>
    match reply.outcome with
    | .ok () => some (base.changes reply.context.data)
    | .error _ => none

def mergeChanges (name : String) (strategy : MergeStrategy) (total : Nat) (changes : List Data)
    (m : Moment) : Moment :=
  let selected := strategy.select total changes
  let m :=
    if strategy = .majority && !decide (total < 2 * changes.length) then
      m.report .debug "No majority, skipping merge"
        [("action", name), ("successes", toString changes.length), ("total", toString total)]
    else m
  let m := m.report .debug "Merging parallel results"
    [("action", name), ("strategy", strategy.name), ("merged", toString selected.length),
      ("total", toString total)]
  selected.foldl (fun m changes => m.update (·.merge changes)) m

def reportBranchFault (name : String) (m : Moment) (fault : Fault) : Moment :=
  m.report .warn "Parallel branch failed, continuing"
    [("action", name), ("error", fault.message)]

/-- What a parallel action makes of the replies of its branches; `base` is the data from which they
started. -/
def join (name : String) (names : List String) (strategy : MergeStrategy) (continueOnError : Bool)
    (base : Data) (replies : List Reply) : Work (Except Fault Unit) :=
  let faults := branchFaults names replies
  if !faults.isEmpty && !continueOnError then .fail (.aggregate name faults)
  else
    .change fun m =>
      mergeChanges name strategy names.length (branchChanges base replies)
        (faults.foldl (reportBranchFault name) m)

mutual

def run (site : Site) : Action → Work (Except Fault Unit)
  | leaf name work => work.run name site.toPlace
  | sequence name actions => runSequence site name 0 actions
  | conditional name test yes no =>
    .look fun m =>
      match test.evaluate m.data with
      | .error fault => .fail (.action name fault)
      | .ok true =>
        .after (·.record name "condition" true) (runOptional (site.part 0) yes)
      | .ok false =>
        .after (·.record name "condition" false) (runOptional (site.part 1) no)
  | choice name branches default =>
    runChoice site name 0 branches
      (.after (fun m =>
          let m := recordChoice name (-1) m
          if default.isSome then m.report .debug "Default branch selected" [("action", name)]
          else m)
        ((runOptional (site.part 0) default).mapFault (.action (name ++ "[default]"))))
  | retry name policy veto delays body =>
    let op := fun n => .after (·.record name "attempts" (.ofNat n)) (run (site.turn n) body)
    let onRetry := if delays then recordDelays name else fun _ m => m
    ((retrier site name policy veto).run op onRetry).bind fun retried =>
      .done (retried.result.mapError (retryFault name))
  | fallback name primary secondary =>
    (run (site.part 0) primary).bind fun
      | .ok () => .change (·.record name "source" "primary")
      | .error fault =>
        .after (fun m =>
            (m.report .warn "Primary failed, running fallback"
              [("action", name), ("primary", primary.name), ("error", fault.message)]).record
                name "primary_error" fault.message)
          ((run (site.part 1) secondary).bind fun
            | .ok () => .change (·.record name "source" "fallback")
            | .error fault' =>
              .after (·.record name "fallback_error" fault'.message)
                (.fail (.aggregate (name ++ ": primary and fallback failed")
                  [.action primary.name fault, .action secondary.name fault'])))
  | validated name steps continueOnError => runValidated site name continueOnError 0 {} steps
  | parallel name branches strategy continueOnError =>
    .look fun m =>
      (Work.together (runBranches site 0 branches)).bind
        (join name (branches.map Action.name) strategy continueOnError m.data)
  | progressive name steps => runProgressive site name 0 {} steps

def runOptional (site : Site) : Option Action → Work (Except Fault Unit)
  | some action => run site action
  | none => .idle

def runSequence (site : Site) (name : String) (i : Nat) :
    List Action → Work (Except Fault Unit)
  | [] => .idle
  | action :: actions =>
    .after (·.report .debug "Running step"
        [("sequence", name), ("step", toString i), ("action", action.name)])
      (((run (site.part i) action).mapFault (.action action.name)).andThen fun () =>
        runSequence site name (i + 1) actions)

/-- The branches of a choice from number `i` on, or `otherwise` when no test holds. -/
def runChoice (site : Site) (name : String) (i : Nat) :
    List (Step Action) → (otherwise : Work (Except Fault Unit)) → Work (Except Fault Unit)
  | [], otherwise => otherwise
  | ⟨action, test, _⟩ :: steps, otherwise =>
    .look fun m =>
      match (test.map (·.evaluate m.data)).getD (.ok true) with
      | .error fault => .fail (.action (indexed name "branch" i) fault)
      | .ok false => runChoice site name (i + 1) steps otherwise
      | .ok true =>
        .after (fun m =>
            recordChoice name i
              (m.report .debug "Branch selected" [("action", name), ("branch", toString i)]))
          ((run (site.part (i + 1)) action).mapFault (.action (indexed name "branch" i)))

def runValidated (site : Site) (name : String) (continueOnError : Bool) (i : Nat)
    (findings : Findings) : List (Step Action) → Work (Except Fault Unit)
  | [] =>
    .change fun m =>
      (recordCompleted name findings m).record name "valid" findings.failedStep.isNone
  | ⟨action, test, _⟩ :: steps =>
    (run (site.part i) action).bind fun outcome =>
      .look fun m =>
        match verdict name i action.name test outcome m.data with
        | .error fault => .fail fault
        | .ok none =>
          let findings := { findings with completed := findings.completed + 1 }
          .after (recordCompleted name findings)
            (runValidated site name continueOnError (i + 1) findings steps)
        | .ok (some fault) =>
          let findings := findings.add i fault
          .after (recordProblem name i findings)
            (if continueOnError then
              .after (·.report .warn "Step failed, continuing"
                  [("action", name), ("step", toString i), ("error", fault.message)])
                (runValidated site name continueOnError (i + 1) findings steps)
            else .fail (.action name fault))

def runProgressive (site : Site) (name : String) (i : Nat) (taken : Taken) :
    List (Step Action) → Work (Except Fault Unit)
  | [] =>
    .change fun m =>
      recordTaken name "skipped" taken.skipped (recordTaken name "completed" taken.completed m)
  | ⟨action, test, required⟩ :: steps =>
    let completing := { taken with completed := taken.completed ++ [i] }
    let skipping := { taken with skipped := taken.skipped ++ [i] }
    let step := indexed name "step" i
    .look fun m =>
      match (test.map (·.evaluate m.data)).getD (.ok true), required with
      | .error fault, _ => .fail (.action step fault)
      | .ok false, true =>
        .fail (.action step (.failed ("required step " ++ action.name ++ " is not enabled")))
      | .ok false, false =>
        .after (fun m =>
            recordTaken name "skipped" skipping.skipped
              (m.report .debug "Step gated off, skipping"
                [("action", name), ("step", toString i)]))
          (runProgressive site name (i + 1) skipping steps)
      | .ok true, required =>
        (run (site.part i) action).bind fun
          | .ok () =>
            .after (recordTaken name "completed" completing.completed)
              (runProgressive site name (i + 1) completing steps)
          | .error fault =>
            if required then .fail (.action step fault)
            else
              .after (fun m =>
                  recordTaken name "skipped" skipping.skipped
                    (m.report .warn "Optional step failed, skipping"
                      [("action", name), ("step", toString i), ("error", fault.message)]))
                (runProgressive site name (i + 1) skipping steps)

def runBranches (site : Site) (i : Nat) : List Action → List (Work (Except Fault Unit))
  | [] => []
  | action :: actions => run (site.part i) action :: runBranches site (i + 1) actions

end

end Action

end Workflow
