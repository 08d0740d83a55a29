import JwalkMeta.WalkDir.Listing

/-!
# Retries of a directory read

A read that fails with a transient error is repeated. A streaming attempt has effects before its
outcome is known: what it has scheduled cannot be taken back. Three choices of the source fit
together here. Only the first attempt gets the streaming context; an attempt that fails after it has
scheduled something is turned into a success; and the regular scheduling is left out as soon as
something was streamed. So all child reads of a directory come from the listing of one attempt.

The attempts are recorded by a program that does the same as the worker's (`loggedWalkDir`): without
the record it is the worker's program.

## Main definitions

* `Attempt`, `retryLogged`, `loggedWalkDir`: the worker's program with a record of its attempts.
* `sent`: the items that have been sent to the work queue in a course.
* `Attempt.offers`: the subdirectories that are scheduled from the listing of an attempt.

## Main results

* `loggedWalkDir_erase`: without the record it is the worker's program.
* `retries_schedule_once`: in every course the child reads come from one attempt, each of them once.
-/

namespace JwalkMeta

open Interaction

variable {B E : Type}

/-! ### The record of attempts -/

/-- An attempt to read a directory. -/
structure Attempt (B E : Type) where
  number : ℕ
  streamingCtx : Option StreamingContext
  /-- The calls of the client's callback. -/
  calls : List (ProcessCall B E)
  /-- The subdirectories that a streaming enumeration comes to. -/
  subdirs : List (ReadDirSpec B)
  outcome : ReadDirResult B E

/-- The subdirectories that are scheduled from the listing of an attempt: those that the enumeration
comes to if some of them were streamed, else those that the entries ask for. -/
def Attempt.offers (attempt : Attempt B E) : List (ReadDirSpec B) :=
  if streamedCount attempt.outcome = 0 then childSpecs attempt.outcome else attempt.subdirs

/-- One attempt, with its record. -/
def attemptOn [Inhabited E] (os : OperatingSystem) (opts : WalkDirOptions B E) (attempt : ℕ)
    (req : ReadRequest B) : Interaction (StreamOp (ReadDirSpec B)) Bool (Attempt B E) := do
  let outcome ← readDirOn os opts attempt req
  return ⟨attempt, req.streamingCtx, readCalls os opts attempt req, subdirsOn os opts attempt req,
    outcome⟩

/-- `retry_transient_io` with a record of the attempts. -/
def retryLogged (platform : Platform)
    (op : ℕ → Option StreamingContext →
      Interaction (StreamOp (ReadDirSpec B)) Bool (Attempt B E)) :
    ℕ → ℕ → Option StreamingContext →
      Interaction (StreamOp (ReadDirSpec B)) Bool (List (Attempt B E) × ReadDirResult B E)
  | 0, attempt, streamingCtx => do
    let last ← op attempt streamingCtx
    return ([last], last.outcome)
  | retries + 1, attempt, streamingCtx => do
    let last ← op attempt streamingCtx
    match last.outcome with
    | .ok result => return ([last], .ok result)
    | .error err =>
      if isTransientError platform err then
        let (log, result) ← retryLogged platform op retries (attempt + 1) none
        return (last :: log, result)
      else return ([last], .error err)

/-- The core callback with a record of the attempts. -/
def coreReadDirLogged [Inhabited E] (os : OperatingSystem) (opts : WalkDirOptions B E)
    (spec : ReadDirSpec B) (streamingCtx : Option StreamingContext) :
    Interaction (StreamOp (ReadDirSpec B)) Bool (List (Attempt B E) × ReadDirResult B E) :=
  if opts.maxDepth < saturatingAdd spec.depth 1 then
    return ([], .ok (.new spec.clientReadState []))
  else
    retryLogged os.platform
      (fun attempt streamingCtx => attemptOn os opts attempt
        (readRequest os.systemCalls opts spec streamingCtx)) opts.maxRetries 0 streamingCtx

/-- `multi_threaded_walk_dir` with a record of the attempts. -/
def loggedWalkDir [Inhabited E] (os : OperatingSystem) (opts : WalkDirOptions B E)
    (weighted : Weighted (ReadDirSpec B)) :
    WorkerProgram (ReadDirSpec B) (ReadDirResult B E) (List (Attempt B E)) := do
  if ← request .loadStop then
    let _ ← request .completeItem
    return []
  else
    let context : StreamingContext := ⟨weighted.indexPath, weighted.weight⟩
    let (log, result) ← (coreReadDirLogged os opts weighted.value (some context)).interp
      StreamOp.handle
    let sendOk ← request (.sendResult ⟨result, weighted.indexPath,
      childCount result weighted.indexPath weighted.weight⟩)
    if sendOk then
      scheduleAll ((regularSpecs result weighted.indexPath weighted.weight).getD [])
    let _ ← request .completeItem
    return log

theorem retryLogged_erase (platform : Platform)
    (op : ℕ → Option StreamingContext →
      Interaction (StreamOp (ReadDirSpec B)) Bool (Attempt B E)) (retries attempt : ℕ)
    (ctx : Option StreamingContext) :
    Prod.snd <$> retryLogged platform op retries attempt ctx =
      retryTransientIo platform (fun attempt ctx => Attempt.outcome <$> op attempt ctx) retries
        attempt ctx := by
  induction retries generalizing attempt ctx with
  | zero => simp [retryLogged, retryTransientIo, map_eq_pure_bind, bind_assoc]
  | succ retries ih =>
    simp only [retryLogged, retryTransientIo, map_eq_pure_bind, bind_assoc] at ih ⊢
    refine congrArg _ (funext fun last => ?_)
    cases houtcome : last.outcome with
    | ok result => simp
    | error err =>
      by_cases htransient : isTransientError platform err = true
      · simp only [htransient, ↓reduceIte, done_bind, pure_eq, bind_assoc] at ih ⊢
        exact ih (attempt + 1) none
      · simp [htransient]

theorem coreReadDirLogged_erase [Inhabited E] (os : OperatingSystem) (opts : WalkDirOptions B E)
    (spec : ReadDirSpec B) (ctx : Option StreamingContext) :
    Prod.snd <$> coreReadDirLogged os opts spec ctx =
      coreReadDirCallback (E := E) os opts spec ctx := by
  unfold coreReadDirLogged coreReadDirCallback
  dsimp only
  split_ifs with hdepth
  · rfl
  · rw [retryLogged_erase]
    have hop :
        (fun attempt ctx => Attempt.outcome <$>
          attemptOn (E := E) os opts attempt (readRequest os.systemCalls opts spec ctx)) =
        fun attempt ctx =>
          readDirOn os opts attempt (readRequest os.systemCalls opts spec ctx) := by
      funext attempt ctx
      simp [attemptOn, map_eq_pure_bind, bind_assoc, bind_done]
    rw [hop]
    rfl

/-- **Without the record it is the worker's program.** -/
theorem loggedWalkDir_erase [Inhabited E] (os : OperatingSystem) (opts : WalkDirOptions B E)
    (weighted : Weighted (ReadDirSpec B)) :
    (fun _ => ()) <$> loggedWalkDir (E := E) os opts weighted =
      multiThreadedWalkDir (coreReadDirCallback os opts) weighted := by
  have hread : (coreReadDirCallback (E := E) os opts weighted.value
      (some ⟨weighted.indexPath, weighted.weight⟩)).interp
        (StreamOp.handle (R := ReadDirResult B E)) =
      Prod.snd <$> (coreReadDirLogged os opts weighted.value
        (some ⟨weighted.indexPath, weighted.weight⟩)).interp StreamOp.handle := by
    rw [← coreReadDirLogged_erase, interp_map]
  unfold loggedWalkDir multiThreadedWalkDir
  simp only [request_bind, hread, map_eq_pure_bind, ask_bind]
  refine congrArg _ (funext fun stopped => ?_)
  cases stopped with
  | true => rfl
  | false =>
    simp only [Bool.false_eq_true, ↓reduceIte, bind_assoc, done_bind, pure_eq, ask_bind]
    refine congrArg _ (funext fun logged => congrArg _ (funext fun sendOk => ?_))
    cases sendOk with
    | true => simp [bind_assoc]
    | false => rfl

/-! ### Courses of the worker's program -/

/-- The items that have been sent to the work queue in a course of a worker. -/
def sent {S R : Type} (tr : List (WorkerOp S R × Bool)) : List (Weighted S) :=
  tr.filterMap fun
    | (.sendSpec weighted, true) => some weighted
    | _ => none

/-- The results that are sent to the consumer in a course of a worker. -/
def sentResults {S R : Type} (tr : List (WorkerOp S R × Bool)) : List (Ordered R) :=
  tr.filterMap fun
    | (.sendResult ordered, _) => some ordered
    | _ => none

@[simp] theorem sentResults_append {S R : Type} (tr tr' : List (WorkerOp S R × Bool)) :
    sentResults (tr ++ tr') = sentResults tr ++ sentResults tr' := List.filterMap_append

@[simp] theorem sent_append {S R : Type} (tr tr' : List (WorkerOp S R × Bool)) :
    sent (tr ++ tr') = sent tr ++ sent tr' := List.filterMap_append

/-- No channel has refused anything in a course. -/
def Delivered {S R : Type} (tr : List (WorkerOp S R × Bool)) : Prop :=
  ∀ op answer, (op, answer) ∈ tr →
    match op with
    | .sendSpec _ | .sendResult _ => answer = true
    | _ => True

section Courses

variable {S R α : Type} {tr : List (WorkerOp S R × Bool)}

/-- A push sends its item or reports that it has not. -/
theorem runs_push {weighted : Weighted S} {ok : Bool}
    (h : Runs (push weighted : WorkerProgram S R Bool) tr ok) :
    sent tr = (if ok then [weighted] else []) ∧ sentResults tr = [] ∧
      (Delivered tr → ok = true) := by
  simp only [push, request_bind, runs_ask] at h
  obtain ⟨counted, tr, rfl, answer, tr, rfl, h⟩ := h
  cases answer with
  | true =>
    obtain ⟨rfl, rfl⟩ := runs_done.mp h
    exact ⟨rfl, rfl, fun _ => rfl⟩
  | false =>
    simp only [Bool.false_eq_true, ↓reduceIte, runs_ask] at h
    obtain ⟨taken, tr, rfl, h⟩ := h
    obtain ⟨rfl, rfl⟩ := runs_done.mp h
    refine ⟨rfl, rfl, fun hdelivered => ?_⟩
    simpa using hdelivered (.sendSpec weighted) false (by simp)

/-- What an interpreted core callback sends is what it has scheduled. -/
theorem runs_interp_handle {p : Interaction (StreamOp S) Bool α} {a : α}
    (h : Runs (p.interp StreamOp.handle : WorkerProgram S R α) tr a) :
    (∃ tr', Runs p tr' a ∧ sent tr = scheduled tr') ∧ sentResults tr = [] := by
  induction p generalizing tr with
  | done b =>
    obtain ⟨rfl, rfl⟩ := runs_done.mp h
    exact ⟨⟨[], .done _, rfl⟩, rfl⟩
  | ask op k ih =>
    obtain ⟨answer, tr₁, tr₂, hop, hk, rfl⟩ := runs_bind.mp h
    obtain ⟨⟨tr', hrun, hsent⟩, hnothing⟩ := ih answer hk
    rw [sent_append, sentResults_append, hsent, hnothing, List.append_nil]
    cases op with
    | isStopped =>
      obtain ⟨stopped, tr, rfl, hdone⟩ := runs_ask.mp hop
      obtain ⟨rfl, rfl⟩ := runs_done.mp hdone
      exact ⟨⟨(.isStopped, _) :: tr', .ask _ hrun, rfl⟩, rfl⟩
    | schedule weighted =>
      obtain ⟨hpush, hpushes, -⟩ := runs_push hop
      refine ⟨⟨(.schedule weighted, answer) :: tr', .ask answer hrun, ?_⟩, hpushes⟩
      rw [hpush]
      cases answer <;> rfl

/-- The loop over the child reads sends the first ones of them, and all if no channel refuses. -/
theorem runs_scheduleAll {specs : List (Weighted S)}
    (h : Runs (scheduleAll specs : WorkerProgram S R Unit) tr ()) :
    sent tr <+: specs ∧ sentResults tr = [] ∧ (Delivered tr → sent tr = specs) := by
  induction specs generalizing tr with
  | nil =>
    obtain ⟨rfl, -⟩ := runs_done.mp h
    exact ⟨List.prefix_refl _, rfl, fun _ => rfl⟩
  | cons each rest ih =>
    obtain ⟨ok, tr₁, tr₂, hpush, hrest, rfl⟩ := runs_bind.mp h
    obtain ⟨hsent, hresults, hok⟩ := runs_push hpush
    rw [sent_append, hsent, sentResults_append, hresults, List.nil_append]
    cases ok with
    | true =>
      obtain ⟨hfirst, hnothing, hall⟩ := ih hrest
      refine ⟨by simpa using hfirst, hnothing, fun hdelivered => ?_⟩
      simpa using hall fun op answer hmem => hdelivered op answer (List.mem_append_right _ hmem)
    | false =>
      obtain ⟨rfl, -⟩ := runs_done.mp hrest
      refine ⟨List.nil_prefix, rfl, fun hdelivered => ?_⟩
      have := hok fun op answer hmem => hdelivered op answer (List.mem_append_left _ hmem)
      simp at this

end Courses

/-! ### What an attempt and its retries can do -/

/-- The calls of the client's callback in an attempt: at most one, with the state of the read, which
decides about the outcome, and none if the attempt fails. -/
structure Attempt.CallsOnce (opts : WalkDirOptions B E) (state : B) (attempt : Attempt B E) :
    Prop where
  length_le : attempt.calls.length ≤ 1
  readDirState : ∀ call ∈ attempt.calls, call.readDirState = state
  of_error : ∀ err, attempt.outcome = .error err → attempt.calls = []
  outcome_of_call : ∀ process, opts.processReadDir = some process → ∀ call ∈ attempt.calls,
    attempt.outcome = .ok (call.result process (streamedCount attempt.outcome))

/-- What has been scheduled during an attempt. -/
structure Attempt.Streamed (attempt : Attempt B E) (streamingCtx : Option StreamingContext)
    (items : List (Weighted (ReadDirSpec B))) (specs : List (ReadDirSpec B)) : Prop where
  sublist : specs.Sublist attempt.subdirs
  count : streamedCount attempt.outcome = specs.length
  of_some : ∀ ctx, streamingCtx = some ctx →
    items = numbered ctx.indexPath (saturatingAdd ctx.parentWeight 1) specs
  of_none : streamingCtx = none → items = [] ∧ specs = []

/-- The attempts of a read with what it schedules and its result: all attempts but the last one
have failed without a call of the client's callback, and what has been scheduled was scheduled by
the first one if it is the last one too. -/
def Attempted (opts : WalkDirOptions B E) (retries : ℕ) (state : B) (ctx : Option StreamingContext)
    (items : List (Weighted (ReadDirSpec B))) (log : List (Attempt B E))
    (result : ReadDirResult B E) : Prop :=
  ∃ failed last specs, log = failed ++ [last] ∧ last.outcome = result ∧
    failed.length ≤ retries ∧ (∀ attempt ∈ log, attempt.CallsOnce opts state) ∧
    (∀ attempt ∈ failed, attempt.calls = []) ∧ last.Streamed ctx items specs ∧
    (failed ≠ [] → specs = [])

section Attempts

variable [Inhabited E] {os : OperatingSystem} {opts : WalkDirOptions B E}
  {tr : List (StreamOp (ReadDirSpec B) × Bool)}

theorem runs_attemptOn {number : ℕ} {req : ReadRequest B} {attempt : Attempt B E}
    (h : Runs (attemptOn os opts number req) tr attempt) :
    attempt.CallsOnce opts req.clientReadState ∧
      ∃ specs, attempt.Streamed req.streamingCtx (scheduled tr) specs := by
  obtain ⟨outcome, tr₁, tr₂, hread, hdone, rfl⟩ := runs_bind.mp h
  obtain ⟨rfl, rfl⟩ := runs_done.mp hdone
  rw [List.append_nil]
  -- the outcome of the attempt is decided by its listing and by what it has scheduled
  obtain ⟨specs, houtcome, hstreamed⟩ : ∃ specs,
      outcome = attemptOutcome opts req (rawListing os opts number req) specs.length ∧
      Attempt.Streamed ⟨number, req.streamingCtx, readCalls os opts number req,
        subdirsOn os opts number req, outcome⟩ req.streamingCtx (scheduled tr₁) specs := by
    cases hctx : req.streamingCtx with
    | none =>
      rw [readDirOn_of_context os opts number req hctx] at hread
      obtain ⟨rfl, rfl⟩ := runs_done.mp hread
      exact ⟨[], rfl, List.nil_sublist _, streamedCount_attemptOutcome _ _ _ _,
        fun ctx hc => (by simp at hc), fun _ => ⟨rfl, rfl⟩⟩
    | some ctx =>
      obtain ⟨specs, hsub, htr, rfl⟩ := runs_readDirOn hctx hread
      refine ⟨specs, rfl, hsub, streamedCount_attemptOutcome _ _ _ _, fun ctx' hc => ?_,
        fun hc => (by simp at hc)⟩
      rw [htr, Option.some.inj hc]
  refine ⟨?_, specs, hstreamed⟩
  cases hlisting : rawListing os opts number req with
  | error err =>
    have hcalls : readCalls os opts number req = [] := by rw [readCalls, hlisting]
    refine ⟨?_, ?_, ?_, ?_⟩ <;> simp [hcalls]
  | ok results =>
    have hcalls : readCalls os opts number req = processCalls opts req results := by
      rw [readCalls, hlisting]
    rw [hlisting] at houtcome
    refine ⟨?_, ?_, fun err herr => ?_, fun process hprocess call hcall => ?_⟩
    · simp only [hcalls]
      exact length_processCalls_le _ _ _
    · simp only [hcalls]
      exact fun call hcall => readDirState_of_mem hcall
    · simp [houtcome, attemptOutcome] at herr
    · obtain ⟨call', hcalls', hfinish⟩ := finishReadDir_of_call hprocess req specs.length results
      obtain rfl : call = call' := by simpa [hcalls, hcalls'] using hcall
      have hcount : streamedCount outcome = specs.length := by
        rw [houtcome, streamedCount_attemptOutcome]
      simp only [hcount, ← hfinish]
      exact houtcome

omit [Inhabited E] in
/-- One attempt that decides about the result. -/
theorem attempted_once {retries : ℕ} {state : B} {ctx : Option StreamingContext}
    {items : List (Weighted (ReadDirSpec B))} {attempt : Attempt B E}
    {specs : List (ReadDirSpec B)} (hcalls : attempt.CallsOnce opts state)
    (hstreamed : attempt.Streamed ctx items specs) :
    Attempted opts retries state ctx items [attempt] attempt.outcome :=
  ⟨[], attempt, specs, rfl, rfl, Nat.zero_le retries, by simpa using hcalls, by simp, hstreamed,
    fun hne => absurd rfl hne⟩

/-- The attempts of a read in any course. -/
theorem runs_retryLogged {platform : Platform} {spec : ReadDirSpec B} {retries number : ℕ}
    {ctx : Option StreamingContext} {log : List (Attempt B E)} {result : ReadDirResult B E}
    (h : Runs (retryLogged platform (fun number ctx => attemptOn os opts number
      (readRequest os.systemCalls opts spec ctx)) retries number ctx) tr (log, result)) :
    Attempted opts retries spec.clientReadState ctx (scheduled tr) log result := by
  induction retries generalizing number ctx tr log result with
  | zero =>
    obtain ⟨last, tr₁, tr₂, hop, hdone, rfl⟩ := runs_bind.mp h
    obtain ⟨rfl, hpair⟩ := runs_done.mp hdone
    obtain ⟨rfl, rfl⟩ := Prod.mk.inj hpair
    obtain ⟨hcalls, specs, hstreamed⟩ : last.CallsOnce opts spec.clientReadState ∧
      ∃ specs, last.Streamed ctx (scheduled tr₁) specs := runs_attemptOn hop
    rw [List.append_nil]
    exact attempted_once hcalls hstreamed
  | succ retries ih =>
    obtain ⟨first, tr₁, tr₂, hop, hrest, rfl⟩ := runs_bind.mp h
    obtain ⟨hcalls, specs, hstreamed⟩ : first.CallsOnce opts spec.clientReadState ∧
      ∃ specs, first.Streamed ctx (scheduled tr₁) specs := runs_attemptOn hop
    cases houtcome : first.outcome with
    | ok readDir =>
      rw [houtcome] at hrest
      obtain ⟨rfl, hpair⟩ := runs_done.mp hrest
      obtain ⟨rfl, rfl⟩ := Prod.mk.inj hpair
      rw [List.append_nil, ← houtcome]
      exact attempted_once hcalls hstreamed
    | error err =>
      rw [houtcome] at hrest
      by_cases htransient : isTransientError platform err = true
      · simp only [htransient, ↓reduceIte] at hrest
        obtain ⟨⟨log', result'⟩, tr₃, tr₄, hretry, hdone, rfl⟩ := runs_bind.mp hrest
        obtain ⟨rfl, hpair⟩ := runs_done.mp hdone
        obtain ⟨rfl, rfl⟩ := Prod.mk.inj hpair
        obtain ⟨failed, last, specs', rfl, rfl, hlength, hlog, hfailed, hlast, -⟩ := ih hretry
        obtain ⟨hnothing, rfl⟩ := hlast.of_none rfl
        -- a failed attempt has scheduled nothing
        have hspecs : specs = [] := by
          have hcount := hstreamed.count
          rw [houtcome, streamedCount_error] at hcount
          exact List.length_eq_zero_iff.mp hcount.symm
        have hfirst : scheduled tr₁ = [] := by
          cases ctx with
          | none => exact (hstreamed.of_none rfl).1
          | some ctx => rw [hstreamed.of_some ctx rfl, hspecs, numbered_nil]
        have hall : scheduled (tr₁ ++ (tr₃ ++ [])) = [] := by
          rw [List.append_nil, scheduled_append, hfirst, hnothing, List.append_nil]
        refine ⟨first :: failed, last, [], rfl, rfl, Nat.succ_le_succ hlength, ?_, ?_, ?_,
          fun _ => rfl⟩
        · exact List.forall_mem_cons.mpr ⟨hcalls, hlog⟩
        · exact List.forall_mem_cons.mpr ⟨hcalls.of_error err houtcome, hfailed⟩
        · exact ⟨hlast.sublist, hlast.count, fun c _ => hall.trans (numbered_nil _ _).symm,
            fun _ => ⟨hall, rfl⟩⟩
      · simp only [htransient, Bool.false_eq_true, ↓reduceIte] at hrest
        obtain ⟨rfl, hpair⟩ := runs_done.mp hrest
        obtain ⟨rfl, rfl⟩ := Prod.mk.inj hpair
        rw [List.append_nil, ← houtcome]
        exact attempted_once hcalls hstreamed

end Attempts

/-! ### The worker -/

/-- The regular child reads: those that the entries ask for, if nothing was streamed. -/
theorem regularSpecs_eq (result : ReadDirResult B E) (indexPath : IndexPath) (parentWeight : ℕ) :
    ∃ weight, (regularSpecs result indexPath parentWeight).getD [] =
      if streamedCount result = 0 then numbered indexPath weight (childSpecs result) else [] := by
  cases result with
  | error err => exact ⟨0, by simp [regularSpecs, childSpecs]⟩
  | ok readDir =>
    refine ⟨saturatingAdd parentWeight readDir.resultsList.length, ?_⟩
    simp only [regularSpecs, streamedCount_ok]
    by_cases hzero : readDir.streamedChildCount = 0
    · simp only [hzero, ↓reduceIte, Option.getD_some]
      exact ReadDir.weightedChildrenSpecs_eq readDir hzero _ _
    · simp [hzero]

/-- What a worker sends after the read of a directory. -/
structure ScheduledFrom (weighted : Weighted (ReadDirSpec B)) (log : List (Attempt B E))
    (tr : List (WorkerOp (ReadDirSpec B) (ReadDirResult B E) × Bool)) : Prop where
  /-- The child reads are numbered one after the other, and come from the last attempt. -/
  once : ∃ weight specs, sent tr = numbered weighted.indexPath weight specs ∧
    (log = [] → specs = []) ∧ ∀ last ∈ log.getLast?, specs.Sublist last.offers
  /-- After failed attempts, all of them are scheduled. -/
  all : ∀ failed last readDir, log = failed ++ [last] → failed ≠ [] →
    last.outcome = .ok readDir → Delivered tr →
      (sent tr).map Weighted.value = readDir.readChildrenSpecs
  /-- The result is the outcome of the last attempt. -/
  result : ∀ ordered ∈ sentResults tr, ∀ last ∈ log.getLast?, ordered.value = last.outcome

/-- The rest of the worker's program, once the read is done: it sends the first ones of the regular
child reads, and all if no channel refuses. -/
theorem runs_afterRead {weighted : Weighted (ReadDirSpec B)} {log log' : List (Attempt B E)}
    {result : ReadDirResult B E}
    {tr : List (WorkerOp (ReadDirSpec B) (ReadDirResult B E) × Bool)}
    (h : Runs (do
      let sendOk ← request (.sendResult ⟨result, weighted.indexPath,
        childCount result weighted.indexPath weighted.weight⟩)
      if sendOk then
        scheduleAll ((regularSpecs result weighted.indexPath weighted.weight).getD [])
      let _ ← request .completeItem
      return log) tr log') :
    log' = log ∧
      sent tr <+: (regularSpecs result weighted.indexPath weighted.weight).getD [] ∧
      (∀ ordered ∈ sentResults tr, ordered.value = result) ∧
      (Delivered tr →
        sent tr = (regularSpecs result weighted.indexPath weighted.weight).getD []) := by
  simp only [request_bind, runs_ask] at h
  obtain ⟨sendOk, tr, rfl, hafter⟩ := h
  cases sendOk with
  | true =>
    obtain ⟨_, tr₁, tr₂, hschedule, hcomplete, rfl⟩ := runs_bind.mp hafter
    obtain ⟨counted, tr₂, rfl, hdone⟩ := runs_ask.mp hcomplete
    obtain ⟨rfl, rfl⟩ := runs_done.mp hdone
    obtain ⟨hfirst, hnothing, hall⟩ := runs_scheduleAll hschedule
    have hresults : sentResults ((WorkerOp.sendResult (S := ReadDirSpec B) ⟨result,
        weighted.indexPath, childCount result weighted.indexPath weighted.weight⟩, true) ::
          (tr₁ ++ [(.completeItem, counted)])) =
        [⟨result, weighted.indexPath, childCount result weighted.indexPath weighted.weight⟩] :=
      congrArg (List.cons _) ((sentResults_append tr₁ _).trans (by rw [hnothing]; rfl))
    have hsent : sent ((WorkerOp.sendResult (S := ReadDirSpec B) ⟨result, weighted.indexPath,
        childCount result weighted.indexPath weighted.weight⟩, true) ::
          (tr₁ ++ [(.completeItem, counted)])) = sent tr₁ :=
      (sent_append tr₁ _).trans (List.append_nil _)
    rw [hsent, hresults]
    exact ⟨rfl, hfirst, by simp, fun hdelivered => hall fun op answer hmem =>
      hdelivered op answer (List.mem_cons_of_mem _ (List.mem_append_left _ hmem))⟩
  | false =>
    obtain ⟨counted, tr₂, rfl, hdone⟩ := runs_ask.mp hafter
    obtain ⟨rfl, rfl⟩ := runs_done.mp hdone
    refine ⟨rfl, List.nil_prefix, by simp [sentResults], fun hdelivered => ?_⟩
    simpa using hdelivered (.sendResult _) false (List.mem_cons_self ..)

/-- What was streamed and what is scheduled regularly come from one attempt. -/
theorem scheduledFrom_of_regular {weighted : Weighted (ReadDirSpec B)}
    {log : List (Attempt B E)} {result : ReadDirResult B E}
    {tr₁ tr₂ : List (WorkerOp (ReadDirSpec B) (ReadDirResult B E) × Bool)}
    {specs : List (ReadDirSpec B)} {weight : ℕ}
    (hstreamed : sent tr₁ = numbered weighted.indexPath weight specs)
    (hcount : streamedCount result = specs.length)
    (hlog : log = [] ∧ childSpecs result = [] ∧ specs = [] ∨
      ∃ failed last, log = failed ++ [last] ∧ last.outcome = result ∧
        specs.Sublist last.subdirs ∧ (failed ≠ [] → specs = []))
    (hnothing : sentResults tr₁ = [])
    (hfirst : sent tr₂ <+: (regularSpecs result weighted.indexPath weighted.weight).getD [])
    (hresult : ∀ ordered ∈ sentResults tr₂, ordered.value = result)
    (hall : Delivered tr₂ →
      sent tr₂ = (regularSpecs result weighted.indexPath weighted.weight).getD []) :
    ScheduledFrom weighted log (tr₁ ++ tr₂) := by
  have hreturned : ∀ ordered ∈ sentResults (tr₁ ++ tr₂), ∀ last ∈ log.getLast?,
      ordered.value = last.outcome := by
    rw [sentResults_append, hnothing, List.nil_append]
    intro ordered hordered last hlast
    rw [hresult ordered hordered]
    rcases hlog with ⟨rfl, -⟩ | ⟨failed, last', rfl, rfl, -, -⟩
    · simp at hlast
    · obtain rfl : last' = last := by simpa using hlast
      rfl
  obtain ⟨weight', hregular⟩ := regularSpecs_eq result weighted.indexPath weighted.weight
  rw [hregular, hcount] at hfirst hall
  by_cases hspecs : specs = []
  · -- nothing was streamed: all child reads are regular ones
    subst hspecs
    simp only [List.length_nil, ↓reduceIte] at hfirst hall
    obtain ⟨firsts, hfirsts, hsent⟩ := exists_of_prefix_numbered hfirst
    have hsum : sent (tr₁ ++ tr₂) = numbered weighted.indexPath weight' firsts := by
      rw [sent_append, hstreamed, numbered_nil, List.nil_append, hsent]
    refine ⟨⟨weight', firsts, hsum, ?_, ?_⟩, ?_, hreturned⟩
    · rintro rfl
      rcases hlog with ⟨-, hnone, -⟩ | ⟨failed, last, hlog, -⟩
      · exact List.prefix_nil.mp (hnone ▸ hfirsts)
      · simp at hlog
    · intro last hlast
      rcases hlog with ⟨rfl, -⟩ | ⟨failed, last', rfl, rfl, -, -⟩
      · simp at hlast
      · obtain rfl : last' = last := by simpa using hlast
        rw [Attempt.offers, hcount, if_pos List.length_nil]
        exact hfirsts.sublist
    · rintro failed last readDir rfl hfailed houtcome hdelivered
      rcases hlog with ⟨hnil, -⟩ | ⟨failed', last', hlog, rfl, -, -⟩
      · simp at hnil
      · obtain ⟨rfl, hlast⟩ := List.append_inj' hlog rfl
        obtain rfl : last = last' := by simpa using hlast
        rw [sent_append, hstreamed, numbered_nil, List.nil_append,
          hall fun op answer hmem => hdelivered op answer (List.mem_append_right _ hmem),
          map_value_numbered, houtcome]
        rfl
  · -- something was streamed: there are no regular child reads
    have hlength : ¬ specs.length = 0 := fun hzero => hspecs (List.length_eq_zero_iff.mp hzero)
    rw [if_neg hlength] at hfirst
    rcases hlog with ⟨-, -, hnil⟩ | ⟨failed, last, rfl, rfl, hsub, hfailed⟩
    · exact absurd hnil hspecs
    · have hsum : sent (tr₁ ++ tr₂) = numbered weighted.indexPath weight specs := by
        rw [sent_append, hstreamed, List.prefix_nil.mp hfirst, List.append_nil]
      refine ⟨⟨weight, specs, hsum, by simp, ?_⟩, ?_, hreturned⟩
      · intro last' hlast
        obtain rfl : last = last' := by simpa using hlast
        rw [Attempt.offers, hcount, if_neg hlength]
        exact hsub
      · intro failed' last' readDir hlog hne
        obtain ⟨rfl, -⟩ := List.append_inj' hlog rfl
        exact absurd (hfailed hne) hspecs

/-- The attempts of the read of a directory. -/
structure AttemptsOf (opts : WalkDirOptions B E) (spec : ReadDirSpec B)
    (log : List (Attempt B E)) : Prop where
  length_le : log.length ≤ opts.maxRetries + 1
  /-- The client's callback is called once at most, with the state of the read. -/
  calls_le : (log.flatMap Attempt.calls).length ≤ 1
  readDirState : ∀ call ∈ log.flatMap Attempt.calls, call.readDirState = spec.clientReadState
  /-- The outcome of an attempt with a call is what the callback returns. -/
  outcome_of_call : ∀ process, opts.processReadDir = some process → ∀ attempt ∈ log,
    ∀ call ∈ attempt.calls,
      attempt.outcome = .ok (call.result process (streamedCount attempt.outcome))

/-- What the worker's program does in any course. -/
theorem runs_loggedWalkDir [Inhabited E] {os : OperatingSystem} {opts : WalkDirOptions B E}
    {weighted : Weighted (ReadDirSpec B)} {log : List (Attempt B E)}
    {tr : List (WorkerOp (ReadDirSpec B) (ReadDirResult B E) × Bool)}
    (h : Runs (loggedWalkDir os opts weighted) tr log) :
    AttemptsOf opts weighted.value log ∧ ScheduledFrom weighted log tr := by
  simp only [loggedWalkDir, request_bind, runs_ask] at h
  obtain ⟨stopped, tr, rfl, h⟩ := h
  cases stopped with
  | true =>
    obtain ⟨counted, tr₂, rfl, hdone⟩ := runs_ask.mp h
    obtain ⟨rfl, rfl⟩ := runs_done.mp hdone
    refine ⟨⟨Nat.zero_le _, Nat.zero_le _, by simp, by simp⟩, ⟨0, [], rfl, fun _ => rfl, by simp⟩,
      ?_, by simp⟩
    intro failed last readDir hlog
    simp at hlog
  | false =>
    simp only [Bool.false_eq_true, ↓reduceIte] at h
    obtain ⟨⟨log', result⟩, tr₁, tr₂, hread, hafter, rfl⟩ := runs_bind.mp h
    obtain ⟨rfl, hfirst, hresult, hall⟩ := runs_afterRead hafter
    obtain ⟨⟨tr', hcore, hsent⟩, hnothing⟩ := runs_interp_handle hread
    have hnothing' : sentResults ((.loadStop, false) :: tr₁) = [] := hnothing
    -- the core callback either reads nothing, below the last level, or makes its attempts
    simp only [coreReadDirLogged] at hcore
    split_ifs at hcore with hdepth
    · obtain ⟨rfl, hpair⟩ := runs_done.mp hcore
      obtain ⟨rfl, rfl⟩ := Prod.mk.inj hpair
      have hstreamed : sent ((.loadStop, false) :: tr₁) = numbered weighted.indexPath 0 [] := hsent
      refine ⟨⟨Nat.zero_le _, Nat.zero_le _, by simp, by simp⟩, ?_⟩
      exact scheduledFrom_of_regular hstreamed rfl (Or.inl ⟨rfl, rfl, rfl⟩) hnothing' hfirst
        hresult hall
    · obtain ⟨failed, last, specs, rfl, rfl, hlength, hcalls, hfailed, hlast, hspecs⟩ :=
        runs_retryLogged hcore
      have hflat : (failed ++ [last]).flatMap Attempt.calls = last.calls := by
        rw [List.flatMap_append, List.flatMap_eq_nil_iff.mpr hfailed]
        simp
      have honce : last.CallsOnce opts weighted.value.clientReadState := hcalls last (by simp)
      refine ⟨⟨by simpa using hlength, ?_, ?_, fun process hprocess attempt hattempt =>
        (hcalls attempt hattempt).outcome_of_call process hprocess⟩, ?_⟩
      · rw [hflat]
        exact honce.length_le
      · rw [hflat]
        exact honce.readDirState
      · have hstreamed : sent ((.loadStop, false) :: tr₁) = numbered weighted.indexPath _ specs :=
          hsent.trans (hlast.of_some _ rfl)
        exact scheduledFrom_of_regular hstreamed hlast.count
          (Or.inr ⟨failed, last, rfl, rfl, hlast.sublist, hspecs⟩) hnothing' hfirst hresult hall

/-- **Retries never schedule or process the children of a directory twice.** In every course of a
worker at most `max_retries + 1` attempts are made. The client's callback is called once at most,
with the state that the read was asked with; what it returns is the outcome of the attempt, and the
outcome of the last attempt is the result that is sent. The child reads that are sent to the work
queue come from the listing of one attempt, each of them once; and when the last attempt succeeds
after failed ones, every entry with a `read_children_path` is scheduled. -/
theorem retries_schedule_once [Inhabited E] (os : OperatingSystem) (opts : WalkDirOptions B E)
    (weighted : Weighted (ReadDirSpec B))
    (tr : List (WorkerOp (ReadDirSpec B) (ReadDirResult B E) × Bool))
    (h : Runs (multiThreadedWalkDir (coreReadDirCallback os opts) weighted) tr ()) :
    ∃ log : List (Attempt B E), Runs (loggedWalkDir os opts weighted) tr log ∧
      AttemptsOf opts weighted.value log ∧ ScheduledFrom weighted log tr ∧
      ((∀ last ∈ log.getLast?, (last.offers.map ReadDirSpec.path).Nodup) →
        ((sent tr).map fun item => item.value.path).Nodup) := by
  rw [← loggedWalkDir_erase] at h
  obtain ⟨log, hrun, -⟩ := runs_map.mp h
  obtain ⟨hattempts, hscheduled⟩ := runs_loggedWalkDir hrun
  refine ⟨log, hrun, hattempts, hscheduled, fun hdistinct => ?_⟩
  obtain ⟨weight, specs, hsent, hnil, hsub⟩ := hscheduled.once
  have hpaths : (sent tr).map (fun item => item.value.path) = specs.map ReadDirSpec.path := by
    rw [hsent, ← map_value_numbered weighted.indexPath weight specs, List.map_map,
      map_value_numbered]
    rfl
  rw [hpaths]
  cases hlast : log.getLast? with
  | none =>
    rw [hnil (List.getLast?_eq_none_iff.mp hlast)]
    exact List.nodup_nil
  | some last => exact (hdistinct last hlast).sublist ((hsub last hlast).map _)

/-- A Linux where the first attempt to list a directory fails with `EAGAIN` and the next ones find
the subdirectories `a` and `b`. -/
def flakyLinux : LinuxCalls :=
  { LinuxCalls.listing fun _ => ⟨[], none⟩ with
    enumerate := fun _ attempt =>
      if attempt = 0 then ⟨[], some (.os 11)⟩ else ⟨[(DT_DIR, [97]), (DT_DIR, [98])], none⟩ }

/-- The read of a root `r`. -/
def flakyRead : Weighted (ReadDirSpec Unit) := ⟨⟨0, ⟨[.normal [114]]⟩, (), none⟩, ⟨[0]⟩, 0⟩

/-- Options with a callback that drops the first entry of a directory. -/
def dropFirst : WalkDirOptions Unit Unit :=
  { (WalkDirOptions.new : WalkDirOptions Unit Unit) with
    processReadDir := some fun _ _ state results => (state, results.drop 1) }

/-- The statement above for a read that fails once, with this callback: of two attempts the second
one calls it, and the subdirectory that is left is scheduled. -/
theorem retries_schedule_once_flaky :
    ∃ (tr : List (WorkerOp (ReadDirSpec Unit) (ReadDirResult Unit Unit) × Bool))
      (log : List (Attempt Unit Unit)),
      AttemptsOf dropFirst flakyRead.value log ∧ ScheduledFrom flakyRead log tr ∧
      log.map (fun attempt => attempt.calls.length) = [0, 1] ∧
      (sent tr).map (fun item => item.value.path) = [⟨[.normal [114], .normal [98]]⟩] := by
  let logged := loggedWalkDir (.linux flakyLinux) dropFirst flakyRead
  have hruns := runs_asked unstopped logged
  obtain ⟨log, hrun, hattempts, hscheduled, -⟩ := retries_schedule_once (.linux flakyLinux)
    dropFirst flakyRead _ (by rw [← loggedWalkDir_erase]; exact runs_map.mpr ⟨_, hruns, rfl⟩)
  obtain rfl := hruns.result_eq hrun
  exact ⟨_, _, hattempts, hscheduled, by decide +kernel, by decide +kernel⟩

end JwalkMeta
