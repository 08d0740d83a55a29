import JwalkMeta.Run.Parallelism
import JwalkMeta.Run.Streamed

/-!
# Opening a parallel walk

`ReadDirIter::try_new` spawns the job that walks on a thread pool, which may be too busy to begin
it. With a timeout the job announces itself over a startup channel, and the thread that opens the
walk waits for the message. If the wait fails, the receiver of the startup channel is dropped, then
the stop flag is set, and `try_new` returns `None`. A job that begins later finds the receiver gone
and returns. But the message may also be sent after the wait has failed and before the receiver is
dropped; then the job begins to walk although nobody is going to listen.

An iterator without directory reads yields an error in place of every directory.

Source: `src/core/read_dir_iter.rs`, `src/core/dir_entry_iter.rs`, `src/lib.rs`.

## Main definitions

* `Opening`, `Opening.step`: the opener, the job and the walk.
* `busyItem`: what an iterator without directory reads yields for a result.

## Main results

* `Opening.Inv.step`: what every state keeps.
* `Opening.Inv.exists_finished`: an iterator without directory reads comes to its end.
* `opening_outcome`: what the outcomes of `try_new` mean, in any order of steps.
-/

namespace JwalkMeta

variable {B E : Type} {N : ℕ}

/-- Where the thread that calls `try_new` stands once it has spawned the job. -/
inductive Opener
  /-- In `recv_timeout` on the startup channel. -/
  | waiting
  /-- `recv_timeout` has failed. -/
  | timedOut
  /-- The receiver of the startup channel is gone. -/
  | hungUp
  /-- The stop flag is set. -/
  | stopped
  /-- `try_new` has returned `None`. -/
  | refused
  /-- `try_new` has returned `Some`. -/
  | opened
  deriving DecidableEq

/-- Where the spawned job stands. -/
inductive Job
  /-- It has not begun. -/
  | spawned
  /-- It is in the `par_bridge` loop, or has left it. -/
  | walking
  /-- It has returned because its message could not be sent. -/
  | returned
  deriving DecidableEq

/-- A parallel walk that is being opened. -/
structure Opening (B E : Type) (N : ℕ) where
  opener : Opener
  job : Job
  /-- Whether there is a startup channel. -/
  handshake : Bool
  /-- Whether the message is in the startup channel. -/
  message : Bool
  walk : ParWalk B E N

/-- Which party takes a step. -/
inductive OpeningAction (N : ℕ)
  /-- The thread that calls `try_new`; `expired` says that its wait has come to the deadline. -/
  | opener (expired : Bool)
  /-- The job begins. -/
  | job
  /-- The walk goes on. -/
  | walk (a : WalkAction N)

/-- Whether an action is one of the threads of the job. -/
def WalkAction.ofJob : WalkAction N → Bool
  | .run (.worker _ _) | .run .dropSenders => true
  | _ => false

namespace Opening

/-- The state once the job has been spawned. A serial walk has no job. -/
def init (parallelism : Parallelism) (N : ℕ) (root : B × List (Except Error (DirEntry E)))
    (minDepth maxReceiveBufferSize : ℕ) : Option (Opening B E N) :=
  match parallelism with
  | .serial => none
  | _ => some
    { opener := if parallelism.timeout.isSome then .waiting else .opened
      job := .spawned
      handshake := parallelism.timeout.isSome
      message := false
      walk := .init N root minDepth maxReceiveBufferSize }

/-- One step of the opener. The channel is looked at before the deadline is. -/
def stepOpener (s : Opening B E N) (expired : Bool) : Option (Opening B E N) :=
  match s.opener with
  | .waiting =>
    if s.message then some { s with opener := .opened, message := false }
    else if expired then some { s with opener := .timedOut }
    else none
  | .timedOut => some { s with opener := .hungUp }
  | .hungUp => some { s with
      opener := .stopped
      walk := { s.walk with run := { s.walk.run with stop := true } } }
  | .stopped =>
    -- the result queue is dropped, and the iterator over entries is made without directory reads
    let iter := { s.walk.iter with iter := { s.walk.iter.iter with readDirIter := false } }
    some { s with opener := .refused, walk := ⟨{ s.walk.run with receiver := false }, iter⟩ }
  | .refused | .opened => none

/-- The first step of the job. The channel is unbounded: a send fails if the receiver is gone. -/
def stepJob (s : Opening B E N) : Option (Opening B E N) :=
  match s.job with
  | .spawned =>
    if s.handshake then
      if s.opener = .waiting ∨ s.opener = .timedOut then
        some { s with job := .walking, message := true }
      else some { s with job := .returned }
    else some { s with job := .walking }
  | _ => none

/-- Whether the walk can go on so: the threads of the job run while it walks, and the client has the
iterator once `try_new` has returned. Without directory reads it has no stop flag either. -/
def allows (s : Opening B E N) (a : WalkAction N) : Bool :=
  if a.ofJob then s.job == .walking
  else
    match s.opener, a with
    | .opened, _ => true
    | .refused, .turn => true
    | _, _ => false

/-- One step. -/
def step (cfg : Config (ReadDirSpec B) (ReadDirResult B E)) (s : Opening B E N) :
    OpeningAction N → Option (Opening B E N)
  | .opener expired => s.stepOpener expired
  | .job => s.stepJob
  | .walk a =>
    if s.allows a then (s.walk.step cfg a).map fun walk => { s with walk := walk } else none

/-- One state follows another in some order of steps. -/
def Step (cfg : Config (ReadDirSpec B) (ReadDirResult B E)) (s s' : Opening B E N) : Prop :=
  ∃ a, s.step cfg a = some s'

/-- The states that can be reached. -/
def Reaches (cfg : Config (ReadDirSpec B) (ReadDirResult B E)) :
    Opening B E N → Opening B E N → Prop :=
  Relation.ReflTransGen (Step cfg)

/-- Carry out a list of actions, leaving out those that are not enabled. -/
def runActions (cfg : Config (ReadDirSpec B) (ReadDirResult B E)) (s : Opening B E N) :
    List (OpeningAction N) → Opening B E N
  | [] => s
  | a :: actions => ((s.step cfg a).getD s).runActions cfg actions

/-- A list of actions is an order of steps. -/
theorem reaches_runActions (cfg : Config (ReadDirSpec B) (ReadDirResult B E)) (s : Opening B E N)
    (actions : List (OpeningAction N)) : Reaches cfg s (s.runActions cfg actions) := by
  induction actions generalizing s with
  | nil => exact .refl
  | cons a actions ih =>
    cases hs : s.step cfg a with
    | none => simpa [runActions, hs] using ih s
    | some s₁ =>
      rw [runActions, hs]
      exact .head ⟨a, hs⟩ (ih s₁)

/-- `try_into_iter`, once `try_new` has returned. -/
def tryIntoIter (s : Opening B E N) : Except Error (IterState E) :=
  if s.walk.iter.iter.readDirIter then .ok s.walk.iter else .error Error.busy

end Opening

/-! ### An iterator without directory reads -/

/-- What an iterator without directory reads yields for a result: an error in place of an entry that
asks for a read, whatever its depth. -/
def busyItem (minDepth : ℕ) :
    Except Error (DirEntry E) → Option (Except Error (DirEntry E))
  | .error err => some (.error err)
  | .ok dirEntry =>
    if dirEntry.readChildrenPath.isSome then some (.error Error.busy)
    else if minDepth ≤ dirEntry.depth then some (.ok dirEntry)
    else none

/-- An iteration without directory reads over root entries. -/
structure IterState.Busy (results : List (Except Error (DirEntry E))) (minDepth : ℕ)
    (st : IterState E) : Prop where
  awaiting : st.awaiting = none
  readDirIter : st.iter.readDirIter = false
  minDepth_eq : st.iter.minDepth = minDepth
  items : st.items ++ st.iter.readDirResultsStack.flatten.filterMap (busyItem minDepth) =
    results.filterMap (busyItem minDepth)
  finished : st.finished = true → st.iter.readDirResultsStack = []

/-- A turn of an iterator without directory reads. -/
theorem IterState.Busy.turn {results : List (Except Error (DirEntry E))} {minDepth : ℕ}
    {st : IterState E} (h : st.Busy results minDepth) (hfinished : st.finished = false) :
    st.turn.Busy results minDepth := by
  obtain ⟨⟨min, readDirIter, stack⟩, awaiting, finished, items⟩ := st
  obtain ⟨rfl, rfl, rfl, hitems, -⟩ := h
  obtain rfl : finished = false := hfinished
  match stack with
  | [] => exact ⟨rfl, rfl, rfl, hitems, fun _ => rfl⟩
  | [] :: stack => exact ⟨rfl, rfl, rfl, hitems, fun h => by cases h⟩
  | (.error err :: rest) :: stack =>
    refine ⟨rfl, rfl, rfl, ?_, fun h => by cases h⟩
    rw [← hitems]
    simp [IterState.turn, DirEntryIter.turn, IterState.apply, busyItem]
  | (.ok dirEntry :: rest) :: stack =>
    cases hpath : dirEntry.readChildrenPath with
    | some path =>
      simp only [IterState.turn, DirEntryIter.turn, hpath, Option.isSome_some, ↓reduceIte,
        Bool.false_eq_true, IterState.apply]
      refine ⟨rfl, rfl, rfl, ?_, fun h => by cases h⟩
      rw [← hitems]
      simp [busyItem, hpath]
    | none =>
      simp only [IterState.turn, DirEntryIter.turn, hpath, Option.isSome_none, ↓reduceIte,
        Bool.false_eq_true, IterState.apply_emit]
      refine ⟨rfl, rfl, rfl, ?_, fun h => by cases h⟩
      rw [← hitems, List.flatten_cons, List.flatten_cons, List.cons_append, List.append_assoc]
      by_cases hdepth : min ≤ dirEntry.depth <;> simp [busyItem, hpath, emitted, hdepth]

/-- At its end an iterator without directory reads has yielded all that it has to. -/
theorem IterState.Busy.items_of_finished {results : List (Except Error (DirEntry E))}
    {minDepth : ℕ} {st : IterState E} (h : st.Busy results minDepth)
    (hfinished : st.finished = true) : st.items = results.filterMap (busyItem minDepth) := by
  have hitems := h.items
  rw [h.finished hfinished] at hitems
  simpa using hitems

/-- A turn keeps the directory reads. -/
theorem IterState.readDirIter_turn (st : IterState E) :
    st.turn.iter.readDirIter = st.iter.readDirIter := by
  unfold IterState.turn DirEntryIter.turn
  split
  · rfl
  · rfl
  · rfl
  · dsimp only
    split_ifs
    · rfl
    · rfl
    · rw [IterState.apply_emit]

theorem IterState.readDirIter_resume (st : IterState E) (dirEntry : DirEntry E)
    (result : Option (ReadDirResult B E)) :
    (st.resume dirEntry result).iter.readDirIter = st.iter.readDirIter := by
  unfold IterState.resume DirEntryIter.resume
  split <;> rw [IterState.apply_emit]

/-- How many turns an iterator without directory reads has ahead of it. -/
def IterState.turnsAhead (st : IterState E) : ℕ :=
  if st.finished then 0 else 1 + (st.iter.readDirResultsStack.map fun l => l.length + 1).sum

/-- A turn of an iterator without directory reads brings it closer to its end. -/
theorem IterState.Busy.turnsAhead_turn {results : List (Except Error (DirEntry E))} {minDepth : ℕ}
    {st : IterState E} (h : st.Busy results minDepth) (hfinished : st.finished = false) :
    st.turn.turnsAhead < st.turnsAhead := by
  obtain ⟨⟨min, readDirIter, stack⟩, awaiting, finished, items⟩ := st
  obtain ⟨rfl, rfl, rfl, -, -⟩ := h
  obtain rfl : finished = false := hfinished
  match stack with
  | [] => simp [IterState.turn, DirEntryIter.turn, IterState.apply, turnsAhead]
  | [] :: stack => simp [IterState.turn, DirEntryIter.turn, IterState.apply, turnsAhead]
  | (.error err :: rest) :: stack =>
    simp [IterState.turn, DirEntryIter.turn, IterState.apply, turnsAhead]
  | (.ok dirEntry :: rest) :: stack =>
    cases hpath : dirEntry.readChildrenPath with
    | some path => simp [IterState.turn, DirEntryIter.turn, hpath, IterState.apply, turnsAhead]
    | none => simp [IterState.turn, DirEntryIter.turn, hpath, IterState.apply_emit, turnsAhead]

/-! ### Steps of the walk -/

namespace ParWalk

variable {cfg : Config (ReadDirSpec B) (ReadDirResult B E)} {w w' : ParWalk B E N}
  {a : WalkAction N}

/-- A step of the threads of the job is a step of the run. -/
theorem exists_run_of_step (ha : a.ofJob = true) (hs : w.step cfg a = some w') :
    ∃ b run, a = .run b ∧ w.run.step cfg b = some run ∧ w' = { w with run := run } := by
  match a with
  | .turn | .run (.consumer _) | .run .stop | .run .dropReceiver => cases ha
  | .run (.worker i fail) | .run .dropSenders =>
    simp only [step] at hs
    split at hs
    · rename_i run hstep
      exact ⟨_, run, rfl, hstep, (Option.some.inj hs).symm⟩
    · cases hs

/-- The threads of the job leave the iterator, the consumer, its receiver and the flag alone. -/
theorem of_step_ofJob (ha : a.ofJob = true) (hs : w.step cfg a = some w') :
    w'.iter = w.iter ∧ w'.run.consumer = w.run.consumer ∧ w'.run.receiver = w.run.receiver ∧
      w'.run.stop = w.run.stop := by
  obtain ⟨b, run, rfl, hstep, rfl⟩ := exists_run_of_step ha hs
  cases RunState.move_of_step hstep with
  | request i fail item op k s₁ answer hi hperformed =>
    cases hperformed <;> exact ⟨rfl, rfl, rfl, rfl⟩
  | consume | stop | dropReceiver => cases ha
  | _ => exact ⟨rfl, rfl, rfl, rfl⟩

/-- The client takes nothing out of the work queue, and its iterator keeps its directory reads. -/
theorem of_step_client (ha : a.ofJob = false) (hs : w.step cfg a = some w') :
    w'.run.taken = w.run.taken ∧ w'.iter.iter.readDirIter = w.iter.iter.readDirIter := by
  match a with
  | .run (.worker _ _) | .run .dropSenders => cases ha
  | .turn =>
    simp only [step] at hs
    split_ifs at hs
    obtain rfl := Option.some.inj hs
    exact ⟨rfl, IterState.readDirIter_turn _⟩
  | .run .stop =>
    obtain rfl := Option.some.inj hs
    exact ⟨rfl, rfl⟩
  | .run .dropReceiver =>
    simp only [step, RunState.step] at hs
    split_ifs at hs
    obtain rfl := Option.some.inj hs
    exact ⟨rfl, rfl⟩
  | .run (.consumer expired) =>
    simp only [step] at hs
    split at hs
    · rename_i dirEntry run hawaiting hstep
      have htaken : run.taken = w.run.taken := by
        have hconsume : w.run.step cfg (.consumer expired) = some run := hstep
        cases RunState.move_of_step hconsume
        rfl
      split at hs
      · obtain rfl := Option.some.inj hs
        exact ⟨htaken, IterState.readDirIter_resume _ _ _⟩
      · obtain rfl := Option.some.inj hs
        exact ⟨htaken, rfl⟩
    · cases hs

theorem step_turn (hs : w.step cfg .turn = some w') :
    w.iter.finished = false ∧ w' = { w with iter := w.iter.turn } := by
  simp only [step] at hs
  split_ifs at hs with hguard
  obtain rfl := Option.some.inj hs
  simp only [Bool.or_eq_true, not_or, Bool.not_eq_true] at hguard
  exact ⟨hguard.1, rfl⟩

end ParWalk

/-! ### What every state keeps -/

namespace Opening

variable {cfg : Config (ReadDirSpec B) (ReadDirResult B E)} {parallelism : Parallelism}
  {root : B × List (Except Error (DirEntry E))} {minDepth maxReceiveBufferSize : ℕ}
  {s s' : Opening B E N}

/-- What the parties know of each other. -/
structure Inv (cfg : Config (ReadDirSpec B) (ReadDirResult B E)) (parallelism : Parallelism)
    (root : B × List (Except Error (DirEntry E))) (minDepth maxReceiveBufferSize : ℕ)
    (s : Opening B E N) : Prop where
  handshake : s.handshake = parallelism.timeout.isSome
  patient : s.opener ≠ .opened → s.handshake = true
  message : s.message = true → s.job = .walking
  opened : s.opener = .opened → s.handshake = true → s.job = .walking
  returned : s.job = .returned → s.opener = .hungUp ∨ s.opener = .stopped ∨ s.opener = .refused
  unread : s.job ≠ .walking → s.walk.run.taken = []
  run : RunState.Reaches cfg (.init N (rootItems (rootSpecs root)) maxReceiveBufferSize) s.walk.run
  /-- Until `try_new` returns `None`, the walk is a walk like any other. -/
  walk : s.opener ≠ .refused →
    ParWalk.Reaches cfg (.init N root minDepth maxReceiveBufferSize) s.walk ∧
      s.walk.iter.iter.readDirIter = true
  /-- Nobody asks for results before `try_new` returns, or after it has returned `None`. -/
  unasked : s.opener ≠ .opened → s.walk.run.consumer = .new maxReceiveBufferSize
  unused : s.opener ≠ .opened → s.opener ≠ .refused → s.walk.iter = .new root.2 minDepth
  stopped : s.opener = .stopped ∨ s.opener = .refused → s.walk.run.stop = true
  refused : s.opener = .refused → s.walk.run.receiver = false ∧ s.walk.iter.Busy root.2 minDepth

theorem inv_init (h : init parallelism N root minDepth maxReceiveBufferSize = some s) :
    Inv cfg parallelism root minDepth maxReceiveBufferSize s := by
  have hs : s = ⟨if parallelism.timeout.isSome then .waiting else .opened, .spawned,
      parallelism.timeout.isSome, false, .init N root minDepth maxReceiveBufferSize⟩ := by
    cases parallelism with
    | serial => cases h
    | _ => exact (Option.some.inj h).symm
  subst hs
  cases htimeout : parallelism.timeout with
  | none =>
    exact ⟨by rw [htimeout], by simp, by simp, by simp, by simp, fun _ => rfl, .refl,
      fun _ => ⟨.refl, rfl⟩, by simp, by simp, by simp, by simp⟩
  | some timeout =>
    exact ⟨by rw [htimeout], fun _ => rfl, by simp, by simp, by simp, fun _ => rfl, .refl,
      fun _ => ⟨.refl, rfl⟩, fun _ => rfl, fun _ _ => rfl, by simp, by simp⟩

/-- A step of the opener. -/
theorem Inv.stepOpener (h : Inv cfg parallelism root minDepth maxReceiveBufferSize s)
    {expired : Bool} (hs : s.stepOpener expired = some s') :
    Inv cfg parallelism root minDepth maxReceiveBufferSize s' := by
  unfold Opening.stepOpener at hs
  cases hopener : s.opener with
  | waiting =>
    have hpatient := h.patient (by simp [hopener])
    have hjob : s.job ≠ .returned := fun hjob => by simpa [hopener] using h.returned hjob
    have hwalk := h.walk (by simp [hopener])
    simp only [hopener] at hs
    split_ifs at hs with hmessage hexpired
    · obtain rfl := Option.some.inj hs
      exact ⟨h.handshake, fun _ => hpatient, by simp, fun _ _ => h.message hmessage,
        fun hreturned => absurd hreturned hjob, h.unread, h.run, fun _ => hwalk, by simp, by simp,
        by simp, by simp⟩
    · obtain rfl := Option.some.inj hs
      exact ⟨h.handshake, fun _ => hpatient, h.message, by simp,
        fun hreturned => absurd hreturned hjob, h.unread, h.run, fun _ => hwalk,
        fun _ => h.unasked (by simp [hopener]),
        fun _ _ => h.unused (by simp [hopener]) (by simp [hopener]), by simp, by simp⟩
  | timedOut =>
    have hpatient := h.patient (by simp [hopener])
    have hwalk := h.walk (by simp [hopener])
    simp only [hopener] at hs
    obtain rfl := Option.some.inj hs
    exact ⟨h.handshake, fun _ => hpatient, h.message, by simp, fun _ => .inl rfl,
      h.unread, h.run, fun _ => hwalk, fun _ => h.unasked (by simp [hopener]),
      fun _ _ => h.unused (by simp [hopener]) (by simp [hopener]), by simp, by simp⟩
  | hungUp =>
    have hpatient := h.patient (by simp [hopener])
    have hwalk := h.walk (by simp [hopener])
    simp only [hopener] at hs
    obtain rfl := Option.some.inj hs
    exact ⟨h.handshake, fun _ => hpatient, h.message, by simp,
      fun _ => .inr (.inl rfl), h.unread, h.run.tail ⟨.stop, rfl⟩,
      fun _ => ⟨hwalk.1.tail ⟨.run .stop, rfl⟩, hwalk.2⟩, fun _ => h.unasked (by simp [hopener]),
      fun _ _ => h.unused (by simp [hopener]) (by simp [hopener]), fun _ => rfl, by simp⟩
  | stopped =>
    have hpatient := h.patient (by simp [hopener])
    have hstop := h.stopped (.inl hopener)
    have hiter := h.unused (by simp [hopener]) (by simp [hopener])
    simp only [hopener] at hs
    obtain rfl := Option.some.inj hs
    refine ⟨h.handshake, fun _ => hpatient, h.message, by simp, fun _ => .inr (.inr rfl), h.unread,
      h.run.tail ⟨.dropReceiver, by simp [RunState.step, hstop]⟩, by simp,
      fun _ => h.unasked (by simp [hopener]), by simp, fun _ => hstop, fun _ => ⟨rfl, ?_⟩⟩
    simp only [hiter]
    exact ⟨rfl, rfl, rfl, by simp [IterState.new], by simp [IterState.new]⟩
  | refused | opened => simp [hopener] at hs

/-- The first step of the job. -/
theorem Inv.stepJob (h : Inv cfg parallelism root minDepth maxReceiveBufferSize s)
    (hs : s.stepJob = some s') : Inv cfg parallelism root minDepth maxReceiveBufferSize s' := by
  unfold Opening.stepJob at hs
  cases hjob : s.job with
  | spawned =>
    have hunread := h.unread (by simp [hjob])
    simp only [hjob] at hs
    split_ifs at hs with hhandshake hwaiting
    · obtain rfl := Option.some.inj hs
      exact ⟨h.handshake, h.patient, fun _ => rfl, fun _ _ => rfl, by simp, by simp, h.run, h.walk,
        h.unasked, h.unused, h.stopped, h.refused⟩
    · obtain rfl := Option.some.inj hs
      -- an opener that has heard from the job would not have to hear from it again
      have hopened : s.opener ≠ .opened := fun hopened => by
        simpa [hjob] using h.opened hopened hhandshake
      refine ⟨h.handshake, h.patient, fun hmessage => ?_,
        fun hopener => absurd hopener hopened, fun _ => ?_, fun _ => hunread, h.run, h.walk,
        h.unasked, h.unused, h.stopped, h.refused⟩
      · simpa [hjob] using h.message hmessage
      · simp only
        cases hopener : s.opener <;> simp_all
    · obtain rfl := Option.some.inj hs
      exact ⟨h.handshake, h.patient, fun _ => rfl, fun _ _ => rfl, by simp, by simp, h.run, h.walk,
        h.unasked, h.unused, h.stopped, h.refused⟩
  | walking | returned => simp [hjob] at hs

/-- A step of the walk. -/
theorem Inv.stepWalk (h : Inv cfg parallelism root minDepth maxReceiveBufferSize s)
    {a : WalkAction N} (hallows : s.allows a = true) {w : ParWalk B E N}
    (hs : s.walk.step cfg a = some w) :
    Inv cfg parallelism root minDepth maxReceiveBufferSize { s with walk := w } := by
  have hrun := h.run.trans (ParWalk.Reaches.run (.single ⟨a, hs⟩))
  unfold allows at hallows
  split_ifs at hallows with ha
  · have hjob : s.job = .walking := by simpa using hallows
    obtain ⟨hiter, hconsumer, hreceiver, hstop⟩ := ParWalk.of_step_ofJob ha hs
    refine ⟨h.handshake, h.patient, h.message, h.opened, h.returned, fun hne => absurd hjob hne,
      hrun, fun hopener => ⟨(h.walk hopener).1.tail ⟨_, hs⟩, ?_⟩, ?_, ?_, ?_, ?_⟩
    · rw [hiter]
      exact (h.walk hopener).2
    · rw [hconsumer]
      exact h.unasked
    · rw [hiter]
      exact h.unused
    · rw [hstop]
      exact h.stopped
    · rw [hreceiver, hiter]
      exact h.refused
  · rw [Bool.not_eq_true] at ha
    obtain ⟨htaken, hreads⟩ := ParWalk.of_step_client ha hs
    split at hallows
    · rename_i hopener
      exact ⟨h.handshake, h.patient, h.message, h.opened, h.returned,
        fun hne => htaken.trans (h.unread hne), hrun,
        fun hne => ⟨(h.walk hne).1.tail ⟨_, hs⟩, hreads.trans (h.walk hne).2⟩, by simp [hopener],
        by simp [hopener], by simp [hopener], by simp [hopener]⟩
    · rename_i hopener
      obtain ⟨hfinished, rfl⟩ := ParWalk.step_turn hs
      obtain ⟨hreceiver, hbusy⟩ := h.refused hopener
      exact ⟨h.handshake, h.patient, h.message, h.opened, h.returned, h.unread, h.run,
        by simp [hopener], h.unasked, by simp [hopener], h.stopped,
        fun _ => ⟨hreceiver, hbusy.turn hfinished⟩⟩
    · cases hallows

/-- **Every step keeps what the parties know of each other.** -/
theorem Inv.step (h : Inv cfg parallelism root minDepth maxReceiveBufferSize s)
    (hs : Step cfg s s') : Inv cfg parallelism root minDepth maxReceiveBufferSize s' := by
  obtain ⟨a, hs⟩ := hs
  cases a with
  | opener expired => exact h.stepOpener hs
  | job => exact h.stepJob hs
  | walk a =>
    simp only [Opening.step] at hs
    split_ifs at hs with hallows
    obtain ⟨w, hw, rfl⟩ := Option.map_eq_some_iff.mp hs
    exact h.stepWalk hallows hw

theorem inv_of_reaches (hinit : init parallelism N root minDepth maxReceiveBufferSize = some s)
    (h : Reaches cfg s s') : Inv cfg parallelism root minDepth maxReceiveBufferSize s' :=
  Reachability.invariant h (inv_init hinit) fun _ _ hinv hs => hinv.step hs

/-- How many steps the opener has ahead of it, at most. -/
def ahead (s : Opening B E N) : ℕ :=
  match s.opener with
  | .waiting => 4
  | .timedOut => 3
  | .hungUp => 2
  | .stopped => 1
  | .refused | .opened => 0

/-- The opener waits for nobody for longer than its deadline. -/
theorem exists_stepOpener (h : s.opener ≠ .opened ∧ s.opener ≠ .refused) :
    ∃ s', s.stepOpener true = some s' ∧ s'.ahead < s.ahead := by
  unfold stepOpener
  cases hopener : s.opener with
  | waiting =>
    by_cases hmessage : s.message = true
    · exact ⟨_, by simp only [hmessage, ↓reduceIte]; rfl, by simp [ahead, hopener]⟩
    · exact ⟨_, by simp only [hmessage, Bool.false_eq_true, ↓reduceIte]; rfl,
        by simp [ahead, hopener]⟩
  | timedOut | hungUp | stopped => exact ⟨_, rfl, by simp [ahead, hopener]⟩
  | refused => exact absurd hopener h.2
  | opened => exact absurd hopener h.1

/-- The opener comes to an outcome by its own steps. -/
theorem exists_outcome (s : Opening B E N) :
    ∃ s', Relation.ReflTransGen (fun t t' => t.stepOpener true = some t') s s' ∧
      (s'.opener = .opened ∨ s'.opener = .refused) := by
  obtain ⟨s', hs', -, houtcome⟩ :
      ∃ s', Relation.ReflTransGen (fun t t' => t.stepOpener true = some t') s s' ∧ True ∧
        (s'.opener = .opened ∨ s'.opener = .refused) := by
    refine Reachability.exists_of_measure ahead (fun t _ => ?_) trivial
    by_cases houtcome : t.opener = .opened ∨ t.opener = .refused
    · exact Or.inl houtcome
    · obtain ⟨t', hstep, hlt⟩ := exists_stepOpener (not_or.mp houtcome)
      exact Or.inr ⟨t', .single hstep, trivial, hlt⟩
  exact ⟨s', hs', houtcome⟩

/-- Once `try_new` has returned `None`, the client can take a turn until the iterator has come to
its end. -/
theorem Inv.exists_turn (h : Inv cfg parallelism root minDepth maxReceiveBufferSize s)
    (hopener : s.opener = .refused) (hfinished : s.walk.iter.finished = false) :
    ∃ s', s.step cfg (.walk .turn) = some s' ∧ s'.opener = .refused ∧
      s'.walk.iter.turnsAhead < s.walk.iter.turnsAhead := by
  obtain ⟨-, hbusy⟩ := h.refused hopener
  refine ⟨{ s with walk := { s.walk with iter := s.walk.iter.turn } }, ?_, hopener,
    hbusy.turnsAhead_turn hfinished⟩
  simp [Opening.step, Opening.allows, WalkAction.ofJob, hopener, ParWalk.step, hfinished,
    hbusy.awaiting]

/-- **An iterator without directory reads comes to its end** by turns of the client. -/
theorem Inv.exists_finished (h : Inv cfg parallelism root minDepth maxReceiveBufferSize s)
    (hopener : s.opener = .refused) :
    ∃ s', Relation.ReflTransGen (fun t t' => t.step cfg (.walk .turn) = some t') s s' ∧
      (Inv cfg parallelism root minDepth maxReceiveBufferSize s' ∧ s'.opener = .refused) ∧
      s'.walk.iter.finished = true := by
  refine Reachability.exists_of_measure (fun t => t.walk.iter.turnsAhead) ?_ ⟨h, hopener⟩
  rintro t ⟨ht, htopener⟩
  cases hfinished : t.walk.iter.finished with
  | true => exact Or.inl rfl
  | false =>
    obtain ⟨t', hstep, htopener', hlt⟩ := ht.exists_turn htopener hfinished
    exact Or.inr ⟨t', .single hstep, ⟨ht.step ⟨_, hstep⟩, htopener'⟩, hlt⟩

end Opening

/-! ### The outcomes -/

/-- **What the outcomes of `try_new` mean**, in any order of the steps of the opener, the job, the
workers and the client. The thread that opens a walk comes to an outcome by its own steps. If it is
`Some`, the job has announced itself where it had to, and the walk goes on as any other. If it is
`None`, there was a timeout, the walk is stopped, no result has been or will be asked for, and the
iterator yields an error for every directory among the root entries: turns of the client alone lead
it to its end, and there it has yielded all of them. A job that returns because nobody listens has
been refused, and has read nothing. Sends to the work queue may fail or not. -/
theorem opening_outcome (callback : ReadDirCallback B E) (capacity : ℕ) (hcapacity : 0 < capacity)
    (sendsMayFail : Bool) (parallelism : Parallelism)
    (root : B × List (Except Error (DirEntry E))) (minDepth maxReceiveBufferSize : ℕ)
    (start s : Opening B E N)
    (hinit : Opening.init parallelism N root minDepth maxReceiveBufferSize = some start)
    (h : Opening.Reaches (.walk callback capacity hcapacity sendsMayFail) start s) :
    (∃ s', Relation.ReflTransGen (fun t t' => t.stepOpener true = some t') s s' ∧
      (s'.opener = .opened ∨ s'.opener = .refused)) ∧
    (s.opener = .opened → (parallelism.timeout.isSome = true → s.job = .walking) ∧
      s.tryIntoIter = .ok s.walk.iter ∧
      ParWalk.Reaches (.walk callback capacity hcapacity sendsMayFail)
        (.init N root minDepth maxReceiveBufferSize) s.walk) ∧
    (s.opener = .refused → parallelism.timeout.isSome = true ∧ s.tryIntoIter = .error Error.busy ∧
      RunState.Reaches (.walk callback capacity hcapacity sendsMayFail)
        (.init N (rootItems (rootSpecs root)) maxReceiveBufferSize) s.walk.run ∧
      s.walk.run.stop = true ∧ s.walk.run.receiver = false ∧ s.walk.run.consumer.nexts = [] ∧
      s.walk.iter.items <+: root.2.filterMap (busyItem minDepth) ∧
      (s.walk.iter.finished = true → s.walk.iter.items = root.2.filterMap (busyItem minDepth)) ∧
      ∃ s', Relation.ReflTransGen (fun t t' =>
          t.step (.walk callback capacity hcapacity sendsMayFail) (.walk .turn) = some t') s s' ∧
        s'.walk.iter.finished = true ∧
        s'.walk.iter.items = root.2.filterMap (busyItem minDepth)) ∧
    (s.job = .returned → s.opener ≠ .opened ∧ s.walk.run.taken = []) := by
  have hinv := Opening.inv_of_reaches hinit h
  refine ⟨s.exists_outcome, fun hopener => ?_, fun hopener => ?_, fun hjob => ⟨?_, ?_⟩⟩
  · have hwalk := hinv.walk (by simp [hopener])
    exact ⟨fun htimeout => hinv.opened hopener (hinv.handshake.trans htimeout),
      if_pos hwalk.2, hwalk.1⟩
  · obtain ⟨hreceiver, hbusy⟩ := hinv.refused hopener
    have hnexts : s.walk.run.consumer.nexts = [] := by
      rw [hinv.unasked (by simp [hopener])]
      rfl
    obtain ⟨s', hturns, ⟨hinv', hopener'⟩, hfinished'⟩ := hinv.exists_finished hopener
    refine ⟨hinv.handshake.symm.trans (hinv.patient (by simp [hopener])), ?_, hinv.run,
      hinv.stopped (.inr hopener), hreceiver, hnexts, ⟨_, hbusy.items⟩, hbusy.items_of_finished,
      s', hturns, hfinished', (hinv'.refused hopener').2.items_of_finished hfinished'⟩
    rw [Opening.tryIntoIter, hbusy.readDirIter]
    rfl
  · rcases hinv.returned hjob with hopener | hopener | hopener <;> simp [hopener]
  · exact hinv.unread (by simp [hjob])

/-- A walk of `r` by one worker that may wait for a second. -/
def orphanedStart : Opening Unit Unit 1 :=
  (Opening.init (.rayonDefaultPool 1000) 1 (rootEntryResults (.linux ParWalk.plainLinux)
    (WalkDirOptions.new : WalkDirOptions Unit Unit) ⟨[.normal [114]]⟩ ()) 0 4).get rfl

/-- Its job sends its message after the opener has timed out, and takes a directory before the flag
is set. -/
def orphaned : Opening Unit Unit 1 :=
  orphanedStart.runActions
    (.walk (coreReadDirCallback (.linux ParWalk.plainLinux) .new) 2 Nat.two_pos false)
    ([.opener true, .job, .opener false] ++ List.replicate 4 (.walk (.run (.worker 0 false))) ++
      List.replicate 2 (.opener false))

/-- The statement above for this walk: the client can lead it to its end, where it has yielded an
error for `r`. -/
theorem opening_outcome_orphaned :
    orphaned.opener = .refused ∧ orphaned.walk.run.taken.length = 1 ∧
      ∃ s', Relation.ReflTransGen (fun t t' => t.step (.walk (coreReadDirCallback
          (.linux ParWalk.plainLinux) .new) 2 Nat.two_pos false) (.walk .turn) = some t')
          orphaned s' ∧
        s'.walk.iter.finished = true ∧ s'.walk.iter.items = [.error Error.busy] := by
  have hopener : orphaned.opener = .refused := by decide +kernel
  obtain ⟨-, -, hrefused, -⟩ := opening_outcome (coreReadDirCallback (.linux ParWalk.plainLinux)
    .new) 2 Nat.two_pos false (.rayonDefaultPool 1000) _ 0 4 orphanedStart orphaned
    (Option.some_get _).symm (Opening.reaches_runActions _ _ _)
  obtain ⟨-, -, -, -, -, -, -, -, s', hturns, hfinished, hitems⟩ := hrefused hopener
  refine ⟨hopener, by decide +kernel, s', hturns, hfinished, hitems.trans ?_⟩
  decide +kernel

end JwalkMeta
