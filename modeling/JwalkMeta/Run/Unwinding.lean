import JwalkMeta.Run.Progress
import JwalkMeta.WalkDir.Retries

/-!
# Callbacks that unwind

The client's callback runs inside a worker, between the read of a directory and the send of its
result. When it unwinds the rest of the worker's program is not carried out: nothing is sent,
nothing is scheduled, and the item is not completed. The other workers keep on asking for items, and
this is all that is assumed of rayon: the worker itself is let go on with its next item, while one
that leaves the loop is one that takes no further step.

All other ways out of the program complete the item. So the count of pending items is too large by
one for each invocation that has unwound, and it never comes down to zero again: the workers find
nothing to do and wait for ever.

## Main definitions

* `UnwindRun`, `UnwindRun.Reaches`: runs in which invocations of the callback may unwind.
* `RunState.workLeft`: the items that the count of pending items is meant to count.
* `invokesCallback`: the items whose read invokes the client's callback.

## Main results

* `UnwindRun.pendingCount_eq`: the count of pending items, with what has unwound.
* `UnwindRun.accounting_survives_iff`: the account is right if and only if nothing has unwound.
-/

namespace JwalkMeta

open Interaction

variable {S R : Type} {N : ℕ}

namespace RunState

variable {cfg : Config S R} {s s' : RunState S R N}

/-- The items in the channel, in the heap, being processed, or in a push. -/
def workLeft (s : RunState S R N) : ℕ :=
  s.specChannel.length + s.receiveBuffer.length + s.processing.length + s.counted.length

/-- The state as it would be if the items of a list were completed. -/
def settle (s : RunState S R N) (unwound : List (Weighted S)) : RunState S R N :=
  { s with
    pendingCount := s.pendingCount - unwound.length
    completed := unwound ++ s.completed }

theorem settle_nil (s : RunState S R N) : s.settle [] = s := by
  simp [settle]

theorem Performed.settle {item : Weighted S} {op : WorkerOp S R} {answer : Bool}
    (h : Performed cfg s item op s' answer) (unwound : List (Weighted S)) :
    Performed cfg (s.settle unwound) item op (s'.settle unwound) answer := by
  cases h with
  | loadStop => exact .loadStop
  | fetchAdd =>
    have hperformed : Performed cfg (s.settle unwound) item .fetchAdd
        { s.settle unwound with pendingCount := (s.settle unwound).pendingCount + 1 } true :=
      .fetchAdd
    rwa [show (s.settle unwound).pendingCount + 1 = s.pendingCount + 1 - unwound.length by
      simp only [RunState.settle]; omega] at hperformed
  | sendSpec weighted hroom => exact .sendSpec weighted hroom
  | sendSpecFailed weighted hfail => exact .sendSpecFailed weighted hfail
  | fetchSub =>
    have hperformed : Performed cfg (s.settle unwound) item .fetchSub
        { s.settle unwound with pendingCount := (s.settle unwound).pendingCount - 1 } true :=
      .fetchSub
    rwa [show (s.settle unwound).pendingCount - 1 = s.pendingCount - 1 - unwound.length by
      simp only [RunState.settle]; omega] at hperformed
  | sendResult ordered hreceiver hroom => exact .sendResult ordered hreceiver hroom
  | sendResultClosed ordered hreceiver => exact .sendResultClosed ordered hreceiver
  | completeItem =>
    have hperformed : Performed cfg (s.settle unwound) item .completeItem { s.settle unwound with
        pendingCount := (s.settle unwound).pendingCount - 1
        completed := unwound ++ s.completed ++ [item] } true := .completeItem
    rwa [show (s.settle unwound).pendingCount - 1 = s.pendingCount - 1 - unwound.length by
      simp only [RunState.settle]; omega, List.append_assoc] at hperformed

/-- A step of a run is one of the run in which what has unwound is completed: `next` returns `None`
only if nothing has unwound. -/
theorem Move.settle {a : Action N} (h : Move cfg s a s') {unwound : List (Weighted S)}
    (hacc : (s.settle unwound).Accounted) :
    Move cfg (s.settle unwound) a (s'.settle unwound) := by
  cases h with
  | advance i fail w hi hw halive hreturn =>
    refine .advance i fail w hi hw halive fun hret => (hreturn hret).imp_right fun hzero => ?_
    have hsum := hacc.pendingCount_eq
    simp only [RunState.settle, hzero] at hsum ⊢
    omega
  | receive i fail w weighted channel hi hw halive hreturn hchannel =>
    exact .receive i fail w weighted channel hi hw halive hreturn hchannel
  | take i fail weighted buffer hi halive hchannel hpop =>
    exact .take i fail weighted buffer hi halive hchannel hpop
  | request i fail item op k s₁ answer hi hperformed =>
    exact .request (s := s.settle unwound) i fail item op k (s₁.settle unwound) answer hi
      (hperformed.settle unwound)
  | consume expired channel consumer hreceiver hstep =>
    exact .consume expired channel consumer hreceiver hstep
  | dropSenders hall => exact .dropSenders hall
  | stop => exact .stop
  | dropReceiver hstop => exact .dropReceiver hstop

/-- An invocation unwinds: with its item completed the account stays right. -/
theorem Accounted.of_unwind {unwound : List (Weighted S)} (h : (s.settle unwound).Accounted)
    {i : Fin N} {item : Weighted S} {p : WorkerProgram S R Unit}
    (hi : s.workers i = .running item p) (hplain : phase p = .plain) :
    ((s.setWorker i .locking).settle (unwound ++ [item])).Accounted := by
  obtain ⟨ph, hp⟩ := h.disciplined i item p hi
  obtain rfl : phase p = ph := hp.phase_eq
  rw [hplain] at hp
  have hcompleted := h.of_complete hi hp
  refine ⟨hcompleted.disciplined, ?_, hcompleted.scheduled_perm, ?_, fun hstop j hj => ?_⟩
  · have hsum := hcompleted.pendingCount_eq
    simp only [settle, setWorker, processing, counted, List.length_append, List.length_singleton]
      at hsum ⊢
    omega
  · refine hcompleted.taken_perm.trans (List.Perm.append_right _ ?_)
    simp only [settle, setWorker, List.append_assoc, List.singleton_append]
    exact (List.perm_append_singleton item s.completed).append_left unwound
  · have hzero := hcompleted.returned hstop j hj
    simp only [settle, setWorker, List.length_append, List.length_singleton] at hzero ⊢
    omega

theorem hasReturned_resume (item : Weighted S) (p : WorkerProgram S R Unit) :
    (Worker.resume item p).hasReturned = false := by
  cases p <;> rfl

/-- A worker that has left `next` with `None` had done so before, or has found the stop flag set or
nothing pending. -/
theorem Move.returned {a : Action N} (h : Move cfg s a s') {j : Fin N}
    (hj : (s'.workers j).hasReturned = true) :
    (s.workers j).hasReturned = true ∨ s.stop = true ∨ s.pendingCount = 0 := by
  -- only the worker that takes the step can have left `next`
  have hother {t : RunState S R N} {i : Fin N} {w : Worker S R} (hworkers : t.workers = s.workers)
      (hw : w.hasReturned = true → s.stop = true ∨ s.pendingCount = 0)
      (hj : ((t.setWorker i w).workers j).hasReturned = true) :
      (s.workers j).hasReturned = true ∨ s.stop = true ∨ s.pendingCount = 0 := by
    by_cases hji : j = i
    · rw [hji, setWorker_workers_self] at hj
      exact Or.inr (hw hj)
    · rw [setWorker_workers_of_ne hji, hworkers] at hj
      exact Or.inl hj
  cases h with
  | advance i fail w hi hw halive hreturn => exact hother rfl hreturn hj
  | receive i fail w weighted channel hi hw halive hreturn hchannel =>
    exact hother rfl (by simp [hreturn]) hj
  | take i fail weighted buffer hi halive hchannel hpop =>
    exact hother rfl (by simp [hasReturned_resume]) hj
  | request i fail item op k s₁ answer hi hperformed =>
    refine hother ?_ (by simp [hasReturned_resume]) hj
    cases hperformed <;> rfl
  | consume expired channel consumer hreceiver hstep => exact Or.inl hj
  | dropSenders hall => exact Or.inl hj
  | stop => exact Or.inl hj
  | dropReceiver hstop => exact Or.inl hj

end RunState

/-! ### Runs with unwinding -/

/-- A run in which invocations of the client's callback may unwind, with a record of their items. -/
structure UnwindRun (S R : Type) (N : ℕ) where
  run : RunState S R N
  unwound : List (Weighted S)

namespace UnwindRun

/-- The invocation in a worker unwinds: the worker leaves its item as it is. That it may go on is an
assumption, which makes for more runs: where rayon lets the panic end its loop, the worker takes no
further step. -/
def unwind (invokes : Weighted S → Bool) (s : UnwindRun S R N) (i : Fin N) :
    Option (UnwindRun S R N) :=
  match s.run.workers i with
  | .running item (.ask (.sendResult _) _) =>
    if invokes item then some ⟨s.run.setWorker i .locking, s.unwound ++ [item]⟩ else none
  | _ => none

/-- A step of the run, or an invocation that unwinds. -/
def Step (cfg : Config S R) (invokes : Weighted S → Bool) (s s' : UnwindRun S R N) : Prop :=
  (RunState.Step cfg s.run s'.run ∧ s'.unwound = s.unwound) ∨ ∃ i, s.unwind invokes i = some s'

/-- The states that a run with unwinding can reach. -/
def Reaches (cfg : Config S R) (invokes : Weighted S → Bool) :
    UnwindRun S R N → UnwindRun S R N → Prop := Relation.ReflTransGen (Step cfg invokes)

variable {cfg : Config S R} {invokes : Weighted S → Bool} {s s' : UnwindRun S R N}

/-- The account of a run with unwinding: it would be right if what has unwound were completed, and
no worker has found it at zero while something has unwound. -/
structure Accounted (s : UnwindRun S R N) : Prop where
  settled : (s.run.settle s.unwound).Accounted
  returned : s.run.stop = false → ∀ i, (s.run.workers i).hasReturned = true → s.unwound = []

theorem Accounted.pendingCount_eq (h : s.Accounted) :
    s.run.pendingCount = (s.run.workLeft + s.unwound.length : ℕ) := by
  have hsum := h.settled.pendingCount_eq
  simp only [RunState.settle, RunState.processing, RunState.counted] at hsum
  simp only [RunState.workLeft, RunState.processing, RunState.counted]
  omega

theorem Accounted.step (hwork : ∀ weighted, Disciplined .plain (cfg.work weighted))
    (h : s.Accounted) (hs : Step cfg invokes s s') : s'.Accounted := by
  rcases hs with ⟨hstep, hunwound⟩ | ⟨i, hunwind⟩
  · obtain ⟨a, hmove⟩ := hstep.move
    refine ⟨hunwound ▸ h.settled.of_move hwork (hmove.settle h.settled), fun hstop j hj => ?_⟩
    rw [hunwound]
    have hstop' := hstep.stop_of hstop
    rcases hmove.returned hj with hbefore | hset | hzero
    · exact h.returned hstop' j hbefore
    · simp [hstop'] at hset
    · have hsum := h.pendingCount_eq
      exact List.length_eq_zero_iff.mp (by omega)
  · unfold unwind at hunwind
    split at hunwind
    · next item ordered k hi =>
      split_ifs at hunwind
      obtain rfl := Option.some.inj hunwind
      refine ⟨h.settled.of_unwind hi rfl, fun hstop j hj => ?_⟩
      -- while an item is processed no worker has left `next` with `None`
      by_cases hji : j = i
      · rw [hji, RunState.setWorker_workers_self] at hj
        simp [Worker.hasReturned] at hj
      · rw [RunState.setWorker_workers_of_ne hji] at hj
        have hnot : (s.run.workers j).hasReturned = false := h.settled.not_returned hi hstop j
        simp [hnot] at hj
    · simp at hunwind

theorem accounted_of_reaches (hwork : ∀ weighted, Disciplined .plain (cfg.work weighted))
    {items : List (Weighted S)} {maxReceiveBufferSize : ℕ}
    (h : Reaches cfg invokes ⟨.init N items maxReceiveBufferSize, []⟩ s) : s.Accounted := by
  induction h with
  | refl =>
    refine ⟨?_, fun _ _ _ => rfl⟩
    rw [RunState.settle_nil]
    exact RunState.accounted_init items maxReceiveBufferSize
  | tail _ hs ih => exact ih.step hwork hs

/-! ### The end of `next` -/

/-- A worker takes steps of its own. -/
def WorkerSteps (cfg : Config S R) (i : Fin N) : RunState S R N → RunState S R N → Prop :=
  Relation.ReflTransGen fun t t' => t.stepWorker cfg i false = some t'

/-- A worker that is inside `next` when no work is left. -/
structure Idle (i : Fin N) (count : ℤ) (t : RunState S R N) : Prop where
  stop : t.stop = false
  specChannel : t.specChannel = []
  receiveBuffer : t.receiveBuffer = []
  pendingCount : t.pendingCount = count

theorem Idle.setWorker {i : Fin N} {count : ℤ} {t : RunState S R N} (h : Idle i count t)
    (w : Worker S R) : Idle i count (t.setWorker i w) :=
  ⟨h.stop, h.specChannel, h.receiveBuffer, h.pendingCount⟩

/-- How far a worker is from the end of `next`, when it finds nothing. -/
def distance : Worker S R → ℕ
  | .wait => 4
  | .top => 3
  | .drain => 2
  | .checkPending => 1
  | _ => 0

/-- One step of an idle worker. -/
theorem Idle.stepWorker (cfg : Config S R) {i : Fin N} {count : ℤ} {t : RunState S R N}
    (h : Idle i count t) (hi : (t.workers i).inNext = true) :
    ∃ w, t.stepWorker cfg i false = some (t.setWorker i w) ∧
      (w.inNext = true ∨ w = .returned ∧ count = 0) ∧
      (count = 0 → distance w < distance (t.workers i)) := by
  unfold RunState.stepWorker
  cases hw : t.workers i with
  | locking => simp [hw, Worker.inNext] at hi
  | running item program => simp [hw, Worker.inNext] at hi
  | returned => simp [hw, Worker.inNext] at hi
  | top => exact ⟨.drain, by simp [h.stop], Or.inl rfl, by simp [distance]⟩
  | drain =>
    refine ⟨.checkPending, ?_, Or.inl rfl, by simp [distance]⟩
    simp [h.specChannel, h.receiveBuffer, BinaryHeap.pop_eq_none_iff.mpr]
  | wait => exact ⟨.top, by simp [h.specChannel], Or.inl rfl, by simp [distance]⟩
  | checkPending =>
    by_cases hzero : count = 0
    · exact ⟨.returned, by simp [h.pendingCount, hzero], Or.inr ⟨rfl, hzero⟩, by simp [distance]⟩
    · exact ⟨.wait, by simp [h.pendingCount, hzero], Or.inl rfl, fun hcount => absurd hcount hzero⟩

/-- With nothing pending, `next` returns `None`. -/
theorem Idle.exists_returned {i : Fin N} {t : RunState S R N} (h : Idle i 0 t)
    (hi : (t.workers i).inNext = true) :
    ∃ t', WorkerSteps cfg i t t' ∧ (t'.workers i).hasReturned = true := by
  induction hd : distance (t.workers i) using Nat.strong_induction_on generalizing t with
  | _ d ih =>
    obtain ⟨w, hstep, hw, hdistance⟩ := h.stepWorker cfg hi
    rcases hw with hnext | ⟨rfl, -⟩
    · obtain ⟨t', hsteps, hreturned⟩ := ih (distance w) (hd ▸ hdistance rfl) (h.setWorker w)
        (by rwa [RunState.setWorker_workers_self]) (by rw [RunState.setWorker_workers_self])
      exact ⟨t', Relation.ReflTransGen.head hstep hsteps, hreturned⟩
    · exact ⟨_, Relation.ReflTransGen.single hstep, by rw [RunState.setWorker_workers_self]; rfl⟩

/-- With something pending, `next` goes on for ever. -/
theorem Idle.inNext_of_steps {i : Fin N} {count : ℤ} (hcount : count ≠ 0)
    {t t' : RunState S R N} (h : Idle i count t) (hi : (t.workers i).inNext = true)
    (hsteps : WorkerSteps cfg i t t') : Idle i count t' ∧ (t'.workers i).inNext = true := by
  induction hsteps with
  | refl => exact ⟨h, hi⟩
  | tail _ hstep ih =>
    obtain ⟨hidle, hnext⟩ := ih
    obtain ⟨w, hstep', hw, -⟩ := hidle.stepWorker cfg hnext
    obtain rfl := Option.some.inj (hstep.symm.trans hstep')
    refine ⟨hidle.setWorker w, ?_⟩
    rw [RunState.setWorker_workers_self]
    exact hw.resolve_right fun hret => hcount hret.2

/-- A worker that is inside `next` when no work is left comes to its end if and only if the count
is zero. -/
theorem Idle.returns_iff {i : Fin N} {count : ℤ} {t : RunState S R N} (h : Idle i count t)
    (hi : (t.workers i).inNext = true) :
    (∃ t', WorkerSteps cfg i t t' ∧ (t'.workers i).hasReturned = true) ↔ count = 0 := by
  constructor
  · rintro ⟨t', hsteps, hreturned⟩
    by_contra hcount
    have hnext := (h.inNext_of_steps hcount hi hsteps).2
    cases hw : t'.workers i <;> simp [hw, Worker.inNext, Worker.hasReturned] at hnext hreturned
  · rintro rfl
    exact h.exists_returned hi

end UnwindRun

/-! ### Walks -/

/-- Whether the read of an item invokes the client's callback. -/
def invokesCallback {B E : Type} [Inhabited E] (os : OperatingSystem) (opts : WalkDirOptions B E)
    (weighted : Weighted (ReadDirSpec B)) : Bool :=
  let logged := value StreamOp.unstopped (coreReadDirLogged (E := E) os opts weighted.value
    (some ⟨weighted.indexPath, weighted.weight⟩))
  !(logged.1.flatMap Attempt.calls).isEmpty

namespace UnwindRun

/-- **When the accounting survives.** In every reachable state of a walk in which any invocations of
the client's callback unwind: `pending_count` is the number of items that are in a push, in the
channel, in the heap or being processed if and only if no invocation has unwound; once no such item
remains, a worker inside `next` comes to its end if and only if no invocation has unwound; and no
worker has got `None` while some invocation has unwound. -/
theorem accounting_survives_iff {B E : Type} [Inhabited E] (os : OperatingSystem)
    (opts : WalkDirOptions B E) (capacity : ℕ) (hcapacity : 0 < capacity) (sendsMayFail : Bool)
    (items : List (Weighted (ReadDirSpec B))) (maxReceiveBufferSize : ℕ)
    (s : UnwindRun (ReadDirSpec B) (ReadDirResult B E) N)
    (h : Reaches (Config.walk (coreReadDirCallback os opts) capacity hcapacity sendsMayFail)
      (invokesCallback (E := E) os opts) ⟨.init N items maxReceiveBufferSize, []⟩ s) :
    (s.run.pendingCount = s.run.workLeft ↔ s.unwound = []) ∧
    (s.run.stop = false → s.run.workLeft = 0 → ∀ i, (s.run.workers i).inNext = true →
      ((∃ t, WorkerSteps (Config.walk (coreReadDirCallback os opts) capacity hcapacity sendsMayFail)
        i s.run t ∧ (t.workers i).hasReturned = true) ↔ s.unwound = [])) ∧
    (s.run.stop = false → ∀ i, (s.run.workers i).hasReturned = true → s.unwound = []) := by
  have hacc := accounted_of_reaches (disciplined_multiThreadedWalkDir _) h
  have hcount := hacc.pendingCount_eq
  have hzero : ((s.unwound.length : ℤ) = 0) ↔ s.unwound = [] := by
    rw [Int.natCast_eq_zero, List.length_eq_zero_iff]
  refine ⟨?_, fun hstop hleft i hi => ?_, hacc.returned⟩
  · rw [← hzero]
    omega
  · have hidle : Idle i (s.unwound.length : ℤ) s.run := by
      simp only [RunState.workLeft] at hleft hcount
      refine ⟨hstop, List.length_eq_zero_iff.mp (by omega), List.length_eq_zero_iff.mp (by omega),
        by omega⟩
    rw [← hzero]
    exact hidle.returns_iff hi

/-- Options with a callback that changes nothing, if it returns. -/
def withCallback : WalkDirOptions Unit Unit :=
  { (WalkDirOptions.new : WalkDirOptions Unit Unit) with
    processReadDir := some fun _ _ state results => (state, results) }

/-- Channels with room for the results of three directories. -/
def watchedCapacity : ℕ := 3

theorem watchedCapacity_pos : 0 < watchedCapacity := Nat.succ_pos 2

/-- The walk of `r` with this callback. -/
def watchedWalk : Config (ReadDirSpec Unit) (ReadDirResult Unit Unit) :=
  Config.walk (coreReadDirCallback (.linux RunState.twoSubdirsLinux) withCallback) watchedCapacity
    watchedCapacity_pos false

/-- The invocations of the callback in this walk. -/
def watchedInvokes : Weighted (ReadDirSpec Unit) → Bool :=
  invokesCallback (.linux RunState.twoSubdirsLinux) withCallback

/-- Its start with two workers. -/
def watchedStart : UnwindRun (ReadDirSpec Unit) (ReadDirResult Unit Unit) 2 :=
  ⟨RunState.narrowStart 2, []⟩

/-- The worker `i` sends the first subdirectory, and the worker `j` takes it and invokes the
callback. -/
def watchedActions (i j : Fin 2) : List (Action 2) :=
  List.replicate 8 (.worker i false) ++ List.replicate 5 (.worker j false)

theorem reaches_of_run {actions : List (Action N)} {t t' : RunState S R N} {u : List (Weighted S)}
    (h : t.run cfg actions = some t') : Reaches cfg invokes ⟨t, u⟩ ⟨t', u⟩ := by
  have hreach := RunState.reaches_of_run h
  clear h
  induction hreach with
  | refl => exact Relation.ReflTransGen.refl
  | tail _ hstep ih => exact Relation.ReflTransGen.tail ih (Or.inl ⟨hstep, rfl⟩)

/-- The statement above for a walk of a directory with two subdirectories by two workers whose
callback returns: while both of them process an item the account is right, and when no work is left
a worker inside `next` comes to its end. -/
theorem accounting_survives_two_subdirs :
    ∃ s s', Reaches watchedWalk watchedInvokes watchedStart s ∧
      Reaches watchedWalk watchedInvokes s s' ∧ s.run.pendingCount = 2 ∧
      s.run.pendingCount = s.run.workLeft ∧ s'.run.workLeft = 0 ∧
      (s'.run.workers 0).inNext = true ∧ ∃ t, WorkerSteps watchedWalk 0 s'.run t ∧
        (t.workers 0).hasReturned = true := by
  obtain ⟨t, t', hrun, hcount, hrun', hstop, hleft, hnext⟩ : ∃ t t',
      watchedStart.run.run watchedWalk (watchedActions 0 1) = some t ∧ t.pendingCount = 2 ∧
      t.run watchedWalk (List.replicate 2 (.worker 1 false) ++
        List.replicate 12 (.worker 0 false)) = some t' ∧
      t'.stop = false ∧ t'.workLeft = 0 ∧ (t'.workers 0).inNext = true :=
    ⟨_, _, rfl, rfl, rfl, rfl, rfl, rfl⟩
  have hreach : Reaches watchedWalk watchedInvokes watchedStart ⟨t, []⟩ := reaches_of_run hrun
  have hreach' : Reaches watchedWalk watchedInvokes ⟨t, []⟩ ⟨t', []⟩ := reaches_of_run hrun'
  have hfirst := accounting_survives_iff _ withCallback _ watchedCapacity_pos false _ 0 _ hreach
  have hlast :=
    accounting_survives_iff _ withCallback _ watchedCapacity_pos false _ 0 _ (hreach.trans hreach')
  exact ⟨⟨t, []⟩, ⟨t', []⟩, hreach, hreach', hcount, hfirst.1.mpr rfl, hleft, hnext,
    (hlast.2.1 hstop hleft 0 hnext).mpr rfl⟩

/-- The same walk, where the callback unwinds in the second worker: after the first one has done all
the work that is left, one item stays counted, and the first worker never gets `None`. -/
theorem not_accounting_survives_two_subdirs :
    ∃ s, Reaches watchedWalk watchedInvokes watchedStart s ∧ s.run.stop = false ∧
      s.run.workLeft = 0 ∧ s.run.pendingCount = 1 ∧
      ∀ t, WorkerSteps watchedWalk 0 s.run t → (t.workers 0).inNext = true := by
  obtain ⟨t, hrun, u, hunwind, s, hrun', hfacts, hnext⟩ : ∃ t,
      watchedStart.run.run watchedWalk (watchedActions 0 1) = some t ∧
      ∃ u, unwind watchedInvokes ⟨t, []⟩ 1 = some u ∧
      ∃ s, u.run.run watchedWalk (List.replicate 12 (.worker 0 false)) = some s ∧
        (s.stop = false ∧ s.specChannel = [] ∧ s.receiveBuffer = [] ∧ s.pendingCount = 1 ∧
          s.workLeft = 0) ∧ (s.workers 0).inNext = true :=
    ⟨_, rfl, _, rfl, _, rfl, ⟨rfl, rfl, rfl, rfl, rfl⟩, rfl⟩
  obtain ⟨hstop, hchannel, hbuffer, hcount, hleft⟩ := hfacts
  have hreach : Reaches watchedWalk watchedInvokes watchedStart ⟨s, u.unwound⟩ :=
    ((reaches_of_run hrun).tail (Or.inr ⟨1, hunwind⟩)).trans (reaches_of_run hrun')
  have hidle : Idle 0 1 s := ⟨hstop, hchannel, hbuffer, hcount⟩
  exact ⟨_, hreach, hstop, hleft, hcount, fun t hsteps =>
    (hidle.inNext_of_steps one_ne_zero hnext hsteps).2⟩

end UnwindRun

end JwalkMeta
