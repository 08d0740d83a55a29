import JwalkMeta.Core.OrderedQueue
import JwalkMeta.Core.ReadDirIter
import JwalkMeta.Lib.Pool
import JwalkMeta.Lib.Reachability

/-!
# Runs of a parallel walk

`N` workers share the iterator of the work queue behind a mutex, as `par_bridge` arranges it. Each
of them takes an item with `PriorityQueueIter::next`, processes it, and takes the next one, until
`next` returns `None`. The consumer takes the results from the ordered queue.

A step is one access to shared memory by one thread. The steps of `next` are the acquisition of
the mutex, the load of the stop flag, one `try_recv`, the load of `pending_count`, and one
`recv_timeout`. The iterator that `par_bridge` fuses never yields again after `None`, which the
iterator of the work queue does not do either, so every worker asks it on its own. A worker inside
`next` owns a sender of the channel that it receives from, so that `recv_timeout` cannot find all
senders gone.

The first `None` also drops the fused iterator, and with it the receiver of the work queue. As long
as the walk is not stopped, `None` means that nothing is pending, and nothing is sent afterwards.
After a stop, sends fail from then on: a configuration whose sends may fail allows for it. In one
whose sends do not fail, the receiver is taken to live until the last worker has returned.

The run is generic in the program that processes an item. It keeps records of what has been
scheduled, taken, completed and sent; no step reads them.

Source: `src/core/priority_queue.rs`, `src/core/read_dir_iter.rs`, `src/core/dir_entry_iter.rs`.

## Main definitions

* `Worker`, `RunState`, `Config`: the state of a run.
* `Action`, `RunState.step`: its steps.
* `RunState.Reaches`: its interleavings.

## Main results

* `RunState.move_of_step`: what a step can do, by what it changes.
-/

namespace JwalkMeta

variable {S R : Type} {N : ℕ}

/-! ### States -/

/-- Where a worker stands. -/
inductive Worker (S R : Type)
  /-- About to lock the mutex around the iterator. -/
  | locking
  /-- At the top of the loop of `try_next`, about to load the stop flag. -/
  | top
  /-- Draining the channel. -/
  | drain
  /-- The heap is empty: about to load `pending_count`. -/
  | checkPending
  /-- In `recv_timeout`. -/
  | wait
  /-- Processing an item: what is left of the program. -/
  | running (item : Weighted S) (program : WorkerProgram S R Unit)
  /-- `next` has returned `None`. -/
  | returned

namespace Worker

/-- Go on with the rest of the program, or take the next item. -/
def resume (item : Weighted S) : WorkerProgram S R Unit → Worker S R
  | .done _ => .locking
  | .ask op k => .running item (.ask op k)

/-- Whether the worker holds the mutex. -/
def inNext : Worker S R → Bool
  | top | drain | checkPending | wait => true
  | _ => false

/-- Whether `next` has returned `None`. -/
def hasReturned : Worker S R → Bool
  | returned => true
  | _ => false

/-- What is left of the program of a worker that processes an item. -/
def program : Worker S R → Option (WorkerProgram S R Unit)
  | running _ program => some program
  | _ => none

/-- The item that the worker processes. -/
def item : Worker S R → List (Weighted S)
  | running item _ => [item]
  | _ => []

end Worker

/-- The state of a run: the stop flag, the work queue, the workers, the ordered queue, and the
records. The count of pending items is a `usize` in the source; it is an integer here, so that it
can be seen not to go below zero. -/
structure RunState (S R : Type) (N : ℕ) where
  stop : Bool
  pendingCount : ℤ
  specChannel : List (Weighted S)
  receiveBuffer : List (Weighted S)
  workers : Fin N → Worker S R
  resultChannel : List (Ordered R)
  /-- Whether some sender of the result channel is alive. -/
  senders : Bool
  /-- Whether the receiver of the result channel is alive. -/
  receiver : Bool
  consumer : Consumer R
  /-- The items that have been sent to the work queue. -/
  scheduled : List (Weighted S)
  /-- The items that `next` has returned. -/
  taken : List (Weighted S)
  /-- The items for which `complete_item` has been called. -/
  completed : List (Weighted S)
  /-- The results that have been sent. -/
  sent : List (Ordered R)

/-- What is fixed during a run: the capacity of both channels, the program that processes an item,
and whether a send to the work queue may fail. -/
structure Config (S R : Type) where
  capacity : ℕ
  capacity_pos : 0 < capacity
  work : Weighted S → WorkerProgram S R Unit
  /-- If not, the receiver of the work queue lives until all workers have returned. -/
  sendsMayFail : Bool

/-- The configuration of a walk with a core callback. -/
def Config.walk {B E : Type} (callback : ReadDirCallback B E) (capacity : ℕ)
    (capacity_pos : 0 < capacity) (sendsMayFail : Bool) :
    Config (ReadDirSpec B) (ReadDirResult B E) where
  capacity := capacity
  capacity_pos := capacity_pos
  work := multiThreadedWalkDir callback
  sendsMayFail := sendsMayFail

/-- Which thread takes a step. -/
inductive Action (N : ℕ)
  /-- A worker; `fail` asks for the failure of a send to the work queue. -/
  | worker (i : Fin N) (fail : Bool)
  /-- The consumer; `expired` says that the deadline of its wait has passed. -/
  | consumer (expired : Bool)
  /-- The last sender of the result channel is dropped. -/
  | dropSenders
  /-- `Drop for DirEntryIter` sets the stop flag. -/
  | stop
  /-- The receiver of the result channel is dropped after that. -/
  | dropReceiver
  deriving DecidableEq

namespace RunState

/-- The start of a run on the items that `try_new` has put into the work queue. -/
def init (N : ℕ) (items : List (Weighted S)) (maxReceiveBufferSize : ℕ) : RunState S R N where
  stop := false
  pendingCount := items.length
  specChannel := items
  receiveBuffer := []
  workers := fun _ => .locking
  resultChannel := []
  senders := true
  receiver := true
  consumer := Consumer.new maxReceiveBufferSize
  scheduled := items
  taken := []
  completed := []
  sent := []

/-- Change the state of one worker. -/
def setWorker (s : RunState S R N) (i : Fin N) (w : Worker S R) : RunState S R N :=
  { s with workers := Function.update s.workers i w }

/-- Whether the mutex is free. -/
def lockFree (s : RunState S R N) : Bool := decide (∀ i, (s.workers i).inNext = false)

/-- Whether all workers have left the `par_bridge` loop. -/
def allReturned (s : RunState S R N) : Bool := decide (∀ i, (s.workers i).hasReturned = true)

/-- Carry out one request of a worker that processes `item`. The result is the new state and the
answer; there is none while the request blocks. -/
def perform (cfg : Config S R) (fail : Bool) (s : RunState S R N) (item : Weighted S) :
    WorkerOp S R → Option (RunState S R N × Bool)
  | .loadStop => some (s, s.stop)
  | .fetchAdd => some ({ s with pendingCount := s.pendingCount + 1 }, true)
  | .sendSpec weighted =>
    if fail && cfg.sendsMayFail then some (s, false)
    else if s.specChannel.length < cfg.capacity then
      some ({ s with
        specChannel := s.specChannel ++ [weighted]
        scheduled := s.scheduled ++ [weighted] }, true)
    else none
  | .fetchSub => some ({ s with pendingCount := s.pendingCount - 1 }, true)
  | .sendResult ordered =>
    if s.receiver then
      if s.resultChannel.length < cfg.capacity then
        some ({ s with
          resultChannel := s.resultChannel ++ [ordered]
          sent := s.sent ++ [ordered] }, true)
      else none
    else some (s, false)
  | .completeItem => some ({ s with
      pendingCount := s.pendingCount - 1
      completed := s.completed ++ [item] }, true)

/-- One step of a worker. -/
def stepWorker (cfg : Config S R) (s : RunState S R N) (i : Fin N) (fail : Bool) :
    Option (RunState S R N) :=
  match s.workers i with
  | .locking => if s.lockFree then some (s.setWorker i .top) else none
  | .top => some (s.setWorker i (if s.stop then .returned else .drain))
  | .drain =>
    match s.specChannel with
    | weighted :: channel => some { s with
        specChannel := channel
        receiveBuffer := BinaryHeap.push s.receiveBuffer weighted }
    | [] =>
      match BinaryHeap.pop s.receiveBuffer with
      | some (weighted, buffer) => some { s.setWorker i (.resume weighted (cfg.work weighted)) with
          receiveBuffer := buffer
          taken := s.taken ++ [weighted] }
      | none => some (s.setWorker i .checkPending)
  | .checkPending => some (s.setWorker i (if s.pendingCount = 0 then .returned else .wait))
  | .wait =>
    match s.specChannel with
    | weighted :: channel => some { s.setWorker i .top with
        specChannel := channel
        receiveBuffer := BinaryHeap.push s.receiveBuffer weighted }
    | [] => some (s.setWorker i .top)
  | .running item (.ask op k) =>
    match s.perform cfg fail item op with
    | some (s', answer) => some (s'.setWorker i (.resume item (k answer)))
    | none => none
  | .running _ (.done _) => none
  | .returned => none

/-- One step of the consumer, as long as it owns the receiver. -/
def stepConsumer (s : RunState S R N) (expired : Bool) : Option (RunState S R N) :=
  if s.receiver then
    match s.consumer.step s.stop (!s.senders) expired s.resultChannel with
    | some (channel, consumer) => some { s with resultChannel := channel, consumer := consumer }
    | none => none
  else none

/-- One step of a run. -/
def step (cfg : Config S R) (s : RunState S R N) : Action N → Option (RunState S R N)
  | .worker i fail => s.stepWorker cfg i fail
  | .consumer expired => s.stepConsumer expired
  | .dropSenders => if s.allReturned then some { s with senders := false } else none
  | .stop => some { s with stop := true }
  | .dropReceiver => if s.stop then some { s with receiver := false } else none

/-- One state follows another in some interleaving. -/
def Step (cfg : Config S R) (s s' : RunState S R N) : Prop := ∃ a, s.step cfg a = some s'

/-- The states that a run can reach. -/
def Reaches (cfg : Config S R) : RunState S R N → RunState S R N → Prop :=
  Relation.ReflTransGen (Step cfg)

/-- Carry out a list of actions. -/
def run (cfg : Config S R) (s : RunState S R N) : List (Action N) → Option (RunState S R N)
  | [] => some s
  | a :: actions =>
    match s.step cfg a with
    | some s' => s'.run cfg actions
    | none => none

variable {cfg : Config S R} {s s' : RunState S R N}

/-- A list of actions is an interleaving. -/
theorem reaches_of_run {actions : List (Action N)} (h : s.run cfg actions = some s') :
    Reaches cfg s s' := by
  induction actions generalizing s with
  | nil =>
    obtain rfl := Option.some.inj h
    exact Relation.ReflTransGen.refl
  | cons a actions ih =>
    cases hs : s.step cfg a with
    | none => simp [run, hs] at h
    | some s₁ => exact Relation.ReflTransGen.head ⟨a, hs⟩ (ih (by simpa [run, hs] using h))

/-- The invariant rule for runs. -/
theorem Reaches.invariant {P : RunState S R N → Prop} (h : Reaches cfg s s') (hinit : P s)
    (hstep : ∀ s s', P s → Step cfg s s' → P s') : P s' := Reachability.invariant h hinit hstep

/-! ### What a step can do -/

/-- The requests of a worker, by what carrying them out changes. -/
inductive Performed (cfg : Config S R) (s : RunState S R N) (item : Weighted S) :
    WorkerOp S R → RunState S R N → Bool → Prop
  | loadStop : Performed cfg s item .loadStop s s.stop
  | fetchAdd : Performed cfg s item .fetchAdd { s with pendingCount := s.pendingCount + 1 } true
  | sendSpec (weighted : Weighted S) (hroom : s.specChannel.length < cfg.capacity) :
      Performed cfg s item (.sendSpec weighted) { s with
        specChannel := s.specChannel ++ [weighted]
        scheduled := s.scheduled ++ [weighted] } true
  | sendSpecFailed (weighted : Weighted S) (hfail : cfg.sendsMayFail = true) :
      Performed cfg s item (.sendSpec weighted) s false
  | fetchSub : Performed cfg s item .fetchSub { s with pendingCount := s.pendingCount - 1 } true
  | sendResult (ordered : Ordered R) (hreceiver : s.receiver = true)
      (hroom : s.resultChannel.length < cfg.capacity) :
      Performed cfg s item (.sendResult ordered) { s with
        resultChannel := s.resultChannel ++ [ordered]
        sent := s.sent ++ [ordered] } true
  | sendResultClosed (ordered : Ordered R) (hreceiver : s.receiver = false) :
      Performed cfg s item (.sendResult ordered) s false
  | completeItem : Performed cfg s item .completeItem { s with
      pendingCount := s.pendingCount - 1
      completed := s.completed ++ [item] } true

/-- What carrying out a request can do. -/
theorem performed_of_perform {fail answer : Bool} {item : Weighted S} {op : WorkerOp S R}
    (h : s.perform cfg fail item op = some (s', answer)) :
    Performed cfg s item op s' answer := by
  cases op with
  | loadStop =>
    obtain ⟨rfl, rfl⟩ := Prod.mk.inj (Option.some.inj h)
    exact .loadStop
  | fetchAdd =>
    obtain ⟨rfl, rfl⟩ := Prod.mk.inj (Option.some.inj h)
    exact .fetchAdd
  | sendSpec weighted =>
    simp only [perform, Bool.and_eq_true] at h
    split_ifs at h with hfail hroom
    · obtain ⟨rfl, rfl⟩ := Prod.mk.inj (Option.some.inj h)
      exact .sendSpecFailed weighted hfail.2
    · obtain ⟨rfl, rfl⟩ := Prod.mk.inj (Option.some.inj h)
      exact .sendSpec weighted hroom
  | fetchSub =>
    obtain ⟨rfl, rfl⟩ := Prod.mk.inj (Option.some.inj h)
    exact .fetchSub
  | sendResult ordered =>
    simp only [perform] at h
    split_ifs at h with hreceiver hroom
    · obtain ⟨rfl, rfl⟩ := Prod.mk.inj (Option.some.inj h)
      exact .sendResult ordered hreceiver hroom
    · obtain ⟨rfl, rfl⟩ := Prod.mk.inj (Option.some.inj h)
      exact .sendResultClosed ordered (by simpa using hreceiver)
  | completeItem =>
    obtain ⟨rfl, rfl⟩ := Prod.mk.inj (Option.some.inj h)
    exact .completeItem

/-- The steps of a run, by what they change. -/
inductive Move (cfg : Config S R) (s : RunState S R N) : Action N → RunState S R N → Prop
  /-- A worker goes on in `next` without changing anything but its place. -/
  | advance (i : Fin N) (fail : Bool) (w : Worker S R) (hi : (s.workers i).program = none)
      (hw : w.program = none) (halive : (s.workers i).hasReturned = false)
      (hreturn : w.hasReturned = true → s.stop = true ∨ s.pendingCount = 0) :
      Move cfg s (.worker i fail) (s.setWorker i w)
  /-- A worker in `next` moves an item from the channel into the heap. -/
  | receive (i : Fin N) (fail : Bool) (w : Worker S R) (weighted : Weighted S)
      (channel : List (Weighted S)) (hi : (s.workers i).program = none) (hw : w.program = none)
      (halive : (s.workers i).hasReturned = false) (hreturn : w.hasReturned = false)
      (hchannel : s.specChannel = weighted :: channel) :
      Move cfg s (.worker i fail) { s.setWorker i w with
        specChannel := channel
        receiveBuffer := BinaryHeap.push s.receiveBuffer weighted }
  /-- A worker takes the first item of the heap. -/
  | take (i : Fin N) (fail : Bool) (weighted : Weighted S) (buffer : List (Weighted S))
      (hi : (s.workers i).program = none) (halive : (s.workers i).hasReturned = false)
      (hchannel : s.specChannel = [])
      (hpop : BinaryHeap.pop s.receiveBuffer = some (weighted, buffer)) :
      Move cfg s (.worker i fail) { s.setWorker i (.resume weighted (cfg.work weighted)) with
        receiveBuffer := buffer
        taken := s.taken ++ [weighted] }
  /-- A request of a worker is carried out. -/
  | request (i : Fin N) (fail : Bool) (item : Weighted S) (op : WorkerOp S R)
      (k : Bool → WorkerProgram S R Unit) (s₁ : RunState S R N) (answer : Bool)
      (hi : s.workers i = .running item (.ask op k))
      (hperformed : Performed cfg s item op s₁ answer) :
      Move cfg s (.worker i fail) (s₁.setWorker i (.resume item (k answer)))
  /-- The consumer takes a step. -/
  | consume (expired : Bool) (channel : List (Ordered R)) (consumer : Consumer R)
      (hreceiver : s.receiver = true)
      (hstep : s.consumer.step s.stop (!s.senders) expired s.resultChannel =
        some (channel, consumer)) :
      Move cfg s (.consumer expired) { s with resultChannel := channel, consumer := consumer }
  /-- The last sender of the result channel is dropped. -/
  | dropSenders (hall : ∀ i, (s.workers i).hasReturned = true) :
      Move cfg s .dropSenders { s with senders := false }
  /-- The stop flag is set. -/
  | stop : Move cfg s .stop { s with stop := true }
  /-- The receiver of the result channel is dropped. -/
  | dropReceiver (hstop : s.stop = true) :
      Move cfg s .dropReceiver { s with receiver := false }

theorem setWorker_self (s : RunState S R N) (i : Fin N) : s.setWorker i (s.workers i) = s := by
  simp [setWorker]

/-- The steps of a worker, by the place it is at and by what it finds there. -/
inductive WorkerMove (cfg : Config S R) (s : RunState S R N) (i : Fin N) : RunState S R N → Prop
  /-- The worker locks the mutex. -/
  | lock (hi : s.workers i = .locking) (hfree : s.lockFree = true) :
      WorkerMove cfg s i (s.setWorker i .top)
  /-- The stop flag is set, and the worker returns. -/
  | leave (hi : s.workers i = .top) (hstop : s.stop = true) :
      WorkerMove cfg s i (s.setWorker i .returned)
  /-- The stop flag is not set, and the worker begins to drain the channel. -/
  | enter (hi : s.workers i = .top) (hstop : s.stop = false) :
      WorkerMove cfg s i (s.setWorker i .drain)
  /-- A worker that drains the channel receives an item. -/
  | drain (hi : s.workers i = .drain) (weighted : Weighted S) (channel : List (Weighted S))
      (hchannel : s.specChannel = weighted :: channel) :
      WorkerMove cfg s i { s with
        specChannel := channel
        receiveBuffer := BinaryHeap.push s.receiveBuffer weighted }
  /-- The channel is empty, and the worker takes an item. -/
  | take (hi : s.workers i = .drain) (hchannel : s.specChannel = []) (weighted : Weighted S)
      (buffer : List (Weighted S))
      (hpop : BinaryHeap.pop s.receiveBuffer = some (weighted, buffer)) :
      WorkerMove cfg s i { s.setWorker i (.resume weighted (cfg.work weighted)) with
        receiveBuffer := buffer
        taken := s.taken ++ [weighted] }
  /-- The channel and the heap are empty. -/
  | dry (hi : s.workers i = .drain) (hchannel : s.specChannel = []) :
      WorkerMove cfg s i (s.setWorker i .checkPending)
  /-- Nothing is pending, and the worker returns. -/
  | finish (hi : s.workers i = .checkPending) (hzero : s.pendingCount = 0) :
      WorkerMove cfg s i (s.setWorker i .returned)
  /-- Something is pending, and the worker begins to wait. -/
  | wait (hi : s.workers i = .checkPending) (hpending : s.pendingCount ≠ 0) :
      WorkerMove cfg s i (s.setWorker i .wait)
  /-- A worker that waits receives an item. -/
  | receive (hi : s.workers i = .wait) (weighted : Weighted S) (channel : List (Weighted S))
      (hchannel : s.specChannel = weighted :: channel) :
      WorkerMove cfg s i { s.setWorker i .top with
        specChannel := channel
        receiveBuffer := BinaryHeap.push s.receiveBuffer weighted }
  /-- The wait times out. -/
  | timeout (hi : s.workers i = .wait) (hchannel : s.specChannel = []) :
      WorkerMove cfg s i (s.setWorker i .top)
  /-- A request is carried out. -/
  | request (item : Weighted S) (op : WorkerOp S R) (k : Bool → WorkerProgram S R Unit)
      (s₁ : RunState S R N) (answer : Bool) (hi : s.workers i = .running item (.ask op k))
      (hperformed : Performed cfg s item op s₁ answer) :
      WorkerMove cfg s i (s₁.setWorker i (.resume item (k answer)))

/-- What a step of a worker can do. -/
theorem workerMove_of_stepWorker {i : Fin N} {fail : Bool}
    (h : s.stepWorker cfg i fail = some s') : WorkerMove cfg s i s' := by
  unfold stepWorker at h
  cases hi : s.workers i with
  | locking =>
    simp only [hi] at h
    split_ifs at h with hfree
    obtain rfl := Option.some.inj h
    exact .lock hi hfree
  | top =>
    simp only [hi] at h
    obtain rfl := Option.some.inj h
    split_ifs with hstop
    · exact .leave hi hstop
    · exact .enter hi (by simpa using hstop)
  | drain =>
    simp only [hi] at h
    cases hchannel : s.specChannel with
    | cons weighted channel =>
      simp only [hchannel] at h
      obtain rfl := Option.some.inj h
      exact .drain hi weighted channel hchannel
    | nil =>
      simp only [hchannel] at h
      cases hpop : BinaryHeap.pop s.receiveBuffer with
      | some top =>
        simp only [hpop] at h
        obtain rfl := Option.some.inj h
        exact .take hi hchannel top.1 top.2 hpop
      | none =>
        simp only [hpop] at h
        obtain rfl := Option.some.inj h
        exact .dry hi hchannel
  | checkPending =>
    simp only [hi] at h
    obtain rfl := Option.some.inj h
    split_ifs with hzero
    · exact .finish hi hzero
    · exact .wait hi hzero
  | wait =>
    simp only [hi] at h
    cases hchannel : s.specChannel with
    | cons weighted channel =>
      simp only [hchannel] at h
      obtain rfl := Option.some.inj h
      exact .receive hi weighted channel hchannel
    | nil =>
      simp only [hchannel] at h
      obtain rfl := Option.some.inj h
      exact .timeout hi hchannel
  | running item program =>
    cases program with
    | done u => simp [hi] at h
    | ask op k =>
      simp only [hi] at h
      cases hp : s.perform cfg fail item op with
      | none => simp [hp] at h
      | some result =>
        obtain ⟨s₁, answer⟩ := result
        simp only [hp] at h
        obtain rfl := Option.some.inj h
        exact .request item op k s₁ answer hi (performed_of_perform hp)
  | returned => simp [hi] at h

theorem WorkerMove.move {i : Fin N} (h : WorkerMove cfg s i s') (fail : Bool) :
    Move cfg s (.worker i fail) s' := by
  cases h with
  | lock hi hfree =>
    exact .advance i fail .top (by rw [hi]; rfl) rfl (by rw [hi]; rfl)
      (by simp [Worker.hasReturned])
  | leave hi hstop =>
    exact .advance i fail .returned (by rw [hi]; rfl) rfl (by rw [hi]; rfl) fun _ => Or.inl hstop
  | enter hi hstop =>
    exact .advance i fail .drain (by rw [hi]; rfl) rfl (by rw [hi]; rfl)
      (by simp [Worker.hasReturned])
  | drain hi weighted channel hchannel =>
    have hmove : Move cfg s (.worker i fail) { s.setWorker i (s.workers i) with
        specChannel := channel
        receiveBuffer := BinaryHeap.push s.receiveBuffer weighted } :=
      .receive i fail (s.workers i) weighted channel (by rw [hi]; rfl) (by rw [hi]; rfl)
        (by rw [hi]; rfl) (by rw [hi]; rfl) hchannel
    rwa [setWorker_self] at hmove
  | take hi hchannel weighted buffer hpop =>
    exact .take i fail weighted buffer (by rw [hi]; rfl) (by rw [hi]; rfl) hchannel hpop
  | dry hi hchannel =>
    exact .advance i fail .checkPending (by rw [hi]; rfl) rfl (by rw [hi]; rfl)
      (by simp [Worker.hasReturned])
  | finish hi hzero =>
    exact .advance i fail .returned (by rw [hi]; rfl) rfl (by rw [hi]; rfl) fun _ => Or.inr hzero
  | wait hi hpending =>
    exact .advance i fail .wait (by rw [hi]; rfl) rfl (by rw [hi]; rfl)
      (by simp [Worker.hasReturned])
  | receive hi weighted channel hchannel =>
    exact .receive i fail .top weighted channel (by rw [hi]; rfl) rfl (by rw [hi]; rfl) rfl hchannel
  | timeout hi hchannel =>
    exact .advance i fail .top (by rw [hi]; rfl) rfl (by rw [hi]; rfl)
      (by simp [Worker.hasReturned])
  | request item op k s₁ answer hi hperformed =>
    exact .request i fail item op k s₁ answer hi hperformed

/-- **What a step can do.** -/
theorem move_of_step {a : Action N} (ha : s.step cfg a = some s') : Move cfg s a s' := by
  cases a with
  | worker i fail => exact (workerMove_of_stepWorker ha).move fail
  | consumer expired =>
    simp only [step, stepConsumer] at ha
    split_ifs at ha with hreceiver
    cases hc : s.consumer.step s.stop (!s.senders) expired s.resultChannel with
    | none => simp [hc] at ha
    | some result =>
      obtain ⟨channel, consumer⟩ := result
      simp only [hc] at ha
      obtain rfl := Option.some.inj ha
      exact .consume expired channel consumer hreceiver hc
  | dropSenders =>
    simp only [step, allReturned, decide_eq_true_eq] at ha
    split_ifs at ha with hall
    obtain rfl := Option.some.inj ha
    exact .dropSenders hall
  | stop =>
    obtain rfl := Option.some.inj ha
    exact .stop
  | dropReceiver =>
    simp only [step] at ha
    split_ifs at ha with hstop
    obtain rfl := Option.some.inj ha
    exact .dropReceiver hstop

theorem Step.move (h : Step cfg s s') : ∃ a, Move cfg s a s' := by
  obtain ⟨a, ha⟩ := h
  exact ⟨a, move_of_step ha⟩

@[simp] theorem setWorker_workers_self (i : Fin N) (w : Worker S R) :
    (s.setWorker i w).workers i = w := Function.update_self ..

theorem setWorker_workers_of_ne {i j : Fin N} (h : j ≠ i) (w : Worker S R) :
    (s.setWorker i w).workers j = s.workers j := Function.update_of_ne h ..

/-- What holds of the workers and of the one that replaces a worker holds of the workers after. -/
theorem forall_workers_setWorker {p : Worker S R → Prop} (h : ∀ j, p (s.workers j)) {i : Fin N}
    {w : Worker S R} (hw : p w) (j : Fin N) : p ((s.setWorker i w).workers j) := by
  by_cases hj : j = i
  · rw [hj, setWorker_workers_self]
    exact hw
  · rw [setWorker_workers_of_ne hj]
    exact h j

end RunState

end JwalkMeta
