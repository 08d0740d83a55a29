import JwalkMeta.Run.Progress

/-!
# Dropping the iterator

`Drop for DirEntryIter` sets the stop flag, and the receiver of the result channel goes away. From
then on a worker that reaches the top of `next` returns, and no worker begins to drain the channel
of the work queue. A worker that is still going to send to this channel does not look at the stop
flag while it waits for room, so it has to find room.

How many items come together in the channel is settled at the drop: those that stay in it, because
no worker is about to take them out, and those that the workers are still going to send. All workers
return if and only if there is room for them. This is about the runs in which sends do not fail: the
receiver of the work queue is taken to live until the last worker has returned.

## Main definitions

* `dropped`: the answers after the drop; `RunState.pushesAhead`: the sends that are still to come.
* `RunState.staying`: the items that stay in the channel.
* `RunState.drop`: the state after the drop.

## Main results

* `RunState.released_iff`: when the drop releases every worker.
-/

namespace JwalkMeta

open Interaction

variable {S R : Type} {N : ℕ}

/-! ### What the workers do after the drop -/

/-- The answers after the drop, to requests that are not blocked. -/
def dropped : WorkerOp S R → Bool
  | .sendResult _ => false
  | _ => true

namespace Worker

/-- The requests that a worker is going to make for its item after the drop. -/
def lastPlan : Worker S R → List (WorkerOp S R)
  | running _ program => asked dropped program
  | _ => []

/-- The items that a worker is going to push after the drop. -/
def lastPushes (w : Worker S R) : List (Weighted S) := pushes w.lastPlan

@[simp] theorem lastPlan_resume (item : Weighted S) (p : WorkerProgram S R Unit) :
    (resume item p).lastPlan = asked dropped p := by
  cases p <;> rfl

/-- Whether the worker is going to take all items out of the channel. -/
def draining : Worker S R → Bool
  | drain => true
  | _ => false

/-- Whether the worker is going to take one item out of the channel. -/
def waiting : Worker S R → Bool
  | checkPending | wait => true
  | _ => false

theorem inNext_of_draining {w : Worker S R} (h : w.draining = true) : w.inNext = true := by
  cases w <;> simp_all [draining, inNext]

theorem inNext_of_waiting {w : Worker S R} (h : w.waiting = true) : w.inNext = true := by
  cases w <;> simp_all [waiting, inNext]

/-- How many steps a worker has ahead of it after the drop, apart from those that take items out of
the channel. -/
def rank : Worker S R → ℕ
  | returned => 0
  | top => 1
  | locking | wait => 2
  | checkPending => 3
  | drain => 5
  | running _ program => 2 + (asked dropped program).length

theorem rank_resume (item : Weighted S) (p : WorkerProgram S R Unit) :
    (resume item p).rank = 2 + (asked dropped p).length := by
  cases p <;> rfl

theorem draining_resume (item : Weighted S) (p : WorkerProgram S R Unit) :
    (resume item p).draining = false := by
  cases p <;> rfl

theorem waiting_resume (item : Weighted S) (p : WorkerProgram S R Unit) :
    (resume item p).waiting = false := by
  cases p <;> rfl

theorem inNext_resume (item : Weighted S) (p : WorkerProgram S R Unit) :
    (resume item p).inNext = false := by
  cases p <;> rfl

end Worker

/-- A worker that takes an item after the drop does not process it. -/
def Config.Heeds (cfg : Config S R) : Prop :=
  ∀ weighted, asked dropped (cfg.work weighted) = [.loadStop, .completeItem]

/-- The program of a worker looks at the stop flag first. -/
theorem Config.heeds_walk {B E : Type} (callback : ReadDirCallback B E) (capacity : ℕ)
    (hcapacity : 0 < capacity) (sendsMayFail : Bool) :
    (Config.walk callback capacity hcapacity sendsMayFail).Heeds := fun _ => rfl

namespace RunState

/-- The items that the workers are going to push after the drop. -/
def pushesAhead (s : RunState S R N) : List (Weighted S) :=
  Pool.gather Worker.lastPushes s.workers

/-- How many items stay in the channel: none if a worker drains it, all but one if a worker waits
for an item, else all. -/
def staying (s : RunState S R N) : ℕ :=
  if ∃ i, (s.workers i).draining = true then 0
  else if ∃ i, (s.workers i).waiting = true then s.specChannel.length - 1
  else s.specChannel.length

/-- The iterator is dropped. -/
def drop (s : RunState S R N) : RunState S R N := { s with stop := true, receiver := false }

/-- How many items come together in the channel after the drop. -/
def load (s : RunState S R N) : ℕ := s.staying + s.pushesAhead.length

/-- How many steps a run has ahead of it after the drop, at most. -/
def remaining (s : RunState S R N) : ℕ :=
  2 * (Pool.gather (fun w => List.replicate w.rank ()) s.workers).length + s.specChannel.length

variable {cfg : Config S R} {s s' : RunState S R N}

/-- The steps of a worker after the drop, by what they change. -/
inductive LateMove (cfg : Config S R) (s : RunState S R N) (i : Fin N) : RunState S R N → Prop
  /-- The worker locks the mutex. -/
  | lock (hi : s.workers i = .locking) (hfree : s.lockFree = true) :
      LateMove cfg s i (s.setWorker i .top)
  /-- The worker returns, since the stop flag is set. -/
  | leave (hi : s.workers i = .top) : LateMove cfg s i (s.setWorker i .returned)
  /-- A worker that drains the channel receives an item. -/
  | drain (hi : s.workers i = .drain) (weighted : Weighted S) (channel : List (Weighted S))
      (hchannel : s.specChannel = weighted :: channel) :
      LateMove cfg s i { s with
        specChannel := channel
        receiveBuffer := BinaryHeap.push s.receiveBuffer weighted }
  /-- The channel is empty, and the worker takes an item. -/
  | take (hi : s.workers i = .drain) (hchannel : s.specChannel = []) (weighted : Weighted S)
      (buffer : List (Weighted S)) :
      LateMove cfg s i { s.setWorker i (.resume weighted (cfg.work weighted)) with
        receiveBuffer := buffer
        taken := s.taken ++ [weighted] }
  /-- The channel and the heap are empty. -/
  | dry (hi : s.workers i = .drain) (hchannel : s.specChannel = []) :
      LateMove cfg s i (s.setWorker i .checkPending)
  /-- Nothing is pending, and the worker returns. -/
  | finish (hi : s.workers i = .checkPending) (hzero : s.pendingCount = 0) :
      LateMove cfg s i (s.setWorker i .returned)
  /-- Something is pending, and the worker begins to wait. -/
  | wait (hi : s.workers i = .checkPending) (hpending : s.pendingCount ≠ 0) :
      LateMove cfg s i (s.setWorker i .wait)
  /-- A worker that waits receives an item. -/
  | receive (hi : s.workers i = .wait) (weighted : Weighted S) (channel : List (Weighted S))
      (hchannel : s.specChannel = weighted :: channel) :
      LateMove cfg s i { s.setWorker i .top with
        specChannel := channel
        receiveBuffer := BinaryHeap.push s.receiveBuffer weighted }
  /-- The wait times out. -/
  | timeout (hi : s.workers i = .wait) (hchannel : s.specChannel = []) :
      LateMove cfg s i (s.setWorker i .top)
  /-- A push sends its item. -/
  | send (item weighted : Weighted S) (k : Bool → WorkerProgram S R Unit)
      (hi : s.workers i = .running item (.ask (.sendSpec weighted) k))
      (hroom : s.specChannel.length < cfg.capacity) :
      LateMove cfg s i (setWorker { s with
        specChannel := s.specChannel ++ [weighted]
        scheduled := s.scheduled ++ [weighted] } i (.resume item (k true)))
  /-- Any other request is answered as after the drop, and leaves the channel alone. -/
  | request (item : Weighted S) (op : WorkerOp S R) (k : Bool → WorkerProgram S R Unit)
      (s₁ : RunState S R N) (hi : s.workers i = .running item (.ask op k))
      (hop : ∀ weighted, op ≠ .sendSpec weighted) (hworkers : s₁.workers = s.workers)
      (hchannel : s₁.specChannel = s.specChannel) :
      LateMove cfg s i (s₁.setWorker i (.resume item (k (dropped op))))

/-- What a step of a worker can do after the drop. -/
theorem lateMove_of_stepWorker (hsends : cfg.sendsMayFail = false) (hstop : s.stop = true)
    (hreceiver : s.receiver = false) {i : Fin N} {fail : Bool}
    (h : s.stepWorker cfg i fail = some s') : LateMove cfg s i s' := by
  cases workerMove_of_stepWorker h with
  | lock hi hfree => exact .lock hi hfree
  | leave hi _ => exact .leave hi
  | enter hi hrunning => simp [hstop] at hrunning
  | drain hi weighted channel hchannel => exact .drain hi weighted channel hchannel
  | take hi hchannel weighted buffer _ => exact .take hi hchannel weighted buffer
  | dry hi hchannel => exact .dry hi hchannel
  | finish hi hzero => exact .finish hi hzero
  | wait hi hpending => exact .wait hi hpending
  | receive hi weighted channel hchannel => exact .receive hi weighted channel hchannel
  | timeout hi hchannel => exact .timeout hi hchannel
  | request item op k s₁ answer hi hperformed =>
    cases hperformed with
    | loadStop =>
      rw [hstop]
      exact .request item _ k s hi (by simp) rfl rfl
    | sendSpec weighted hroom => exact .send item weighted k hi hroom
    | sendSpecFailed weighted hfail => simp [hsends] at hfail
    | sendResult ordered halive hroom => simp [hreceiver] at halive
    | _ => exact .request item _ k _ hi (by simp) rfl rfl

/-! ### The load of the channel -/

/-- Only the flags of the workers and the length of the channel matter. -/
theorem staying_congr
    (hdrain : (∃ i, (s'.workers i).draining = true) ↔ ∃ i, (s.workers i).draining = true)
    (hwait : (∃ i, (s'.workers i).waiting = true) ↔ ∃ i, (s.workers i).waiting = true)
    (hchannel : s'.specChannel = s.specChannel) : s'.staying = s.staying := by
  simp only [staying, hdrain, hwait, hchannel]

theorem staying_le (s : RunState S R N) : s.staying ≤ s.specChannel.length := by
  simp only [staying]
  split_ifs <;> omega

theorem staying_of_draining {i : Fin N} (hi : (s.workers i).draining = true) : s.staying = 0 :=
  if_pos ⟨i, hi⟩

/-- If no worker is going to take items out of the channel, all of them stay. -/
theorem staying_eq_length (h : ∀ i, (s.workers i).inNext = true → s.workers i = .top) :
    s.staying = s.specChannel.length := by
  have hdrain : ¬ ∃ i, (s.workers i).draining = true := by
    rintro ⟨i, hi⟩
    simp [h i (Worker.inNext_of_draining hi), Worker.draining] at hi
  have hwait : ¬ ∃ i, (s.workers i).waiting = true := by
    rintro ⟨i, hi⟩
    simp [h i (Worker.inNext_of_waiting hi), Worker.waiting] at hi
  rw [staying, if_neg hdrain, if_neg hwait]

/-- A worker that takes an item after the drop pushes nothing. -/
theorem lastPushes_work (hheeds : cfg.Heeds) (weighted : Weighted S) :
    (Worker.resume weighted (cfg.work weighted) : Worker S R).lastPushes = [] := by
  rw [Worker.lastPushes, Worker.lastPlan_resume, hheeds weighted]
  rfl

/-- A worker that changes its place without a push. -/
theorem pushesAhead_setWorker {t : RunState S R N} {i : Fin N} {w : Worker S R}
    (hworkers : t.workers = Function.update s.workers i w)
    (hw : w.lastPushes = (s.workers i).lastPushes) :
    t.pushesAhead.length = s.pushesAhead.length := by
  have hsum := Pool.length_gather_update Worker.lastPushes s.workers i w
  rw [hw] at hsum
  rw [pushesAhead, hworkers]
  exact Nat.add_right_cancel hsum

/-- A send leaves one push fewer to come. -/
theorem pushesAhead_send {i : Fin N} {item weighted : Weighted S}
    {k : Bool → WorkerProgram S R Unit}
    (hi : s.workers i = .running item (.ask (.sendSpec weighted) k)) {t : RunState S R N}
    (hworkers : t.workers = Function.update s.workers i (.resume item (k true))) :
    t.pushesAhead.length + 1 = s.pushesAhead.length := by
  have hsum := Pool.length_gather_update Worker.lastPushes s.workers i
    (.resume item (k true))
  have hcons : (Worker.running item (.ask (.sendSpec weighted) k) : Worker S R).lastPushes.length =
      (Worker.resume item (k true) : Worker S R).lastPushes.length + 1 := by
    rw [Worker.lastPushes, Worker.lastPushes, Worker.lastPlan_resume]
    rfl
  rw [hi, hcons] at hsum
  rw [pushesAhead, hworkers, pushesAhead]
  omega

/-- A request that is not a send leaves the pushes to come as they are. -/
theorem lastPushes_request {item : Weighted S} {op : WorkerOp S R}
    {k : Bool → WorkerProgram S R Unit} (hop : ∀ weighted, op ≠ .sendSpec weighted) :
    (Worker.resume item (k (dropped op)) : Worker S R).lastPushes =
      (Worker.running item (.ask op k)).lastPushes := by
  rw [Worker.lastPushes, Worker.lastPushes, Worker.lastPlan_resume, Worker.lastPlan, asked_ask]
  cases op with
  | sendSpec weighted => exact absurd rfl (hop weighted)
  | _ => rfl

/-- A worker that changes its place without changing whether it takes items out of the channel. -/
theorem staying_setWorker {t : RunState S R N} {i : Fin N} {w : Worker S R}
    (hworkers : t.workers = s.workers) (hchannel : t.specChannel = s.specChannel)
    (hdrain : w.draining = (s.workers i).draining) (hwait : w.waiting = (s.workers i).waiting) :
    (t.setWorker i w).staying = s.staying := by
  refine staying_congr ?_ ?_ hchannel
  · rw [setWorker, hworkers]
    exact Pool.exists_update_iff hdrain
  · rw [setWorker, hworkers]
    exact Pool.exists_update_iff hwait

theorem staying_of_nil (h : s.specChannel = []) : s.staying = 0 := by
  have hle := s.staying_le
  rw [h] at hle
  exact Nat.le_zero.mp hle

/-- The item that a waiting worker receives was not going to stay. -/
theorem staying_receive {i : Fin N} {weighted : Weighted S} {channel : List (Weighted S)}
    (hi : s.workers i = .wait) (hchannel : s.specChannel = weighted :: channel)
    {t : RunState S R N} (hworkers : t.workers = Function.update s.workers i .top)
    (ht : t.specChannel = channel) :
    t.staying ≤ s.staying ∧
      ((∀ j, (s.workers j).inNext = true → j = i) → t.staying = s.staying) := by
  have hother {j : Fin N} (hj : j ≠ i) : t.workers j = s.workers j := by
    rw [hworkers, Function.update_of_ne hj]
  have hlength : s.specChannel.length - 1 = channel.length := by simp [hchannel]
  have hle : t.staying ≤ channel.length := ht ▸ t.staying_le
  have hwait : ∃ j, (s.workers j).waiting = true := ⟨i, by rw [hi]; rfl⟩
  by_cases hdrain : ∃ j, (s.workers j).draining = true
  · obtain ⟨j, hj⟩ := hdrain
    have hji : j ≠ i := by
      rintro rfl
      simp [hi, Worker.draining] at hj
    have hzero : t.staying = 0 := staying_of_draining (i := j) (by rw [hother hji]; exact hj)
    refine ⟨hzero ▸ Nat.zero_le _, fun honly => absurd ?_ hji⟩
    exact honly j (Worker.inNext_of_draining hj)
  · have hs : s.staying = channel.length := by
      rw [staying, if_neg hdrain, if_pos hwait, hlength]
    refine ⟨hs ▸ hle, fun honly => ?_⟩
    rw [hs, ← ht]
    refine staying_eq_length fun j hnext => ?_
    by_cases hj : j = i
    · rw [hj, hworkers, Function.update_self]
    · rw [hother hj] at hnext
      exact absurd (honly j hnext) hj

/-- A send adds one item, which stays unless a worker takes it out. -/
theorem staying_send {i : Fin N} {item weighted : Weighted S} {k : Bool → WorkerProgram S R Unit}
    (hi : s.workers i = .running item (.ask (.sendSpec weighted) k)) {t : RunState S R N}
    (hworkers : t.workers = Function.update s.workers i (.resume item (k true)))
    (ht : t.specChannel.length = s.specChannel.length + 1) :
    t.staying ≤ s.staying + 1 ∧
      ((∀ j, (s.workers j).inNext = true → j = i) → t.staying = s.staying + 1) := by
  have hdrain : (∃ j, (t.workers j).draining = true) ↔ ∃ j, (s.workers j).draining = true := by
    rw [hworkers]
    refine Pool.exists_update_iff ?_
    rw [Worker.draining_resume, hi]
    rfl
  have hwait : (∃ j, (t.workers j).waiting = true) ↔ ∃ j, (s.workers j).waiting = true := by
    rw [hworkers]
    refine Pool.exists_update_iff ?_
    rw [Worker.waiting_resume, hi]
    rfl
  refine ⟨?_, fun honly => ?_⟩
  · simp only [staying, hdrain, hwait, ht]
    split_ifs <;> omega
  · -- nobody is in `next`, since this worker is not
    have hnone (j : Fin N) : (s.workers j).inNext = false := by
      by_contra hnext
      have hji := honly j (by simpa using hnext)
      simp [hji, hi, Worker.inNext] at hnext
    have hs : s.staying = s.specChannel.length :=
      staying_eq_length fun j hnext => by simp [hnone j] at hnext
    have hdrain' : ¬ ∃ j, (s.workers j).draining = true := by
      rintro ⟨j, hj⟩
      simpa [hnone j] using Worker.inNext_of_draining hj
    have hwait' : ¬ ∃ j, (s.workers j).waiting = true := by
      rintro ⟨j, hj⟩
      simpa [hnone j] using Worker.inNext_of_waiting hj
    rw [hs, ← ht, staying, if_neg (mt hdrain.mp hdrain'), if_neg (mt hwait.mp hwait')]

/-- **The load of the channel does not grow.** It stays the same if no other worker than the one
that takes the step is in `next`. -/
theorem LateMove.load_le (hheeds : cfg.Heeds) (hacc : s.Accounted) {i : Fin N}
    (h : LateMove cfg s i s') :
    s'.load ≤ s.load ∧
      ((∀ j, (s.workers j).inNext = true → j = i) → s'.load = s.load) := by
  have hsame (hstaying : s'.staying = s.staying)
      (hahead : s'.pushesAhead.length = s.pushesAhead.length) : s'.load ≤ s.load ∧
        ((∀ j, (s.workers j).inNext = true → j = i) → s'.load = s.load) := by
    have hload : s'.load = s.load := by rw [load, load, hstaying, hahead]
    exact ⟨hload.le, fun _ => hload⟩
  -- a worker that finds the channel empty changes nothing about it
  have hempty (hs : s.specChannel = []) (hs' : s'.specChannel = []) : s'.staying = s.staying := by
    rw [staying_of_nil hs, staying_of_nil hs']
  cases h with
  | lock hi hfree =>
    exact hsame (staying_setWorker rfl rfl (by rw [hi]; rfl) (by rw [hi]; rfl))
      (pushesAhead_setWorker rfl (by rw [hi]; rfl))
  | leave hi =>
    exact hsame (staying_setWorker rfl rfl (by rw [hi]; rfl) (by rw [hi]; rfl))
      (pushesAhead_setWorker rfl (by rw [hi]; rfl))
  | drain hi weighted channel hchannel =>
    have hdraining : (s.workers i).draining = true := by rw [hi]; rfl
    refine hsame ?_ rfl
    rw [staying_of_draining hdraining]
    exact staying_of_draining (i := i) hdraining
  | take hi hchannel weighted buffer =>
    refine hsame (hempty hchannel hchannel) (pushesAhead_setWorker rfl ?_)
    rw [lastPushes_work hheeds, hi]
    rfl
  | dry hi hchannel =>
    exact hsame (hempty hchannel hchannel) (pushesAhead_setWorker rfl (by rw [hi]; rfl))
  | finish hi hzero =>
    have hchannel := (hacc.idle_of_zero hzero).1
    exact hsame (hempty hchannel hchannel) (pushesAhead_setWorker rfl (by rw [hi]; rfl))
  | wait hi hpending =>
    exact hsame (staying_setWorker rfl rfl (by rw [hi]; rfl) (by rw [hi]; rfl))
      (pushesAhead_setWorker rfl (by rw [hi]; rfl))
  | receive hi weighted channel hchannel =>
    set s₁ : RunState S R N := { s.setWorker i .top with
      specChannel := channel
      receiveBuffer := BinaryHeap.push s.receiveBuffer weighted }
    have hstaying := staying_receive hi hchannel (t := s₁) rfl rfl
    have hahead : s₁.pushesAhead.length = s.pushesAhead.length :=
      pushesAhead_setWorker rfl (by rw [hi]; rfl)
    refine ⟨Nat.add_le_add hstaying.1 hahead.le, fun honly => ?_⟩
    rw [load, load, hstaying.2 honly, hahead]
  | timeout hi hchannel =>
    exact hsame (hempty hchannel hchannel) (pushesAhead_setWorker rfl (by rw [hi]; rfl))
  | send item weighted k hi hroom =>
    set s₁ : RunState S R N := setWorker { s with
      specChannel := s.specChannel ++ [weighted]
      scheduled := s.scheduled ++ [weighted] } i (.resume item (k true)) with hs₁
    have hstaying := staying_send hi (t := s₁) rfl (by simp [hs₁, setWorker])
    have hahead := pushesAhead_send hi (t := s₁) rfl
    refine ⟨?_, fun honly => ?_⟩
    · simp only [load]
      omega
    · have heq := hstaying.2 honly
      simp only [load]
      omega
  | request item op k s₁ hi hop hworkers hchannel =>
    have hupdate : (s₁.setWorker i (.resume item (k (dropped op)))).workers =
        Function.update s.workers i (.resume item (k (dropped op))) := by
      rw [setWorker, hworkers]
    refine hsame (staying_setWorker hworkers hchannel ?_ ?_) (pushesAhead_setWorker hupdate ?_)
    · rw [Worker.draining_resume, hi]
      rfl
    · rw [Worker.waiting_resume, hi]
      rfl
    · rw [lastPushes_request hop, hi]

/-- **After the drop every run of the workers ends.** -/
theorem LateMove.remaining_lt (hheeds : cfg.Heeds) {i : Fin N} (h : LateMove cfg s i s') :
    s'.remaining < s.remaining := by
  have hset (w : Worker S R) (t : RunState S R N)
      (ht : t.workers = Function.update s.workers i w) :
      t.remaining + 2 * (s.workers i).rank + s.specChannel.length =
        s.remaining + 2 * w.rank + t.specChannel.length := by
    have hsum := Pool.length_gather_update (fun w => List.replicate w.rank ()) s.workers i w
    simp only [List.length_replicate] at hsum
    simp only [remaining, ht]
    omega
  have hnext (w : Worker S R) (t : RunState S R N)
      (ht : t.workers = Function.update s.workers i w) (hrank : w.rank < (s.workers i).rank)
      (hchannel : t.specChannel.length ≤ s.specChannel.length) : t.remaining < s.remaining := by
    have hsum := hset w t ht
    omega
  cases h with
  | lock hi hfree => exact hnext .top _ rfl (by simp [hi, Worker.rank]) (Nat.le_refl _)
  | leave hi => exact hnext .returned _ rfl (by simp [hi, Worker.rank]) (Nat.le_refl _)
  | drain hi weighted channel hchannel =>
    simp only [remaining, hchannel, List.length_cons]
    omega
  | take hi hchannel weighted buffer =>
    refine hnext (.resume weighted (cfg.work weighted)) _ rfl ?_ (Nat.le_refl _)
    rw [Worker.rank_resume, hheeds weighted, hi]
    simp [Worker.rank]
  | dry hi hchannel => exact hnext .checkPending _ rfl (by simp [hi, Worker.rank]) (Nat.le_refl _)
  | finish hi hzero => exact hnext .returned _ rfl (by simp [hi, Worker.rank]) (Nat.le_refl _)
  | wait hi hpending => exact hnext .wait _ rfl (by simp [hi, Worker.rank]) (Nat.le_refl _)
  | receive hi weighted channel hchannel =>
    refine hnext .top _ rfl (by simp [hi, Worker.rank]) ?_
    rw [hchannel]
    simp
  | timeout hi hchannel => exact hnext .top _ rfl (by simp [hi, Worker.rank]) (Nat.le_refl _)
  | send item weighted k hi hroom =>
    have hsum := hset (.resume item (k true)) (setWorker { s with
      specChannel := s.specChannel ++ [weighted]
      scheduled := s.scheduled ++ [weighted] } i (.resume item (k true))) rfl
    have hrank : (s.workers i).rank = 2 + ((asked dropped (k true)).length + 1) := by
      rw [hi]
      rfl
    rw [hrank, Worker.rank_resume] at hsum
    simp only [setWorker, List.length_append, List.length_singleton] at hsum ⊢
    omega
  | request item op k s₁ hi hop hworkers hchannel =>
    refine hnext (.resume item (k (dropped op))) _ ?_ ?_ ?_
    · rw [setWorker, hworkers]
    · rw [Worker.rank_resume, hi]
      simp [Worker.rank]
    · rw [setWorker, hchannel]

/-! ### The states after the drop -/

/-- At most one worker holds the mutex. -/
def Exclusive (s : RunState S R N) : Prop :=
  ∀ i j, (s.workers i).inNext = true → (s.workers j).inNext = true → i = j

/-- A worker gets into `next` only by locking the mutex. -/
theorem inNext_of_stepWorker {i : Fin N} {fail : Bool} (h : s.stepWorker cfg i fail = some s') :
    (∀ j, j ≠ i → s'.workers j = s.workers j) ∧
      ((s'.workers i).inNext = true → (s.workers i).inNext = true ∨ s.lockFree = true) := by
  cases workerMove_of_stepWorker h with
  | lock hi hfree => exact ⟨fun j hj => setWorker_workers_of_ne hj _, fun _ => Or.inr hfree⟩
  | request item op k s₁ answer hi hperformed =>
    refine ⟨fun j hj => ?_, fun hnext => ?_⟩
    · rw [setWorker_workers_of_ne hj]
      cases hperformed <;> rfl
    · rw [setWorker_workers_self, Worker.inNext_resume] at hnext
      simp at hnext
  | drain hi weighted channel hchannel => exact ⟨fun j _ => rfl, fun _ => Or.inl (by rw [hi]; rfl)⟩
  | leave hi | enter hi | take hi | dry hi | finish hi | wait hi | receive hi | timeout hi =>
    exact ⟨fun j hj => setWorker_workers_of_ne hj _, fun _ => Or.inl (by rw [hi]; rfl)⟩

theorem Exclusive.step (h : s.Exclusive) (hs : Step cfg s s') : s'.Exclusive := by
  obtain ⟨a, ha⟩ := hs
  cases a with
  | worker i fail =>
    obtain ⟨hother, hself⟩ := inNext_of_stepWorker ha
    -- worker `i` is in `next` after the step: no other worker was, or it was itself
    have honly (j : Fin N) (hj : j ≠ i) (hnext : (s'.workers j).inNext = true) :
        (s'.workers i).inNext = false := by
      rw [hother j hj] at hnext
      by_contra hi
      rcases hself (by simpa using hi) with hbefore | hfree
      · exact hj (h j i hnext hbefore)
      · simp only [lockFree, decide_eq_true_eq] at hfree
        simp [hfree j] at hnext
    intro j k hj hk
    by_cases hji : j = i
    · by_cases hki : k = i
      · rw [hji, hki]
      · rw [hji, honly k hki hk] at hj
        simp at hj
    · by_cases hki : k = i
      · rw [hki, honly j hji hj] at hk
        simp at hk
      · rw [hother j hji] at hj
        rw [hother k hki] at hk
        exact h j k hj hk
  | consumer expired =>
    cases move_of_step ha with
    | consume expired channel consumer hreceiver hstep => exact h
  | dropSenders =>
    cases move_of_step ha with
    | dropSenders hall => exact h
  | stop =>
    cases move_of_step ha with
    | stop => exact h
  | dropReceiver =>
    cases move_of_step ha with
    | dropReceiver hstop => exact h

/-- A send leaves the channel within its capacity. -/
theorem length_specChannel_step (h : s.specChannel.length ≤ cfg.capacity) (hs : Step cfg s s') :
    s'.specChannel.length ≤ cfg.capacity := by
  obtain ⟨a, hmove⟩ := hs.move
  cases hmove with
  | receive i fail w weighted channel hi hw halive hreturn hchannel =>
    rw [hchannel, List.length_cons] at h
    exact Nat.le_of_succ_le h
  | request i fail item op k s₁ answer hi hperformed =>
    cases hperformed with
    | sendSpec weighted hroom =>
      simp only [setWorker, List.length_append, List.length_singleton]
      omega
    | _ => exact h
  | _ => exact h

/-- The states after the drop. -/
structure Late (cfg : Config S R) (s : RunState S R N) : Prop where
  stop : s.stop = true
  receiver : s.receiver = false
  accounted : s.Accounted
  exclusive : s.Exclusive
  bounded : s.specChannel.length ≤ cfg.capacity

/-- Every step after the drop. -/
theorem Late.step (hwork : ∀ weighted, Disciplined .plain (cfg.work weighted)) (h : s.Late cfg)
    (hs : Step cfg s s') : s'.Late cfg := by
  have hkeep : s'.stop = true ∧ s'.receiver = false := by
    obtain ⟨a, hmove⟩ := hs.move
    cases hmove with
    | request i fail item op k s₁ answer hi hperformed =>
      cases hperformed <;> exact ⟨h.stop, h.receiver⟩
    | stop => exact ⟨rfl, h.receiver⟩
    | dropReceiver hstop => exact ⟨h.stop, rfl⟩
    | _ => exact ⟨h.stop, h.receiver⟩
  exact ⟨hkeep.1, hkeep.2, h.accounted.step hwork hs, h.exclusive.step hs,
    length_specChannel_step h.bounded hs⟩

/-- No worker can take a step. -/
def Stuck (cfg : Config S R) (s : RunState S R N) : Prop :=
  ∀ i fail, s.stepWorker cfg i fail = none

/-- A worker in `next` can always take a step. -/
theorem exists_step_of_inNext (cfg : Config S R) {i : Fin N} (hi : (s.workers i).inNext = true)
    (fail : Bool) : ∃ t, s.stepWorker cfg i fail = some t := by
  refine Option.ne_none_iff_exists'.mp fun hnone => ?_
  cases hw : s.workers i with
  | top => simp [stepWorker, hw] at hnone
  | drain =>
    simp only [stepWorker, hw] at hnone
    split at hnone
    · simp at hnone
    · split at hnone <;> simp at hnone
  | checkPending => simp [stepWorker, hw] at hnone
  | wait =>
    simp only [stepWorker, hw] at hnone
    split at hnone <;> simp at hnone
  | _ => simp [hw, Worker.inNext] at hi

theorem not_stuck_of_inNext {i : Fin N} (hi : (s.workers i).inNext = true) : ¬ s.Stuck cfg := by
  intro hstuck
  obtain ⟨t, ht⟩ := exists_step_of_inNext cfg hi false
  simp [hstuck i false] at ht

/-- After the drop a worker that is stuck has returned or waits for room in the channel. -/
theorem Late.returned_or_send (h : s.Late cfg) (hstuck : s.Stuck cfg) (i : Fin N) :
    (s.workers i).hasReturned = true ∨
      cfg.capacity ≤ s.specChannel.length ∧ 0 < (s.workers i).lastPushes.length := by
  have hfree (j : Fin N) : (s.workers j).inNext = false := by
    by_contra hj
    exact not_stuck_of_inNext (by simpa using hj) hstuck
  have hnone := hstuck i false
  cases hw : s.workers i with
  | returned => exact Or.inl rfl
  | locking => simp [stepWorker, hw, lockFree, hfree] at hnone
  | running item p =>
    right
    obtain ⟨ph, hp⟩ := h.accounted.disciplined i item p hw
    cases p with
    | done u => exact absurd rfl (hp.ne_done u)
    | ask op k =>
      simp only [stepWorker, hw] at hnone
      cases op with
      | sendSpec weighted =>
        refine ⟨?_, Nat.succ_pos _⟩
        by_contra hroom
        simp [perform, Nat.lt_of_not_le hroom] at hnone
      | sendResult ordered => simp [perform, h.receiver] at hnone
      | _ => simp [perform] at hnone
  | _ =>
    have hout := hfree i
    simp [hw, Worker.inNext] at hout

/-- If there is room for the load, a stuck state has no worker left. -/
theorem Late.returned_of_load (h : s.Late cfg) (hload : s.load ≤ cfg.capacity)
    (hstuck : s.Stuck cfg) (i : Fin N) : (s.workers i).hasReturned = true := by
  refine (h.returned_or_send hstuck i).resolve_right ?_
  rintro ⟨hfull, hpush⟩
  have hstaying : s.staying = s.specChannel.length := by
    refine staying_eq_length fun j hj => ?_
    exact absurd hstuck (not_stuck_of_inNext hj)
  have hahead : 0 < s.pushesAhead.length := by
    obtain ⟨weighted, hmem⟩ := List.exists_mem_of_length_pos hpush
    exact List.length_pos_of_mem (Pool.mem_gather.mpr ⟨i, hmem⟩)
  simp only [load] at hload
  omega

/-- A state in which all workers have returned has no pushes to come. -/
theorem load_of_returned (h : ∀ i, (s.workers i).hasReturned = true) :
    s.load = s.specChannel.length := by
  have hreturned (i : Fin N) : s.workers i = .returned := by
    have hi := h i
    cases hw : s.workers i <;> simp_all [Worker.hasReturned]
  have hahead : s.pushesAhead = [] :=
    Pool.gather_eq_nil_iff.mpr fun i => by rw [hreturned i]; rfl
  rw [load, hahead, staying_eq_length fun i hi => by simp [hreturned i, Worker.inNext] at hi]
  rfl

/-- If there is no room for the load, some worker is left waiting for ever in some run. -/
theorem Late.exists_stuck (hsends : cfg.sendsMayFail = false)
    (hwork : ∀ weighted, Disciplined .plain (cfg.work weighted)) (hheeds : cfg.Heeds)
    (h : s.Late cfg) (hload : cfg.capacity < s.load) :
    ∃ s', Reaches cfg s s' ∧ s'.Stuck cfg ∧ ¬ ∀ i, (s'.workers i).hasReturned = true := by
  obtain ⟨s', hreach, ⟨hlate, hload'⟩, hstuck⟩ :
      ∃ s', Reaches cfg s s' ∧ (s'.Late cfg ∧ cfg.capacity < s'.load) ∧ s'.Stuck cfg := by
    refine Reachability.exists_of_measure remaining ?_ ⟨h, hload⟩
    rintro t ⟨ht, htload⟩
    have hgo (i : Fin N) (fail : Bool) (u : RunState S R N) (hu : t.stepWorker cfg i fail = some u)
        (honly : ∀ j, (t.workers j).inNext = true → j = i) : ∃ u, Reaches cfg t u ∧
          (u.Late cfg ∧ cfg.capacity < u.load) ∧ u.remaining < t.remaining := by
      have hmove := lateMove_of_stepWorker hsends ht.stop ht.receiver hu
      have hstep : Step cfg t u := ⟨.worker i fail, hu⟩
      have heq := (hmove.load_le hheeds ht.accounted).2 honly
      exact ⟨u, .single hstep, ⟨ht.step hwork hstep, heq ▸ htload⟩, hmove.remaining_lt hheeds⟩
    -- the worker in `next` goes first, so that the load stays the same
    by_cases hnext : ∃ i, (t.workers i).inNext = true
    · obtain ⟨i, hi⟩ := hnext
      obtain ⟨u, hu⟩ := exists_step_of_inNext cfg hi false
      exact Or.inr (hgo i false u hu fun j hj => ht.exclusive j i hj hi)
    · by_cases hstuck : t.Stuck cfg
      · exact Or.inl hstuck
      · simp only [Stuck, not_forall] at hstuck
        obtain ⟨i, fail, hsome⟩ := hstuck
        obtain ⟨u, hu⟩ := Option.ne_none_iff_exists'.mp hsome
        exact Or.inr (hgo i fail u hu fun j hj => absurd ⟨j, hj⟩ hnext)
  refine ⟨s', hreach, hstuck, fun hall => ?_⟩
  rw [load_of_returned hall] at hload'
  exact absurd hlate.bounded (Nat.not_le.mpr hload')

/-! ### The drop -/

/-- The drop takes two steps. -/
theorem reaches_drop (s : RunState S R N) : Reaches cfg s s.drop := by
  have hstop : Step cfg s { s with stop := true } := ⟨.stop, rfl⟩
  have hdrop : Step cfg { s with stop := true } s.drop := ⟨.dropReceiver, rfl⟩
  exact (Relation.ReflTransGen.single hstop).tail hdrop

/-- The state after the drop, at any point of a run from one root. -/
theorem late_drop (hwork : ∀ weighted, Disciplined .plain (cfg.work weighted))
    {root : Weighted S} {maxReceiveBufferSize : ℕ}
    (h : Reaches cfg (init N [root] maxReceiveBufferSize) s) : s.drop.Late cfg := by
  have hinv : s.Exclusive ∧ s.specChannel.length ≤ cfg.capacity := by
    refine h.invariant (P := fun t => t.Exclusive ∧ t.specChannel.length ≤ cfg.capacity)
      ⟨fun i j hi => ?_, cfg.capacity_pos⟩ fun _ _ ht hs =>
        ⟨ht.1.step hs, length_specChannel_step ht.2 hs⟩
    simp [init, Worker.inNext] at hi
  exact ⟨rfl, rfl, accounted_of_reaches hwork (h.trans (reaches_drop s)), hinv.1, hinv.2⟩

/-- After the drop the load never grows. -/
theorem Late.load_le_of_reaches (hsends : cfg.sendsMayFail = false)
    (hwork : ∀ weighted, Disciplined .plain (cfg.work weighted)) (hheeds : cfg.Heeds)
    (h : s.Late cfg) (hreach : Reaches cfg s s') : s'.Late cfg ∧ s'.load ≤ s.load := by
  refine hreach.invariant (P := fun t => t.Late cfg ∧ t.load ≤ s.load) ⟨h, Nat.le_refl _⟩ ?_
  rintro t t' ⟨hlate, hle⟩ hs
  refine ⟨hlate.step hwork hs, Nat.le_trans ?_ hle⟩
  obtain ⟨a, ha⟩ := hs
  cases a with
  | worker i fail =>
    have hmove := lateMove_of_stepWorker hsends hlate.stop hlate.receiver ha
    exact (hmove.load_le hheeds hlate.accounted).1
  | consumer expired => simp [RunState.step, stepConsumer, hlate.receiver] at ha
  | dropSenders =>
    cases move_of_step ha with
    | dropSenders hall => exact Nat.le_refl _
  | stop =>
    cases move_of_step ha with
    | stop => exact Nat.le_refl _
  | dropReceiver =>
    cases move_of_step ha with
    | dropReceiver hstop => exact Nat.le_refl _

/-- **When the drop releases every worker.** Let the iterator be dropped at any state of a run from
one root, with any core callback, and let the receiver of the work queue live until the last worker
has returned. In every state that can be reached afterwards and in which no worker can take a step
all workers have returned, if and only if the channel has room for its load at the drop: for the
items that no worker is about to take out of it, and those that the workers are still going to
push. -/
theorem released_iff {B E : Type} (callback : ReadDirCallback B E) (capacity : ℕ)
    (hcapacity : 0 < capacity) (spec : ReadDirSpec B) (maxReceiveBufferSize : ℕ)
    (s : RunState (ReadDirSpec B) (ReadDirResult B E) N)
    (h : Reaches (Config.walk callback capacity hcapacity false)
      (init N (rootItems [spec]) maxReceiveBufferSize) s) :
    (∀ s', Reaches (Config.walk callback capacity hcapacity false) s.drop s' →
      s'.Stuck (Config.walk callback capacity hcapacity false) →
      ∀ i, (s'.workers i).hasReturned = true) ↔
    s.staying + s.pushesAhead.length ≤ capacity := by
  have hwork := disciplined_multiThreadedWalkDir callback
  have hheeds := Config.heeds_walk callback capacity hcapacity false
  have hlate := late_drop hwork h
  constructor
  · intro hreleased
    by_contra hload
    obtain ⟨s', hreach, hstuck, hnot⟩ :=
      hlate.exists_stuck rfl hwork hheeds (Nat.lt_of_not_le hload)
    exact hnot (hreleased s' hreach hstuck)
  · intro hload s' hreach hstuck i
    obtain ⟨hlate', hle⟩ := hlate.load_le_of_reaches rfl hwork hheeds hreach
    exact hlate'.returned_of_load (hle.trans hload) hstuck i

/-- The statement above for a walk of `r` by two workers over channels for two items, dropped while
a worker is in its first push: all workers are released. -/
theorem released_first_push :
    ∃ s : RunState (ReadDirSpec Unit) (ReadDirResult Unit Unit) 2, s.pushesAhead.length = 1 ∧
      ∀ s', Reaches (wideWalk 2 Nat.two_pos) s.drop s' → s'.Stuck (wideWalk 2 Nat.two_pos) →
        ∀ i, (s'.workers i).hasReturned = true := by
  obtain ⟨s, hrun, hstaying, hahead⟩ : ∃ s,
      (narrowStart 2).run (wideWalk 2 Nat.two_pos) (List.replicate 7 (.worker 0 false)) = some s ∧
      s.staying = 0 ∧ s.pushesAhead.length = 1 :=
    ⟨_, rfl, by decide, rfl⟩
  refine ⟨s, hahead, (released_iff _ 2 Nat.two_pos _ 0 s (reaches_of_run hrun)).mpr ?_⟩
  omega

/-- A Linux where the directory `r` has three subdirectories, the first of them has one, and nothing
else exists. -/
def nestedLinux : LinuxCalls :=
  .listing fun path =>
    if path = ⟨[.normal [114]]⟩ then ⟨[(DT_DIR, [97]), (DT_DIR, [98]), (DT_DIR, [99])], none⟩
    else if path = ⟨[.normal [114], .normal [97]]⟩ then ⟨[(DT_DIR, [100])], none⟩
    else ⟨[], none⟩

/-- The walk of `r` over channels for one item. -/
def nestedWalk (sendsMayFail : Bool) : Config (ReadDirSpec Unit) (ReadDirResult Unit Unit) :=
  Config.walk (walkCallback (fun _ => .linux nestedLinux)
    (WalkDirOptions.new : WalkDirOptions Unit Unit)) 1 Nat.one_pos sendsMayFail

/-- The worker `i` sends `a`, the worker `j` takes it, `i` sends `b` and waits with `c`, and `j`
waits with `d`. -/
def nestedActions (i j : Fin 2) : List (Action 2) :=
  List.replicate 10 (.worker i false) ++ List.replicate 4 (.worker j false) ++
    List.replicate 3 (.worker i false) ++ List.replicate 3 (.worker j false)

/-- Two workers walk this tree over channels for one item. The iterator is dropped while both of
them wait for room in the channel, and both of them wait for ever. -/
theorem not_released_nested :
    ∃ s : RunState (ReadDirSpec Unit) (ReadDirResult Unit Unit) 2,
      Reaches (nestedWalk false) (narrowStart 2) s ∧ s.drop.Stuck (nestedWalk false) ∧
      ∀ i, (s.workers i).hasReturned = false := by
  obtain ⟨s, hrun, hfirst, hsecond, hfirst', hsecond'⟩ : ∃ s,
      (narrowStart 2).run (nestedWalk false) (nestedActions 0 1) = some s ∧
      (∀ fail, s.drop.stepWorker (nestedWalk false) 0 fail = none) ∧
      (∀ fail, s.drop.stepWorker (nestedWalk false) 1 fail = none) ∧
      (s.workers 0).hasReturned = false ∧ (s.workers 1).hasReturned = false :=
    ⟨_, rfl, fun fail => by cases fail <;> rfl, fun fail => by cases fail <;> rfl, rfl, rfl⟩
  exact ⟨s, reaches_of_run hrun, Fin.forall_fin_two.mpr ⟨hfirst, hsecond⟩,
    Fin.forall_fin_two.mpr ⟨hfirst', hsecond'⟩⟩

end RunState

end JwalkMeta
