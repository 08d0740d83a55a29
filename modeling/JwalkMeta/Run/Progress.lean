import JwalkMeta.Run.Course
import JwalkMeta.WalkDir.Streaming

/-!
# Whether a run can go on

The workers send to the channel of the work queue and are the only ones to receive from it. A run
that is not stopped is *wedged* when this channel is full and every worker waits for room in it:
then no worker can ever take a step again. This is the only way for a run to come to a halt before
all its work is done.

A wedged state is entered by one kind of step: a worker begins a push while the channel is full and
every other worker is already waiting in a send. A run without such steps (`PacedReaches`) never
halts, and from each such step a halt can be reached.

## Main definitions

* `RunState.Final`, `RunState.CanProgress`: the work is done; some thread can move it on.
* `RunState.Wedged`, `RunState.Paced`: the halt, and the steps that do not lead to it.

## Main results

* `RunState.final_or_canProgress`: a run that is not wedged can go on or is done.
* `RunState.progress_of_paced`: exactly the steps that are not paced endanger a run.
-/

namespace JwalkMeta

open Interaction Frontier

variable {S R : Type} {N : ℕ}

/-! ### The states of a run that is not stopped -/

/-- What a run relies on: sends to the work queue do not fail, and the program of a worker completes
its item once and pushes what its result announces. -/
structure Config.Sound (cfg : Config S R) : Prop where
  sends : cfg.sendsMayFail = false
  disciplined : ∀ weighted, Disciplined .plain (cfg.work weighted)
  planned : ∀ weighted, ∃ ordered, Planned weighted (asked unstopped (cfg.work weighted)) ordered

/-- A walk with the core callback, whatever the operating system answers. -/
theorem Config.sound_walk {B E : Type} [Inhabited E] (os : IndexPath → OperatingSystem)
    (opts : WalkDirOptions B E) (capacity : ℕ) (hcapacity : 0 < capacity) :
    (Config.walk (walkCallback (E := E) os opts) capacity hcapacity false).Sound where
  sends := rfl
  disciplined := disciplined_multiThreadedWalkDir _
  planned := fun weighted =>
    ⟨_, planned_multiThreadedWalkDir (streams_walkCallback os opts) weighted⟩

namespace Worker

/-- Whether the worker is in the middle of a push, at its send. -/
def inSend : Worker S R → Bool
  | running _ (.ask (.sendSpec _) _) => true
  | _ => false

/-- Whether the worker is about to begin a push. -/
def beginsPush : Worker S R → Bool
  | running _ (.ask .fetchAdd _) => true
  | _ => false

theorem inSend_of_program {w : Worker S R} (h : w.program = none) : w.inSend = false := by
  cases w <;> first | rfl | simp [program] at h

/-- A worker outside of a push is not at a send. -/
theorem inSend_resume {ph : Phase} {p : WorkerProgram S R Unit} (h : Disciplined ph p)
    (hph : ph ≠ .counted) (item : Weighted S) : (resume item p).inSend = false := by
  cases p with
  | done u => rfl
  | ask op k =>
    cases op with
    | sendSpec weighted => exact absurd h.phase_eq.symm hph
    | _ => rfl

/-- Only the first request of a push is followed by a send. -/
theorem inSend_of_request {ph : Phase} {op : WorkerOp S R} {k : Bool → WorkerProgram S R Unit}
    (h : Disciplined ph (.ask op k)) (hop : op ≠ .fetchAdd) (item : Weighted S) (answer : Bool) :
    (resume item (k answer)).inSend = false := by
  have hph := h.phase_eq.symm
  subst hph
  cases op with
  | loadStop => exact inSend_resume (h answer) (by simp) item
  | fetchAdd => exact absurd rfl hop
  | sendSpec weighted =>
    cases answer with
    | true => exact inSend_resume h.1 (by simp) item
    | false => exact inSend_resume h.2 (by simp) item
  | fetchSub => exact inSend_resume (h answer) (by simp) item
  | sendResult ordered => exact inSend_resume (h answer) (by simp) item
  | completeItem =>
    rw [show k answer = .done () from h answer]
    rfl

theorem exists_of_beginsPush {w : Worker S R} (h : w.beginsPush = true) :
    ∃ item k, w = running item (.ask .fetchAdd k) := by
  unfold beginsPush at h
  split at h
  · exact ⟨_, _, rfl⟩
  · simp at h

/-- After its first request a push is at its send. -/
theorem inSend_of_fetchAdd {ph : Phase} {item : Weighted S} {k : Bool → WorkerProgram S R Unit}
    (h : Disciplined ph (.ask .fetchAdd k)) : (resume item (k true)).inSend = true := by
  have hph : ph = .plain := h.phase_eq.symm
  subst hph
  have hcounted : Disciplined .counted (k true) := h true
  cases hk : k true with
  | done u => exact absurd hk (hcounted.ne_done u)
  | ask op k' =>
    rw [hk] at hcounted
    cases op with
    | sendSpec weighted => rfl
    | _ => exact hcounted.elim

end Worker

/-- Whether an action is a step of a thread, and not one that ends the walk. -/
def Action.ofThread : Action N → Bool
  | worker _ _ | consumer _ => true
  | _ => false

namespace RunState

/-- The results that `next` of the ordered queue has returned. -/
def yielded (s : RunState S R N) : List (Ordered R) := s.consumer.nexts.filterMap id

/-- The invariants of a run that is not stopped. -/
structure OnTrack (s : RunState S R N) : Prop where
  accounted : s.Accounted
  course : s.Course
  /-- Every sent result has been returned or is at hand. -/
  delivered : s.sent.Perm (s.yielded ++ s.consumer.atHand s.resultChannel)

variable {cfg : Config S R} {s s' : RunState S R N}

/-- A request of a worker delivers what it sends to the result channel. -/
theorem delivered_of_performed {item : Weighted S} {op : WorkerOp S R} {answer : Bool}
    (h : s.sent.Perm (s.yielded ++ s.consumer.atHand s.resultChannel))
    (hs : Performed cfg s item op s' answer) :
    s'.sent.Perm (s'.yielded ++ s'.consumer.atHand s'.resultChannel) := by
  cases hs with
  | sendResult ordered hreceiver hroom =>
    refine (h.append_right [ordered]).trans ?_
    rw [List.append_assoc]
    refine List.Perm.append_left _ ?_
    change (s.resultChannel ++ s.consumer.iter.receiveBuffer ++ [ordered]).Perm
      (s.resultChannel ++ [ordered] ++ s.consumer.iter.receiveBuffer)
    rw [List.append_assoc, List.append_assoc]
    exact List.perm_append_comm.append_left _
  | _ => exact h

/-- A step of the consumer returns what is no longer at hand. -/
theorem delivered_of_effect {channel : List (Ordered R)} {consumer : Consumer R}
    (h : s.sent.Perm (s.yielded ++ s.consumer.atHand s.resultChannel))
    (heffect : Consumer.Effect s.resultChannel channel s.consumer consumer) :
    s.sent.Perm (consumer.nexts.filterMap id ++ consumer.atHand channel) := by
  refine h.trans ?_
  cases heffect with
  | quiet hnexts hmatcher hperm =>
    rw [hnexts]
    exact hperm.append_left _
  | finish hnexts hnone hmatcher hperm =>
    rw [hnexts, List.filterMap_append, List.append_assoc]
    exact hperm.append_left _
  | handOut o F hnexts hperm hbefore hafter =>
    rw [hnexts, List.filterMap_append, List.append_assoc]
    exact hperm.append_left _

/-- Every step keeps the invariants while the run is not stopped. -/
theorem OnTrack.step (hN : 0 < N) (hsound : cfg.Sound) (h : s.OnTrack) (hs : Step cfg s s')
    (hstop' : s'.stop = false) : s'.OnTrack := by
  have hstop := hs.stop_of hstop'
  refine ⟨h.accounted.step hsound.disciplined hs,
    h.course.step hN hsound.sends hsound.planned h.accounted hs hstop', ?_⟩
  obtain ⟨a, hmove⟩ := hs.move
  cases hmove with
  | request i fail item op k s₁ answer hi hperformed =>
    have hdelivered := delivered_of_performed h.delivered hperformed
    exact hdelivered
  | consume expired channel consumer hreceiver hstep =>
    rw [hstop] at hstep
    obtain ⟨-, heffect⟩ := h.course.onCourse.step
      (fun hgone => h.course.rest_eq_nil h.accounted hN hstop (by simpa using hgone)) hstep
    have hdelivered := delivered_of_effect h.delivered heffect
    exact hdelivered
  | _ => exact h.delivered

/-- A run from one root. -/
theorem onTrack_of_reaches (hN : 0 < N) (hsound : cfg.Sound) {root : Weighted S}
    (hroot : root.indexPath = ⟨[0]⟩) {maxReceiveBufferSize : ℕ}
    (h : Reaches cfg (init N [root] maxReceiveBufferSize) s) (hstop : s.stop = false) :
    s.OnTrack := by
  have hinv : s.stop = false → s.OnTrack := by
    refine h.invariant (P := fun t => t.stop = false → t.OnTrack)
      (fun _ => ⟨accounted_init _ _, course_init root hroot _, List.Perm.refl _⟩) ?_
    exact fun a b ha hs hb => (ha (hs.stop_of hb)).step hN hsound hs hb
  exact hinv hstop

/-! ### Progress -/

/-- All pushed items have been completed, and all sent results have been returned. -/
def Final (s : RunState S R N) : Prop :=
  s.completed.Perm s.scheduled ∧ s.yielded.Perm s.sent

/-- A step moves an item into or out of a queue, or advances the processing of an item. -/
def Progress (s : RunState S R N) (a : Action N) (s' : RunState S R N) : Prop :=
  s'.specChannel.length ≠ s.specChannel.length ∨
  s'.receiveBuffer.length ≠ s.receiveBuffer.length ∨
  s'.resultChannel.length ≠ s.resultChannel.length ∨
  s'.consumer.iter.receiveBuffer.length ≠ s.consumer.iter.receiveBuffer.length ∨
  ∃ i fail, a = .worker i fail ∧ (s.workers i).program.isSome = true

/-- A step of a worker or of the consumer. -/
def ThreadStep (cfg : Config S R) (s s' : RunState S R N) : Prop :=
  ∃ a, a.ofThread = true ∧ s.step cfg a = some s'

/-- Some thread can make progress, after steps that only lead threads to their next access to a
queue. -/
def CanProgress (cfg : Config S R) (s : RunState S R N) : Prop :=
  ∃ s₁ a s₂, Relation.ReflTransGen (ThreadStep cfg) s s₁ ∧ a.ofThread = true ∧
    s₁.step cfg a = some s₂ ∧ Progress s₁ a s₂

theorem CanProgress.of_progress {a : Action N} (ha : a.ofThread = true)
    (hs : s.step cfg a = some s') (hprogress : Progress s a s') : s.CanProgress cfg :=
  ⟨s, a, s', Relation.ReflTransGen.refl, ha, hs, hprogress⟩

theorem CanProgress.of_step (h : s'.CanProgress cfg) {a : Action N} (ha : a.ofThread = true)
    (hs : s.step cfg a = some s') : s.CanProgress cfg := by
  obtain ⟨s₁, b, s₂, hreach, hb, hstep, hprogress⟩ := h
  exact ⟨s₁, b, s₂, Relation.ReflTransGen.head ⟨a, ha, hs⟩ hreach, hb, hstep, hprogress⟩

section Worker

variable {i : Fin N}

/-- A worker that drains the channel, or waits for it, receives what is in it. -/
theorem canProgress_receive (hi : s.workers i = .drain ∨ s.workers i = .wait)
    {weighted : Weighted S} {channel : List (Weighted S)}
    (hchannel : s.specChannel = weighted :: channel) : s.CanProgress cfg := by
  rcases hi with hi | hi <;>
  · refine .of_progress (a := .worker i false) rfl
      (by simp [step, stepWorker, hi, hchannel]; rfl) ?_
    left
    simp [hchannel]

/-- A worker that drains the channel finds an item in it or in the heap. -/
theorem canProgress_drain (hi : s.workers i = .drain)
    (hqueue : s.specChannel ++ s.receiveBuffer ≠ []) : s.CanProgress cfg := by
  cases hchannel : s.specChannel with
  | cons weighted channel => exact canProgress_receive (.inl hi) hchannel
  | nil =>
    rw [hchannel, List.nil_append] at hqueue
    obtain ⟨weighted, buffer, hpop⟩ := BinaryHeap.exists_pop_of_ne_nil hqueue
    refine .of_progress (a := .worker i false) rfl
      (by simp [step, stepWorker, hi, hchannel, hpop]; rfl) ?_
    right; left
    have hlength := (BinaryHeap.pop_perm hpop).length_eq
    simp only [List.length_cons] at hlength
    simp only
    omega

/-- A worker at the top of the loop goes on to drain the channel. -/
theorem canProgress_top (hstop : s.stop = false) (hi : s.workers i = .top)
    (hqueue : s.specChannel ++ s.receiveBuffer ≠ []) : s.CanProgress cfg := by
  have hdrain : CanProgress cfg (s.setWorker i .drain) :=
    canProgress_drain (i := i) (setWorker_workers_self i _) hqueue
  exact hdrain.of_step (a := .worker i false) rfl (by simp [step, stepWorker, hi, hstop])

/-- A worker that waits receives an item, or times out and goes on to the heap. -/
theorem canProgress_wait (hstop : s.stop = false) (hi : s.workers i = .wait)
    (hqueue : s.specChannel ++ s.receiveBuffer ≠ []) : s.CanProgress cfg := by
  cases hchannel : s.specChannel with
  | cons weighted channel => exact canProgress_receive (.inr hi) hchannel
  | nil =>
    have htop : CanProgress cfg (s.setWorker i .top) :=
      canProgress_top (i := i) hstop (setWorker_workers_self i _) hqueue
    exact htop.of_step (a := .worker i false) rfl (by simp [step, stepWorker, hi, hchannel])

/-- A worker in `next` can go on while something waits in the work queue. -/
theorem canProgress_inNext (hstop : s.stop = false) (hi : (s.workers i).inNext = true)
    (hpending : s.pendingCount ≠ 0) (hqueue : s.specChannel ++ s.receiveBuffer ≠ []) :
    s.CanProgress cfg := by
  cases hw : s.workers i with
  | top => exact canProgress_top hstop hw hqueue
  | drain => exact canProgress_drain hw hqueue
  | wait => exact canProgress_wait hstop hw hqueue
  | checkPending =>
    have hwait : CanProgress cfg (s.setWorker i .wait) :=
      canProgress_wait (i := i) hstop (setWorker_workers_self i _) hqueue
    exact hwait.of_step (a := .worker i false) rfl (by simp [step, stepWorker, hw, hpending])
  | _ => simp [hw, Worker.inNext] at hi

/-- While something waits in the work queue, a worker that has not returned and processes no item
can go on, or the one that holds the mutex can. -/
theorem canProgress_next (hstop : s.stop = false) (hi : (s.workers i).program = none)
    (halive : (s.workers i).hasReturned = false) (hpending : s.pendingCount ≠ 0)
    (hqueue : s.specChannel ++ s.receiveBuffer ≠ []) : s.CanProgress cfg := by
  by_cases hnext : ∃ j, (s.workers j).inNext = true
  · obtain ⟨j, hj⟩ := hnext
    exact canProgress_inNext hstop hj hpending hqueue
  · -- the mutex is free, so the worker can lock it
    have hfree : s.lockFree = true := by
      simpa [lockFree] using hnext
    have hlocking : s.workers i = .locking := by
      have hout : (s.workers i).inNext = false := by
        simpa using fun h => hnext ⟨i, h⟩
      cases hw : s.workers i <;> simp_all [Worker.inNext, Worker.program, Worker.hasReturned]
    have htop : CanProgress cfg (s.setWorker i .top) :=
      canProgress_top (i := i) hstop (setWorker_workers_self i _) hqueue
    exact htop.of_step (a := .worker i false) rfl (by simp [step, stepWorker, hlocking, hfree])

end Worker

section Consumer

variable {rest : List (List ℕ)}

/-- A step of the consumer is a step of the run. -/
theorem step_consumer (hreceiver : s.receiver = true) {expired : Bool}
    (channel : List (Ordered R)) (consumer : Consumer R)
    (hs : s.consumer.step s.stop (!s.senders) expired s.resultChannel = some (channel, consumer)) :
    s.step cfg (.consumer expired) =
      some { s with resultChannel := channel, consumer := consumer } := by
  simp [step, stepConsumer, hreceiver, hs]

/-- Returning the result looked for takes it out of the receive buffer. -/
theorem length_takeTop (hcourse : s.consumer.OnCourse rest s.resultChannel)
    (htop : s.consumer.topMatches = true) :
    s.consumer.takeTop.iter.receiveBuffer.length ≠ s.consumer.iter.receiveBuffer.length := by
  obtain ⟨o, buffer, m, F, hpop, -, -, -, htake⟩ := hcourse.takeTop_eq htop
  have hlength := (BinaryHeap.pop_perm hpop).length_eq
  simp only [List.length_cons] at hlength
  rw [htake]
  simp only
  omega

/-- A consumer before its wait receives what is in the channel. -/
theorem canProgress_deadline (hreceiver : s.receiver = true)
    (hpc : s.consumer.pc = .deadline ∨ s.consumer.pc = .recv) (hchannel : s.resultChannel ≠ []) :
    s.CanProgress cfg := by
  have hrecv (t : RunState S R N) (hr : t.receiver = true) (hp : t.consumer.pc = .recv)
      (hc : t.resultChannel ≠ []) : t.CanProgress cfg := by
    obtain ⟨o, channel, hoc⟩ := List.exists_cons_of_ne_nil hc
    refine .of_progress (a := .consumer false) rfl
      (step_consumer hr channel (t.consumer.receive o .top)
        (by simp [Consumer.step, hp, hoc])) ?_
    right; right; left
    simp [hoc]
  rcases hpc with hpc | hpc
  · refine (hrecv { s with consumer := { s.consumer with pc := .recv } } hreceiver rfl
      hchannel).of_step (a := .consumer false) rfl ?_
    exact step_consumer hreceiver _ _ (by simp [Consumer.step, hpc])
  · exact hrecv s hreceiver hpc hchannel

/-- A consumer that drains the channel receives a result, returns the one looked for, or goes on to
its wait. -/
theorem canProgress_drainChannel (hreceiver : s.receiver = true) (hpc : s.consumer.pc = .drain)
    (hcourse : s.consumer.OnCourse rest s.resultChannel)
    (hne : s.consumer.iter.orderedMatcher.isNone = false)
    (hready : s.resultChannel ≠ [] ∨ s.consumer.topMatches = true) : s.CanProgress cfg := by
  have hafter (hs : s.consumer.step s.stop (!s.senders) false s.resultChannel =
      some (s.resultChannel, s.consumer.afterDrain)) : s.CanProgress cfg := by
    by_cases htop : s.consumer.topMatches = true
    · refine .of_progress (a := .consumer false) rfl (step_consumer hreceiver _ _ hs) ?_
      right; right; right; left
      simp only [Consumer.afterDrain, htop, ↓reduceIte]
      exact length_takeTop hcourse htop
    · have hdeadline : s.consumer.afterDrain = { s.consumer with pc := .deadline } := by
        simp [Consumer.afterDrain, htop, hne]
      rw [hdeadline] at hs
      refine (canProgress_deadline ?_ (Or.inl rfl) ?_).of_step (a := .consumer false) rfl
        (step_consumer hreceiver _ _ hs)
      · exact hreceiver
      · exact hready.resolve_right htop
  by_cases hroom : s.consumer.iter.receiveBuffer.length < s.consumer.iter.maxReceiveBufferSize
  · cases hchannel : s.resultChannel with
    | nil =>
      refine hafter ?_
      simp [Consumer.step, hpc, Consumer.drainChannel, hroom, hchannel]
    | cons o channel =>
      refine .of_progress (a := .consumer false) rfl
        (step_consumer hreceiver channel (s.consumer.receive o .drain)
          (by simp [Consumer.step, hpc, Consumer.drainChannel, hroom, hchannel])) ?_
      right; right; left
      simp [hchannel]
  · refine hafter ?_
    simp [Consumer.step, hpc, Consumer.drainChannel, hroom]

/-- A consumer at the top of its loop. -/
theorem canProgress_consumer_top (hreceiver : s.receiver = true) (hstop : s.stop = false)
    (hpc : s.consumer.pc = .top) (hcourse : s.consumer.OnCourse rest s.resultChannel)
    (hne : s.consumer.iter.orderedMatcher.isNone = false)
    (hready : s.resultChannel ≠ [] ∨ s.consumer.topMatches = true) : s.CanProgress cfg := by
  by_cases htop : s.consumer.topMatches = true
  · refine .of_progress (a := .consumer false) rfl
      (step_consumer hreceiver s.resultChannel s.consumer.takeTop
        (by simp [Consumer.step, hpc, hstop, htop])) ?_
    right; right; right; left
    exact length_takeTop hcourse htop
  · have hcourse' : Consumer.OnCourse rest s.resultChannel { s.consumer with pc := .drain } :=
      (hcourse.setPc (by simp) (by simp)).1
    refine (canProgress_drainChannel ?_ rfl hcourse' ?_ ?_).of_step (a := .consumer false) rfl
      (step_consumer hreceiver s.resultChannel { s.consumer with pc := .drain }
        (by simp [Consumer.step, hpc, hstop, htop]))
    · exact hreceiver
    · exact hne
    · exact hready

/-- The consumer can go on while a result waits for it in the channel, or the one looked for in the
receive buffer. -/
theorem canProgress_consumer (hreceiver : s.receiver = true) (hstop : s.stop = false)
    (hcourse : s.consumer.OnCourse rest s.resultChannel)
    (hready : s.resultChannel ≠ [] ∨ s.consumer.topMatches = true) : s.CanProgress cfg := by
  have hne : s.consumer.iter.orderedMatcher.isNone = false := by
    by_contra hnone
    have hnil := hcourse.outstanding_eq_nil (by simpa using hnone)
    simp only [Consumer.outstanding, Consumer.atHand, List.append_eq_nil_iff, List.map_eq_nil_iff]
      at hnil
    rcases hready with hready | hready
    · exact hready hnil.2.1
    · obtain ⟨o, buffer, hpop, -⟩ := Consumer.topMatches_eq_true hready
      simp [hnil.2.2] at hpop
  cases hpc : s.consumer.pc with
  | idle =>
    have hcourse' : Consumer.OnCourse rest s.resultChannel { s.consumer with pc := .top } :=
      (hcourse.setPc (by simp) (by simp)).1
    refine (canProgress_consumer_top ?_ ?_ rfl hcourse' ?_ ?_).of_step (a := .consumer false) rfl
      (step_consumer hreceiver s.resultChannel { s.consumer with pc := .top }
        (by simp [Consumer.step, hpc]))
    · exact hreceiver
    · exact hstop
    · exact hne
    · exact hready
  | top => exact canProgress_consumer_top hreceiver hstop hpc hcourse hne hready
  | drain => exact canProgress_drainChannel hreceiver hpc hcourse hne hready
  | deadline =>
    have hwaiting := hcourse.waiting (Or.inl hpc)
    exact canProgress_deadline hreceiver (Or.inl hpc)
      (hready.resolve_right (by simp [hwaiting.1]))
  | recv =>
    have hwaiting := hcourse.waiting (Or.inr hpc)
    exact canProgress_deadline hreceiver (Or.inr hpc)
      (hready.resolve_right (by simp [hwaiting.1]))
  | disconnected => exact absurd hpc hcourse.alive.1
  | panicked => exact absurd hpc hcourse.alive.2

end Consumer

/-! ### The halt -/

/-- The channel of the work queue is full, and every worker waits for room in it. -/
def Wedged (cfg : Config S R) (s : RunState S R N) : Prop :=
  cfg.capacity ≤ s.specChannel.length ∧ ∀ i, (s.workers i).inSend = true

/-- A step that keeps the pace: no worker begins a push while the channel is full and every other
worker waits for room in it. -/
def Paced (cfg : Config S R) (s : RunState S R N) : Action N → Prop
  | .worker i _ => (s.workers i).beginsPush = true →
      ¬ (cfg.capacity ≤ s.specChannel.length ∧ ∀ j, j ≠ i → (s.workers j).inSend = true)
  | _ => True

/-- The states that a run can reach by steps that keep the pace. -/
def PacedReaches (cfg : Config S R) : RunState S R N → RunState S R N → Prop :=
  Relation.ReflTransGen fun s s' => ∃ a, s.Paced cfg a ∧ s.step cfg a = some s'

theorem PacedReaches.reaches (h : PacedReaches cfg s s') : Reaches cfg s s' := by
  induction h with
  | refl => exact Relation.ReflTransGen.refl
  | tail _ hs ih =>
    obtain ⟨a, -, ha⟩ := hs
    exact Relation.ReflTransGen.tail ih ⟨a, ha⟩

/-- A request that is blocked: one of the two channels is full. -/
theorem full_of_perform {item : Weighted S} {op : WorkerOp S R}
    (h : s.perform cfg false item op = none) :
    (∃ weighted, op = .sendSpec weighted ∧ cfg.capacity ≤ s.specChannel.length) ∨
      cfg.capacity ≤ s.resultChannel.length := by
  cases op with
  | sendSpec weighted =>
    simp only [perform, Bool.false_and, Bool.false_eq_true, ↓reduceIte] at h
    split_ifs at h with hroom
    exact Or.inl ⟨weighted, rfl, Nat.le_of_not_lt hroom⟩
  | sendResult ordered =>
    simp only [perform] at h
    split_ifs at h with hreceiver hroom
    exact Or.inr (Nat.le_of_not_lt hroom)
  | _ => simp [perform] at h

/-- A worker whose request is not blocked can go on. -/
theorem canProgress_request {i : Fin N} {item : Weighted S} {op : WorkerOp S R}
    {k : Bool → WorkerProgram S R Unit} (hi : s.workers i = .running item (.ask op k))
    (hopen : s.perform cfg false item op ≠ none) : s.CanProgress cfg := by
  obtain ⟨⟨s₁, answer⟩, hperform⟩ := Option.ne_none_iff_exists'.mp hopen
  have hs : s.step cfg (.worker i false) =
      some (s₁.setWorker i (.resume item (k answer))) := by
    simp only [step, stepWorker, hi, hperform]
  refine .of_progress rfl hs ?_
  right; right; right; right
  exact ⟨i, false, rfl, by simp [hi, Worker.program]⟩

/-- What a worker that processes an item is about to do. -/
theorem Accounted.exists_request (h : s.Accounted) {i : Fin N}
    (hi : (s.workers i).program ≠ none) :
    ∃ item op k, s.workers i = .running item (.ask op k) := by
  cases hw : s.workers i with
  | running item p =>
    obtain ⟨ph, hp⟩ := h.disciplined i item p hw
    cases p with
    | done u => exact absurd rfl (hp.ne_done u)
    | ask op k => exact ⟨item, op, k, rfl⟩
  | _ => simp [hw, Worker.program] at hi

/-- **A run that is not wedged can go on or is done.** -/
theorem final_or_canProgress (hN : 0 < N) (h : s.OnTrack) (hstop : s.stop = false)
    (hwedged : ¬ s.Wedged cfg) : s.Final ∨ s.CanProgress cfg := by
  by_contra hhalt
  obtain ⟨hfinal, hno⟩ := not_or.mp hhalt
  have hcourse := h.course.onCourse
  -- the consumer has nothing to receive, so a blocked worker waits for the work queue
  have hresults : s.resultChannel = [] := by
    by_contra hne
    exact hno (canProgress_consumer h.course.receiver hstop hcourse (Or.inl hne))
  have hblocked (i : Fin N) (hi : (s.workers i).program ≠ none) :
      cfg.capacity ≤ s.specChannel.length ∧ (s.workers i).inSend = true := by
    obtain ⟨item, op, k, hrun⟩ := h.accounted.exists_request hi
    have hperform : s.perform cfg false item op = none := by
      by_contra hopen
      exact hno (canProgress_request hrun hopen)
    rcases full_of_perform hperform with ⟨weighted, rfl, hfull⟩ | hfull
    · exact ⟨hfull, by rw [hrun]; rfl⟩
    · rw [hresults] at hfull
      exact absurd cfg.capacity_pos (Nat.not_lt.mpr hfull)
  by_cases hqueue : s.specChannel ++ s.receiveBuffer = []
  · -- nothing waits in the work queue, so no worker is blocked
    obtain ⟨hspec, hbuffer⟩ := List.append_eq_nil_iff.mp hqueue
    have hidle (i : Fin N) : (s.workers i).program = none := by
      by_contra hi
      have hfull := (hblocked i hi).1
      rw [hspec] at hfull
      exact absurd cfg.capacity_pos (Nat.not_lt.mpr hfull)
    have hproc : s.processing = [] :=
      Pool.gather_eq_nil_iff.mpr fun i => Worker.item_of_program (hidle i)
    have hpush : s.toPush = [] :=
      Pool.gather_eq_nil_iff.mpr fun i => Worker.toPush_of_program (hidle i)
    have hsend : s.toSend = [] :=
      Pool.gather_eq_nil_iff.mpr fun i => Worker.toSend_of_program (hidle i)
    have hscheduled := h.accounted.scheduled_perm
    have htaken := h.accounted.taken_perm
    rw [hspec, hbuffer, List.append_nil, List.append_nil] at hscheduled
    rw [hproc, List.append_nil] at htaken
    by_cases hhand : s.consumer.iter.receiveBuffer = []
    · refine hfinal ⟨(hscheduled.trans htaken).symm, ?_⟩
      have hdelivered := h.delivered
      rw [Consumer.atHand, hresults, hhand, List.append_nil, List.append_nil] at hdelivered
      exact hdelivered.symm
    · -- all that is outstanding is in the receive buffer, and with it the result looked for
      have hne : s.consumer.iter.orderedMatcher.isNone = false := by
        by_contra hnone
        have hnil := hcourse.outstanding_eq_nil (by simpa using hnone)
        simp only [Consumer.outstanding, Consumer.atHand, List.append_eq_nil_iff,
          List.map_eq_nil_iff] at hnil
        exact hhand hnil.2.2
      have hmem := hcourse.lookingFor_mem hne
      simp only [Consumer.outstanding, Consumer.atHand, rest, unstarted, hpush, hspec, hbuffer,
        hsend, hresults, List.nil_append, List.map_nil] at hmem
      obtain ⟨o, ho, hpath⟩ := List.mem_map.mp hmem
      have htop := hcourse.topMatches_of_mem ho (IndexPath.ext_indices hpath)
      exact hno (canProgress_consumer h.course.receiver hstop hcourse (Or.inr htop))
  · have hpending : s.pendingCount ≠ 0 := by
      intro hzero
      obtain ⟨hspec, hbuffer, -⟩ := h.accounted.idle_of_zero hzero
      exact hqueue (by rw [hspec, hbuffer]; rfl)
    -- some worker is not blocked in a send, and it has not returned
    obtain ⟨i, hi⟩ : ∃ i, (s.workers i).program = none := by
      by_contra hall
      have hrunning (i : Fin N) : (s.workers i).program ≠ none := fun hi => hall ⟨i, hi⟩
      exact hwedged ⟨(hblocked ⟨0, hN⟩ (hrunning _)).1, fun i => (hblocked i (hrunning i)).2⟩
    have halive : (s.workers i).hasReturned = false := by
      by_contra hret
      exact hpending (h.accounted.returned hstop i (by simpa using hret))
    exact hno (canProgress_next hstop hi halive hpending hqueue)

/-! ### How a halt comes about -/

/-- A step of a paced run does not lead into a halt. -/
theorem not_wedged_of_paced (hwork : ∀ weighted, Disciplined .plain (cfg.work weighted))
    (hacc : s.Accounted) {a : Action N} (hpaced : s.Paced cfg a) (hs : s.step cfg a = some s')
    (hwedged : ¬ s.Wedged cfg) : ¬ s'.Wedged cfg := by
  rintro ⟨hfull, hall⟩
  cases move_of_step hs with
  | advance i fail w hi hw halive hreturn =>
    have hsend := hall i
    rw [setWorker_workers_self, Worker.inSend_of_program hw] at hsend
    simp at hsend
  | receive i fail w weighted channel hi hw halive hreturn hchannel =>
    have hsend : ((s.setWorker i w).workers i).inSend = true := hall i
    rw [setWorker_workers_self, Worker.inSend_of_program hw] at hsend
    simp at hsend
  | take i fail weighted buffer hi halive hchannel hpop =>
    have hsend : ((s.setWorker i (.resume weighted (cfg.work weighted))).workers i).inSend =
      true := hall i
    rw [setWorker_workers_self, Worker.inSend_resume (hwork weighted) (by simp)] at hsend
    simp at hsend
  | request i fail item op k s₁ answer hi hperformed =>
    obtain ⟨ph, hp⟩ := hacc.disciplined i item _ hi
    have hsend := hall i
    rw [setWorker_workers_self] at hsend
    -- only the first request of a push is followed by a send
    obtain rfl : op = .fetchAdd := by
      by_contra hop
      rw [Worker.inSend_of_request hp hop] at hsend
      simp at hsend
    cases hperformed with
    | fetchAdd =>
      refine hpaced (by rw [hi]; rfl) ⟨hfull, fun j hj => ?_⟩
      have hother := hall j
      rwa [setWorker_workers_of_ne hj] at hother
  | consume expired channel consumer hreceiver hstep => exact hwedged ⟨hfull, hall⟩
  | dropSenders hreturned => exact hwedged ⟨hfull, hall⟩
  | stop => exact hwedged ⟨hfull, hall⟩
  | dropReceiver hstop => exact hwedged ⟨hfull, hall⟩

/-- A step that does not keep the pace leads into a halt. -/
theorem wedged_of_not_paced (hacc : s.Accounted) {a : Action N} (hpaced : ¬ s.Paced cfg a)
    (hs : s.step cfg a = some s') : s'.Wedged cfg := by
  cases a with
  | worker i fail =>
    simp only [Paced, Classical.not_imp, not_not] at hpaced
    obtain ⟨hbegins, hfull, hothers⟩ := hpaced
    obtain ⟨item, k, hi⟩ := Worker.exists_of_beginsPush hbegins
    obtain ⟨ph, hp⟩ := hacc.disciplined i item _ hi
    have hs' : s' = setWorker { s with pendingCount := s.pendingCount + 1 } i
        (.resume item (k true)) := by
      simp only [step, stepWorker, hi, perform] at hs
      exact (Option.some.inj hs).symm
    rw [hs']
    refine ⟨hfull, fun j => ?_⟩
    by_cases hj : j = i
    · rw [hj, setWorker_workers_self]
      exact Worker.inSend_of_fetchAdd hp
    · rw [setWorker_workers_of_ne hj]
      exact hothers j hj
  | _ => simp [Paced] at hpaced

/-- How much the consumer can still do on its own. -/
def slack (s : RunState S R N) : ℕ :=
  s.resultChannel.length + (s.consumer.atHand s.resultChannel).length

/-- The consumer only takes results out of the channel. -/
theorem length_of_consumer_step {stop gone expired : Bool} {channel channel' : List (Ordered R)}
    {c c' : Consumer R} (hs : c.step stop gone expired channel = some (channel', c')) :
    channel'.length ≤ channel.length := by
  have hdrain (after : Consumer R → Consumer R) :
      (Consumer.drainChannel after channel c).1.length ≤ channel.length := by
    unfold Consumer.drainChannel
    split_ifs
    · cases channel <;> simp
    · exact Nat.le_refl _
  unfold Consumer.step at hs
  cases hpc : c.pc with
  | top =>
    simp only [hpc] at hs
    split_ifs at hs <;> simp_all
  | drain =>
    have hchannel : (Consumer.drainChannel Consumer.afterDrain channel c).1 = channel' :=
      congrArg Prod.fst (Option.some.inj (by simpa [hpc] using hs))
    rw [← hchannel]
    exact hdrain _
  | disconnected =>
    have hchannel : (Consumer.drainChannel Consumer.afterDisconnect channel c).1 = channel' :=
      congrArg Prod.fst (Option.some.inj (by simpa [hpc] using hs))
    rw [← hchannel]
    exact hdrain _
  | recv =>
    simp only [hpc] at hs
    cases channel with
    | nil => simp_all
    | cons o channel =>
      obtain ⟨rfl, -⟩ := Prod.mk.inj (Option.some.inj hs)
      simp
  | panicked => simp [hpc] at hs
  | _ => simp_all

/-- No worker of a wedged run can take a step. -/
theorem Wedged.stepWorker (hsends : cfg.sendsMayFail = false) (hwedged : s.Wedged cfg) (i : Fin N)
    (fail : Bool) : s.stepWorker cfg i fail = none := by
  obtain ⟨hfull, hall⟩ := hwedged
  have hi := hall i
  cases hw : s.workers i with
  | running item p =>
    cases p with
    | done u => simp [RunState.stepWorker, hw]
    | ask op k =>
      rw [hw] at hi
      cases op with
      | sendSpec weighted =>
        simp [RunState.stepWorker, hw, perform, hsends, Nat.not_lt.mpr hfull]
      | _ => simp [Worker.inSend] at hi
  | _ => simp [hw, Worker.inSend] at hi

/-- In a wedged run only the consumer can take a step. It leaves the run wedged, and what it does
uses up the results at hand. -/
theorem Wedged.threadStep (hN : 0 < N) (hsound : cfg.Sound) (h : s.OnTrack)
    (hstop : s.stop = false) (hwedged : s.Wedged cfg) {a : Action N} (ha : a.ofThread = true)
    (hs : s.step cfg a = some s') :
    s'.Wedged cfg ∧ s'.stop = false ∧ s'.slack ≤ s.slack ∧
      (Progress s a s' → s'.slack < s.slack) := by
  cases move_of_step hs with
  | consume expired channel consumer hreceiver hstep =>
    have hle := length_of_consumer_step hstep
    rw [hstop] at hstep
    obtain ⟨-, heffect⟩ := h.course.onCourse.step
      (fun hgone => h.course.rest_eq_nil h.accounted hN hstop (by simpa using hgone)) hstep
    have hhand : (consumer.atHand channel).length ≤
        (s.consumer.atHand s.resultChannel).length ∧
        ((consumer.atHand channel).length = (s.consumer.atHand s.resultChannel).length ∨
          (consumer.atHand channel).length < (s.consumer.atHand s.resultChannel).length) := by
      cases heffect with
      | quiet hnexts hmatcher hperm => exact ⟨hperm.length_eq.ge, Or.inl hperm.length_eq.symm⟩
      | finish hnexts hnone hmatcher hperm =>
        exact ⟨hperm.length_eq.ge, Or.inl hperm.length_eq.symm⟩
      | handOut o F hnexts hperm hbefore hafter =>
        have hlength := hperm.length_eq
        rw [List.length_cons] at hlength
        exact ⟨by omega, Or.inr (by omega)⟩
    refine ⟨hwedged, hstop, ?_, fun hprogress => ?_⟩
    · simp only [slack]
      omega
    · simp only [Progress, ne_eq, not_true_eq_false, false_or, reduceCtorEq, false_and,
        exists_false, or_false] at hprogress
      simp only [slack, Consumer.atHand, List.length_append] at hhand ⊢
      omega
  | advance i fail w => simp [step, hwedged.stepWorker hsound.sends] at hs
  | receive i fail w => simp [step, hwedged.stepWorker hsound.sends] at hs
  | take i fail weighted => simp [step, hwedged.stepWorker hsound.sends] at hs
  | request i fail item => simp [step, hwedged.stepWorker hsound.sends] at hs
  | _ => simp [Action.ofThread] at ha

/-- A wedged run is not done: its workers process items. -/
theorem Wedged.not_final (hN : 0 < N) (h : s.Accounted) (hwedged : s.Wedged cfg) : ¬ s.Final := by
  rintro ⟨hcompleted, -⟩
  have hproc : s.processing ≠ [] := by
    have hsend := hwedged.2 ⟨0, hN⟩
    cases hw : s.workers ⟨0, hN⟩ with
    | running item p => exact processing_ne_nil hw
    | _ => simp [hw, Worker.inSend] at hsend
  have hpos := List.length_pos_of_ne_nil hproc
  have hscheduled := h.scheduled_perm.length_eq
  have htaken := h.taken_perm.length_eq
  have hlength := hcompleted.length_eq
  simp only [List.length_append] at hscheduled htaken
  omega

/-- Progress in a wedged run leads to a wedged run with fewer results at hand. -/
theorem Wedged.lt_of_canProgress (hN : 0 < N) (hsound : cfg.Sound) (h : s.OnTrack)
    (hstop : s.stop = false) (hwedged : s.Wedged cfg) (hprogress : s.CanProgress cfg) :
    ∃ s', Reaches cfg s s' ∧ s'.OnTrack ∧ s'.stop = false ∧ s'.Wedged cfg ∧
      s'.slack < s.slack := by
  obtain ⟨s₁, a, s₂, hreach, ha, hstep, hmoves⟩ := hprogress
  have hquiet : Reaches cfg s s₁ ∧ s₁.OnTrack ∧ s₁.stop = false ∧ s₁.Wedged cfg ∧
      s₁.slack ≤ s.slack := by
    clear hmoves hstep
    induction hreach with
    | refl => exact ⟨Relation.ReflTransGen.refl, h, hstop, hwedged, Nat.le_refl _⟩
    | tail _ hs ih =>
      obtain ⟨b, hb, hbs⟩ := hs
      obtain ⟨hr, ht, hst, hw, hle⟩ := ih
      obtain ⟨hw', hst', hle', -⟩ := hw.threadStep hN hsound ht hst hb hbs
      exact ⟨hr.tail ⟨b, hbs⟩, ht.step hN hsound ⟨b, hbs⟩ hst', hst', hw', hle'.trans hle⟩
  obtain ⟨hr, ht, hst, hw, hle⟩ := hquiet
  obtain ⟨hw', hst', -, hlt⟩ := hw.threadStep hN hsound ht hst ha hstep
  exact ⟨s₂, hr.tail ⟨a, hstep⟩, ht.step hN hsound ⟨a, hstep⟩ hst', hst', hw',
    (hlt hmoves).trans_le hle⟩

/-- From a wedged state a run comes to a halt. -/
theorem Wedged.exists_halt (hN : 0 < N) (hsound : cfg.Sound) (h : s.OnTrack)
    (hstop : s.stop = false) (hwedged : s.Wedged cfg) :
    ∃ s', Reaches cfg s s' ∧ s'.stop = false ∧ ¬ (s'.Final ∨ s'.CanProgress cfg) := by
  -- the results that the consumer has at hand become fewer
  obtain ⟨s', hreach, ⟨htrack, hst, hw⟩, hhalt⟩ : ∃ s', Reaches cfg s s' ∧
      (s'.OnTrack ∧ s'.stop = false ∧ s'.Wedged cfg) ∧ ¬ s'.CanProgress cfg := by
    refine Reachability.exists_of_measure slack ?_ ⟨h, hstop, hwedged⟩
    rintro t ⟨ht, htstop, htwedged⟩
    by_cases hprogress : t.CanProgress cfg
    · obtain ⟨u, hreach, hu, hust, huw, hlt⟩ :=
        htwedged.lt_of_canProgress hN hsound ht htstop hprogress
      exact Or.inr ⟨u, hreach, ⟨hu, hust, huw⟩, hlt⟩
    · exact Or.inl hprogress
  exact ⟨s', hreach, hst, not_or.mpr ⟨hw.not_final hN htrack.accounted, hhalt⟩⟩

/-- A paced run from one root is never wedged. -/
theorem not_wedged_of_pacedReaches (hN : 0 < N) (hsound : cfg.Sound) {root : Weighted S}
    {maxReceiveBufferSize : ℕ} (h : PacedReaches cfg (init N [root] maxReceiveBufferSize) s) :
    ¬ s.Wedged cfg := by
  induction h with
  | refl =>
    rintro ⟨-, hall⟩
    simpa [init, Worker.inSend] using hall ⟨0, hN⟩
  | tail hreach hs ih =>
    obtain ⟨a, hpaced, ha⟩ := hs
    exact not_wedged_of_paced hsound.disciplined
      (accounted_of_reaches hsound.disciplined (PacedReaches.reaches hreach)) hpaced ha ih

/-- **Exactly the steps that do not keep the pace endanger a run.** In every run of a walk from one
root whose steps keep the pace, every state that is not stopped is done or can make progress. From
every step of a run that does not keep the pace, a state can be reached in which the walk is neither
done nor able to make progress. -/
theorem progress_of_paced {B E : Type} [Inhabited E] (os : IndexPath → OperatingSystem)
    (opts : WalkDirOptions B E) (capacity : ℕ) (hcapacity : 0 < capacity) (hN : 0 < N)
    (spec : ReadDirSpec B) (maxReceiveBufferSize : ℕ) :
    (∀ s : RunState (ReadDirSpec B) (ReadDirResult B E) N,
      PacedReaches (Config.walk (walkCallback os opts) capacity hcapacity false)
        (init N (rootItems [spec]) maxReceiveBufferSize) s → s.stop = false →
      s.Final ∨ s.CanProgress (Config.walk (walkCallback os opts) capacity hcapacity false)) ∧
    (∀ (s s' : RunState (ReadDirSpec B) (ReadDirResult B E) N) (a : Action N),
      Reaches (Config.walk (walkCallback os opts) capacity hcapacity false)
        (init N (rootItems [spec]) maxReceiveBufferSize) s →
      s.step (Config.walk (walkCallback os opts) capacity hcapacity false) a = some s' →
      s'.stop = false →
      ¬ s.Paced (Config.walk (walkCallback os opts) capacity hcapacity false) a →
      ∃ s'', Reaches (Config.walk (walkCallback os opts) capacity hcapacity false) s' s'' ∧
        s''.stop = false ∧ ¬ (s''.Final ∨
          s''.CanProgress (Config.walk (walkCallback os opts) capacity hcapacity false))) := by
  have hsound := Config.sound_walk (E := E) os opts capacity hcapacity
  refine ⟨fun s h hstop => ?_, fun s s' a h hs hstop hpaced => ?_⟩
  · exact final_or_canProgress hN (onTrack_of_reaches hN hsound rfl h.reaches hstop) hstop
      (not_wedged_of_pacedReaches hN hsound h)
  · have hacc := accounted_of_reaches hsound.disciplined h
    have htrack := onTrack_of_reaches hN hsound rfl (h.tail ⟨a, hs⟩) hstop
    exact (wedged_of_not_paced hacc hpaced hs).exists_halt hN hsound htrack hstop

/-- A Linux where the directory `r` has two subdirectories and nothing else exists. -/
def twoSubdirsLinux : LinuxCalls :=
  .listing fun path =>
    if path = ⟨[.normal [114]]⟩ then ⟨[(DT_DIR, [97]), (DT_DIR, [98])], none⟩ else ⟨[], none⟩

/-- The walk of `r` over channels of a given capacity. -/
def wideWalk (capacity : ℕ) (hcapacity : 0 < capacity) :
    Config (ReadDirSpec Unit) (ReadDirResult Unit Unit) :=
  Config.walk (walkCallback (fun _ => .linux twoSubdirsLinux)
    (WalkDirOptions.new : WalkDirOptions Unit Unit)) capacity hcapacity false

/-- The walk of `r` over channels for one item. -/
def narrowWalk : Config (ReadDirSpec Unit) (ReadDirResult Unit Unit) := wideWalk 1 Nat.one_pos

/-- The start of the walk of `r`. -/
def narrowStart (N : ℕ) : RunState (ReadDirSpec Unit) (ReadDirResult Unit Unit) N :=
  init N (rootItems [⟨0, ⟨[.normal [114]]⟩, (), none⟩]) 0

/-- The statement above for the walk of `r` by one worker over channels for one item: its start can
make progress, and a halt can be reached from its second push. -/
theorem progress_of_paced_one_worker :
    ((narrowStart 1).Final ∨ (narrowStart 1).CanProgress narrowWalk) ∧
    ∃ s, Reaches narrowWalk (narrowStart 1) s ∧ ¬ (s.Final ∨ s.CanProgress narrowWalk) := by
  obtain ⟨hpaced, hunpaced⟩ := progress_of_paced (fun _ => .linux twoSubdirsLinux)
    (WalkDirOptions.new : WalkDirOptions Unit Unit) 1 Nat.one_pos Nat.one_pos
    ⟨0, ⟨[.normal [114]]⟩, (), none⟩ 0
  refine ⟨hpaced (narrowStart 1) Relation.ReflTransGen.refl rfl, ?_⟩
  obtain ⟨s, s', hrun, hs, hstop, hbegins, hfull⟩ : ∃ s s',
      (narrowStart 1).run narrowWalk (List.replicate 9 (.worker 0 false)) = some s ∧
      s.step narrowWalk (.worker 0 false) = some s' ∧ s'.stop = false ∧
      (s.workers 0).beginsPush = true ∧ 1 ≤ s.specChannel.length :=
    ⟨_, _, rfl, rfl, rfl, rfl, Nat.le_refl _⟩
  have hnot : ¬ s.Paced narrowWalk (.worker 0 false) := fun h =>
    h hbegins ⟨hfull, fun j hj => absurd (Subsingleton.elim j 0) hj⟩
  have hreach := reaches_of_run hrun
  obtain ⟨s'', hreach', -, hhalt⟩ := hunpaced s s' _ hreach hs hstop hnot
  exact ⟨s'', (hreach.tail ⟨_, hs⟩).trans hreach', hhalt⟩

/-- The walk of a directory with two subdirectories by one worker over channels for one item comes
to a halt: the worker waits for room in the channel that only it receives from. -/
theorem halt_two_subdirs :
    ∃ s, Reaches narrowWalk (narrowStart 1) s ∧ s.stop = false ∧ s.completed = [] ∧
      ¬ (s.Final ∨ s.CanProgress narrowWalk) := by
  obtain ⟨s, hrun, hstop, hcompleted, hfull, hsend, hslack⟩ : ∃ s,
      (narrowStart 1).run narrowWalk (List.replicate 10 (.worker 0 false)) = some s ∧
      s.stop = false ∧ s.completed = [] ∧ 1 ≤ s.specChannel.length ∧
      (s.workers 0).inSend = true ∧ s.slack = 0 :=
    ⟨_, rfl, rfl, rfl, Nat.le_refl _, rfl, rfl⟩
  have hsound : narrowWalk.Sound := Config.sound_walk _ _ 1 Nat.one_pos
  have hreach := reaches_of_run hrun
  have htrack : s.OnTrack := onTrack_of_reaches Nat.one_pos hsound rfl hreach hstop
  have hwedged : s.Wedged narrowWalk :=
    ⟨hfull, fun i => by rw [Subsingleton.elim i 0]; exact hsend⟩
  refine ⟨s, hreach, hstop, hcompleted, not_or.mpr ⟨hwedged.not_final Nat.one_pos htrack.accounted,
    fun hprogress => ?_⟩⟩
  obtain ⟨s', -, -, -, -, hlt⟩ :=
    hwedged.lt_of_canProgress Nat.one_pos hsound htrack hstop hprogress
  omega

end RunState

end JwalkMeta
