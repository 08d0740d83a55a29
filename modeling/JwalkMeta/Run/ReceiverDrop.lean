import JwalkMeta.Run.Shutdown
import Mathlib.Algebra.Order.BigOperators.Group.Finset

/-!
# The receiver of the work queue is dropped

`par_bridge` fuses the iterator of the work queue and drops it when it yields `None` for the first
time. After the drop of the `DirEntryIter` the first worker that returns thus takes the receiver of
the work queue with it, and every send that waits for room in the channel, or comes later, fails.
So the workers can wait for ever only if none of them returns: if all of them wait for room at once.

This can come about if every worker has a push ahead of it at the drop, and the pushes other than
one for each worker fill the channel.

Source: `src/core/priority_queue.rs`, `src/core/read_dir_iter.rs`.

## Main definitions

* `RunState.specReceiver`: whether the receiver of the work queue is alive.
* `RunState.FusedReaches`: the interleavings in which sends fail once it is gone.
* `RunState.Jams`: when all workers can come to wait at once.

## Main results

* `RunState.released_fused_iff`: when the drop releases every worker in such runs.
* `RunState.not_released_nested_fused`: a drop that releases none.
-/

namespace JwalkMeta

open Interaction

variable {S R : Type} {N : ℕ}

/-- The action, with the failure of a send to the work queue asked for or not. -/
def Action.failing (fails : Bool) : Action N → Action N
  | worker i _ => worker i fails
  | a => a

/-- A configuration in which sends do not fail. -/
def Config.plain (cfg : Config S R) : Config S R := { cfg with sendsMayFail := false }

namespace RunState

variable {cfg : Config S R} {s s' t t' : RunState S R N}

/-! ### Runs in which the receiver is dropped -/

/-- Whether the receiver of the work queue is alive: no worker has got `None` yet. -/
def specReceiver (s : RunState S R N) : Bool := decide (∀ i, (s.workers i).hasReturned = false)

/-- One state follows another, where sends to the work queue fail if its receiver is gone. -/
def FusedStep (cfg : Config S R) (s s' : RunState S R N) : Prop :=
  ∃ a : Action N, s.step cfg (a.failing !s.specReceiver) = some s'

/-- The states that such a run can reach. -/
def FusedReaches (cfg : Config S R) : RunState S R N → RunState S R N → Prop :=
  Relation.ReflTransGen (FusedStep cfg)

/-- No worker can take a step in such a run. -/
def FusedStuck (cfg : Config S R) (s : RunState S R N) : Prop :=
  ∀ i, s.stepWorker cfg i (!s.specReceiver) = none

theorem FusedStep.step (h : FusedStep cfg s s') : Step cfg s s' := by
  obtain ⟨a, ha⟩ := h
  exact ⟨_, ha⟩

theorem FusedReaches.reaches (h : FusedReaches cfg s s') : Reaches cfg s s' :=
  Relation.ReflTransGen.mono (fun _ _ => FusedStep.step) _ _ h

/-- A step does not bring the receiver back. -/
theorem specReceiver_of_step (h : Step cfg s s') (halive : s'.specReceiver = true) :
    s.specReceiver = true := by
  have halive' : ∀ i, (s'.workers i).hasReturned = false := of_decide_eq_true halive
  refine decide_eq_true fun j => ?_
  obtain ⟨a, ha⟩ := h
  cases a with
  | worker i fail =>
    by_cases hj : j = i
    · -- a worker that has returned takes no step
      rw [hj]
      cases hw : s.workers i with
      | returned => simp [RunState.step, stepWorker, hw] at ha
      | _ => rfl
    · rw [← (inNext_of_stepWorker (i := i) ha).1 j hj]
      exact halive' j
  | _ =>
    cases move_of_step ha
    exact halive' j

theorem specReceiver_of_reaches (h : Reaches cfg s s') (halive : s'.specReceiver = true) :
    s.specReceiver = true := by
  induction h using Relation.ReflTransGen.head_induction_on with
  | refl => exact halive
  | head hstep _ ih => exact specReceiver_of_step hstep ih

/-- A list of actions in which no send is made to fail, and no worker returns, is such a run. -/
theorem fusedReaches_of_run {actions : List (Action N)}
    (hplain : ∀ a ∈ actions, a.failing false = a) (h : s.run cfg actions = some s')
    (halive : s'.specReceiver = true) : FusedReaches cfg s s' := by
  induction actions generalizing s with
  | nil =>
    obtain rfl := Option.some.inj h
    exact Relation.ReflTransGen.refl
  | cons a actions ih =>
    cases hs : s.step cfg a with
    | none => simp [run, hs] at h
    | some t =>
      simp only [run, hs] at h
      have hreach := ih (fun b hb => hplain b (List.mem_cons_of_mem a hb)) h
      have hreach' : Reaches cfg s s' := Relation.ReflTransGen.head ⟨a, hs⟩ hreach.reaches
      have halive' := specReceiver_of_reaches hreach' halive
      refine Relation.ReflTransGen.head ⟨a, ?_⟩ hreach
      rw [halive', Bool.not_true, hplain a List.mem_cons_self]
      exact hs

/-- A worker whose sends do not fail takes the same steps in a configuration where none do. -/
theorem stepWorker_plain (i : Fin N) :
    s.stepWorker cfg.plain i false = s.stepWorker cfg i false := by
  unfold stepWorker
  cases s.workers i with
  | running item program =>
    cases program with
    | done u => rfl
    | ask op k => cases op <;> rfl
  | _ => rfl

/-! ### Waiting all at once -/

/-- Every worker has a push ahead of it, and the pushes other than one for each worker fill the
channel. -/
structure Jams (cfg : Config S R) (s : RunState S R N) : Prop where
  ahead : ∀ i, 0 < (s.workers i).lastPushes.length
  full : cfg.capacity + N ≤ s.specChannel.length + s.pushesAhead.length

/-- A worker with a push ahead of it processes an item. -/
theorem exists_request {w : Worker S R} (hw : 0 < w.lastPushes.length) :
    ∃ item op k, w = .running item (.ask op k) := by
  cases w with
  | running item program =>
    cases program with
    | done u => simp [Worker.lastPushes, Worker.lastPlan, pushes] at hw
    | ask op k => exact ⟨item, op, k, rfl⟩
  | _ => simp [Worker.lastPushes, Worker.lastPlan, pushes] at hw

theorem hasReturned_of_ahead {w : Worker S R} (hw : 0 < w.lastPushes.length) :
    w.hasReturned = false := by
  obtain ⟨item, op, k, rfl⟩ := exists_request hw
  rfl

theorem specReceiver_of_ahead (h : ∀ i, 0 < (s.workers i).lastPushes.length) :
    s.specReceiver = true :=
  decide_eq_true fun i => hasReturned_of_ahead (h i)

/-- If every worker has a push ahead of it, there are at least as many as workers. -/
theorem le_pushesAhead (h : ∀ i, 0 < (s.workers i).lastPushes.length) :
    N ≤ s.pushesAhead.length := by
  have hsum : ∑ _i : Fin N, 1 ≤ ∑ i, (s.workers i).lastPushes.length :=
    Finset.sum_le_sum fun i _ => h i
  rw [pushesAhead, Pool.length_gather]
  simpa using hsum

/-- If every worker has just one push ahead of it, there are as many as workers. -/
theorem pushesAhead_eq (h : ∀ i, (s.workers i).lastPushes.length = 1) :
    s.pushesAhead.length = N := by
  rw [pushesAhead, Pool.length_gather]
  simp [h]

/-- A step that leaves its worker with a push ahead of it neither puts an item into the channel
nor takes one out, but for a push. -/
theorem LateMove.ahead (hheeds : cfg.Heeds) {i : Fin N} (h : LateMove cfg s i s')
    (hpush : 0 < (s'.workers i).lastPushes.length) :
    (s'.workers i).lastPushes.length ≤ (s.workers i).lastPushes.length ∧
      s'.specChannel.length + s'.pushesAhead.length =
        s.specChannel.length + s.pushesAhead.length := by
  cases h with
  | send item weighted k hi hroom =>
    set s₁ : RunState S R N := setWorker { s with
      specChannel := s.specChannel ++ [weighted]
      scheduled := s.scheduled ++ [weighted] } i (.resume item (k true)) with hs₁
    have hchannel : s₁.specChannel.length = s.specChannel.length + 1 := by simp [hs₁, setWorker]
    have hahead := pushesAhead_send hi (t := s₁) rfl
    refine ⟨?_, by omega⟩
    rw [hi, hs₁, setWorker_workers_self, Worker.lastPushes, Worker.lastPushes,
      Worker.lastPlan_resume]
    exact Nat.le_succ _
  | request item op k s₁ hi hop hworkers hchannel =>
    have hsame : (Worker.resume item (k (dropped op))).lastPushes =
        (Worker.running item (.ask op k)).lastPushes := lastPushes_request hop
    have hahead := pushesAhead_setWorker (t := s₁.setWorker i (.resume item (k (dropped op))))
      (s := s) (i := i) (by rw [setWorker, hworkers]) (by rw [hi]; exact hsame)
    rw [setWorker_workers_self, hi, hsame, hahead]
    exact ⟨Nat.le_refl _, by rw [setWorker, hchannel]⟩
  | take hi hchannel weighted buffer =>
    simp [setWorker_workers_self, lastPushes_work hheeds] at hpush
  | drain hi weighted channel hchannel =>
    rw [hi] at hpush
    exact absurd hpush (Nat.lt_irrefl 0)
  | receive hi weighted channel hchannel =>
    rw [setWorker_workers_self] at hpush
    exact absurd hpush (Nat.lt_irrefl 0)
  | lock hi | leave hi | dry hi | finish hi | wait hi | timeout hi =>
    rw [setWorker_workers_self] at hpush
    exact absurd hpush (Nat.lt_irrefl 0)

/-- As long as all workers have a push ahead of them, and so none has returned, sends do not
fail. -/
theorem FusedStep.late (h : FusedStep cfg s s') (hlate : s.Late cfg)
    (hpush : ∀ i, 0 < (s'.workers i).lastPushes.length) :
    s'.workers = s.workers ∧ s'.specChannel = s.specChannel ∨
      ∃ i, LateMove cfg.plain s i s' ∧ ∀ j, j ≠ i → s'.workers j = s.workers j := by
  obtain ⟨a, ha⟩ := h
  cases a with
  | worker i fail =>
    have hother := (inNext_of_stepWorker (i := i) ha).1
    have halive := specReceiver_of_step ⟨_, ha⟩ (specReceiver_of_ahead hpush)
    rw [halive] at ha
    have hplain : s.stepWorker cfg.plain i false = some s' := (stepWorker_plain i).trans ha
    exact Or.inr ⟨i, lateMove_of_stepWorker rfl hlate.stop hlate.receiver hplain, hother⟩
  | consumer expired => simp [Action.failing, RunState.step, stepConsumer, hlate.receiver] at ha
  | dropSenders =>
    cases move_of_step ha with
    | dropSenders hall => exact Or.inl ⟨rfl, rfl⟩
  | stop =>
    cases move_of_step ha with
    | stop => exact Or.inl ⟨rfl, rfl⟩
  | dropReceiver =>
    cases move_of_step ha with
    | dropReceiver hstop => exact Or.inl ⟨rfl, rfl⟩

/-- **Where the workers can come to wait all at once after a step, they could before.** -/
theorem FusedStep.jams (hheeds : cfg.Heeds) (h : FusedStep cfg s s') (hlate : s.Late cfg)
    (hjams : s'.Jams cfg) : s.Jams cfg := by
  have hheeds' : cfg.plain.Heeds := hheeds
  rcases h.late hlate hjams.ahead with ⟨hworkers, hchannel⟩ | ⟨i, hmove, hother⟩
  · refine ⟨fun i => hworkers ▸ hjams.ahead i, ?_⟩
    have hfull := hjams.full
    rwa [pushesAhead, hworkers, hchannel] at hfull
  · obtain ⟨hle, hsum⟩ := hmove.ahead hheeds' (hjams.ahead i)
    refine ⟨fun j => ?_, by rw [← hsum]; exact hjams.full⟩
    by_cases hj : j = i
    · rw [hj]
      exact (hjams.ahead i).trans_le hle
    · rw [← hother j hj]
      exact hjams.ahead j

/-! ### Stuck states -/

/-- A request other than a send to the work queue is answered after the drop. -/
theorem Late.exists_step (h : s.Late cfg) {i : Fin N} {item : Weighted S} {op : WorkerOp S R}
    {k : Bool → WorkerProgram S R Unit} (hi : s.workers i = .running item (.ask op k))
    (hop : ∀ weighted, op ≠ .sendSpec weighted) (fail : Bool) :
    ∃ t, s.stepWorker cfg i fail = some t ∧ t.workers i = .resume item (k (dropped op)) := by
  simp only [stepWorker, hi]
  cases op with
  | sendSpec weighted => exact absurd rfl (hop weighted)
  | loadStop => simp [perform, h.stop, dropped]
  | sendResult ordered => simp [perform, h.receiver, dropped]
  | _ => simp [perform, dropped]

/-- In a stuck state all workers have returned, or all of them wait for room in the channel. -/
theorem Late.returned_or_jams (hsends : cfg.sendsMayFail = true) (h : s.Late cfg)
    (hstuck : s.FusedStuck cfg) : (∀ i, (s.workers i).hasReturned = true) ∨ s.Jams cfg := by
  have hfree (j : Fin N) : (s.workers j).inNext = false := by
    by_contra hj
    obtain ⟨t, ht⟩ := exists_step_of_inNext cfg (by simpa using hj) (!s.specReceiver)
    simp [hstuck j] at ht
  have hsend (i : Fin N) (hi : (s.workers i).hasReturned = false) :
      cfg.capacity ≤ s.specChannel.length ∧ 0 < (s.workers i).lastPushes.length ∧
        s.specReceiver = true := by
    have hnone := hstuck i
    cases hw : s.workers i with
    | returned => simp [hw, Worker.hasReturned] at hi
    | locking => simp [stepWorker, hw, lockFree, hfree] at hnone
    | running item p =>
      obtain ⟨ph, hp⟩ := h.accounted.disciplined i item p hw
      cases p with
      | done u => exact absurd rfl (hp.ne_done u)
      | ask op k =>
        cases op with
        | sendSpec weighted =>
          simp only [stepWorker, hw, perform] at hnone
          split_ifs at hnone with hfail hroom
          rw [hsends, Bool.and_true, Bool.not_eq_true', Bool.not_eq_false] at hfail
          exact ⟨Nat.le_of_not_lt hroom, Nat.succ_pos _, hfail⟩
        | _ =>
          obtain ⟨t, ht, -⟩ := h.exists_step hw (by simp) (!s.specReceiver)
          simp [hstuck i] at ht
    | _ =>
      have hout := hfree i
      simp [hw, Worker.inNext] at hout
  by_cases hall : ∀ i, (s.workers i).hasReturned = true
  · exact Or.inl hall
  · -- a worker that waits finds the receiver alive, so no worker has returned
    obtain ⟨i, hi⟩ := not_forall.mp hall
    obtain ⟨hfull, -, halive⟩ := hsend i (by simpa using hi)
    have hpush (j : Fin N) := (hsend j (of_decide_eq_true halive j)).2.1
    exact Or.inr ⟨hpush, Nat.add_le_add hfull (le_pushesAhead hpush)⟩

/-- If a run leaves a worker waiting for ever, all of them can come to wait at once: the state in
which they do is traced back. -/
theorem Late.jams_of_stuck (hsends : cfg.sendsMayFail = true)
    (hwork : ∀ weighted, Disciplined .plain (cfg.work weighted)) (hheeds : cfg.Heeds)
    (h : s.Late cfg) (hreach : FusedReaches cfg s s') (hstuck : s'.FusedStuck cfg)
    (hnot : ¬ ∀ i, (s'.workers i).hasReturned = true) : s.Jams cfg := by
  induction hreach using Relation.ReflTransGen.head_induction_on with
  | refl => exact (h.returned_or_jams hsends hstuck).resolve_left hnot
  | head hstep _ ih => exact hstep.jams hheeds h (ih (h.step hwork hstep.step))

/-- If no step leaves its worker with a push ahead of it, every worker is about to send, and there
is no room for it. -/
theorem fusedStuck_of_jams (h : s.Late cfg) (hjams : s.Jams cfg)
    (hnext : ∀ i t, s.stepWorker cfg i false = some t → ¬ 0 < (t.workers i).lastPushes.length) :
    s.FusedStuck cfg := by
  have halive := specReceiver_of_ahead hjams.ahead
  have hsend (i : Fin N) : ∃ item weighted k,
      s.workers i = .running item (.ask (.sendSpec weighted) k) := by
    obtain ⟨item, op, k, hi⟩ := exists_request (hjams.ahead i)
    by_cases hop : ∀ weighted, op ≠ .sendSpec weighted
    · obtain ⟨t, ht, hresume⟩ := h.exists_step hi hop false
      have hpush := hjams.ahead i
      rw [hi, ← lastPushes_request hop, ← hresume] at hpush
      exact absurd hpush (hnext i t ht)
    · obtain ⟨weighted, hsends⟩ := not_forall.mp hop
      obtain rfl := not_not.mp hsends
      exact ⟨item, weighted, k, hi⟩
  have hfull : cfg.capacity ≤ s.specChannel.length := by
    by_contra hroom
    -- a send would be the last one of its worker
    have hone (i : Fin N) : (s.workers i).lastPushes.length = 1 := by
      obtain ⟨item, weighted, k, hi⟩ := hsend i
      have ht : s.stepWorker cfg i false = some (setWorker { s with
          specChannel := s.specChannel ++ [weighted]
          scheduled := s.scheduled ++ [weighted] } i (.resume item (k true))) := by
        simp [stepWorker, hi, perform, Nat.lt_of_not_le hroom]
      have hzero := hnext i _ ht
      have hcons : (s.workers i).lastPushes.length =
          (Worker.resume item (k true) : Worker S R).lastPushes.length + 1 := by
        rw [hi, Worker.lastPushes, Worker.lastPushes, Worker.lastPlan_resume]
        rfl
      rw [setWorker_workers_self] at hzero
      omega
    have hload := hjams.full
    rw [pushesAhead_eq hone] at hload
    omega
  intro i
  obtain ⟨item, weighted, k, hi⟩ := hsend i
  simp [stepWorker, hi, perform, halive, Nat.not_lt_of_le hfull]

/-- Where all workers can come to wait at once, they do in some run. -/
theorem Late.exists_jam (hwork : ∀ weighted, Disciplined .plain (cfg.work weighted))
    (hheeds : cfg.Heeds) (h : s.Late cfg) (hjams : s.Jams cfg) :
    ∃ s', FusedReaches cfg s s' ∧ (s'.Late cfg ∧ s'.Jams cfg) ∧ s'.FusedStuck cfg := by
  have hheeds' : cfg.plain.Heeds := hheeds
  refine Reachability.exists_of_measure remaining ?_ ⟨h, hjams⟩
  rintro t ⟨ht, htjams⟩
  have halive := specReceiver_of_ahead htjams.ahead
  by_cases hnext : ∃ i u, t.stepWorker cfg i false = some u ∧ 0 < (u.workers i).lastPushes.length
  · -- any step that leaves its worker with a push ahead of it will do
    obtain ⟨i, u, hu, hpush⟩ := hnext
    have hstep : FusedStep cfg t u := ⟨.worker i false, by rw [halive]; exact hu⟩
    have hplain : t.stepWorker cfg.plain i false = some u := (stepWorker_plain i).trans hu
    have hmove := lateMove_of_stepWorker rfl ht.stop ht.receiver hplain
    have hsum := (hmove.ahead hheeds' hpush).2
    refine Or.inr ⟨u, .single hstep, ⟨ht.step hwork hstep.step, fun j => ?_,
      by rw [hsum]; exact htjams.full⟩, hmove.remaining_lt hheeds'⟩
    by_cases hj : j = i
    · exact hj ▸ hpush
    · rw [(inNext_of_stepWorker hu).1 j hj]
      exact htjams.ahead j
  · exact Or.inl (fusedStuck_of_jams ht htjams fun i u hu hpush => hnext ⟨i, u, hu, hpush⟩)

/-! ### The drop -/

/-- **When the drop releases every worker, if the receiver goes with the first of them.** Let the
iterator be dropped at any state of such a run from one root, with any core callback. In every state
that can be reached afterwards and in which no worker can take a step all workers have returned, if
and only if some worker has no push ahead of it at the drop, or the pushes other than one for each
worker do not fill the channel. -/
theorem released_fused_iff {B E : Type} (hN : 0 < N) (callback : ReadDirCallback B E)
    (capacity : ℕ) (hcapacity : 0 < capacity) (spec : ReadDirSpec B) (maxReceiveBufferSize : ℕ)
    (s : RunState (ReadDirSpec B) (ReadDirResult B E) N)
    (h : FusedReaches (Config.walk callback capacity hcapacity true)
      (init N (rootItems [spec]) maxReceiveBufferSize) s) :
    (∀ s', FusedReaches (Config.walk callback capacity hcapacity true) s.drop s' →
      s'.FusedStuck (Config.walk callback capacity hcapacity true) →
      ∀ i, (s'.workers i).hasReturned = true) ↔
    (∃ i, (s.workers i).lastPushes = []) ∨
      s.specChannel.length + s.pushesAhead.length < capacity + N := by
  have hwork := disciplined_multiThreadedWalkDir callback
  have hheeds := Config.heeds_walk callback capacity hcapacity true
  have hlate := late_drop hwork h.reaches
  have hcondition : s.drop.Jams (Config.walk callback capacity hcapacity true) ↔
      ¬ ((∃ i, (s.workers i).lastPushes = []) ∨
        s.specChannel.length + s.pushesAhead.length < capacity + N) := by
    rw [not_or, not_exists, Nat.not_lt]
    exact ⟨fun hjams => ⟨fun i => List.ne_nil_of_length_pos (hjams.ahead i), hjams.full⟩,
      fun ⟨hahead, hfull⟩ => ⟨fun i => List.length_pos_of_ne_nil (hahead i), hfull⟩⟩
  rw [← not_iff_not, ← hcondition]
  constructor
  · intro hnot
    push Not at hnot
    obtain ⟨s', hreach, hstuck, i, hi⟩ := hnot
    exact hlate.jams_of_stuck rfl hwork hheeds hreach hstuck fun hall => hi (hall i)
  · intro hjams hreleased
    obtain ⟨s', hreach, ⟨-, hjams'⟩, hstuck⟩ := hlate.exists_jam hwork hheeds hjams
    have hreturned := hreleased s' hreach hstuck ⟨0, hN⟩
    rw [hasReturned_of_ahead (hjams'.ahead ⟨0, hN⟩)] at hreturned
    cases hreturned

/-- In the run in which two workers come to wait at once, none has returned before: both of them
wait for ever there as well. -/
theorem not_released_nested_fused :
    ∃ s : RunState (ReadDirSpec Unit) (ReadDirResult Unit Unit) 2,
      FusedReaches (nestedWalk true) (narrowStart 2) s ∧ s.drop.FusedStuck (nestedWalk true) ∧
      ∀ i, (s.workers i).hasReturned = false := by
  obtain ⟨s, hrun, hfirst, hsecond, halive⟩ : ∃ s,
      (narrowStart 2).run (nestedWalk true) (nestedActions 0 1) = some s ∧
      s.drop.stepWorker (nestedWalk true) 0 (!s.drop.specReceiver) = none ∧
      s.drop.stepWorker (nestedWalk true) 1 (!s.drop.specReceiver) = none ∧
      s.specReceiver = true :=
    ⟨_, rfl, rfl, rfl, rfl⟩
  have hplain : ∀ a ∈ nestedActions 0 1, a.failing false = a := by decide
  exact ⟨s, fusedReaches_of_run hplain hrun halive, Fin.forall_fin_two.mpr ⟨hfirst, hsecond⟩,
    of_decide_eq_true halive⟩

end RunState

end JwalkMeta
