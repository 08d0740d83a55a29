import JwalkMeta.Run.Shutdown

/-!
# What is still done after the drop

The drop of the iterator does not interrupt a worker. A worker that processes an item carries on
with it until the next request that the drop answers differently: its loads of the stop flag, and
the send of its result. What is left of its program is known at the drop, and with it the items that
it still pushes. A worker in `next` returns, unless it had begun to drain the channel; then it may
take one more item, which it completes without reading it.

As in `JwalkMeta.Run.Shutdown` the receiver of the work queue is taken to live until the last worker
has returned, so that no send to it fails.

Source: `src/core/dir_entry_iter.rs`, `src/core/priority_queue.rs`, `src/core/read_dir_iter.rs`.

## Main definitions

* `RunState.WindsDown`: what may have changed since the drop.

## Main results

* `RunState.windsDown`: every run after the drop, with a bound on the steps of the workers.
-/

namespace JwalkMeta

open Interaction

variable {S R : Type} {N : ℕ}

/-- Whether a worker takes the step. -/
def Action.byWorker : Action N → Bool
  | worker _ _ => true
  | _ => false

/-- The items that a worker is going to push are those of its next request and those after it. -/
theorem Worker.lastPushes_running (item : Weighted S) (op : WorkerOp S R)
    (k : Bool → WorkerProgram S R Unit) :
    (running item (.ask op k)).lastPushes =
      pushes [op] ++ (resume item (k (dropped op))).lastPushes := by
  rw [lastPushes, lastPushes, lastPlan_resume, lastPlan, asked_ask]
  exact List.filterMap_append (l := [op])

namespace RunState

variable {cfg : Config S R} {s s' t t' : RunState S R N}

/-! ### One step of a worker -/

/-- A request after the drop is answered as `dropped` says, and what it sends is what it pushes. -/
theorem Performed.late (hsends : cfg.sendsMayFail = false) (hstop : s.stop = true)
    (hreceiver : s.receiver = false) {item : Weighted S} {op : WorkerOp S R} {answer : Bool}
    (h : Performed cfg s item op s' answer) :
    answer = dropped op ∧ s'.workers = s.workers ∧ s'.sent = s.sent ∧ s'.taken = s.taken ∧
      s'.scheduled = s.scheduled ++ pushes [op] := by
  cases h with
  | loadStop => exact ⟨hstop, rfl, rfl, rfl, (List.append_nil _).symm⟩
  | sendSpec weighted hroom => exact ⟨rfl, rfl, rfl, rfl, rfl⟩
  | sendSpecFailed weighted hfail => simp [hsends] at hfail
  | sendResult ordered halive hroom => simp [hreceiver] at halive
  | _ => exact ⟨rfl, rfl, rfl, rfl, (List.append_nil _).symm⟩

/-- What a step of worker `i` does after the drop, if it leaves the worker at `w`. -/
structure LateEffect (s : RunState S R N) (i : Fin N) (w : Worker S R) (s' : RunState S R N) :
    Prop where
  workers : s'.workers = Function.update s.workers i w
  sent : s'.sent = s.sent
  scheduled : ∃ new, s'.scheduled = s.scheduled ++ new ∧
    (s.workers i).lastPushes = new ++ w.lastPushes
  plan : w.lastPlan <:+ (s.workers i).lastPlan ∨ w.lastPlan = [.loadStop, .completeItem]
  draining : w.draining = true → (s.workers i).draining = true
  taken : s'.taken = s.taken ∨
    (s.workers i).draining = true ∧ w.draining = false ∧
      ∃ weighted, s'.taken = s.taken ++ [weighted]

/-- A step within `next`. -/
theorem lateEffect_next {i : Fin N} {w : Worker S R}
    (hworkers : s'.workers = Function.update s.workers i w) (hsent : s'.sent = s.sent)
    (hscheduled : s'.scheduled = s.scheduled) (htaken : s'.taken = s.taken)
    (hi : (s.workers i).lastPlan = []) (hw : w.lastPlan = [])
    (hdraining : w.draining = true → (s.workers i).draining = true) : LateEffect s i w s' where
  workers := hworkers
  sent := hsent
  scheduled := ⟨[], by rw [hscheduled, List.append_nil], by
    rw [Worker.lastPushes, Worker.lastPushes, hi, hw]; rfl⟩
  plan := Or.inl (by rw [hi, hw])
  draining := hdraining
  taken := Or.inl htaken

/-- What a step of a worker does after the drop. -/
theorem exists_lateEffect (hsends : cfg.sendsMayFail = false) (hheeds : cfg.Heeds)
    (hstop : s.stop = true) (hreceiver : s.receiver = false) {i : Fin N} {fail : Bool}
    (h : s.stepWorker cfg i fail = some s') : ∃ w, LateEffect s i w s' := by
  cases workerMove_of_stepWorker h with
  | lock hi hfree =>
    exact ⟨.top, lateEffect_next rfl rfl rfl rfl (by rw [hi]; rfl) rfl (by simp [Worker.draining])⟩
  | leave hi _ =>
    exact ⟨.returned, lateEffect_next rfl rfl rfl rfl (by rw [hi]; rfl) rfl
      (by simp [Worker.draining])⟩
  | enter hi hrunning => simp [hstop] at hrunning
  | drain hi weighted channel hchannel =>
    exact ⟨s.workers i, lateEffect_next (Function.update_eq_self i s.workers).symm rfl rfl rfl
      (by rw [hi]; rfl) (by rw [hi]; rfl) id⟩
  | take hi hchannel weighted buffer _ =>
    refine ⟨.resume weighted (cfg.work weighted), rfl, rfl, ⟨[], (List.append_nil _).symm, ?_⟩,
      Or.inr ?_, fun hw => ?_, Or.inr ⟨by rw [hi]; rfl, Worker.draining_resume .., weighted, rfl⟩⟩
    · rw [lastPushes_work hheeds, hi]
      rfl
    · rw [Worker.lastPlan_resume, hheeds]
    · simp [Worker.draining_resume] at hw
  | dry hi hchannel =>
    exact ⟨.checkPending, lateEffect_next rfl rfl rfl rfl (by rw [hi]; rfl) rfl
      (by simp [Worker.draining])⟩
  | finish hi hzero =>
    exact ⟨.returned, lateEffect_next rfl rfl rfl rfl (by rw [hi]; rfl) rfl
      (by simp [Worker.draining])⟩
  | wait hi hpending =>
    exact ⟨.wait, lateEffect_next rfl rfl rfl rfl (by rw [hi]; rfl) rfl (by simp [Worker.draining])⟩
  | receive hi weighted channel hchannel =>
    exact ⟨.top, lateEffect_next rfl rfl rfl rfl (by rw [hi]; rfl) rfl (by simp [Worker.draining])⟩
  | timeout hi hchannel =>
    exact ⟨.top, lateEffect_next rfl rfl rfl rfl (by rw [hi]; rfl) rfl (by simp [Worker.draining])⟩
  | request item op k s₁ answer hi hperformed =>
    obtain ⟨rfl, hworkers, hsent, htaken, hscheduled⟩ := hperformed.late hsends hstop hreceiver
    refine ⟨.resume item (k (dropped op)), by rw [setWorker, hworkers], hsent,
      ⟨pushes [op], hscheduled, by rw [hi, Worker.lastPushes_running]⟩, Or.inl ?_, fun hw => ?_,
      Or.inl htaken⟩
    · rw [Worker.lastPlan_resume, hi]
      exact List.suffix_cons op _
    · simp [Worker.draining_resume] at hw

/-! ### Runs -/

/-- What may have changed from `s` to `s'` since the iterator was dropped. -/
structure WindsDown (s s' : RunState S R N) : Prop where
  /-- No result is sent. -/
  sent : s'.sent = s.sent
  /-- The items that are scheduled are the pushes that lay ahead. -/
  scheduled : (s'.scheduled ++ s'.pushesAhead).Perm (s.scheduled ++ s.pushesAhead)
  /-- A worker goes on with its item, or completes another one without reading it. -/
  plan : ∀ i, (s'.workers i).lastPlan <:+ (s.workers i).lastPlan ∨
    (s'.workers i).lastPlan <:+ [.loadStop, .completeItem]
  /-- No worker begins to drain the channel. -/
  draining : ∀ i, (s'.workers i).draining = true → (s.workers i).draining = true
  /-- At most one item is taken, by a worker that drained the channel at the drop. -/
  taken : s'.taken = s.taken ∨
    (∃ i, (s.workers i).draining = true) ∧ (∀ i, (s'.workers i).draining = false) ∧
      ∃ weighted, s'.taken = s.taken ++ [weighted]

/-- A step of a worker turns pushes that lie ahead into scheduled items. -/
theorem LateEffect.perm {i : Fin N} {w : Worker S R} (h : LateEffect s i w s') :
    (s'.scheduled ++ s'.pushesAhead).Perm (s.scheduled ++ s.pushesAhead) := by
  obtain ⟨new, hscheduled, hpushes⟩ := h.scheduled
  obtain ⟨rest, hbefore, hafter⟩ := Pool.gather_update Worker.lastPushes s.workers i
  have hahead : (new ++ s'.pushesAhead).Perm s.pushesAhead := by
    rw [pushesAhead, h.workers]
    refine ((hafter w).append_left new).trans ?_
    rw [← List.append_assoc, ← hpushes]
    exact hbefore.symm
  rw [hscheduled, List.append_assoc]
  exact hahead.append_left s.scheduled

/-- Every step of a worker after the drop. -/
theorem WindsDown.stepWorker (h : s.WindsDown t) (hexclusive : t.Exclusive) {i : Fin N}
    {w : Worker S R} (heffect : LateEffect t i w t') : s.WindsDown t' := by
  have hself : t'.workers i = w := by rw [heffect.workers, Function.update_self]
  have hother {j : Fin N} (hj : j ≠ i) : t'.workers j = t.workers j := by
    rw [heffect.workers, Function.update_of_ne hj]
  have hdraining (j : Fin N) (hj : (t'.workers j).draining = true) :
      (t.workers j).draining = true := by
    by_cases hji : j = i
    · rw [hji, hself] at hj
      exact hji ▸ heffect.draining hj
    · rwa [hother hji] at hj
  refine ⟨heffect.sent.trans h.sent, heffect.perm.trans h.scheduled, fun j => ?_,
    fun j hj => h.draining j (hdraining j hj), ?_⟩
  · by_cases hji : j = i
    · rw [hji, hself]
      rcases heffect.plan with hsuffix | hlate
      · exact (h.plan i).imp hsuffix.trans hsuffix.trans
      · exact Or.inr (by rw [hlate])
    · rw [hother hji]
      exact h.plan j
  · rcases heffect.taken with hsame | ⟨hi, hw, weighted, htaken⟩
    · rw [hsame]
      refine h.taken.imp id fun ⟨hbefore, hnone, hone⟩ => ⟨hbefore, fun j => ?_, hone⟩
      by_contra hj
      simpa [hnone j] using hdraining j (by simpa using hj)
    · -- worker `i` is the one that drains, so no item has been taken yet
      rcases h.taken with hbefore | ⟨-, hnone, -⟩
      · refine Or.inr ⟨⟨i, h.draining i hi⟩, fun j => ?_, weighted, by rw [htaken, hbefore]⟩
        by_cases hji : j = i
        · rw [hji, hself, hw]
        · by_contra hj
          have hnext := Worker.inNext_of_draining (hdraining j (by simpa using hj))
          exact hji (hexclusive j i hnext (Worker.inNext_of_draining hi))
      · simp [hnone i] at hi

/-- Every step after the drop, and the steps that the workers have ahead of them. -/
theorem WindsDown.step (hsends : cfg.sendsMayFail = false) (hheeds : cfg.Heeds)
    (h : s.WindsDown t) (hlate : t.Late cfg) {a : Action N} (ha : t.step cfg a = some t') :
    s.WindsDown t' ∧ (if a.byWorker then 1 else 0) + t'.remaining ≤ t.remaining := by
  cases a with
  | worker i fail =>
    obtain ⟨w, heffect⟩ := exists_lateEffect hsends hheeds hlate.stop hlate.receiver ha
    have hlt := (lateMove_of_stepWorker hsends hlate.stop hlate.receiver ha).remaining_lt hheeds
    refine ⟨h.stepWorker hlate.exclusive heffect, ?_⟩
    simp only [Action.byWorker, if_true]
    omega
  | consumer expired => simp [RunState.step, stepConsumer, hlate.receiver] at ha
  | dropSenders =>
    cases move_of_step ha with
    | dropSenders hall => exact ⟨⟨h.1, h.2, h.3, h.4, h.5⟩, (Nat.zero_add _).le⟩
  | stop =>
    cases move_of_step ha with
    | stop => exact ⟨⟨h.1, h.2, h.3, h.4, h.5⟩, (Nat.zero_add _).le⟩
  | dropReceiver =>
    cases move_of_step ha with
    | dropReceiver hstop => exact ⟨⟨h.1, h.2, h.3, h.4, h.5⟩, (Nat.zero_add _).le⟩

/-- Every run after the drop. -/
theorem WindsDown.run (hsends : cfg.sendsMayFail = false)
    (hwork : ∀ weighted, Disciplined .plain (cfg.work weighted)) (hheeds : cfg.Heeds)
    {actions : List (Action N)} (h : s.WindsDown t) (hlate : t.Late cfg)
    (hrun : t.run cfg actions = some t') :
    s.WindsDown t' ∧ actions.countP Action.byWorker + t'.remaining ≤ t.remaining := by
  induction actions generalizing t with
  | nil =>
    obtain rfl := Option.some.inj hrun
    exact ⟨h, (Nat.zero_add _).le⟩
  | cons a actions ih =>
    cases ha : t.step cfg a with
    | none => simp [RunState.run, ha] at hrun
    | some t₁ =>
      obtain ⟨hfirst, hle⟩ := h.step hsends hheeds hlate ha
      obtain ⟨hrest, hle'⟩ := ih hfirst (hlate.step hwork ⟨a, ha⟩)
        (by simpa [RunState.run, ha] using hrun)
      refine ⟨hrest, ?_⟩
      rw [List.countP_cons]
      omega

/-- **What is still done after the drop.** Let the iterator be dropped at any state of a run from
one root, with any core callback, and let the receiver of the work queue live until the last worker
has returned. Whatever the order of the steps afterwards, no result is sent; the
items that are scheduled are those that the workers were going to push; no worker reads another
directory, and at most one item is taken, which only a worker does that was draining the channel at
the drop. The workers take no more steps than they had ahead of them at the drop. -/
theorem windsDown {B E : Type} (callback : ReadDirCallback B E) (capacity : ℕ)
    (hcapacity : 0 < capacity) (spec : ReadDirSpec B) (maxReceiveBufferSize : ℕ)
    (s s' : RunState (ReadDirSpec B) (ReadDirResult B E) N) (actions : List (Action N))
    (h : Reaches (Config.walk callback capacity hcapacity false)
      (init N (rootItems [spec]) maxReceiveBufferSize) s)
    (hrun : s.drop.run (Config.walk callback capacity hcapacity false) actions = some s') :
    s.WindsDown s' ∧ actions.countP Action.byWorker + s'.remaining ≤ s.remaining := by
  have hwork := disciplined_multiThreadedWalkDir callback
  have hdrop : s.WindsDown s.drop :=
    ⟨rfl, List.Perm.refl _, fun _ => Or.inl (List.suffix_refl _), fun _ => id, Or.inl rfl⟩
  exact hdrop.run rfl hwork (Config.heeds_walk callback capacity hcapacity false)
    (late_drop hwork h) hrun

/-- The statement above for a walk of `r` by two workers, dropped while one of them is in its first
push and the other one drains the channel: the push is made, and its item is taken. -/
theorem windsDown_first_push :
    ∃ s s' : RunState (ReadDirSpec Unit) (ReadDirResult Unit Unit) 2,
      s.WindsDown s' ∧ 3 + s'.remaining ≤ s.remaining ∧
      s'.scheduled.length = s.scheduled.length + 1 ∧ s'.taken.length = s.taken.length + 1 := by
  obtain ⟨s, s', hstart, hrun, hscheduled, htaken⟩ : ∃ s s',
      (narrowStart 2).run (wideWalk 2 Nat.two_pos)
        (List.replicate 7 (.worker 0 false) ++ List.replicate 2 (.worker 1 false)) = some s ∧
      s.drop.run (wideWalk 2 Nat.two_pos)
        (.worker 0 false :: List.replicate 2 (.worker 1 false)) = some s' ∧
      s'.scheduled.length = s.scheduled.length + 1 ∧ s'.taken.length = s.taken.length + 1 :=
    ⟨_, _, rfl, rfl, rfl, rfl⟩
  obtain ⟨hwinds, hremaining⟩ :=
    windsDown _ 2 Nat.two_pos _ 0 s s' _ (reaches_of_run hstart) hrun
  exact ⟨s, s', hwinds, hremaining, hscheduled, htaken⟩

end RunState

end JwalkMeta
