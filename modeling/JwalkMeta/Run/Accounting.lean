import JwalkMeta.Run.System

/-!
# The count of pending items

`pending_count` decides when a walk ends: a worker that finds the channel drained, the heap empty
and the count at zero returns. The count is right because a push counts the item before it sends
it, and because each worker completes its item once, as the last thing it does with it. The second
fact is a property of the worker's program (`Disciplined`), whatever the core callback does and
whatever the environment answers.

## Main definitions

* `Disciplined`: the programs that complete their item exactly once and push as `push` does.
* `RunState.Accounted`: the invariant, an exact account of `pending_count` and of the records.

## Main results

* `disciplined_multiThreadedWalkDir`: the worker's program is disciplined.
* `RunState.pendingCount_account`: the work queue ends only when all work is done.
-/

namespace JwalkMeta

open Interaction

variable {S R : Type} {N : ℕ}

/-! ### Disciplined programs -/

/-- Where a program stands with respect to a push. -/
inductive Phase
  /-- Outside of a push. -/
  | plain
  /-- The item has been counted and is about to be sent. -/
  | counted
  /-- The send has failed, and the count is about to be taken back. -/
  | rollback
  deriving DecidableEq

/-- The phase of a program, by its next request. -/
def phase : WorkerProgram S R Unit → Phase
  | .ask (.sendSpec _) _ => .counted
  | .ask .fetchSub _ => .rollback
  | _ => .plain

/-- A program in a phase that completes its item exactly once, as its last request, and sends an
item only between the count of it and the end of the push. -/
def Disciplined : Phase → WorkerProgram S R Unit → Prop
  | .plain, .ask .completeItem k => ∀ a, k a = .done ()
  | .plain, .ask .fetchAdd k => ∀ a, Disciplined .counted (k a)
  | .plain, .ask .loadStop k => ∀ a, Disciplined .plain (k a)
  | .plain, .ask (.sendResult _) k => ∀ a, Disciplined .plain (k a)
  | .counted, .ask (.sendSpec _) k => Disciplined .plain (k true) ∧ Disciplined .rollback (k false)
  | .rollback, .ask .fetchSub k => ∀ a, Disciplined .plain (k a)
  | _, _ => False

theorem Disciplined.phase_eq {ph : Phase} {p : WorkerProgram S R Unit} (h : Disciplined ph p) :
    phase p = ph := by
  cases p with
  | done u => cases ph <;> exact h.elim
  | ask op k => cases op <;> cases ph <;> first | rfl | exact h.elim

theorem Disciplined.ne_done {ph : Phase} {p : WorkerProgram S R Unit} (h : Disciplined ph p)
    (u : Unit) : p ≠ .done u := by
  rintro rfl
  cases ph <;> exact h.elim

/-- A program after which a disciplined program may stand. -/
def Neutral {α : Type} (p : WorkerProgram S R α) : Prop :=
  ∀ f : α → WorkerProgram S R Unit, (∀ a, Disciplined .plain (f a)) → Disciplined .plain (p >>= f)

theorem neutral_pure {α : Type} (a : α) : Neutral (pure a : WorkerProgram S R α) :=
  fun _ hf => hf a

theorem Neutral.bind {α β : Type} {p : WorkerProgram S R α} {g : α → WorkerProgram S R β}
    (hp : Neutral p) (hg : ∀ a, Neutral (g a)) : Neutral (p >>= g) := by
  intro f hf
  rw [Interaction.bind_assoc]
  exact hp _ fun a => hg a f hf

theorem neutral_loadStop : Neutral (request .loadStop : WorkerProgram S R Bool) :=
  fun _ hf a => hf a

theorem neutral_sendResult (ordered : Ordered R) :
    Neutral (request (.sendResult ordered) : WorkerProgram S R Bool) :=
  fun _ hf a => hf a

/-- A push, sent or taken back. -/
theorem neutral_push (weighted : Weighted S) :
    Neutral (push weighted : WorkerProgram S R Bool) := by
  intro f hf
  simp only [push, request_bind, ask_bind, Disciplined]
  intro _
  exact ⟨hf true, fun _ => hf false⟩

/-- Whatever the core callback asks for. -/
theorem neutral_interp {α : Type} (p : Interaction (StreamOp S) Bool α) :
    Neutral (p.interp StreamOp.handle : WorkerProgram S R α) := by
  induction p with
  | done a => exact neutral_pure a
  | ask op k ih =>
    rw [interp_ask]
    refine Neutral.bind ?_ ih
    cases op with
    | isStopped => exact neutral_loadStop
    | schedule weighted => exact neutral_push weighted

theorem neutral_scheduleAll (specs : List (Weighted S)) :
    Neutral (scheduleAll specs : WorkerProgram S R Unit) := by
  induction specs with
  | nil => exact neutral_pure ()
  | cons each rest ih =>
    refine (neutral_push each).bind fun sent => ?_
    cases sent with
    | true => exact ih
    | false => exact neutral_pure ()

/-- The last request of a worker's program. -/
theorem disciplined_completeItem :
    Disciplined .plain (request .completeItem >>= fun _ => pure () : WorkerProgram S R Unit) :=
  fun _ => rfl

/-- **The worker's program is disciplined**, for every core callback. -/
theorem disciplined_multiThreadedWalkDir {B E : Type} (callback : ReadDirCallback B E)
    (weighted : Weighted (ReadDirSpec B)) :
    Disciplined .plain (multiThreadedWalkDir callback weighted) := by
  refine neutral_loadStop _ fun stopped => ?_
  cases stopped with
  | true => exact disciplined_completeItem
  | false =>
    refine neutral_interp _ _ fun result => neutral_sendResult _ _ fun sendOk => ?_
    cases sendOk with
    | true => exact neutral_scheduleAll _ _ fun _ => disciplined_completeItem
    | false => exact disciplined_completeItem

namespace Worker

/-- A mark for a worker whose current push has been counted but has not ended. -/
def counted : Worker S R → List Unit
  | running _ program => if phase program = .plain then [] else [()]
  | _ => []

theorem item_of_program {w : Worker S R} (h : w.program = none) : w.item = [] := by
  cases w <;> first | rfl | simp [program] at h

theorem counted_of_program {w : Worker S R} (h : w.program = none) : w.counted = [] := by
  cases w <;> first | rfl | simp [program] at h

/-- A worker that goes on with a disciplined program still processes its item. -/
theorem resume_of_disciplined {ph : Phase} {p : WorkerProgram S R Unit} (h : Disciplined ph p)
    (item : Weighted S) : resume item p = running item p := by
  cases p with
  | done u => exact absurd rfl (h.ne_done u)
  | ask op k => rfl

/-- The mark of a worker in the middle of a disciplined program. -/
theorem counted_running {ph : Phase} {p : WorkerProgram S R Unit} (h : Disciplined ph p)
    (item : Weighted S) : (running item p).counted = if ph = .plain then [] else [()] := by
  rw [counted, h.phase_eq]

end Worker

namespace RunState

/-- The items that are being processed. -/
def processing (s : RunState S R N) : List (Weighted S) := Pool.gather Worker.item s.workers

/-- One mark for each push that has been counted but has not ended. -/
def counted (s : RunState S R N) : List Unit := Pool.gather Worker.counted s.workers

/-- An exact account of the pending items: in the channel, in the heap, being processed, or in a
push. -/
structure Accounted (s : RunState S R N) : Prop where
  disciplined : ∀ i item p, s.workers i = .running item p → ∃ ph, Disciplined ph p
  pendingCount_eq : s.pendingCount = (s.specChannel.length + s.receiveBuffer.length +
    s.processing.length + s.counted.length : ℕ)
  scheduled_perm : s.scheduled.Perm (s.taken ++ (s.specChannel ++ s.receiveBuffer))
  taken_perm : s.taken.Perm (s.completed ++ s.processing)
  returned : s.stop = false → ∀ i, (s.workers i).hasReturned = true → s.pendingCount = 0

theorem accounted_init (items : List (Weighted S)) (maxReceiveBufferSize : ℕ) :
    Accounted (init N items maxReceiveBufferSize : RunState S R N) := by
  have hp : (init N items maxReceiveBufferSize : RunState S R N).processing = [] :=
    Pool.gather_eq_nil_iff.mpr fun _ => rfl
  have hc : (init N items maxReceiveBufferSize : RunState S R N).counted = [] :=
    Pool.gather_eq_nil_iff.mpr fun _ => rfl
  refine ⟨?_, ?_, ?_, ?_, ?_⟩
  · intro i item p h
    simp [init] at h
  · rw [hp, hc]
    simp [init]
  · simp [init]
  · rw [hp]
    simp [init]
  · intro _ i h
    simp [init, Worker.hasReturned] at h

variable {cfg : Config S R} {s s' : RunState S R N}

/-- With nothing pending no worker processes an item. -/
theorem Accounted.idle_of_zero (h : s.Accounted) (hzero : s.pendingCount = 0) :
    s.specChannel = [] ∧ s.receiveBuffer = [] ∧ s.processing = [] := by
  have hsum := h.pendingCount_eq
  rw [hzero] at hsum
  refine ⟨?_, ?_, ?_⟩ <;> refine List.length_eq_zero_iff.mp ?_ <;> omega

/-- A worker that processes an item has its item among those that are being processed. -/
theorem processing_ne_nil {i : Fin N} {item : Weighted S} {p : WorkerProgram S R Unit}
    (hi : s.workers i = .running item p) : s.processing ≠ [] := by
  intro hnil
  have := Pool.gather_eq_nil_iff.mp hnil i
  simp [hi, Worker.item] at this

/-- The workers after one of them has changed its place in `next`. -/
theorem disciplined_update {w : Worker S R} {i : Fin N}
    (h : ∀ i item p, s.workers i = .running item p → ∃ ph, Disciplined ph p)
    (hw : ∀ item p, w = .running item p → ∃ ph, Disciplined ph p) :
    ∀ j item p, (s.setWorker i w).workers j = .running item p → ∃ ph, Disciplined ph p := by
  intro j item p hj
  by_cases hji : j = i
  · rw [hji, setWorker_workers_self] at hj
    exact hw item p hj
  · rw [setWorker_workers_of_ne hji] at hj
    exact h j item p hj

/-- A worker inside `next` changes its place, and the queue moves items towards the heap. -/
theorem Accounted.of_next (h : s.Accounted) {i : Fin N} {w : Worker S R}
    {channel buffer : List (Weighted S)} (hi : (s.workers i).program = none)
    (hw : w.program = none) (hreturn : w.hasReturned = true → s.stop = true ∨ s.pendingCount = 0)
    (hmoved : (s.specChannel ++ s.receiveBuffer).Perm (channel ++ buffer)) :
    Accounted { s.setWorker i w with specChannel := channel, receiveBuffer := buffer } := by
  have hproc : Pool.gather Worker.item (Function.update s.workers i w) = s.processing :=
    Pool.gather_update_of_eq _ _ _ (by rw [Worker.item_of_program hi, Worker.item_of_program hw])
  have hcount : Pool.gather Worker.counted (Function.update s.workers i w) = s.counted :=
    Pool.gather_update_of_eq _ _ _
      (by rw [Worker.counted_of_program hi, Worker.counted_of_program hw])
  refine ⟨?_, ?_, ?_, ?_, ?_⟩
  · refine disciplined_update h.disciplined fun item p hrun => ?_
    simp [hrun, Worker.program] at hw
  · have hlen := hmoved.length_eq
    simp only [List.length_append] at hlen
    simp only [processing, counted, setWorker, hproc, hcount, ← hlen]
    exact h.pendingCount_eq
  · exact h.scheduled_perm.trans (hmoved.append_left _)
  · simp only [processing, setWorker, hproc]
    exact h.taken_perm
  · intro hstop j hj
    by_cases hji : j = i
    · rw [hji] at hj
      simp only [setWorker_workers_self] at hj
      exact (hreturn hj).resolve_left (by simpa [setWorker] using hstop)
    · simp only [setWorker_workers_of_ne hji] at hj
      exact h.returned hstop j hj

/-- A worker takes an item from the heap. -/
theorem Accounted.of_take (hwork : ∀ weighted, Disciplined .plain (cfg.work weighted))
    (h : s.Accounted) {i : Fin N} {weighted : Weighted S} {buffer : List (Weighted S)}
    (hi : (s.workers i).program = none)
    (hpop : BinaryHeap.pop s.receiveBuffer = some (weighted, buffer)) :
    Accounted { s.setWorker i (.resume weighted (cfg.work weighted)) with
      receiveBuffer := buffer
      taken := s.taken ++ [weighted] } := by
  have hbuffer := BinaryHeap.pop_perm hpop
  rw [Worker.resume_of_disciplined (hwork weighted)]
  obtain ⟨rest, hbefore, hafter⟩ := Pool.gather_update Worker.item s.workers i
  rw [Worker.item_of_program hi, List.nil_append] at hbefore
  have hproc : (Pool.gather Worker.item (Function.update s.workers i
      (.running weighted (cfg.work weighted)))).Perm (weighted :: s.processing) :=
    (hafter _).trans (hbefore.symm.cons weighted)
  have hcount : Pool.gather Worker.counted (Function.update s.workers i
      (.running weighted (cfg.work weighted))) = s.counted :=
    Pool.gather_update_of_eq _ _ _
      (by rw [Worker.counted_of_program hi, Worker.counted_running (hwork weighted)]; rfl)
  refine ⟨?_, ?_, ?_, ?_, ?_⟩
  · refine disciplined_update h.disciplined fun item p hrun => ?_
    obtain ⟨-, rfl⟩ := Worker.running.inj hrun
    exact ⟨_, hwork weighted⟩
  · have hlen := hbuffer.length_eq
    have hlen' := hproc.length_eq
    have hsum := h.pendingCount_eq
    simp only [List.length_cons] at hlen hlen'
    simp only [processing, counted, setWorker, hcount]
    simp only [processing, counted] at hsum hlen'
    omega
  · refine h.scheduled_perm.trans ?_
    simp only [setWorker, List.append_assoc, List.singleton_append]
    refine List.Perm.append_left _ ?_
    exact (hbuffer.append_left _).trans List.perm_middle
  · simp only [processing, setWorker]
    refine (h.taken_perm.append_right _).trans ?_
    rw [List.append_assoc]
    refine List.Perm.append_left _ (List.perm_append_comm.trans ?_)
    exact hproc.symm
  · intro hstop j hj
    by_cases hji : j = i
    · rw [hji] at hj
      simp [Worker.hasReturned] at hj
    · simp only [setWorker_workers_of_ne hji] at hj
      have hzero := h.returned hstop j hj
      have hnil := (h.idle_of_zero hzero).2.1
      simp [hnil, BinaryHeap.pop_eq_none_iff.mpr] at hpop

/-- While a worker processes an item, something is pending, so no worker has returned. -/
theorem Accounted.not_returned (h : s.Accounted) {i : Fin N} {item : Weighted S}
    {p : WorkerProgram S R Unit} (hi : s.workers i = .running item p) (hstop : s.stop = false)
    (j : Fin N) : (s.workers j).hasReturned = false := by
  by_contra hj
  have hzero := h.returned hstop j (by simpa using hj)
  exact processing_ne_nil hi (h.idle_of_zero hzero).2.2

/-- A request after which the worker goes on with its item. -/
theorem Accounted.of_request (h : s.Accounted) {i : Fin N} {item : Weighted S}
    {p p' : WorkerProgram S R Unit} {ph ph' : Phase} (hi : s.workers i = .running item p)
    (hp : Disciplined ph p) (hp' : Disciplined ph' p') (hworkers : s'.workers = s.workers)
    (hstop : s'.stop = s.stop) (hbuffer : s'.receiveBuffer = s.receiveBuffer)
    (htaken : s'.taken = s.taken) (hcompleted : s'.completed = s.completed)
    (hscheduled : s'.scheduled.Perm (s'.taken ++ (s'.specChannel ++ s'.receiveBuffer)))
    (hpending : s'.pendingCount + s.specChannel.length + (if ph = .plain then 0 else 1 : ℕ) =
      s.pendingCount + s'.specChannel.length + (if ph' = .plain then 0 else 1 : ℕ)) :
    Accounted (s'.setWorker i (.resume item p')) := by
  rw [Worker.resume_of_disciplined hp']
  have hproc : Pool.gather Worker.item (Function.update s.workers i (.running item p')) =
      s.processing :=
    Pool.gather_update_of_eq _ _ _ (by rw [hi]; rfl)
  obtain ⟨rest, hbefore, hafter⟩ := Pool.gather_update Worker.counted s.workers i
  rw [hi, Worker.counted_running hp] at hbefore
  have hcount := hafter (.running item p')
  rw [Worker.counted_running hp'] at hcount
  refine ⟨?_, ?_, hscheduled, ?_, ?_⟩
  · refine disciplined_update (hworkers ▸ h.disciplined) fun item' q hrun => ?_
    obtain ⟨-, rfl⟩ := Worker.running.inj hrun
    exact ⟨_, hp'⟩
  · have hsum := h.pendingCount_eq
    have hlen := hbefore.length_eq
    have hlen' := hcount.length_eq
    simp only [processing, counted, setWorker, hworkers, hbuffer] at hproc hsum hlen hlen' ⊢
    rw [hproc]
    simp only [List.length_append] at hlen hlen'
    split_ifs at hpending hlen hlen' <;> simp only [List.length_nil, List.length_singleton]
      at hlen hlen' <;> omega
  · simp only [processing, setWorker, hworkers, htaken, hcompleted] at hproc ⊢
    rw [hproc]
    exact h.taken_perm
  · intro hns j hj
    by_cases hji : j = i
    · rw [hji] at hj
      simp [Worker.hasReturned] at hj
    · rw [setWorker_workers_of_ne hji, hworkers] at hj
      rw [h.not_returned hi (hstop ▸ hns) j] at hj
      simp at hj

/-- The last request of a worker: its item is completed. -/
theorem Accounted.of_complete (h : s.Accounted) {i : Fin N} {item : Weighted S}
    {p : WorkerProgram S R Unit} (hi : s.workers i = .running item p)
    (hp : Disciplined .plain p) :
    Accounted (setWorker { s with
      pendingCount := s.pendingCount - 1
      completed := s.completed ++ [item] } i .locking) := by
  obtain ⟨rest, hbefore, hafter⟩ := Pool.gather_update Worker.item s.workers i
  rw [hi] at hbefore
  have hproc : s.processing.Perm (item :: Pool.gather Worker.item
      (Function.update s.workers i .locking)) :=
    hbefore.trans ((hafter .locking).symm.cons item)
  have hcount : Pool.gather Worker.counted (Function.update s.workers i .locking) = s.counted :=
    Pool.gather_update_of_eq _ _ _ (by rw [hi, Worker.counted_running hp]; rfl)
  refine ⟨?_, ?_, h.scheduled_perm, ?_, ?_⟩
  · refine disciplined_update h.disciplined fun item' q hrun => ?_
    simp at hrun
  · have hsum := h.pendingCount_eq
    have hlen := hproc.length_eq
    simp only [processing, counted, setWorker, hcount, List.length_cons] at hsum hlen ⊢
    omega
  · simp only [processing, setWorker, List.append_assoc, List.singleton_append]
    exact h.taken_perm.trans (hproc.append_left _)
  · intro hns j hj
    by_cases hji : j = i
    · rw [hji] at hj
      simp [Worker.hasReturned] at hj
    · simp only [setWorker_workers_of_ne hji] at hj
      rw [h.not_returned hi hns j] at hj
      simp at hj

/-- Carrying out a request of a worker. -/
theorem Accounted.of_performed (h : s.Accounted) {i : Fin N} {item : Weighted S}
    {op : WorkerOp S R} {k : Bool → WorkerProgram S R Unit} {answer : Bool}
    (hi : s.workers i = .running item (.ask op k)) (hs : Performed cfg s item op s' answer) :
    Accounted (s'.setWorker i (.resume item (k answer))) := by
  obtain ⟨ph, hp⟩ := h.disciplined i item _ hi
  obtain rfl : phase (.ask op k) = ph := hp.phase_eq
  cases hs with
  | loadStop => exact h.of_request hi hp (hp s.stop) rfl rfl rfl rfl rfl h.scheduled_perm rfl
  | fetchAdd =>
    refine h.of_request hi hp (hp true) rfl rfl rfl rfl rfl h.scheduled_perm ?_
    simp only [phase, ↓reduceIte, reduceCtorEq]
    omega
  | sendSpec weighted hroom =>
    refine h.of_request hi hp hp.1 rfl rfl rfl rfl rfl ?_ ?_
    · simp only [List.append_assoc, List.singleton_append]
      refine List.perm_append_comm.trans ?_
      refine (h.scheduled_perm.cons weighted).trans ?_
      rw [← List.append_assoc, ← List.append_assoc]
      exact List.perm_middle.symm
    · simp only [phase, List.length_append, List.length_singleton, ↓reduceIte, reduceCtorEq]
      omega
  | sendSpecFailed weighted hfail =>
    exact h.of_request hi hp hp.2 rfl rfl rfl rfl rfl h.scheduled_perm rfl
  | fetchSub =>
    refine h.of_request hi hp (hp true) rfl rfl rfl rfl rfl h.scheduled_perm ?_
    simp only [phase, ↓reduceIte, reduceCtorEq]
    omega
  | sendResult ordered hreceiver hroom =>
    exact h.of_request hi hp (hp true) rfl rfl rfl rfl rfl h.scheduled_perm rfl
  | sendResultClosed ordered hreceiver =>
    exact h.of_request hi hp (hp false) rfl rfl rfl rfl rfl h.scheduled_perm rfl
  | completeItem =>
    rw [show k true = .done () from hp true]
    exact h.of_complete hi hp

/-- **Every step keeps the account**, by what it changes. -/
theorem Accounted.of_move (hwork : ∀ weighted, Disciplined .plain (cfg.work weighted))
    (h : s.Accounted) {a : Action N} (hmove : Move cfg s a s') : s'.Accounted := by
  cases hmove with
  | advance i fail w hi hw halive hreturn =>
    exact h.of_next hi hw hreturn (List.Perm.refl _)
  | receive i fail w weighted channel hi hw halive hreturn hchannel =>
    refine h.of_next hi hw (by simp [hreturn]) ?_
    rw [hchannel]
    exact List.perm_middle.symm
  | take i fail weighted buffer hi halive hchannel hpop => exact h.of_take hwork hi hpop
  | request i fail item op k s₁ answer hi hperformed => exact h.of_performed hi hperformed
  | consume expired channel consumer hreceiver hstep =>
    exact ⟨h.disciplined, h.pendingCount_eq, h.scheduled_perm, h.taken_perm, h.returned⟩
  | dropSenders hall =>
    exact ⟨h.disciplined, h.pendingCount_eq, h.scheduled_perm, h.taken_perm, h.returned⟩
  | stop =>
    exact ⟨h.disciplined, h.pendingCount_eq, h.scheduled_perm, h.taken_perm, by simp⟩
  | dropReceiver hstop =>
    exact ⟨h.disciplined, h.pendingCount_eq, h.scheduled_perm, h.taken_perm, h.returned⟩

theorem Accounted.step (hwork : ∀ weighted, Disciplined .plain (cfg.work weighted))
    (h : s.Accounted) (hs : Step cfg s s') : s'.Accounted := by
  obtain ⟨a, hmove⟩ := hs.move
  exact h.of_move hwork hmove

/-- Every reachable state has an exact account. -/
theorem accounted_of_reaches (hwork : ∀ weighted, Disciplined .plain (cfg.work weighted))
    {items : List (Weighted S)} {maxReceiveBufferSize : ℕ}
    (h : Reaches cfg (init N items maxReceiveBufferSize) s) : s.Accounted :=
  h.invariant (accounted_init items maxReceiveBufferSize) fun _ _ hinv hs => hinv.step hwork hs

/-- With nothing pending, no step changes the count or schedules an item. -/
theorem Accounted.ended_step (h : s.Accounted) (hzero : s.pendingCount = 0)
    (hs : Step cfg s s') : s'.pendingCount = 0 ∧ s'.scheduled = s.scheduled := by
  obtain ⟨hchannel', hbuffer, hproc⟩ := h.idle_of_zero hzero
  obtain ⟨a, hmove⟩ := hs.move
  cases hmove with
  | receive i fail w weighted channel hi hw halive hreturn hchannel => simp [hchannel'] at hchannel
  | take i fail weighted buffer hi halive hchannel hpop => simp [hbuffer] at hpop
  | request i fail item op k s₁ answer hi hperformed => exact absurd hproc (processing_ne_nil hi)
  | _ => exact ⟨hzero, rfl⟩

/-- With nothing pending, nothing is ever scheduled again. -/
theorem Accounted.ended (hwork : ∀ weighted, Disciplined .plain (cfg.work weighted))
    (h : s.Accounted) (hzero : s.pendingCount = 0) (hreach : Reaches cfg s s') :
    s'.scheduled = s.scheduled := by
  have hinv : s'.Accounted ∧ s'.pendingCount = 0 ∧ s'.scheduled = s.scheduled := by
    refine hreach.invariant
      (P := fun t => t.Accounted ∧ t.pendingCount = 0 ∧ t.scheduled = s.scheduled)
      ⟨h, hzero, rfl⟩ ?_
    rintro a b ⟨ha, hza, hsa⟩ hs
    obtain ⟨hzb, hsb⟩ := ha.ended_step hza hs
    exact ⟨ha.step hwork hs, hzb, hsb.trans hsa⟩
  exact hinv.2.2

/-- **The work queue ends only when all work is done.** In every reachable state of a walk with any
core callback, the count of pending items is not negative; each item that `next` has returned has
been completed once or is being processed; each scheduled item has been returned at most once; and
if `next` has returned `None` to some worker while the stop flag is not set, every scheduled item
has been returned and completed, no worker processes an item, and nothing is scheduled again. -/
theorem pendingCount_account {B E : Type} (callback : ReadDirCallback B E) (capacity : ℕ)
    (hcapacity : 0 < capacity) (sendsMayFail : Bool) (items : List (Weighted (ReadDirSpec B)))
    (maxReceiveBufferSize : ℕ) (s : RunState (ReadDirSpec B) (ReadDirResult B E) N)
    (h : Reaches (Config.walk callback capacity hcapacity sendsMayFail)
      (init N items maxReceiveBufferSize) s) :
    0 ≤ s.pendingCount ∧
    s.taken.Perm (s.completed ++ s.processing) ∧
    s.scheduled.Perm (s.taken ++ (s.specChannel ++ s.receiveBuffer)) ∧
    (s.stop = false → ∀ i, (s.workers i).hasReturned = true →
      s.taken.Perm s.scheduled ∧ s.completed.Perm s.scheduled ∧ s.processing = [] ∧
      ∀ s', Reaches (Config.walk callback capacity hcapacity sendsMayFail) s s' →
        s'.scheduled = s.scheduled) := by
  have hwork := disciplined_multiThreadedWalkDir callback
  have hinv := accounted_of_reaches hwork h
  refine ⟨?_, hinv.taken_perm, hinv.scheduled_perm, fun hstop i hi => ?_⟩
  · rw [hinv.pendingCount_eq]
    exact Int.natCast_nonneg _
  · have hzero := hinv.returned hstop i hi
    obtain ⟨hchannel, hbuffer, hproc⟩ := hinv.idle_of_zero hzero
    have htaken := hinv.scheduled_perm
    have hcompleted := hinv.taken_perm
    rw [hchannel, hbuffer, List.append_nil, List.append_nil] at htaken
    rw [hproc, List.append_nil] at hcompleted
    exact ⟨htaken.symm, (htaken.trans hcompleted).symm, hproc, fun s' hs' =>
      hinv.ended hwork hzero hs'⟩

/-- The walk over channels for three items of a directory with two empty subdirectories. -/
def twoReadsWalk : Config (ReadDirSpec Unit) (ReadDirResult Unit Unit) :=
  Config.walk (fun spec _ =>
    let subdir (name : OsString) : DirEntry Unit :=
      .fromRaw (spec.depth + 1) spec.path none none name (.unix S_IFDIR) none
    pure (.ok (.new () (if spec.depth = 0 then [.ok (subdir [97]), .ok (subdir [98])] else []))))
    3 (Nat.succ_pos 2) false

/-- The account of a run of two workers on this directory, while both of them process an item, and
at its end. -/
theorem pendingCount_account_two_subdirs :
    ∃ s s' : RunState (ReadDirSpec Unit) (ReadDirResult Unit Unit) 2,
      Reaches twoReadsWalk s s' ∧ s.processing.length = 2 ∧ 0 ≤ s.pendingCount ∧
      s.taken.Perm (s.completed ++ s.processing) ∧
      s.scheduled.Perm (s.taken ++ (s.specChannel ++ s.receiveBuffer)) ∧
      (s'.workers 0).hasReturned = true ∧ s'.scheduled.length = 3 ∧
      s'.completed.Perm s'.scheduled ∧ s'.processing = [] := by
  -- the first worker schedules both subdirectories, the second one takes one of them
  obtain ⟨s, hrun, hboth, s', hrun', hstop, hreturned, hlength⟩ : ∃ s,
      run twoReadsWalk (init 2 (rootItems [⟨0, ⟨[.normal [114]]⟩, (), none⟩]) 0)
        (List.replicate 9 (.worker 0 false) ++ List.replicate 5 (.worker 1 false)) = some s ∧
      s.processing.length = 2 ∧
      ∃ s', run twoReadsWalk s (List.replicate 2 (.worker 1 false) ++
          List.replicate 13 (.worker 0 false)) = some s' ∧
        s'.stop = false ∧ (s'.workers 0).hasReturned = true ∧ s'.scheduled.length = 3 :=
    ⟨_, rfl, rfl, _, rfl, rfl, rfl, rfl⟩
  obtain ⟨hnonneg, htaken, hscheduled, -⟩ :=
    pendingCount_account _ 3 (Nat.succ_pos 2) false _ 0 s (reaches_of_run hrun)
  obtain ⟨-, -, -, hend⟩ := pendingCount_account _ 3 (Nat.succ_pos 2) false _ 0 s'
    ((reaches_of_run hrun).trans (reaches_of_run hrun'))
  obtain ⟨-, hcompleted, hprocessing, -⟩ := hend hstop 0 hreturned
  exact ⟨s, s', reaches_of_run hrun', hboth, hnonneg, htaken, hscheduled, hreturned, hlength,
    hcompleted, hprocessing⟩

end RunState

end JwalkMeta
