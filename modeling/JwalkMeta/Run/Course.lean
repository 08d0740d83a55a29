import JwalkMeta.Run.Accounting
import JwalkMeta.Run.Plan

/-!
# The course of a run

The invariant of a run that is not stopped, for programs that are planned. It relates what the
workers are going to do, the two queues and the cursor of the consumer:

* the index paths that have been taken, with their announced child reads, and those that are to be
  pushed or wait in the work queue, form a tree that is being explored;
* the index paths that have not been handed out are covered by the cursor of the consumer.

## Main definitions

* `RunState.toPush`, `RunState.toSend`: what the workers are going to push and to send.
* `RunState.Course`: the invariant.

## Main results

* `RunState.course_of_reaches`: the invariant holds in every reachable state that is not stopped.
-/

namespace JwalkMeta

open Interaction Frontier

variable {S R : Type} {N : ℕ}

namespace Worker

/-- The requests that a worker is going to make for its item. -/
def plan : Worker S R → List (WorkerOp S R)
  | running _ program => asked unstopped program
  | _ => []

/-- The items that a worker is going to push. -/
def toPush (w : Worker S R) : List (Weighted S) := pushes w.plan

/-- The result that a worker is going to send. -/
def toSend (w : Worker S R) : List (Ordered R) := results w.plan

theorem plan_of_program {w : Worker S R} (h : w.program = none) : w.plan = [] := by
  cases w <;> first | rfl | simp [program] at h

theorem toPush_of_program {w : Worker S R} (h : w.program = none) : w.toPush = [] := by
  rw [toPush, plan_of_program h]
  rfl

theorem toSend_of_program {w : Worker S R} (h : w.program = none) : w.toSend = [] := by
  rw [toSend, plan_of_program h]
  rfl

@[simp] theorem plan_resume (item : Weighted S) (p : WorkerProgram S R Unit) :
    (resume item p).plan = asked unstopped p := by
  cases p <;> rfl

/-- What a worker is going to push and send belongs to its item. -/
structure Own (w : Worker S R) : Prop where
  toPush : ∀ weighted ∈ w.toPush, ∃ item ∈ w.item, ∃ j, weighted.indexPath = item.indexPath.adding j
  toSend : ∀ ordered ∈ w.toSend, ∃ item ∈ w.item, ordered.indexPath = item.indexPath

theorem own_of_program {w : Worker S R} (h : w.program = none) : w.Own := by
  refine ⟨?_, ?_⟩
  · rw [toPush_of_program h]
    simp
  · rw [toSend_of_program h]
    simp

/-- A worker that goes on with a part of its plan. -/
theorem Own.resume {item : Weighted S} {p q : WorkerProgram S R Unit}
    (h : (running item p).Own) (hpush : pushes (asked unstopped q) ⊆ pushes (asked unstopped p))
    (hsend : results (asked unstopped q) ⊆ results (asked unstopped p)) :
    (resume item q).Own := by
  cases q with
  | done u => exact own_of_program rfl
  | ask op k =>
    exact ⟨fun weighted hw => h.toPush weighted (hpush hw), fun o ho => h.toSend o (hsend ho)⟩

/-- A worker at the start of a planned program. -/
theorem own_of_planned {item : Weighted S} {p : WorkerProgram S R Unit} {ordered : Ordered R}
    (h : Planned item (asked unstopped p) ordered) : (running item p).Own := by
  refine ⟨fun weighted hw => ?_, fun o ho => ?_⟩
  · have hmem : weighted.indexPath ∈ (pushes (asked unstopped p)).map Weighted.indexPath :=
      List.mem_map_of_mem hw
    rw [h.pushes_eq] at hmem
    obtain ⟨j, -, hj⟩ := List.mem_map.mp hmem
    exact ⟨item, List.mem_singleton_self item, j, hj.symm⟩
  · have hmem : o ∈ results (asked unstopped p) := ho
    rw [h.results_eq, List.mem_singleton] at hmem
    exact ⟨item, List.mem_singleton_self item, hmem ▸ h.indexPath_eq⟩

end Worker

namespace RunState

/-- The items that the workers are going to push. -/
def toPush (s : RunState S R N) : List (Weighted S) := Pool.gather Worker.toPush s.workers

/-- The results that the workers are going to send. -/
def toSend (s : RunState S R N) : List (Ordered R) := Pool.gather Worker.toSend s.workers

/-- The items that no worker has taken: to be pushed, in the channel, or in the heap. -/
def unstarted (s : RunState S R N) : List (Weighted S) :=
  s.toPush ++ (s.specChannel ++ s.receiveBuffer)

/-- The addresses that have not reached the result channel. -/
def rest (s : RunState S R N) : List (List ℕ) :=
  s.unstarted.map Weighted.address ++ s.toSend.map Ordered.address

/-- The addresses that have not been handed out. -/
def outstanding (s : RunState S R N) : List (List ℕ) :=
  s.consumer.outstanding s.rest s.resultChannel

/-- An address with the number of child reads that a result announces. -/
def announcement (ordered : Ordered R) : List ℕ × ℕ := (ordered.address, ordered.childCount)

/-- The invariant of a run that is not stopped. -/
structure Course (s : RunState S R N) : Prop where
  own : ∀ i, (s.workers i).Own
  /-- The taken items with their announced children, and the items that have not been taken. -/
  explored : Explored ((s.sent ++ s.toSend).map announcement) (s.unstarted.map Weighted.address)
  /-- Every taken item has sent its result or is going to. -/
  taken : (s.taken.map Weighted.address).Perm ((s.sent ++ s.toSend).map Ordered.address)
  onCourse : s.consumer.OnCourse s.rest s.resultChannel
  atHand_sent : s.consumer.atHand s.resultChannel ⊆ s.sent
  /-- The children of a result that has not been sent have not been handed out. -/
  announced : ∀ o ∈ s.toSend, ChildrenIn s.outstanding o.address o.childCount
  receiver : s.receiver = true
  senders : s.senders = false → ∀ i, (s.workers i).hasReturned = true

variable {cfg : Config S R} {s s' : RunState S R N}

/-- The addresses that are known: taken or not. -/
def known (s : RunState S R N) : List (List ℕ) :=
  ((s.sent ++ s.toSend).map announcement).map Prod.fst ++ s.unstarted.map Weighted.address

theorem rest_perm (hu : s.unstarted.Perm s'.unstarted) (ht : s.toSend.Perm s'.toSend) :
    s.rest.Perm s'.rest :=
  (hu.map _).append (ht.map _)

/-- A step that only moves items towards the heap and leaves the results as they are. -/
theorem Course.of_perm (h : s.Course) (hown : ∀ i, (s'.workers i).Own)
    (hu : s.unstarted.Perm s'.unstarted) (ht : s.toSend.Perm s'.toSend)
    (hsent : s'.sent = s.sent) (htaken : s'.taken = s.taken) (hconsumer : s'.consumer = s.consumer)
    (hchannel : s'.resultChannel = s.resultChannel) (hreceiver : s'.receiver = s.receiver)
    (hsenders : s'.senders = false → ∀ i, (s'.workers i).hasReturned = true) : s'.Course := by
  have hT : (s.sent ++ s.toSend).Perm (s'.sent ++ s'.toSend) := by
    rw [hsent]
    exact ht.append_left _
  have hrest := rest_perm hu ht
  have hO : s.outstanding.Perm s'.outstanding := by
    rw [outstanding, outstanding, hconsumer, hchannel]
    exact hrest.append_right _
  have hcourse := h.onCourse
  refine ⟨hown, h.explored.perm (hT.map _) (hu.map _), ?_, ?_, ?_, fun o ho => ?_, ?_, hsenders⟩
  · rw [htaken]
    exact h.taken.trans (hT.map _)
  · rw [hconsumer, hchannel]
    refine ⟨hcourse.wf, hcourse.covers.perm (hrest.append_right _), fun o ho => ?_,
      hcourse.waiting, hcourse.alive⟩
    exact (hcourse.announced o ho).perm (hrest.append_right _)
  · rw [hconsumer, hchannel, hsent]
    exact h.atHand_sent
  · exact (h.announced o (ht.mem_iff.mpr ho)).perm hO
  · rw [hreceiver, h.receiver]

/-- Replacing a worker by one that knows its own plan. -/
theorem own_setWorker (h : ∀ i, (s.workers i).Own) {i : Fin N} {w : Worker S R} (hw : w.Own)
    (j : Fin N) : ((s.setWorker i w).workers j).Own :=
  forall_workers_setWorker (p := Worker.Own) h hw j

/-- While some worker has not returned, the senders of the result channel are alive. -/
theorem Course.senders_alive (h : s.Course) {i : Fin N}
    (halive : (s.workers i).hasReturned = false) : s.senders ≠ false := by
  intro hs
  rw [h.senders hs i] at halive
  simp at halive

/-- A worker inside `next` changes its place, and the queue moves items towards the heap. -/
theorem Course.of_next (h : s.Course) {i : Fin N} {w : Worker S R}
    {channel buffer : List (Weighted S)} (hi : (s.workers i).program = none)
    (hw : w.program = none) (halive : (s.workers i).hasReturned = false)
    (hmoved : (s.specChannel ++ s.receiveBuffer).Perm (channel ++ buffer)) :
    Course { s.setWorker i w with specChannel := channel, receiveBuffer := buffer } := by
  have hpush : Pool.gather Worker.toPush (Function.update s.workers i w) = s.toPush :=
    Pool.gather_update_of_eq _ _ _
      (by rw [Worker.toPush_of_program hi, Worker.toPush_of_program hw])
  have hsend : Pool.gather Worker.toSend (Function.update s.workers i w) = s.toSend :=
    Pool.gather_update_of_eq _ _ _
      (by rw [Worker.toSend_of_program hi, Worker.toSend_of_program hw])
  refine h.of_perm (own_setWorker h.own (Worker.own_of_program hw)) ?_ ?_ rfl rfl rfl rfl rfl ?_
  · simp only [unstarted, toPush, setWorker, hpush]
    exact hmoved.append_left _
  · simp only [toSend, setWorker, hsend]
    exact List.Perm.refl _
  · exact fun hs => absurd hs (h.senders_alive halive)

/-- The known addresses contain the outstanding ones. -/
theorem Course.outstanding_subset (h : s.Course) : s.outstanding ⊆ s.known := by
  intro q hq
  rcases List.mem_append.mp hq with hq | hq
  · rcases List.mem_append.mp hq with hq | hq
    · exact List.mem_append_right _ hq
    · obtain ⟨o, ho, rfl⟩ := List.mem_map.mp hq
      refine List.mem_append_left _ (List.mem_map.mpr ⟨announcement o, ?_, rfl⟩)
      exact List.mem_map_of_mem (List.mem_append_right _ ho)
  · obtain ⟨o, ho, rfl⟩ := List.mem_map.mp hq
    refine List.mem_append_left _ (List.mem_map.mpr ⟨announcement o, ?_, rfl⟩)
    exact List.mem_map_of_mem (List.mem_append_left _ (h.atHand_sent ho))

/-- An item that has not been taken is not at the address of a result. -/
theorem Course.unstarted_ne (h : s.Course) {w : Weighted S} {o : Ordered R}
    (hw : w ∈ s.unstarted) (ho : o ∈ s.toSend ∨ o ∈ s.consumer.atHand s.resultChannel) :
    w.address ≠ o.address := by
  intro he
  have hnd := h.onCourse.covers.nodup
  simp only [Consumer.outstanding, rest, List.append_assoc] at hnd
  refine (List.nodup_append'.mp hnd).2.2 (List.mem_map_of_mem hw) ?_
  rw [he]
  rcases ho with ho | ho
  · exact List.mem_append_left _ (List.mem_map_of_mem ho)
  · exact List.mem_append_right _ (List.mem_map_of_mem ho)

/-- A worker that takes an item has its result to send, and its children to push. -/
theorem unstarted_of_take {i : Fin N} {weighted : Weighted S} {buffer : List (Weighted S)}
    {ordered : Ordered R} (hplan : Planned weighted (asked unstopped (cfg.work weighted)) ordered)
    (hi : (s.workers i).program = none)
    (hpop : BinaryHeap.pop s.receiveBuffer = some (weighted, buffer))
    (hs' : s' = { s.setWorker i (.resume weighted (cfg.work weighted)) with
      receiveBuffer := buffer
      taken := s.taken ++ [weighted] }) :
    ∃ U : List (List ℕ), (s.unstarted.map Weighted.address).Perm (weighted.address :: U) ∧
      (s'.unstarted.map Weighted.address).Perm
        (children weighted.address ordered.childCount ++ U) ∧
      s'.toSend.Perm (ordered :: s.toSend) := by
  subst hs'
  -- what the worker holds after the step, and what the others hold
  obtain ⟨restP, hbeforeP, hafterP⟩ := Pool.gather_update Worker.toPush s.workers i
  obtain ⟨restS, hbeforeS, hafterS⟩ := Pool.gather_update Worker.toSend s.workers i
  rw [Worker.toPush_of_program hi, List.nil_append] at hbeforeP
  rw [Worker.toSend_of_program hi, List.nil_append] at hbeforeS
  refine ⟨(s.toPush ++ (s.specChannel ++ buffer)).map Weighted.address, ?_, ?_, ?_⟩
  · have hperm : s.unstarted.Perm (weighted :: (s.toPush ++ (s.specChannel ++ buffer))) :=
      (((BinaryHeap.pop_perm hpop).append_left _).append_left _).trans
        ((List.perm_middle.append_left _).trans List.perm_middle)
    exact hperm.map _
  · rw [← hplan.map_address, ← List.map_append, ← List.append_assoc]
    refine List.Perm.map _ (List.Perm.append_right _ ((hafterP _).trans ?_))
    rw [Worker.toPush, Worker.plan_resume]
    exact hbeforeP.symm.append_left _
  · refine (hafterS _).trans ?_
    rw [Worker.toSend, Worker.plan_resume, hplan.results_eq]
    exact hbeforeS.symm.cons ordered

/-- A worker takes an item: it is explored, and its children are to be pushed. -/
theorem Course.of_take (h : s.Course) {i : Fin N} {weighted : Weighted S}
    {buffer : List (Weighted S)} {ordered : Ordered R}
    (hplan : Planned weighted (asked unstopped (cfg.work weighted)) ordered)
    (hi : (s.workers i).program = none) (halive : (s.workers i).hasReturned = false)
    (hpop : BinaryHeap.pop s.receiveBuffer = some (weighted, buffer)) :
    Course { s.setWorker i (.resume weighted (cfg.work weighted)) with
      receiveBuffer := buffer
      taken := s.taken ++ [weighted] } := by
  set s' : RunState S R N := { s.setWorker i (.resume weighted (cfg.work weighted)) with
      receiveBuffer := buffer
      taken := s.taken ++ [weighted] } with hs'
  have hwmem : weighted ∈ s.unstarted :=
    List.mem_append_right _ (List.mem_append_right _ (BinaryHeap.mem_of_pop hpop))
  obtain ⟨U, hun, hun', hsend⟩ := unstarted_of_take hplan hi hpop hs'
  have haddress : ordered.address = weighted.address :=
    congrArg IndexPath.indices hplan.indexPath_eq
  have hrest : s'.rest.Perm
      (children weighted.address ordered.childCount ++ s.rest) := by
    refine (hun'.append (hsend.map _)).trans ?_
    rw [List.append_assoc, List.map_cons, haddress]
    refine List.Perm.append_left _ (List.perm_middle.trans ?_)
    exact hun.symm.append_right _
  have hO : s'.outstanding.Perm
      (children weighted.address ordered.childCount ++ s.outstanding) := by
    refine (hrest.append_right _).trans ?_
    rw [List.append_assoc]
    exact List.Perm.refl _
  have hmem : weighted.address ∈ s.outstanding :=
    List.mem_append_left _ (List.mem_append_left _ (List.mem_map_of_mem hwmem))
  have hleaf : Leaf s.outstanding weighted.address :=
    (h.explored.leaf _ (List.mem_map_of_mem hwmem)).mono h.outstanding_subset
  have hcourse := h.onCourse
  refine ⟨own_setWorker h.own ?_, ?_, ?_, ⟨hcourse.wf, ?_, fun o ho => ?_, hcourse.waiting,
    hcourse.alive⟩, h.atHand_sent, fun o ho => ?_, h.receiver, ?_⟩
  · exact (Worker.own_of_planned hplan).resume (List.Subset.refl _) (List.Subset.refl _)
  · have hT : ((s.sent ++ s'.toSend).map announcement).Perm
        ((weighted.address, ordered.childCount) :: (s.sent ++ s.toSend).map announcement) := by
      have hperm := ((hsend.append_left s.sent).trans List.perm_middle).map announcement
      rw [List.map_cons, announcement, haddress] at hperm
      exact hperm
    exact ((h.explored.perm (List.Perm.refl _) hun).explore _).perm hT.symm hun'.symm
  · have hT : ((s.sent ++ s'.toSend).map Ordered.address).Perm
        (weighted.address :: (s.sent ++ s.toSend).map Ordered.address) := by
      have hperm := ((hsend.append_left s.sent).trans List.perm_middle).map Ordered.address
      rw [List.map_cons, haddress] at hperm
      exact hperm
    rw [hs', List.map_append]
    exact (List.perm_append_comm.trans (h.taken.cons _)).trans hT.symm
  · exact (hcourse.covers.expand hmem hleaf _).perm hO.symm
  · refine ChildrenIn.perm ?_ hO.symm
    exact (hcourse.announced o ho).expand hmem (h.unstarted_ne hwmem (Or.inr ho)) _
  · refine ChildrenIn.perm ?_ hO.symm
    rcases List.mem_cons.mp (hsend.mem_iff.mp ho) with rfl | ho
    · rw [haddress]
      exact hleaf.childrenIn _
    · exact (h.announced o ho).expand hmem (h.unstarted_ne hwmem (Or.inl ho)) _
  · exact fun hs => absurd hs (h.senders_alive halive)

/-- A request that neither pushes an item nor sends a result. -/
theorem Course.of_silent (h : s.Course) {i : Fin N} {item : Weighted S}
    {p q : WorkerProgram S R Unit} (hi : s.workers i = .running item p)
    (hpush : pushes (asked unstopped q) = pushes (asked unstopped p))
    (hsend : results (asked unstopped q) = results (asked unstopped p))
    (hworkers : s'.workers = s.workers) (hspec : s'.specChannel = s.specChannel)
    (hbuffer : s'.receiveBuffer = s.receiveBuffer) (hsent : s'.sent = s.sent)
    (htaken : s'.taken = s.taken) (hconsumer : s'.consumer = s.consumer)
    (hchannel : s'.resultChannel = s.resultChannel) (hreceiver : s'.receiver = s.receiver)
    (hsenders : s'.senders = s.senders) : Course (s'.setWorker i (.resume item q)) := by
  have hP : Pool.gather Worker.toPush (Function.update s.workers i (.resume item q)) =
      s.toPush :=
    Pool.gather_update_of_eq _ _ _ (by rw [Worker.toPush, Worker.plan_resume, hpush, hi]; rfl)
  have hS : Pool.gather Worker.toSend (Function.update s.workers i (.resume item q)) =
      s.toSend :=
    Pool.gather_update_of_eq _ _ _ (by rw [Worker.toSend, Worker.plan_resume, hsend, hi]; rfl)
  have hown : (Worker.resume item q).Own := by
    refine Worker.Own.resume (hi ▸ h.own i) ?_ ?_
    · rw [hpush]
      exact List.Subset.refl _
    · rw [hsend]
      exact List.Subset.refl _
  refine h.of_perm (own_setWorker (hworkers ▸ h.own) hown) ?_ ?_ hsent htaken hconsumer hchannel
    hreceiver fun hs => ?_
  · simp only [unstarted, toPush, setWorker, hworkers, hspec, hbuffer] at hP ⊢
    rw [hP]
  · simp only [toSend, setWorker, hworkers] at hS ⊢
    rw [hS]
  · exact absurd (hsenders ▸ hs) (h.senders_alive (i := i) (by rw [hi]; rfl))

/-- A worker pushes an item. -/
theorem Course.of_sendSpec (h : s.Course) {i : Fin N} {item weighted : Weighted S}
    {k : Bool → WorkerProgram S R Unit}
    (hi : s.workers i = .running item (.ask (.sendSpec weighted) k)) :
    Course (setWorker { s with
      specChannel := s.specChannel ++ [weighted]
      scheduled := s.scheduled ++ [weighted] } i (.resume item (k true))) := by
  obtain ⟨restP, hbefore, hafter⟩ := Pool.gather_update Worker.toPush s.workers i
  rw [hi] at hbefore
  have hS : Pool.gather Worker.toSend (Function.update s.workers i (.resume item (k true))) =
      s.toSend :=
    Pool.gather_update_of_eq _ _ _ (by rw [Worker.toSend, Worker.plan_resume, hi]; rfl)
  have hpush : s.toPush.Perm (weighted :: Pool.gather Worker.toPush
      (Function.update s.workers i (.resume item (k true)))) := by
    refine hbefore.trans (List.Perm.cons weighted ?_)
    refine List.Perm.trans ?_ (hafter _).symm
    rw [Worker.toPush, Worker.plan_resume]
    exact List.Perm.refl _
  have hown : (Worker.running item (.ask (.sendSpec weighted) k)).Own := hi ▸ h.own i
  have hown' : (Worker.resume item (k true)).Own :=
    hown.resume (List.subset_cons_self _ _) (List.Subset.refl _)
  refine h.of_perm (own_setWorker h.own hown') ?_ ?_ rfl rfl rfl rfl rfl fun hs => ?_
  · simp only [unstarted, toPush, setWorker] at hpush ⊢
    refine (hpush.append_right _).trans ?_
    simp only [List.append_assoc, List.cons_append]
    exact (List.perm_middle.symm.trans
      (List.Perm.append_left _ List.perm_middle.symm))
  · simp only [toSend, setWorker, hS]
    exact List.Perm.refl _
  · exact absurd hs (h.senders_alive (i := i) (by rw [hi]; rfl))

/-- A worker sends its result. -/
theorem Course.of_sendResult (h : s.Course) {i : Fin N} {item : Weighted S} {ordered : Ordered R}
    {k : Bool → WorkerProgram S R Unit}
    (hi : s.workers i = .running item (.ask (.sendResult ordered) k)) :
    Course (setWorker { s with
      resultChannel := s.resultChannel ++ [ordered]
      sent := s.sent ++ [ordered] } i (.resume item (k true))) := by
  set s' : RunState S R N := setWorker { s with
      resultChannel := s.resultChannel ++ [ordered]
      sent := s.sent ++ [ordered] } i (.resume item (k true))
  obtain ⟨restS, hbefore, hafter⟩ := Pool.gather_update Worker.toSend s.workers i
  rw [hi] at hbefore
  have hP : s'.toPush = s.toPush :=
    Pool.gather_update_of_eq _ _ _ (by rw [Worker.toPush, Worker.plan_resume, hi]; rfl)
  have hun : s'.unstarted = s.unstarted := by
    rw [unstarted, hP]
    rfl
  have hsend : s.toSend.Perm (ordered :: s'.toSend) := by
    refine hbefore.trans (List.Perm.cons ordered ?_)
    refine List.Perm.trans ?_ (hafter _).symm
    rw [Worker.toSend, Worker.plan_resume]
    exact List.Perm.refl _
  have hmem : ordered ∈ s.toSend := hsend.mem_iff.mpr List.mem_cons_self
  have hT : (s.sent ++ s.toSend).Perm (s'.sent ++ s'.toSend) := by
    refine (hsend.append_left _).trans ?_
    change (s.sent ++ ordered :: s'.toSend).Perm (s.sent ++ [ordered] ++ s'.toSend)
    rw [List.append_assoc]
    exact List.Perm.refl _
  have hhand : (s'.consumer.atHand s'.resultChannel).Perm
      (ordered :: s.consumer.atHand s.resultChannel) := by
    change (s.resultChannel ++ [ordered] ++ _).Perm _
    rw [List.append_assoc]
    exact List.perm_middle
  have hO : s.outstanding.Perm s'.outstanding := by
    change (s.unstarted.map _ ++ s.toSend.map _ ++ _).Perm
      (s'.unstarted.map _ ++ s'.toSend.map _ ++ _)
    rw [hun, List.append_assoc, List.append_assoc]
    refine List.Perm.append_left _ ?_
    refine ((hsend.map _).append_right _).trans ?_
    rw [List.map_cons, List.cons_append]
    refine List.perm_middle.symm.trans (List.Perm.append_left _ ?_)
    exact (hhand.map Ordered.address).symm
  have hcourse := h.onCourse
  refine ⟨own_setWorker h.own ?_, h.explored.perm (hT.map _) ?_, h.taken.trans (hT.map _),
    ⟨hcourse.wf, hcourse.covers.perm hO, fun o ho => ?_, hcourse.waiting, hcourse.alive⟩,
    fun o ho => ?_, fun o ho => ?_, h.receiver, fun hs => ?_⟩
  · have hown : (Worker.running item (.ask (.sendResult ordered) k)).Own := hi ▸ h.own i
    exact hown.resume (List.Subset.refl _) (List.subset_cons_self _ _)
  · rw [hun]
  · refine ChildrenIn.perm ?_ hO
    rcases List.mem_cons.mp (hhand.mem_iff.mp ho) with rfl | ho
    · exact h.announced o hmem
    · exact hcourse.announced o ho
  · change o ∈ s.sent ++ [ordered]
    rcases List.mem_cons.mp (hhand.mem_iff.mp ho) with rfl | ho
    · exact List.mem_append_right _ (List.mem_singleton_self _)
    · exact List.mem_append_left _ (h.atHand_sent ho)
  · exact (h.announced o (hsend.mem_iff.mpr (List.mem_cons_of_mem _ ho))).perm hO
  · exact absurd hs (h.senders_alive (i := i) (by rw [hi]; rfl))

/-- Carrying out a request of a worker in a run that is not stopped. -/
theorem Course.of_performed (hfail : cfg.sendsMayFail = false) (h : s.Course)
    (hstop : s.stop = false) {i : Fin N} {item : Weighted S} {op : WorkerOp S R}
    {k : Bool → WorkerProgram S R Unit} {answer : Bool}
    (hi : s.workers i = .running item (.ask op k)) (hs : Performed cfg s item op s' answer) :
    Course (s'.setWorker i (.resume item (k answer))) := by
  cases hs with
  | loadStop =>
    rw [hstop]
    exact h.of_silent hi rfl rfl rfl rfl rfl rfl rfl rfl rfl rfl rfl
  | sendSpec weighted hroom => exact h.of_sendSpec hi
  | sendSpecFailed weighted hfail' => simp [hfail] at hfail'
  | sendResult ordered hreceiver hroom => exact h.of_sendResult hi
  | sendResultClosed ordered hreceiver => simp [h.receiver] at hreceiver
  | _ => exact h.of_silent hi rfl rfl rfl rfl rfl rfl rfl rfl rfl rfl rfl

/-- When all senders are gone nothing is on its way to the result channel. -/
theorem Course.rest_eq_nil (h : s.Course) (hacc : s.Accounted) (hN : 0 < N)
    (hstop : s.stop = false) (hsenders : s.senders = false) : s.rest = [] := by
  have hzero := hacc.returned hstop ⟨0, hN⟩ (h.senders hsenders _)
  obtain ⟨hchannel, hbuffer, -⟩ := hacc.idle_of_zero hzero
  have hreturned (i : Fin N) : (s.workers i).program = none := by
    have := h.senders hsenders i
    cases hi : s.workers i <;> simp_all [Worker.hasReturned, Worker.program]
  have hpush : s.toPush = [] :=
    Pool.gather_eq_nil_iff.mpr fun i => Worker.toPush_of_program (hreturned i)
  have hsend : s.toSend = [] :=
    Pool.gather_eq_nil_iff.mpr fun i => Worker.toSend_of_program (hreturned i)
  simp [rest, unstarted, hpush, hsend, hchannel, hbuffer]

/-- The consumer takes a step. -/
theorem Course.of_consume (h : s.Course) (hacc : s.Accounted) (hN : 0 < N)
    (hstop : s.stop = false) {expired : Bool} {channel : List (Ordered R)} {consumer : Consumer R}
    (hs : s.consumer.step s.stop (!s.senders) expired s.resultChannel =
      some (channel, consumer)) :
    Course { s with resultChannel := channel, consumer := consumer } := by
  rw [hstop] at hs
  obtain ⟨hcourse, heffect⟩ := h.onCourse.step
    (fun hgone => h.rest_eq_nil hacc hN hstop (by simpa using hgone)) hs
  have hquiet (hperm : (s.consumer.atHand s.resultChannel).Perm (consumer.atHand channel)) :
      Course { s with resultChannel := channel, consumer := consumer } := by
    refine ⟨h.own, h.explored, h.taken, hcourse, ?_, fun o ho => ?_, h.receiver, h.senders⟩
    · exact fun o ho => h.atHand_sent (hperm.mem_iff.mpr ho)
    · exact (h.announced o ho).perm (Consumer.outstanding_perm _ hperm)
  cases heffect with
  | quiet hnexts hmatcher hperm => exact hquiet hperm
  | finish hnexts hnone hmatcher hperm => exact hquiet hperm
  | handOut x F hnexts hperm hbefore hafter =>
    have hO : s.outstanding.Perm (x.address :: outstanding
        { s with resultChannel := channel, consumer := consumer }) :=
      ((hperm.map _).append_left _).trans List.perm_middle
    refine ⟨h.own, h.explored, h.taken, hcourse, fun o ho => ?_, fun o ho => ?_, h.receiver,
      h.senders⟩
    · exact h.atHand_sent (hperm.mem_iff.mpr (List.mem_cons_of_mem x ho))
    · -- the element handed out is the least outstanding one, so it is no child of `o`
      have hcov := h.onCourse.covers
      rw [hbefore] at hcov
      refine (h.announced o ho).erase hO (hcov.head_le ?_)
      exact List.mem_append_left _ (List.mem_append_right _ (List.mem_map_of_mem ho))

/-- The stop flag is never taken back. -/
theorem Step.stop_of (h : Step cfg s s') (hstop : s'.stop = false) : s.stop = false := by
  obtain ⟨a, hmove⟩ := h.move
  cases hmove with
  | request i fail item op k s₁ answer hi hperformed =>
    cases hperformed <;> exact hstop
  | stop => simp at hstop
  | _ => exact hstop

/-- **Every step of a run that is not stopped keeps the course.** -/
theorem Course.step (hN : 0 < N) (hfail : cfg.sendsMayFail = false)
    (hplan : ∀ weighted, ∃ ordered, Planned weighted (asked unstopped (cfg.work weighted)) ordered)
    (h : s.Course) (hacc : s.Accounted) (hs : Step cfg s s') (hstop' : s'.stop = false) :
    s'.Course := by
  have hstop := hs.stop_of hstop'
  obtain ⟨a, hmove⟩ := hs.move
  cases hmove with
  | advance i fail w hi hw halive hreturn => exact h.of_next hi hw halive (List.Perm.refl _)
  | receive i fail w weighted channel hi hw halive hreturn hchannel =>
    refine h.of_next hi hw halive ?_
    rw [hchannel]
    exact List.perm_middle.symm
  | take i fail weighted buffer hi halive hchannel hpop =>
    obtain ⟨ordered, hordered⟩ := hplan weighted
    exact h.of_take hordered hi halive hpop
  | request i fail item op k s₁ answer hi hperformed =>
    exact h.of_performed hfail hstop hi hperformed
  | consume expired channel consumer hreceiver hstep => exact h.of_consume hacc hN hstop hstep
  | dropSenders hall =>
    exact ⟨h.own, h.explored, h.taken, h.onCourse, h.atHand_sent, h.announced, h.receiver,
      fun _ => hall⟩
  | stop => simp at hstop'
  | dropReceiver hset => simp [hstop] at hset

/-- The start of a run on one root is on course. -/
theorem course_init (root : Weighted S) (hroot : root.indexPath = ⟨[0]⟩)
    (maxReceiveBufferSize : ℕ) : Course (init N [root] maxReceiveBufferSize : RunState S R N) := by
  set s : RunState S R N := init N [root] maxReceiveBufferSize
  have hpush : s.toPush = [] := Pool.gather_eq_nil_iff.mpr fun _ => rfl
  have hsend : s.toSend = [] := Pool.gather_eq_nil_iff.mpr fun _ => rfl
  have hun : s.unstarted.map Weighted.address = [[0]] := by
    rw [unstarted, hpush]
    simp [s, init, Weighted.address, hroot]
  have hrest : s.rest = [[0]] := by
    rw [rest, hun, hsend]
    rfl
  have hO : s.consumer.outstanding s.rest s.resultChannel = [[0]] := by
    rw [hrest]
    rfl
  refine ⟨fun i => Worker.own_of_program rfl, ?_, ?_, ⟨OrderedMatcher.wf_default, ?_, ?_, ?_, ?_⟩,
    ?_, ?_, rfl, ?_⟩
  · rw [hun, hsend]
    exact Explored.single [0]
  · rw [hsend]
    exact List.Perm.refl _
  · rw [hO]
    refine ⟨List.nodup_singleton _, fun f hf => hf, fun q hq => ?_, List.pairwise_singleton _ _⟩
    rw [List.mem_singleton.mp hq]
    exact ⟨[0], List.mem_singleton_self _, List.prefix_refl _⟩
  · simp [s, init, Consumer.atHand, Consumer.new]
  · simp [s, init, Consumer.new]
  · simp [s, init, Consumer.new]
  · simp [s, init, Consumer.atHand, Consumer.new]
  · simp [hsend]
  · simp [s, init]

/-- Every reachable state that is not stopped is on course. -/
theorem course_of_reaches (hN : 0 < N) (hfail : cfg.sendsMayFail = false)
    (hwork : ∀ weighted, Disciplined .plain (cfg.work weighted))
    (hplan : ∀ weighted, ∃ ordered, Planned weighted (asked unstopped (cfg.work weighted)) ordered)
    {root : Weighted S} (hroot : root.indexPath = ⟨[0]⟩) {maxReceiveBufferSize : ℕ}
    (h : Reaches cfg (init N [root] maxReceiveBufferSize) s) (hstop : s.stop = false) :
    s.Course := by
  have hinv : s.Accounted ∧ (s.stop = false → s.Course) := by
    refine h.invariant (P := fun t => t.Accounted ∧ (t.stop = false → t.Course))
      ⟨accounted_init _ _, fun _ => course_init root hroot _⟩ ?_
    rintro a b ⟨hacc, hcourse⟩ hs
    refine ⟨hacc.step hwork hs, fun hb => ?_⟩
    exact (hcourse (hs.stop_of hb)).step hN hfail hplan hacc hs hb
  exact hinv.2 hstop

end RunState

end JwalkMeta
