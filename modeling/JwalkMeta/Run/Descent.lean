import JwalkMeta.Run.Course

/-!
# Properties that items hand down

A property that the start items have and that every item hands down to the items it pushes holds
of all items of a run that is not stopped; what such an item says about its result holds of all
results that are sent.

## Main definitions

* `HandsDown`: a property of items with the property of results that it entails.
* `RunState.Inherited`: the properties hold of all items and results of a state.

## Main results

* `RunState.inherited_of_reaches`: they hold in every reachable state that is not stopped.
* `RunState.taken_of_reaches`: the items that have been taken have the property.
-/

namespace JwalkMeta

open Interaction

variable {S R : Type} {N : ℕ}

/-- An item with the property `P` pushes items with `P` only, and sends results with `Q` only. -/
def HandsDown (cfg : Config S R) (P : Weighted S → Prop) (Q : Ordered R → Prop) : Prop :=
  ∀ weighted, P weighted →
    (∀ u ∈ pushes (asked unstopped (cfg.work weighted)), P u) ∧
    ∀ o ∈ results (asked unstopped (cfg.work weighted)), Q o

namespace RunState

/-- The properties hold of everything that is in the work queue, that the workers are going to push
or to send, and that has been sent. -/
structure Inherited (P : Weighted S → Prop) (Q : Ordered R → Prop) (s : RunState S R N) :
    Prop where
  toPush : ∀ i, ∀ u ∈ (s.workers i).toPush, P u
  toSend : ∀ i, ∀ o ∈ (s.workers i).toSend, Q o
  queued : ∀ u ∈ s.specChannel ++ s.receiveBuffer, P u
  sent : ∀ o ∈ s.sent, Q o
  receiver : s.stop = false → s.receiver = true

variable {P : Weighted S → Prop} {Q : Ordered R → Prop} {cfg : Config S R}
  {s s' : RunState S R N}

/-- Replacing a worker by one whose plan has the properties. -/
theorem forall_setWorker {T : Type} {p : T → Prop} {held : Worker S R → List T}
    (h : ∀ i, ∀ x ∈ held (s.workers i), p x) {i : Fin N} {w : Worker S R}
    (hw : ∀ x ∈ held w, p x) (j : Fin N) : ∀ x ∈ held ((s.setWorker i w).workers j), p x :=
  forall_workers_setWorker (p := fun w => ∀ x ∈ held w, p x) h hw j

/-- A worker inside `next` changes its place, and the queue moves items towards the heap. -/
theorem Inherited.of_next (h : Inherited P Q s) {i : Fin N} {w : Worker S R}
    {channel buffer : List (Weighted S)} (hw : w.program = none)
    (hmoved : (s.specChannel ++ s.receiveBuffer).Perm (channel ++ buffer)) :
    Inherited P Q { s.setWorker i w with specChannel := channel, receiveBuffer := buffer } := by
  refine ⟨forall_setWorker h.toPush ?_, forall_setWorker h.toSend ?_, fun u hu => ?_, h.sent,
    h.receiver⟩
  · rw [Worker.toPush_of_program hw]
    simp
  · rw [Worker.toSend_of_program hw]
    simp
  · exact h.queued u (hmoved.mem_iff.mpr hu)

/-- Carrying out a request of a worker in a run that is not stopped. -/
theorem Inherited.of_performed (hfail : cfg.sendsMayFail = false) (h : Inherited P Q s)
    (hstop : s.stop = false) {i : Fin N} {item : Weighted S} {op : WorkerOp S R}
    {k : Bool → WorkerProgram S R Unit} {answer : Bool}
    (hi : s.workers i = .running item (.ask op k)) (hs : Performed cfg s item op s' answer) :
    Inherited P Q (s'.setWorker i (.resume item (k answer))) := by
  have hpush := h.toPush i
  have hsend := h.toSend i
  rw [hi] at hpush hsend
  -- the plan after the request is a part of the plan before it
  have hpush' (ha : answer = unstopped op) (u : Weighted S)
      (hu : u ∈ (Worker.resume item (k answer) : Worker S R).toPush) : P u := by
    rw [Worker.toPush, Worker.plan_resume, ha] at hu
    refine hpush u ?_
    rw [Worker.toPush, Worker.plan, asked_ask, ← List.singleton_append, pushes_append]
    exact List.mem_append_right _ hu
  have hsend' (ha : answer = unstopped op) (o : Ordered R)
      (ho : o ∈ (Worker.resume item (k answer) : Worker S R).toSend) : Q o := by
    rw [Worker.toSend, Worker.plan_resume, ha] at ho
    refine hsend o ?_
    rw [Worker.toSend, Worker.plan, asked_ask, ← List.singleton_append, results_append]
    exact List.mem_append_right _ ho
  cases hs with
  | loadStop =>
    exact ⟨forall_setWorker h.toPush (hpush' hstop), forall_setWorker h.toSend (hsend' hstop),
      h.queued, h.sent, h.receiver⟩
  | sendSpec weighted hroom =>
    refine ⟨forall_setWorker h.toPush (hpush' rfl), forall_setWorker h.toSend (hsend' rfl),
      fun u hu => ?_, h.sent, h.receiver⟩
    have hmem : u = weighted ∨ u ∈ s.specChannel ++ s.receiveBuffer := by
      simp only [setWorker, List.append_assoc, List.mem_append, List.mem_singleton] at hu ⊢
      tauto
    rcases hmem with rfl | hu
    · exact hpush u List.mem_cons_self
    · exact h.queued u hu
  | sendSpecFailed weighted hfail' => simp [hfail] at hfail'
  | sendResult ordered hreceiver hroom =>
    refine ⟨forall_setWorker h.toPush (hpush' rfl), forall_setWorker h.toSend (hsend' rfl),
      h.queued, fun o ho => ?_, h.receiver⟩
    rcases List.mem_append.mp ho with ho | ho
    · exact h.sent o ho
    · rw [List.mem_singleton.mp ho]
      exact hsend ordered List.mem_cons_self
  | sendResultClosed ordered hreceiver => simp [h.receiver hstop] at hreceiver
  | _ =>
    exact ⟨forall_setWorker h.toPush (hpush' rfl), forall_setWorker h.toSend (hsend' rfl),
      h.queued, h.sent, h.receiver⟩

/-- Every step of a run that is not stopped keeps the properties. -/
theorem Inherited.step (hfail : cfg.sendsMayFail = false) (hdown : HandsDown cfg P Q)
    (h : Inherited P Q s) (hs : Step cfg s s') (hstop' : s'.stop = false) : Inherited P Q s' := by
  have hstop := hs.stop_of hstop'
  obtain ⟨a, hmove⟩ := hs.move
  cases hmove with
  | advance i fail w hi hw halive hreturn => exact h.of_next hw (List.Perm.refl _)
  | receive i fail w weighted channel hi hw halive hreturn hchannel =>
    refine h.of_next hw ?_
    rw [hchannel]
    exact List.perm_middle.symm
  | take i fail weighted buffer hi halive hchannel hpop =>
    have hbuffer := BinaryHeap.pop_perm hpop
    have hP := h.queued weighted (List.mem_append_right _ (BinaryHeap.mem_of_pop hpop))
    refine ⟨forall_setWorker h.toPush ?_, forall_setWorker h.toSend ?_, fun u hu => ?_, h.sent,
      h.receiver⟩
    · rw [Worker.toPush, Worker.plan_resume]
      exact (hdown weighted hP).1
    · rw [Worker.toSend, Worker.plan_resume]
      exact (hdown weighted hP).2
    · refine h.queued u ?_
      rcases List.mem_append.mp hu with hu | hu
      · exact List.mem_append_left _ hu
      · exact List.mem_append_right _ (hbuffer.mem_iff.mpr (List.mem_cons_of_mem _ hu))
  | request i fail item op k s₁ answer hi hperformed =>
    exact h.of_performed hfail hstop hi hperformed
  | stop => simp at hstop'
  | dropReceiver hset => simp [hstop] at hset
  | _ => exact ⟨h.toPush, h.toSend, h.queued, h.sent, h.receiver⟩

theorem inherited_init {items : List (Weighted S)} (hitems : ∀ w ∈ items, P w)
    (maxReceiveBufferSize : ℕ) :
    Inherited P Q (init N items maxReceiveBufferSize : RunState S R N) := by
  refine ⟨?_, ?_, ?_, ?_, fun _ => rfl⟩
  · intro i u hu
    exact absurd hu List.not_mem_nil
  · intro i o ho
    exact absurd ho List.not_mem_nil
  · simpa [init] using hitems
  · simp [init]

/-- **The properties hold in every reachable state that is not stopped.** -/
theorem inherited_of_reaches (hfail : cfg.sendsMayFail = false) (hdown : HandsDown cfg P Q)
    {items : List (Weighted S)} (hitems : ∀ w ∈ items, P w) {maxReceiveBufferSize : ℕ}
    (h : Reaches cfg (init N items maxReceiveBufferSize) s) (hstop : s.stop = false) :
    Inherited P Q s := by
  have hinv : s.stop = false → Inherited P Q s := by
    refine h.invariant (P := fun t => t.stop = false → Inherited P Q t)
      (fun _ => inherited_init hitems _) ?_
    intro a b ha hs hb
    exact (ha (hs.stop_of hb)).step hfail hdown hs hb
  exact hinv hstop

/-- A step takes nothing but what is in the heap. -/
theorem mem_taken_of_step (hs : Step cfg s s') {u : Weighted S} (hu : u ∈ s'.taken) :
    u ∈ s.taken ∨ u ∈ s.receiveBuffer := by
  obtain ⟨a, hmove⟩ := hs.move
  cases hmove with
  | take i fail weighted buffer hi halive hchannel hpop =>
    rcases List.mem_append.mp hu with hu | hu
    · exact Or.inl hu
    · rw [List.mem_singleton.mp hu]
      exact Or.inr (BinaryHeap.mem_of_pop hpop)
  | request i fail item op k s₁ answer hi hperformed => cases hperformed <;> exact Or.inl hu
  | _ => exact Or.inl hu

/-- Every item that has been taken has the property. -/
theorem taken_of_reaches (hfail : cfg.sendsMayFail = false) (hdown : HandsDown cfg P Q)
    {items : List (Weighted S)} (hitems : ∀ w ∈ items, P w) {maxReceiveBufferSize : ℕ}
    (h : Reaches cfg (init N items maxReceiveBufferSize) s) (hstop : s.stop = false) :
    ∀ u ∈ s.taken, P u := by
  induction h with
  | refl =>
    intro u hu
    exact absurd hu List.not_mem_nil
  | tail hreach hs ih =>
    intro u hu
    have hbefore := hs.stop_of hstop
    rcases mem_taken_of_step hs hu with hu | hu
    · exact ih hbefore u hu
    · exact (inherited_of_reaches hfail hdown hitems hreach hbefore).queued u
        (List.mem_append_right _ hu)

end RunState

end JwalkMeta
