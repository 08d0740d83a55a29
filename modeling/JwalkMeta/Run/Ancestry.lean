import JwalkMeta.Core.DirEntryIter
import JwalkMeta.Lib.Lineage
import JwalkMeta.Run.System

/-!
# The reads that a read leads to

A read of a directory leads to further reads: those that are scheduled while the directory is
enumerated, and those that its entries ask for. Whatever the interleaving, and whether or not the
walk is stopped, every item that a run takes from the work queue descends from a root in this way.

If lines of descent are bounded, a walk ends: the serial one comes to its last item, and a parallel
one takes a bounded number of items.

## Main definitions

* `ReadDirCallback.Spawns`: one read can lead to another.
* `RunState.Descended`: a property of all items of a state.
* `ReadDirCallback.Frugal`: a read schedules no more than its entries ask for.

## Main results

* `RunState.descends_of_taken`: every item that is taken descends from a root.
* `RunState.length_taken_le`: how many items a run takes at most.
* `SerialWalk.StackShallow.exists_finished`: the serial walk ends.
-/

namespace JwalkMeta

open Interaction

variable {S R B E : Type} {N : ℕ}

/-! ### The reads of a worker -/

/-- One read can lead to another: it schedules it while it enumerates, or an entry of its result
asks for it. -/
def ReadDirCallback.Spawns (callback : ReadDirCallback B E) (spec child : ReadDirSpec B) : Prop :=
  ∃ ctx, (∃ weighted, MayAsk (callback spec ctx) (.schedule weighted) ∧ weighted.value = child) ∨
    ∃ result, MayReturn (callback spec ctx) result ∧ child ∈ childSpecs result

/-- The reads that the entries of a serial read ask for. -/
def ReadDirCallback.children (callback : ReadDirCallback B E) (spec : ReadDirSpec B) :
    List (ReadDirSpec B) := childSpecs (callback.read spec)

theorem ReadDirCallback.spawns_of_mem {callback : ReadDirCallback B E} {spec child : ReadDirSpec B}
    (h : child ∈ callback.children spec) : callback.Spawns spec child :=
  ⟨none, Or.inr ⟨_, mayReturn_value _ _, h⟩⟩

theorem mayAsk_push {weighted u : Weighted S}
    (h : MayAsk (push weighted : WorkerProgram S R Bool) (.sendSpec u)) : u = weighted := by
  simp only [push, request_bind, mayAsk_ask, reduceCtorEq, false_or] at h
  obtain ⟨-, hu | ⟨answer, h⟩⟩ := h
  · simpa using hu
  · cases answer <;> simp at h

theorem mayAsk_scheduleAll {items : List (Weighted S)} {u : Weighted S}
    (h : MayAsk (scheduleAll items : WorkerProgram S R Unit) (.sendSpec u)) : u ∈ items := by
  induction items with
  | nil => exact absurd h mayAsk_done
  | cons each rest ih =>
    rcases mayAsk_bind.mp h with h | ⟨answer, -, h⟩
    · rw [mayAsk_push h]
      exact List.mem_cons_self
    · cases answer with
      | true => exact List.mem_cons_of_mem _ (ih h)
      | false => exact absurd h mayAsk_done

theorem value_mem_childSpecs {result : ReadDirResult B E} {indexPath : IndexPath} {weight : ℕ}
    {items : List (Weighted (ReadDirSpec B))}
    (h : regularSpecs result indexPath weight = some items) :
    items.map Weighted.value = childSpecs result := by
  cases result with
  | error err => cases h
  | ok readDir =>
    simp only [regularSpecs] at h
    split_ifs at h with hzero
    obtain rfl := Option.some.inj h
    rw [ReadDir.weightedChildrenSpecs_eq _ hzero]
    exact List.ext_getElem (by simp [childSpecs]) fun i h₁ h₂ => by simp [childSpecs]

/-- What a worker asks for while it processes an item: what the read asks for, which it passes on,
and the sends of the result and of the child reads that are left. -/
theorem mayAsk_multiThreadedWalkDir {callback : ReadDirCallback B E}
    {weighted : Weighted (ReadDirSpec B)} {op : WorkerOp (ReadDirSpec B) (ReadDirResult B E)}
    (h : MayAsk (multiThreadedWalkDir callback weighted) op) :
    op = .loadStop ∨ op = .completeItem ∨
      (∃ streamOp, MayAsk (callback weighted.value (some ⟨weighted.indexPath, weighted.weight⟩))
        streamOp ∧ MayAsk (StreamOp.handle streamOp) op) ∨
      ∃ result, MayReturn (callback weighted.value (some ⟨weighted.indexPath, weighted.weight⟩))
        result ∧ (op = .sendResult ⟨result, weighted.indexPath,
            childCount result weighted.indexPath weighted.weight⟩ ∨
          MayAsk (scheduleAll
            ((regularSpecs result weighted.indexPath weighted.weight).getD [])) op) := by
  rw [multiThreadedWalkDir, request_bind, mayAsk_ask] at h
  obtain rfl | ⟨stopped, h⟩ := h
  · exact Or.inl rfl
  refine Or.inr ?_
  cases stopped with
  | true =>
    simp only [↓reduceIte, request_bind, mayAsk_ask] at h
    obtain rfl | ⟨-, h⟩ := h
    · exact Or.inl rfl
    · exact absurd h mayAsk_done
  | false =>
    simp only [Bool.false_eq_true, ↓reduceIte, mayAsk_bind, request_bind] at h
    obtain h | ⟨result, hresult, h⟩ := h
    · exact Or.inr (Or.inl (mayAsk_of_interp h))
    have hreturn := mayReturn_of_interp hresult
    rw [mayAsk_ask] at h
    obtain rfl | ⟨sendOk, h⟩ := h
    · exact Or.inr (Or.inr ⟨result, hreturn, Or.inl rfl⟩)
    cases sendOk with
    | false =>
      simp only [Bool.false_eq_true, ↓reduceIte, mayAsk_ask] at h
      obtain rfl | ⟨-, h⟩ := h
      · exact Or.inl rfl
      · exact absurd h mayAsk_done
    | true =>
      rw [if_pos rfl, mayAsk_bind] at h
      obtain h | ⟨-, -, h⟩ := h
      · exact Or.inr (Or.inr ⟨result, hreturn, Or.inr h⟩)
      · simp only [mayAsk_ask] at h
        obtain rfl | ⟨-, h⟩ := h
        · exact Or.inl rfl
        · exact absurd h mayAsk_done

/-- What a worker pushes are reads that the read of its item leads to. -/
theorem spawns_of_mayAsk {callback : ReadDirCallback B E} {weighted u : Weighted (ReadDirSpec B)}
    (h : MayAsk (multiThreadedWalkDir callback weighted) (.sendSpec u)) :
    callback.Spawns weighted.value u.value := by
  refine ⟨some ⟨weighted.indexPath, weighted.weight⟩, ?_⟩
  obtain h | h | ⟨streamOp, hop, hsend⟩ | ⟨result, hresult, h | h⟩ :=
    mayAsk_multiThreadedWalkDir h
  · cases h
  · cases h
  · -- the item is scheduled while the directory is enumerated
    cases streamOp with
    | isStopped => simp [StreamOp.handle, request] at hsend
    | schedule weighted' =>
      obtain rfl := mayAsk_push hsend
      exact Or.inl ⟨u, hop, rfl⟩
  · cases h
  · -- the item belongs to an entry of the result
    refine Or.inr ⟨result, hresult, ?_⟩
    have hmem := mayAsk_scheduleAll h
    cases hregular : regularSpecs result weighted.indexPath weighted.weight with
    | none => simp [hregular] at hmem
    | some items =>
      rw [hregular, Option.getD_some] at hmem
      rw [← value_mem_childSpecs hregular]
      exact List.mem_map_of_mem hmem

/-! ### The items of a run -/

namespace RunState

variable {P : Weighted S → Prop} {cfg : Config S R} {s s' : RunState S R N}

/-- A property holds of all items that are in the work queue, that have been taken from it, and
that the workers may still push. -/
structure Descended (P : Weighted S → Prop) (s : RunState S R N) : Prop where
  queued : ∀ u ∈ s.specChannel ++ s.receiveBuffer, P u
  taken : ∀ u ∈ s.taken, P u
  pushing : ∀ i p, (s.workers i).program = some p → ∀ u, MayAsk p (.sendSpec u) → P u

/-- The program of a worker that goes on with an item. -/
theorem mayAsk_of_resume {item : Weighted S} {p q : WorkerProgram S R Unit} {op : WorkerOp S R}
    (hq : (Worker.resume item p).program = some q) (h : MayAsk q op) : MayAsk p op := by
  cases p with
  | done u => cases hq
  | ask op' k =>
    obtain rfl := Option.some.inj hq
    exact h

/-- Replacing a worker by one that pushes items with the property only. -/
theorem Descended.pushing_setWorker (h : Descended P s) {i : Fin N} {w : Worker S R}
    (hw : ∀ p, w.program = some p → ∀ u, MayAsk p (.sendSpec u) → P u) (j : Fin N)
    (p : WorkerProgram S R Unit) (hp : ((s.setWorker i w).workers j).program = some p)
    (u : Weighted S) (hu : MayAsk p (.sendSpec u)) : P u :=
  forall_workers_setWorker (p := fun w => ∀ p, w.program = some p →
    ∀ u, MayAsk p (.sendSpec u) → P u) h.pushing hw j p hp u hu

/-- Every step keeps a property that items hand down. -/
theorem Descended.step
    (hwork : ∀ item, P item → ∀ u, MayAsk (cfg.work item) (.sendSpec u) → P u)
    (h : Descended P s) (hs : Step cfg s s') : Descended P s' := by
  obtain ⟨a, hmove⟩ := hs.move
  cases hmove with
  | advance i fail w hi hw halive hreturn =>
    exact ⟨h.queued, h.taken, h.pushing_setWorker (by simp [hw])⟩
  | receive i fail w weighted channel hi hw halive hreturn hchannel =>
    refine ⟨fun u hu => h.queued u ?_, h.taken, h.pushing_setWorker (by simp [hw])⟩
    rw [hchannel]
    exact List.perm_middle.mem_iff.mp hu
  | take i fail weighted buffer hi halive hchannel hpop =>
    have hmem (u : Weighted S) (hu : u ∈ weighted :: buffer) : P u :=
      h.queued u (List.mem_append_right _ ((BinaryHeap.pop_perm hpop).mem_iff.mpr hu))
    have hP := hmem weighted List.mem_cons_self
    refine ⟨fun u hu => ?_, fun u hu => ?_, h.pushing_setWorker fun p hp u hu => ?_⟩
    · rw [setWorker, hchannel, List.nil_append] at hu
      exact hmem u (List.mem_cons_of_mem _ hu)
    · rcases List.mem_append.mp hu with hu | hu
      · exact h.taken u hu
      · rwa [List.mem_singleton.mp hu]
    · exact hwork weighted hP u (mayAsk_of_resume hp hu)
  | request i fail item op k s₁ answer hi hperformed =>
    have hpushing (u : Weighted S) (hu : MayAsk (.ask op k) (.sendSpec u)) : P u :=
      h.pushing i _ (by rw [hi]; rfl) u hu
    have hrest (p : WorkerProgram S R Unit)
        (hp : (Worker.resume item (k answer) : Worker S R).program = some p) (u : Weighted S)
        (hu : MayAsk p (.sendSpec u)) : P u :=
      hpushing u (.later answer (mayAsk_of_resume hp hu))
    have h₁ : Descended P s₁ := by
      cases hperformed with
      | sendSpec weighted hroom =>
        refine ⟨fun u hu => ?_, h.taken, h.pushing⟩
        rw [List.append_assoc, List.singleton_append, List.perm_middle.mem_iff] at hu
        rcases List.mem_cons.mp hu with rfl | hu
        · exact hpushing u (.here _ k)
        · exact h.queued u hu
      | _ => exact ⟨h.queued, h.taken, h.pushing⟩
    exact ⟨h₁.queued, h₁.taken, h₁.pushing_setWorker hrest⟩
  | _ => exact ⟨h.queued, h.taken, h.pushing⟩

/-- **A property that items hand down holds of all items**, in every reachable state. -/
theorem descended_of_reaches
    (hwork : ∀ item, P item → ∀ u, MayAsk (cfg.work item) (.sendSpec u) → P u)
    {items : List (Weighted S)} (hitems : ∀ u ∈ items, P u) {maxReceiveBufferSize : ℕ}
    (h : Reaches cfg (init N items maxReceiveBufferSize) s) : Descended P s := by
  refine h.invariant ⟨?_, ?_, ?_⟩ fun _ _ h hs => h.step hwork hs
  · simpa [init] using hitems
  · simp [init]
  · intro i p hp
    cases hp

variable {callback : ReadDirCallback B E} {roots : List (ReadDirSpec B)} {capacity : ℕ}
  {hcapacity : 0 < capacity} {sendsMayFail : Bool} {maxReceiveBufferSize : ℕ}

/-- The read of an item descends from a root. -/
def Descends (roots : List (ReadDirSpec B)) (callback : ReadDirCallback B E)
    (u : Weighted (ReadDirSpec B)) : Prop :=
  ∃ ancestors, Lineage roots callback.Spawns (u.value :: ancestors)

theorem descends_of_mayAsk (item : Weighted (ReadDirSpec B)) (h : Descends roots callback item)
    (u : Weighted (ReadDirSpec B))
    (hu : MayAsk (multiThreadedWalkDir callback item) (.sendSpec u)) :
    Descends roots callback u := by
  obtain ⟨ancestors, hlineage⟩ := h
  exact ⟨_, hlineage.child (spawns_of_mayAsk hu)⟩

theorem descends_rootItems (u : Weighted (ReadDirSpec B)) (hu : u ∈ rootItems roots) :
    Descends roots callback u := by
  obtain ⟨spec, hspec, rfl⟩ := List.mem_map.mp hu
  exact ⟨[], .root hspec⟩

/-- **Every item that a run takes descends from a root.** -/
theorem descends_of_taken {s : RunState (ReadDirSpec B) (ReadDirResult B E) N}
    (h : Reaches (.walk callback capacity hcapacity sendsMayFail)
      (init N (rootItems roots) maxReceiveBufferSize) s)
    {u : Weighted (ReadDirSpec B)} (hu : u ∈ s.taken) : Descends roots callback u :=
  (descended_of_reaches descends_of_mayAsk descends_rootItems h).taken u hu

end RunState

/-! ### How many items a run takes -/

/-- What a request of a worker costs: the weight of an item that is sent. -/
def sendCost (weight : S → ℕ) : WorkerOp S R → Bool → ℕ
  | .sendSpec weighted, true => weight weighted.value
  | _, _ => 0

/-- What a request of a core callback costs: the weight of an item that is scheduled. -/
def scheduleCost (weight : S → ℕ) : StreamOp S → Bool → ℕ
  | .schedule weighted, true => weight weighted.value
  | _, _ => 0

/-- The total weight of a list of reads. -/
def totalWeight (weight : S → ℕ) (specs : List S) : ℕ := (specs.map weight).sum

theorem totalWeight_perm {weight : S → ℕ} {l l' : List S} (h : l.Perm l') :
    totalWeight weight l = totalWeight weight l' := (h.map weight).sum_eq

@[simp] theorem totalWeight_cons (weight : S → ℕ) (a : S) (l : List S) :
    totalWeight weight (a :: l) = weight a + totalWeight weight l := List.sum_cons

/-- A read schedules no more than its entries ask for: what it schedules while it enumerates, and
what is scheduled for its result if that was nothing, together weigh no more than the reads that the
entries ask for. -/
def ReadDirCallback.Frugal (callback : ReadDirCallback B E) (spec : ReadDirSpec B) : Prop :=
  ∀ (weight : ReadDirSpec B → ℕ) (ctx : Option StreamingContext),
    (callback spec ctx).outlay (scheduleCost weight) (fun result =>
      if streamedCount result = 0 then totalWeight weight (childSpecs result) else 0) ≤
        totalWeight weight (callback.children spec)

theorem outlay_push (weight : S → ℕ) (weighted : Weighted S) (g : Bool → ℕ) :
    (push weighted : WorkerProgram S R Bool).outlay (sendCost weight) g =
      max (weight weighted.value + g true) (g false) := by
  simp [push, sendCost]

theorem outlay_scheduleAll_le (weight : S → ℕ) (items : List (Weighted S)) (g : Unit → ℕ) :
    (scheduleAll items : WorkerProgram S R Unit).outlay (sendCost weight) g ≤
      totalWeight weight (items.map Weighted.value) + g () := by
  induction items with
  | nil => simp [scheduleAll, totalWeight]
  | cons each rest ih =>
    rw [scheduleAll, outlay_bind, outlay_push]
    simp only [↓reduceIte, Bool.false_eq_true, totalWeight, List.map_cons, List.sum_cons,
      pure_eq, outlay_done] at ih ⊢
    omega

/-- What is scheduled for a result, if nothing was scheduled during the enumeration. -/
theorem totalWeight_regularSpecs_le (weight : ReadDirSpec B → ℕ) (result : ReadDirResult B E)
    (indexPath : IndexPath) (parentWeight : ℕ) :
    totalWeight weight
        (((regularSpecs result indexPath parentWeight).getD []).map Weighted.value) ≤
      if streamedCount result = 0 then totalWeight weight (childSpecs result) else 0 := by
  cases hregular : regularSpecs result indexPath parentWeight with
  | none => simp [totalWeight]
  | some items =>
    have hzero : streamedCount result = 0 := by
      cases result with
      | error err => rfl
      | ok readDir =>
        simp only [regularSpecs] at hregular
        split_ifs at hregular with hzero
        exact hzero
    rw [if_pos hzero, Option.getD_some, value_mem_childSpecs hregular]

/-- A worker sends no more than the entries of its item ask for. -/
theorem outlay_multiThreadedWalkDir_le {callback : ReadDirCallback B E}
    {weighted : Weighted (ReadDirSpec B)} (h : callback.Frugal weighted.value)
    (weight : ReadDirSpec B → ℕ) :
    (multiThreadedWalkDir callback weighted).outlay (sendCost weight) (fun _ => 0) ≤
      totalWeight weight (callback.children weighted.value) := by
  have hhandle (op : StreamOp (ReadDirSpec B)) (g : Bool → ℕ) :
      (op.handle : WorkerProgram (ReadDirSpec B) (ReadDirResult B E) Bool).outlay
        (sendCost weight) g ≤
          max (scheduleCost weight op true + g true) (scheduleCost weight op false + g false) := by
    cases op with
    | isStopped => simp [StreamOp.handle, request, sendCost, scheduleCost]
    | schedule u => simp [StreamOp.handle, outlay_push, scheduleCost]
  -- what follows the core callback costs what is scheduled for its result
  have hrest (result : ReadDirResult B E) :
      (ask (.sendResult ⟨result, weighted.indexPath,
          childCount result weighted.indexPath weighted.weight⟩) fun sendOk =>
        if sendOk = true then do
          scheduleAll ((regularSpecs result weighted.indexPath weighted.weight).getD [])
          ask .completeItem fun _ => pure ()
        else ask .completeItem fun _ => pure ()).outlay (sendCost weight) (fun _ => 0) ≤
      if streamedCount result = 0 then totalWeight weight (childSpecs result) else 0 := by
    have hschedule := outlay_scheduleAll_le (R := ReadDirResult B E) weight
      ((regularSpecs result weighted.indexPath weighted.weight).getD []) fun _ => 0
    have hregular := totalWeight_regularSpecs_le weight result weighted.indexPath weighted.weight
    simp only [outlay_ask, sendCost, ↓reduceIte, Bool.false_eq_true, outlay_bind, pure_eq,
      outlay_done, max_self, Nat.zero_add, Nat.add_zero, Nat.max_zero] at hschedule ⊢
    exact hschedule.trans hregular
  rw [multiThreadedWalkDir, request_bind, outlay_ask]
  simp only [sendCost, ↓reduceIte, Bool.false_eq_true, request_bind, outlay_ask, pure_eq,
    outlay_done, max_self, Nat.zero_add, Nat.add_zero, Nat.zero_max]
  rw [outlay_bind]
  refine (outlay_interp_le hhandle _ _).trans
    (le_trans ?_ (h weight (some ⟨weighted.indexPath, weighted.weight⟩)))
  exact outlay_mono fun result _ => hrest result

/-- The most that the items a worker is still going to send can weigh. -/
def Worker.outlay (weight : S → ℕ) : Worker S R → ℕ
  | running _ program => program.outlay (sendCost weight) fun _ => 0
  | _ => 0

theorem Worker.outlay_of_program {w : Worker S R} (h : w.program = none) (weight : S → ℕ) :
    w.outlay weight = 0 := by
  cases w with
  | running item program => cases h
  | _ => rfl

@[simp] theorem Worker.outlay_resume (weight : S → ℕ) (item : Weighted S)
    (p : WorkerProgram S R Unit) :
    (resume item p).outlay weight = p.outlay (sendCost weight) fun _ => 0 := by
  cases p <;> rfl

namespace RunState

variable {cfg : Config S R} {s s' : RunState S R N} {weight : S → ℕ}

/-- What the items in the work queue weigh, what those can weigh that the workers are still going to
send, and how many items have been taken. -/
def spending (weight : S → ℕ) (s : RunState S R N) : ℕ :=
  totalWeight weight ((s.specChannel ++ s.receiveBuffer).map Weighted.value) +
    ∑ i, (s.workers i).outlay weight + s.taken.length

/-- The workers after a change of one of them. -/
theorem sum_outlay_setWorker (weight : S → ℕ) (s : RunState S R N) (i : Fin N) (w : Worker S R) :
    ∑ j, ((s.setWorker i w).workers j).outlay weight + (s.workers i).outlay weight =
      ∑ j, (s.workers j).outlay weight + w.outlay weight :=
  Pool.sum_update (Worker.outlay weight) s.workers i w

/-- The spending after a change of one worker and of the queue. -/
theorem spending_le_of_setWorker {i : Fin N} {w : Worker S R}
    (hworkers : s'.workers = (s.setWorker i w).workers)
    (h : totalWeight weight ((s'.specChannel ++ s'.receiveBuffer).map Weighted.value) +
        w.outlay weight + s'.taken.length ≤
      totalWeight weight ((s.specChannel ++ s.receiveBuffer).map Weighted.value) +
        (s.workers i).outlay weight + s.taken.length) :
    s'.spending weight ≤ s.spending weight := by
  have hsum := sum_outlay_setWorker weight s i w
  rw [← hworkers] at hsum
  simp only [spending]
  omega

/-- No step raises the spending, if items weigh more than what they send. -/
theorem spending_step {P : Weighted S → Prop}
    (hwork : ∀ item, P item →
      (cfg.work item).outlay (sendCost weight) (fun _ => 0) + 1 ≤ weight item.value)
    (h : Descended P s) (hs : Step cfg s s') : s'.spending weight ≤ s.spending weight := by
  obtain ⟨a, hmove⟩ := hs.move
  cases hmove with
  | advance i fail w hi hw halive hreturn =>
    refine spending_le_of_setWorker rfl ?_
    rw [Worker.outlay_of_program hi, Worker.outlay_of_program hw]
    exact le_rfl
  | receive i fail w weighted channel hi hw halive hreturn hchannel =>
    refine spending_le_of_setWorker rfl ?_
    rw [Worker.outlay_of_program hi, Worker.outlay_of_program hw, hchannel]
    exact (congrArg (· + 0 + s.taken.length)
      (totalWeight_perm (List.perm_middle.map Weighted.value))).le
  | take i fail weighted buffer hi halive hchannel hpop =>
    have hperm := BinaryHeap.pop_perm hpop
    have hP : P weighted :=
      h.queued weighted (List.mem_append_right _ (hperm.mem_iff.mpr List.mem_cons_self))
    have hqueue : totalWeight weight (s.receiveBuffer.map Weighted.value) =
        weight weighted.value + totalWeight weight (buffer.map Weighted.value) := by
      rw [totalWeight_perm (hperm.map Weighted.value), List.map_cons, totalWeight_cons]
    have hsend := hwork weighted hP
    refine spending_le_of_setWorker rfl ?_
    simp only [Worker.outlay_of_program hi, Worker.outlay_resume, setWorker, hchannel,
      List.nil_append, List.length_append, List.length_singleton]
    omega
  | request i fail item op k s₁ answer hi hperformed =>
    have hspent : (s.workers i).outlay weight =
        (ask op k).outlay (sendCost weight) fun _ => 0 := by
      rw [hi]
      rfl
    have hanswer : sendCost weight op answer + (k answer).outlay (sendCost weight) (fun _ => 0) ≤
        (ask op k).outlay (sendCost weight) fun _ => 0 := outlay_answer op k answer
    cases hperformed with
    | sendSpec weighted hroom =>
      have hqueue : totalWeight weight
          ((s.specChannel ++ [weighted] ++ s.receiveBuffer).map Weighted.value) =
            weight weighted.value +
              totalWeight weight ((s.specChannel ++ s.receiveBuffer).map Weighted.value) := by
        rw [List.append_assoc, List.singleton_append,
          totalWeight_perm (List.perm_middle.map Weighted.value), List.map_cons, totalWeight_cons]
      refine spending_le_of_setWorker rfl ?_
      simp only [sendCost, hspent, Worker.outlay_resume, setWorker, hqueue] at hanswer ⊢
      omega
    | _ =>
      refine spending_le_of_setWorker rfl ?_
      simp only [hspent, Worker.outlay_resume, setWorker] at hanswer ⊢
      omega
  | _ => exact le_rfl

/-- In every reachable state the spending is at most what the start items weigh. -/
theorem spending_of_reaches {P : Weighted S → Prop}
    (hdown : ∀ item, P item → ∀ u, MayAsk (cfg.work item) (.sendSpec u) → P u)
    (hwork : ∀ item, P item →
      (cfg.work item).outlay (sendCost weight) (fun _ => 0) + 1 ≤ weight item.value)
    {items : List (Weighted S)} (hitems : ∀ u ∈ items, P u) {maxReceiveBufferSize : ℕ}
    (h : Reaches cfg (init N items maxReceiveBufferSize) s) :
    s.spending weight ≤ totalWeight weight (items.map Weighted.value) := by
  induction h with
  | refl => simp [spending, init, Worker.outlay]
  | tail hreaches hs ih =>
    exact (spending_step hwork (descended_of_reaches hdown hitems hreaches) hs).trans ih

variable {callback : ReadDirCallback B E} {roots : List (ReadDirSpec B)} {capacity : ℕ}
  {hcapacity : 0 < capacity} {sendsMayFail : Bool} {maxReceiveBufferSize n : ℕ}

/-- **How many items a run takes at most**, in every interleaving, if lines of descent have at most
`n` members. -/
theorem length_taken_le {s : RunState (ReadDirSpec B) (ReadDirResult B E) N}
    (hbound : ∀ l, Lineage roots callback.Spawns l → l.length ≤ n)
    (hfrugal : ∀ spec ancestors, Lineage roots callback.Spawns (spec :: ancestors) →
      callback.Frugal spec)
    (h : Reaches (.walk callback capacity hcapacity sendsMayFail)
      (init N (rootItems roots) maxReceiveBufferSize) s) :
    s.taken.length ≤ totalWeight (Lineage.weight (fun _ => 1) callback.children n) roots := by
  set weight := Lineage.weight (fun _ => 1) callback.children n with hweight
  have hwork (item : Weighted (ReadDirSpec B)) (hitem : Descends roots callback item) :
      (multiThreadedWalkDir callback item).outlay (sendCost weight) (fun _ => 0) + 1 ≤
        weight item.value := by
    obtain ⟨ancestors, hlineage⟩ := hitem
    have hshallow : Lineage.Shallow callback.children n item.value :=
      hlineage.shallow (fun _ _ => ReadDirCallback.spawns_of_mem) hbound
    have hsend := outlay_multiThreadedWalkDir_le (hfrugal _ _ hlineage) weight
    rw [hweight, hshallow.weight_eq, ← hweight]
    exact (Nat.add_le_add_right hsend 1).trans (Nat.add_comm _ _).le
  have hspending := spending_of_reaches descends_of_mayAsk hwork descends_rootItems h
  have hroots : (rootItems roots).map Weighted.value = roots := by
    simp [rootItems, Function.comp_def]
  rw [hroots] at hspending
  exact (Nat.le_add_left _ _).trans hspending

end RunState

/-! ### The serial walk -/

/-- What a listing that the iterator is inside of adds to the turns that are left: two for each
entry, one of which is for a read that may be waited for, and one for its end. -/
def listingTurns (results : List (Except Error (DirEntry E))) : ℕ := 2 * results.length + 1

/-- What the result of a read adds to the turns that are left. -/
def resultTurns : Option (ReadDirResult B E) → ℕ
  | some (.ok readDir) => listingTurns readDir.resultsList
  | _ => 0

namespace IterState

variable {st : IterState E}

/-- A bound on the turns that are left without further reads. -/
def turnsLeft (st : IterState E) : ℕ :=
  totalWeight listingTurns st.iter.readDirResultsStack +
    (if st.awaiting.isSome then 1 else 0) + if st.finished then 0 else 1

theorem turnsLeft_emit (iter : DirEntryIter E) (dirEntry : DirEntry E) :
    (st.apply (iter.emit dirEntry)).turnsLeft =
      totalWeight listingTurns iter.readDirResultsStack + if st.finished then 0 else 1 := by
  by_cases hdepth : iter.minDepth ≤ dirEntry.depth <;>
    simp [DirEntryIter.emit, hdepth, apply, turnsLeft]

/-- A turn before the end is counted. -/
theorem turnsLeft_turn (hawaiting : st.awaiting = none) (hfinished : st.finished = false) :
    st.turn.turnsLeft < st.turnsLeft := by
  unfold turn DirEntryIter.turn
  split
  · simp [apply, turnsLeft, hawaiting, hfinished]
  · rename_i stack hstack
    simp [apply, turnsLeft, hawaiting, hfinished, hstack, listingTurns]
  · rename_i err results stack hstack
    simp only [apply, turnsLeft, hawaiting, hfinished, hstack, totalWeight_cons, listingTurns,
      List.length_cons]
    omega
  · rename_i dirEntry results stack hstack
    have hleft : st.turnsLeft = listingTurns results + 2 + totalWeight listingTurns stack + 1 := by
      simp only [turnsLeft, hawaiting, hfinished, hstack, totalWeight_cons, listingTurns,
        List.length_cons, Option.isSome_none, Bool.false_eq_true, ↓reduceIte]
      omega
    rw [hleft]
    dsimp only
    split_ifs
    · simp only [apply, turnsLeft, hfinished, totalWeight_cons, Option.isSome_some, ↓reduceIte,
        Bool.false_eq_true]
      omega
    · simp only [apply, turnsLeft, hfinished, totalWeight_cons, Option.isSome_none, ↓reduceIte,
        Bool.false_eq_true]
      omega
    · rw [turnsLeft_emit]
      simp only [hfinished, totalWeight_cons, Bool.false_eq_true, ↓reduceIte]
      omega

/-- The rest of a turn is counted once the read is there. -/
theorem turnsLeft_resume {dirEntry : DirEntry E} (hawaiting : st.awaiting = some dirEntry)
    (result : Option (ReadDirResult B E)) :
    (st.resume dirEntry result).turnsLeft < st.turnsLeft + resultTurns result := by
  have hleft : st.turnsLeft = totalWeight listingTurns st.iter.readDirResultsStack + 1 +
      if st.finished then 0 else 1 := by
    simp [turnsLeft, hawaiting]
  rw [hleft, resume]
  rcases result with - | err | readDir
  · simp only [DirEntryIter.resume, turnsLeft_emit, resultTurns]
    omega
  · simp only [DirEntryIter.resume, turnsLeft_emit, resultTurns]
    omega
  · simp only [DirEntryIter.resume, turnsLeft_emit, resultTurns, totalWeight_cons]
    omega

end IterState

namespace SerialWalk

variable {callback : ReadDirCallback B E} {w : SerialWalk B E} {n : ℕ}

/-- The turns that a read and its descendants add. -/
def specTurns (callback : ReadDirCallback B E) (n : ℕ) : ReadDirSpec B → ℕ :=
  Lineage.weight (fun spec => resultTurns (some (callback.read spec))) callback.children n

/-- A bound on the turns that are left. -/
def turnsLeft (callback : ReadDirCallback B E) (n : ℕ) (w : SerialWalk B E) : ℕ :=
  totalWeight (specTurns callback n) w.serial.readDirSpecStack + w.iter.turnsLeft

/-- The reads on the stack are shallow. -/
def StackShallow (callback : ReadDirCallback B E) (n : ℕ) (w : SerialWalk B E) : Prop :=
  ∀ spec ∈ w.serial.readDirSpecStack, Lineage.Shallow callback.children n spec

theorem StackShallow.step (h : w.StackShallow callback n) :
    (w.step callback).StackShallow callback n := by
  unfold SerialWalk.step
  cases hawaiting : w.iter.awaiting with
  | none =>
    dsimp only
    split_ifs
    · exact h
    · exact h
  | some dirEntry =>
    simp only [SerialIter.next]
    cases hstack : w.serial.readDirSpecStack with
    | nil => exact h
    | cons spec stack =>
      intro child hchild
      simp only [StackShallow, hstack] at h
      rcases List.mem_append.mp hchild with hchild | hchild
      · exact (h spec List.mem_cons_self).child hchild
      · exact h child (List.mem_cons_of_mem _ hchild)

/-- Every turn before the end is counted. -/
theorem turnsLeft_step (h : w.StackShallow callback n) (hfinished : w.iter.finished = false) :
    (w.step callback).turnsLeft callback n < w.turnsLeft callback n := by
  unfold SerialWalk.step
  cases hawaiting : w.iter.awaiting with
  | none =>
    have hturn := IterState.turnsLeft_turn hawaiting hfinished
    simp only [hfinished, Bool.false_eq_true, ↓reduceIte, turnsLeft]
    omega
  | some dirEntry =>
    have hresume := IterState.turnsLeft_resume (B := B) hawaiting
    simp only [SerialIter.next]
    cases hstack : w.serial.readDirSpecStack with
    | nil =>
      have := hresume none
      simp only [resultTurns, turnsLeft, hstack] at this ⊢
      omega
    | cons spec stack =>
      have := hresume (some (callback.read spec))
      have hspec : specTurns callback n spec = resultTurns (some (callback.read spec)) +
          totalWeight (specTurns callback n) (callback.children spec) :=
        (h spec (by simp [hstack])).weight_eq _
      have hsplit : totalWeight (specTurns callback n) (callback.children spec ++ stack) =
          totalWeight (specTurns callback n) (callback.children spec) +
            totalWeight (specTurns callback n) stack := by
        simp [totalWeight]
      simp only [turnsLeft, hstack, totalWeight_cons, hspec]
      rw [← ReadDirCallback.children, hsplit]
      omega

/-- A walk whose reads are shallow comes to its end. -/
theorem StackShallow.exists_finished (h : w.StackShallow callback n) :
    ∃ k, (w.steps callback k).iter.finished = true := by
  by_contra hnever
  simp only [not_exists, Bool.not_eq_true] at hnever
  have hcount (k : ℕ) : (w.steps callback k).StackShallow callback n ∧
      (w.steps callback k).turnsLeft callback n + k ≤ w.turnsLeft callback n := by
    induction k with
    | zero => exact ⟨h, le_rfl⟩
    | succ k ih =>
      have hstep := turnsLeft_step ih.1 (hnever k)
      refine ⟨ih.1.step, ?_⟩
      rw [SerialWalk.steps]
      omega
  have := (hcount (w.turnsLeft callback n + 1)).2
  omega

end SerialWalk

end JwalkMeta
