import JwalkMeta.Run.Serial
import JwalkMeta.WalkDir.DepthFirst

/-!
# What a walk hands to its iterator

The reads of the serial walk descend from the roots. In a parallel walk every result that the
consumer hands out is the result of an item that has been taken, whatever the interleaving, and
whether or not the walk is stopped. So the errors that a walk surfaces are those of the root entries
and of the results of its reads, and the one that says that the results have ended early.

## Main definitions

* `SerialWalk.StackDescends`: the reads on the stack descend from the roots.
* `Consumer.Draws`: the consumer hands out nothing but results that it could reach.
* `RunState.Delivered`: all results of a state are results of items that have been taken.
* `Carries`, `IterState.Carries`: all errors have a property.

## Main results

* `SerialWalk.StackDescends.of_mem_reads`: every read of the serial walk descends from a root.
* `RunState.delivered_of_reaches`: every result that is handed out is one of an item.
* `SerialWalk.carries_steps`, `ParWalk.carries_of_reaches`: where the errors of a walk come from.
-/

namespace JwalkMeta

open Interaction

variable {S R B E T : Type} {N : ℕ}

/-! ### The consumer -/

namespace Consumer

variable {channel channel' : List (Ordered T)} {c c' : Consumer T}

/-- What the consumer has after a step it could reach before, and so could it reach what it has
handed out. -/
structure Draws (channel : List (Ordered T)) (c : Consumer T) (channel' : List (Ordered T))
    (c' : Consumer T) : Prop where
  atHand : ∀ o ∈ atHand channel' c', o ∈ Consumer.atHand channel c
  nexts : ∀ o, some o ∈ c'.nexts → some o ∈ c.nexts ∨ o ∈ Consumer.atHand channel c

theorem draws_pc (channel : List (Ordered T)) (c : Consumer T) (pc : NextPc) :
    Draws channel c channel { c with pc := pc } :=
  ⟨fun _ => id, fun _ => Or.inl⟩

theorem draws_receive (o : Ordered T) (channel : List (Ordered T)) (c : Consumer T) (pc : NextPc) :
    Draws (o :: channel) c channel (c.receive o pc) := by
  refine ⟨fun u hu => ?_, fun _ => Or.inl⟩
  rcases List.mem_append.mp hu with hu | hu
  · exact List.mem_cons_of_mem _ (List.mem_append_left _ hu)
  · rcases List.mem_cons.mp hu with rfl | hu
    · exact List.mem_cons_self
    · exact List.mem_cons_of_mem _ (List.mem_append_right _ hu)

theorem draws_giveUp (channel : List (Ordered T)) (c : Consumer T) :
    Draws channel c channel c.giveUp :=
  ⟨fun _ => id, fun o ho => Or.inl (by simpa [giveUp] using ho)⟩

/-- Handing out an element of the receive buffer. -/
theorem draws_of_pop {o : Ordered T} {buffer : List (Ordered T)}
    (hpop : BinaryHeap.pop c.iter.receiveBuffer = some (o, buffer))
    (hbuffer : c'.iter.receiveBuffer = buffer) (hnexts : c'.nexts = c.nexts ++ [some o]) :
    Draws channel c channel c' := by
  have hperm := BinaryHeap.pop_perm hpop
  refine ⟨fun u hu => ?_, fun u hu => ?_⟩
  · rcases List.mem_append.mp hu with hu | hu
    · exact List.mem_append_left _ hu
    · rw [hbuffer] at hu
      exact List.mem_append_right _ (hperm.mem_iff.mpr (List.mem_cons_of_mem _ hu))
  · rw [hnexts, List.mem_append] at hu
    refine hu.imp_right fun hu => ?_
    obtain rfl := Option.some.inj (List.mem_singleton.mp hu)
    exact List.mem_append_right _ (hperm.mem_iff.mpr List.mem_cons_self)

theorem draws_takeTop (channel : List (Ordered T)) (c : Consumer T) :
    Draws channel c channel c.takeTop := by
  unfold takeTop
  split
  · exact draws_pc channel c _
  · rename_i ordered rest hpop
    split
    · exact draws_pc channel c _
    · exact draws_of_pop hpop rfl rfl

theorem draws_afterDrain (channel : List (Ordered T)) (c : Consumer T) :
    Draws channel c channel c.afterDrain := by
  unfold afterDrain
  split_ifs
  · exact draws_takeTop channel c
  · exact draws_giveUp channel c
  · exact draws_pc channel c _

theorem draws_afterDisconnect (channel : List (Ordered T)) (c : Consumer T) :
    Draws channel c channel c.afterDisconnect := by
  unfold afterDisconnect
  split_ifs
  · exact draws_takeTop channel c
  · split
    · exact draws_giveUp channel c
    · rename_i fallback rest hpop
      exact draws_of_pop hpop rfl rfl

theorem draws_drainChannel {after : Consumer T → Consumer T}
    (hafter : ∀ channel, Draws channel c channel (after c)) :
    Draws channel c (drainChannel after channel c).1 (drainChannel after channel c).2 := by
  unfold drainChannel
  split_ifs
  · split
    · exact hafter []
    · exact draws_receive _ _ c _
  · exact hafter channel

/-- **A step of the consumer** hands out nothing but results that it could reach. -/
theorem draws_of_step {stop gone expired : Bool}
    (h : c.step stop gone expired channel = some (channel', c')) :
    Draws channel c channel' c' := by
  unfold step at h
  cases hpc : c.pc with
  | idle =>
    simp only [hpc] at h
    obtain ⟨rfl, rfl⟩ := Prod.mk.inj (Option.some.inj h)
    exact draws_pc channel c _
  | top =>
    simp only [hpc] at h
    split_ifs at h
    · obtain ⟨rfl, rfl⟩ := Prod.mk.inj (Option.some.inj h)
      exact draws_giveUp channel c
    · obtain ⟨rfl, rfl⟩ := Prod.mk.inj (Option.some.inj h)
      exact draws_takeTop channel c
    · obtain ⟨rfl, rfl⟩ := Prod.mk.inj (Option.some.inj h)
      exact draws_pc channel c _
  | drain =>
    simp only [hpc] at h
    obtain ⟨rfl, rfl⟩ := Prod.mk.inj (Option.some.inj h)
    exact draws_drainChannel fun channel => draws_afterDrain channel c
  | deadline =>
    simp only [hpc] at h
    obtain ⟨rfl, rfl⟩ := Prod.mk.inj (Option.some.inj h)
    exact draws_pc channel c _
  | recv =>
    cases channel with
    | nil =>
      simp only [hpc] at h
      obtain ⟨rfl, rfl⟩ := Prod.mk.inj (Option.some.inj h)
      exact draws_pc [] c _
    | cons ordered channel =>
      simp only [hpc] at h
      obtain ⟨rfl, rfl⟩ := Prod.mk.inj (Option.some.inj h)
      exact draws_receive ordered channel c _
  | disconnected =>
    simp only [hpc] at h
    obtain ⟨rfl, rfl⟩ := Prod.mk.inj (Option.some.inj h)
    exact draws_drainChannel fun channel => draws_afterDisconnect channel c
  | panicked =>
    simp only [hpc] at h
    cases h

end Consumer

/-! ### The results of a run -/

namespace RunState

variable {Q : Weighted S → Ordered R → Prop} {cfg : Config S R} {s s' : RunState S R N}

theorem taken_subset_of_step (hs : Step cfg s s') : s.taken ⊆ s'.taken := by
  obtain ⟨a, hmove⟩ := hs.move
  cases hmove with
  | take i fail weighted buffer hi halive hchannel hpop => exact List.subset_append_left _ _
  | request i fail item op k s₁ answer hi hperformed =>
    cases hperformed <;> exact List.Subset.refl _
  | _ => exact List.Subset.refl _

theorem taken_subset_of_reaches (h : Reaches cfg s s') : s.taken ⊆ s'.taken := by
  induction h with
  | refl => exact List.Subset.refl _
  | tail _ hs ih => exact List.Subset.trans ih (taken_subset_of_step hs)

/-- A result of an item that has been taken. -/
def IsResult (Q : Weighted S → Ordered R → Prop) (s : RunState S R N) (o : Ordered R) : Prop :=
  ∃ item ∈ s.taken, Q item o

/-- The results that the workers may still send, those that the consumer can reach and those that it
has handed out are results of items that have been taken. -/
structure Delivered (Q : Weighted S → Ordered R → Prop) (s : RunState S R N) : Prop where
  sending : ∀ i p, (s.workers i).program = some p → ∀ o, MayAsk p (.sendResult o) → s.IsResult Q o
  atHand : ∀ o ∈ s.consumer.atHand s.resultChannel, s.IsResult Q o
  nexts : ∀ o, some o ∈ s.consumer.nexts → s.IsResult Q o

theorem IsResult.mono {o : Ordered R} (h : s.IsResult Q o) (htaken : s.taken ⊆ s'.taken) :
    s'.IsResult Q o := by
  obtain ⟨item, hitem, hQ⟩ := h
  exact ⟨item, htaken hitem, hQ⟩

/-- Replacing a worker by one that sends results of taken items only. -/
theorem Delivered.sending_setWorker (h : Delivered Q s) {i : Fin N} {w : Worker S R}
    (hw : ∀ p, w.program = some p → ∀ o, MayAsk p (.sendResult o) → s.IsResult Q o) (j : Fin N)
    (p : WorkerProgram S R Unit) (hp : ((s.setWorker i w).workers j).program = some p)
    (o : Ordered R) (ho : MayAsk p (.sendResult o)) : s.IsResult Q o :=
  forall_workers_setWorker (p := fun w => ∀ p, w.program = some p →
    ∀ o, MayAsk p (.sendResult o) → s.IsResult Q o) h.sending hw j p hp o ho

/-- Every step keeps track of where results come from. -/
theorem Delivered.step (hwork : ∀ item o, MayAsk (cfg.work item) (.sendResult o) → Q item o)
    (h : Delivered Q s) (hs : Step cfg s s') : Delivered Q s' := by
  have htaken := taken_subset_of_step hs
  obtain ⟨a, hmove⟩ := hs.move
  cases hmove with
  | advance i fail w hi hw halive hreturn =>
    exact ⟨h.sending_setWorker (by simp [hw]), h.atHand, h.nexts⟩
  | receive i fail w weighted channel hi hw halive hreturn hchannel =>
    exact ⟨h.sending_setWorker (by simp [hw]), h.atHand, h.nexts⟩
  | take i fail weighted buffer hi halive hchannel hpop =>
    refine ⟨fun j p hp o ho => ?_, fun o ho => (h.atHand o ho).mono htaken,
      fun o ho => (h.nexts o ho).mono htaken⟩
    by_cases hj : j = i
    · -- the worker goes on with the item that it has taken
      rw [hj] at hp
      change (Function.update s.workers i _ i).program = some p at hp
      rw [Function.update_self] at hp
      exact ⟨weighted, List.mem_append_right _ List.mem_cons_self,
        hwork weighted o (mayAsk_of_resume hp ho)⟩
    · change (Function.update s.workers i _ j).program = some p at hp
      rw [Function.update_of_ne hj] at hp
      exact (h.sending j p hp o ho).mono htaken
  | request i fail item op k s₁ answer hi hperformed =>
    have hsending (o : Ordered R) (ho : MayAsk (.ask op k) (.sendResult o)) : s.IsResult Q o :=
      h.sending i _ (by rw [hi]; rfl) o ho
    have hrest (p : WorkerProgram S R Unit)
        (hp : (Worker.resume item (k answer) : Worker S R).program = some p) (o : Ordered R)
        (ho : MayAsk p (.sendResult o)) : s.IsResult Q o :=
      hsending o (.later answer (mayAsk_of_resume hp ho))
    have h₁ : Delivered Q s₁ ∧ s₁.taken = s.taken := by
      cases hperformed with
      | sendResult ordered hreceiver hroom =>
        refine ⟨⟨h.sending, fun o ho => ?_, h.nexts⟩, rfl⟩
        have hmem : o ∈ ordered :: s.consumer.atHand s.resultChannel := by
          simp only [Consumer.atHand, List.append_assoc, List.singleton_append] at ho ⊢
          exact List.perm_middle.mem_iff.mp ho
        rcases List.mem_cons.mp hmem with rfl | hmem
        · exact hsending o (.here _ k)
        · exact h.atHand o hmem
      | _ => exact ⟨⟨h.sending, h.atHand, h.nexts⟩, rfl⟩
    refine ⟨h₁.1.sending_setWorker fun p hp o ho => ?_, h₁.1.atHand, h₁.1.nexts⟩
    exact (hrest p hp o ho).mono (by rw [h₁.2]; exact List.Subset.refl _)
  | consume expired channel consumer hreceiver hstep =>
    have hdraws := Consumer.draws_of_step hstep
    refine ⟨h.sending, fun o ho => h.atHand o (hdraws.atHand o ho), fun o ho => ?_⟩
    exact (hdraws.nexts o ho).elim (h.nexts o) (h.atHand o)
  | _ => exact ⟨h.sending, h.atHand, h.nexts⟩

/-- **Every result that the consumer hands out is the result of an item that has been taken**, in
every reachable state. -/
theorem delivered_of_reaches (hwork : ∀ item o, MayAsk (cfg.work item) (.sendResult o) → Q item o)
    {items : List (Weighted S)} {maxReceiveBufferSize : ℕ}
    (h : Reaches cfg (init N items maxReceiveBufferSize) s) : Delivered Q s := by
  refine h.invariant ⟨?_, ?_, ?_⟩ fun _ _ h hs => h.step hwork hs
  · intro i p hp
    cases hp
  · simp [init, Consumer.atHand, Consumer.new]
  · simp [init, Consumer.new]

end RunState

/-! ### The results of a walk -/

section Results

variable {callback : ReadDirCallback B E} {weighted : Weighted (ReadDirSpec B)}

theorem not_mayAsk_push {item : Weighted S} {o : Ordered R} :
    ¬ MayAsk (push item : WorkerProgram S R Bool) (.sendResult o) := by
  intro h
  simp only [push, request_bind, mayAsk_ask, reduceCtorEq, false_or] at h
  obtain ⟨-, answer, h⟩ := h
  cases answer <;> simp at h

theorem not_mayAsk_scheduleAll {items : List (Weighted S)} {o : Ordered R} :
    ¬ MayAsk (scheduleAll items : WorkerProgram S R Unit) (.sendResult o) := by
  induction items with
  | nil => exact mayAsk_done
  | cons each rest ih =>
    intro h
    rcases mayAsk_bind.mp h with h | ⟨answer, -, h⟩
    · exact not_mayAsk_push h
    · cases answer with
      | true => exact ih h
      | false => exact mayAsk_done h

/-- What a worker sends is the result of the read of its item. -/
theorem mayReturn_of_sendResult {o : Ordered (ReadDirResult B E)}
    (h : MayAsk (multiThreadedWalkDir callback weighted) (.sendResult o)) :
    MayReturn (callback weighted.value (some ⟨weighted.indexPath, weighted.weight⟩)) o.value := by
  obtain h | h | ⟨streamOp, -, hsend⟩ | ⟨result, hresult, h | h⟩ := mayAsk_multiThreadedWalkDir h
  · cases h
  · cases h
  · -- while the directory is enumerated nothing is sent
    cases streamOp with
    | isStopped => simp [StreamOp.handle, request] at hsend
    | schedule weighted' => exact absurd hsend not_mayAsk_push
  · cases h
    exact hresult
  · exact absurd h not_mayAsk_scheduleAll

end Results

/-! ### The errors that are surfaced -/

/-- An item surfaces errors with a property only: as an error item, or as the error of a read. -/
def Carries (P : Error → Prop) : Except Error (DirEntry E) → Prop
  | .error err => P err
  | .ok dirEntry => ∀ err ∈ dirEntry.readChildrenError, P err

/-- The result of a read brings errors with a property only. -/
def ReadDirResult.Carries (P : Error → Prop) : ReadDirResult B E → Prop
  | .error err => P err
  | .ok readDir => ∀ result ∈ readDir.resultsList, JwalkMeta.Carries P result

namespace IterState

variable {P : Error → Prop} {st : IterState E}

/-- The listings that the iterator is inside of and the items that it has yielded surface errors
with a property only. -/
structure Carries (P : Error → Prop) (st : IterState E) : Prop where
  stack : ∀ results ∈ st.iter.readDirResultsStack, ∀ result ∈ results, JwalkMeta.Carries P result
  awaiting : ∀ dirEntry ∈ st.awaiting, JwalkMeta.Carries P (.ok dirEntry)
  items : ∀ item ∈ st.items, JwalkMeta.Carries P item

theorem carries_new {results : List (Except Error (DirEntry E))} {minDepth : ℕ}
    (h : ∀ result ∈ results, JwalkMeta.Carries P result) :
    (IterState.new results minDepth).Carries P := by
  refine ⟨?_, ?_, ?_⟩
  · simpa [IterState.new] using h
  · simp [IterState.new]
  · simp [IterState.new]

/-- Returning an entry. -/
theorem Carries.emit (h : st.Carries P) {iter : DirEntryIter E} {dirEntry : DirEntry E}
    (hstack : ∀ results ∈ iter.readDirResultsStack, ∀ result ∈ results, JwalkMeta.Carries P result)
    (hentry : JwalkMeta.Carries P (.ok dirEntry)) :
    (st.apply (iter.emit dirEntry)).Carries P := by
  rw [apply_emit]
  refine ⟨hstack, by simp, fun item hitem => ?_⟩
  rcases List.mem_append.mp hitem with hitem | hitem
  · exact h.items item hitem
  · unfold emitted at hitem
    split_ifs at hitem
    · rwa [List.mem_singleton.mp hitem]
    · exact absurd hitem List.not_mem_nil

/-- A turn yields what the listings hold. -/
theorem Carries.turn (hbusy : P Error.busy) (h : st.Carries P) : st.turn.Carries P := by
  unfold IterState.turn DirEntryIter.turn
  have hyield {item : Except Error (DirEntry E)} (hitem : JwalkMeta.Carries P item) :
      ∀ item' ∈ st.items ++ [item], JwalkMeta.Carries P item' := by
    simpa [or_imp, forall_and] using ⟨h.items, hitem⟩
  split
  · exact ⟨h.stack, h.awaiting, h.items⟩
  · rename_i stack hstack
    refine ⟨fun results hresults => h.stack results ?_, by simp [apply], h.items⟩
    rw [hstack]
    exact List.mem_cons_of_mem _ hresults
  · rename_i err results stack hstack
    have hstack' := h.stack
    rw [hstack, List.forall_mem_cons, List.forall_mem_cons] at hstack'
    exact ⟨List.forall_mem_cons.mpr ⟨hstack'.1.2, hstack'.2⟩, by simp [apply],
      hyield hstack'.1.1⟩
  · rename_i dirEntry results stack hstack
    have hstack' := h.stack
    rw [hstack, List.forall_mem_cons, List.forall_mem_cons] at hstack'
    have hrest := List.forall_mem_cons.mpr ⟨hstack'.1.2, hstack'.2⟩
    dsimp only
    split_ifs
    · exact ⟨hrest, by simpa [apply] using hstack'.1.1, h.items⟩
    · exact ⟨hrest, by simp [apply], hyield hbusy⟩
    · exact h.emit hrest hstack'.1.1

/-- The rest of a turn, once the read is there. -/
theorem Carries.resume (hbusy : P Error.busy) (h : st.Carries P) {dirEntry : DirEntry E}
    (hawaiting : st.awaiting = some dirEntry) {result : Option (ReadDirResult B E)}
    (hresult : ∀ readDir ∈ result, ReadDirResult.Carries P readDir) :
    (st.resume dirEntry result).Carries P := by
  unfold IterState.resume DirEntryIter.resume
  split
  · exact h.emit h.stack (by simpa [JwalkMeta.Carries] using hbusy)
  · rename_i err
    have herr : P err := hresult _ rfl
    exact h.emit h.stack (by simpa [JwalkMeta.Carries] using herr)
  · rename_i readDir
    have hresults : ∀ result ∈ readDir.resultsList, JwalkMeta.Carries P result := hresult _ rfl
    exact h.emit (List.forall_mem_cons.mpr ⟨hresults, h.stack⟩) (h.awaiting _ hawaiting)

end IterState

/-! ### The reads of the serial walk -/

namespace SerialWalk

variable {callback : ReadDirCallback B E} {roots : List (ReadDirSpec B)} {w : SerialWalk B E}

/-- The reads on the stack descend from the roots. -/
def StackDescends (roots : List (ReadDirSpec B)) (callback : ReadDirCallback B E)
    (w : SerialWalk B E) : Prop :=
  ∀ spec ∈ w.serial.readDirSpecStack, ∃ chain, Lineage roots callback.Spawns (spec :: chain)

theorem StackDescends.step (h : w.StackDescends roots callback) :
    (w.step callback).StackDescends roots callback := by
  unfold SerialWalk.step
  cases hawaiting : w.iter.awaiting with
  | none =>
    simp only
    split_ifs
    · exact h
    · exact h
  | some dirEntry =>
    intro spec hspec
    simp only [SerialIter.next] at hspec
    cases hstack : w.serial.readDirSpecStack with
    | nil =>
      rw [hstack] at hspec
      exact h spec hspec
    | cons parent stack =>
      simp only [hstack, List.mem_append] at hspec
      rcases hspec with hchild | hrest
      · -- the read that is made hands down to the reads that take its place
        obtain ⟨chain, hchain⟩ := h parent (by rw [hstack]; exact List.mem_cons_self)
        exact ⟨parent :: chain, hchain.child (ReadDirCallback.spawns_of_mem hchild)⟩
      · exact h spec (by rw [hstack]; exact List.mem_cons_of_mem _ hrest)

theorem StackDescends.steps (h : w.StackDescends roots callback) (n : ℕ) :
    (w.steps callback n).StackDescends roots callback := by
  induction n with
  | zero => exact h
  | succ n ih => exact ih.step

/-- **Every read of the serial walk descends from a root.** -/
theorem StackDescends.of_mem_reads (h : w.StackDescends roots callback) {n : ℕ}
    {spec : ReadDirSpec B} (hspec : spec ∈ w.reads callback n) :
    ∃ chain, Lineage roots callback.Spawns (spec :: chain) := by
  induction n with
  | zero => simp [reads] at hspec
  | succ n ih =>
    rw [reads, List.mem_append] at hspec
    rcases hspec with hspec | hspec
    · exact ih hspec
    · rw [nextRead, Option.mem_toList] at hspec
      split_ifs at hspec
      exact h.steps n spec (List.mem_of_head? hspec)

theorem stackDescends_serialWalk (root : B × List (Except Error (DirEntry E))) (minDepth : ℕ) :
    (serialWalk root minDepth).StackDescends (rootSpecs root) callback := fun _ hspec =>
  ⟨[], .root (List.mem_reverse.mp hspec)⟩

end SerialWalk

/-! ### The errors of both walks -/

section Walks

variable {P : Error → Prop} {callback : ReadDirCallback B E}

/-- **Where the errors of the serial walk come from**: the root entries, and the reads that it has
made. -/
theorem SerialWalk.carries_steps {w : SerialWalk B E} (hbusy : P Error.busy)
    (h : w.iter.Carries P) {n : ℕ}
    (hreads : ∀ spec ∈ w.reads callback n, ReadDirResult.Carries P (callback.read spec)) :
    (w.steps callback n).iter.Carries P := by
  induction n with
  | zero => exact h
  | succ n ih =>
    have hn := ih fun spec hspec => hreads spec (List.mem_append_left _ hspec)
    rw [SerialWalk.steps]
    unfold SerialWalk.step
    cases hawaiting : (w.steps callback n).iter.awaiting with
    | none =>
      simp only
      split_ifs
      · exact hn
      · exact hn.turn hbusy
    | some dirEntry =>
      refine hn.resume hbusy hawaiting fun result hresult => ?_
      cases hstack : (w.steps callback n).serial.readDirSpecStack with
      | nil => simp [SerialIter.next, hstack] at hresult
      | cons spec stack =>
        simp only [SerialIter.next, hstack, Option.mem_def, Option.some.injEq] at hresult
        subst hresult
        refine hreads spec (List.mem_append_right _ ?_)
        simp [SerialWalk.nextRead, hawaiting, hstack]

variable {capacity : ℕ} {hcapacity : 0 < capacity} {sendsMayFail : Bool}
  {maxReceiveBufferSize minDepth : ℕ} {root : B × List (Except Error (DirEntry E))}

/-- The results that a parallel walk is handed are results of the reads of its items. -/
theorem ParWalk.delivered_of_reaches {w : ParWalk B E N}
    (h : ParWalk.Reaches (.walk callback capacity hcapacity sendsMayFail)
      (.init N root minDepth maxReceiveBufferSize) w) :
    w.run.Delivered fun item o =>
      MayReturn (callback item.value (some ⟨item.indexPath, item.weight⟩)) o.value :=
  RunState.delivered_of_reaches (fun _ _ => mayReturn_of_sendResult) h.run

/-- **Where the errors of a parallel walk come from**: the root entries, and the reads of the items
that it has taken. -/
theorem ParWalk.carries_of_reaches {w : ParWalk B E N} (hbusy : P Error.busy)
    (hroot : ∀ result ∈ root.2, Carries P result)
    (h : ParWalk.Reaches (.walk callback capacity hcapacity sendsMayFail)
      (.init N root minDepth maxReceiveBufferSize) w)
    (hreads : ∀ item ∈ w.run.taken, ∀ result,
      MayReturn (callback item.value (some ⟨item.indexPath, item.weight⟩)) result →
        ReadDirResult.Carries P result) :
    w.iter.Carries P := by
  induction h with
  | refl => exact IterState.carries_new hroot
  | @tail w w' hreaches hs ih =>
    obtain ⟨a, ha⟩ := hs
    have hmove := ParWalk.move_of_step ha
    have hw := ih fun item hitem => hreads item
      (RunState.taken_subset_of_reaches hmove.run_reaches hitem)
    cases hmove with
    | turn hfinished hawaiting => exact hw.turn hbusy
    | run run hstep hconsumer => exact hw
    | consume dirEntry expired channel consumer hawaiting hstep hreceiver hreturned => exact hw
    | deliver dirEntry expired channel consumer result hawaiting hstep hreceiver hreturned =>
      refine hw.resume hbusy hawaiting fun readDir hreadDir => ?_
      obtain ⟨o, rfl, rfl⟩ := Option.map_eq_some_iff.mp hreadDir
      -- the result that is handed out is that of an item
      have hnext : some o ∈ consumer.nexts := List.mem_of_mem_drop (List.mem_of_head? hreturned)
      obtain ⟨item, hitem, hresult⟩ :=
        (ParWalk.delivered_of_reaches (hreaches.tail ⟨a, ha⟩)).nexts o hnext
      exact hreads item hitem o.value hresult

end Walks

end JwalkMeta
