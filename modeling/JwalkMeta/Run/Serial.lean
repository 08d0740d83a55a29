import JwalkMeta.Run.Descent
import JwalkMeta.WalkDir.DepthFirst
import JwalkMeta.WalkDir.Streaming

/-!
# The parallel walk yields what the serial walk yields

Without streaming the child reads of a directory are decided by its result alone. Every index path
then stands for one directory read (`specAt`), and the results that the ordered queue hands out are
those of the reads that its cursor passes. The serial walk keeps the same reads on its stack, so it
follows every interleaving of the parallel walk step by step.

## Main definitions

* `Unstreamed`: a core callback that makes no use of its streaming context.
* `specAt`: the directory read at an index path.
* `Follows`: the serial walk stands where the parallel walk stands.
* `Traces`: a course of the serial walk that has made the reads that the parallel walk has handed
  out.

## Main results

* `unstreamed_coreReadDirCallback`: sorting or a client's callback rules out streaming.
* `ParWalk.yields_serial`: a parallel walk that has ended has yielded what the serial walk yields.
-/

namespace JwalkMeta

open Interaction Frontier

variable {B E : Type} {N : ℕ}

/-! ### Callbacks that do not stream -/

/-- A core callback that makes no use of its streaming context. -/
structure Unstreamed (callback : ReadDirCallback B E) : Prop where
  result_eq : ∀ weighted, callback.result weighted = callback.read weighted.value
  streamed_eq : ∀ weighted, callback.streamed weighted = []
  count_eq : ∀ weighted, streamedCount (callback.result weighted) = 0

/-- A program that asks for nothing has one value. -/
theorem value_eq_of_asked {Q A α : Type} {ρ ρ' : Q → A} {p : Interaction Q A α}
    (h : asked ρ p = []) : value ρ p = value ρ' p := by
  cases p with
  | done a => rfl
  | ask q k => simp at h

theorem unstreamed_of_context {callback : ReadDirCallback B E}
    (hctx : ∀ spec ctx, callback spec ctx = callback spec none)
    (hsilent : ∀ spec, asked StreamOp.unstopped (callback spec none) = [] ∧
      streamedCount (value StreamOp.unstopped (callback spec none)) = 0) : Unstreamed callback := by
  refine ⟨fun weighted => ?_, fun weighted => ?_, fun weighted => ?_⟩
  · rw [ReadDirCallback.result, hctx, ReadDirCallback.read]
    exact value_eq_of_asked (hsilent _).1
  · rw [ReadDirCallback.streamed, hctx, (hsilent _).1]
    rfl
  · rw [ReadDirCallback.result, hctx]
    exact (hsilent _).2

/-- Retries of an operation whose next attempt does not depend on its context. -/
theorem retryTransientIo_context (platform : Platform)
    (op : ℕ → Option StreamingContext →
      Interaction (StreamOp (ReadDirSpec B)) Bool (ReadDirResult B E)) (retries attempt : ℕ)
    (ctx : Option StreamingContext) (hop : op attempt ctx = op attempt none) :
    retryTransientIo platform op retries attempt ctx =
      retryTransientIo platform op retries attempt none := by
  cases retries with
  | zero => exact hop
  | succ retries => rw [retryTransientIo, retryTransientIo, hop]

section Options

variable {opts : WalkDirOptions B E}
  (hopts : opts.sort = true ∨ opts.processReadDir.isSome = true)

include hopts

theorem streaming_eq_none (req : ReadRequest B) : opts.streaming req = none := by
  rcases hopts with h | h
  · simp [WalkDirOptions.streaming, h]
  · cases hp : opts.processReadDir with
    | none => simp [hp] at h
    | some process => simp [WalkDirOptions.streaming, hp]

/-- Without streaming a read does not depend on its context. -/
theorem readDirOn_context [Inhabited E] (os : OperatingSystem) (attempt : ℕ) (req : ReadRequest B)
    (ctx : Option StreamingContext) :
    readDirOn (E := E) os opts attempt { req with streamingCtx := ctx } =
      readDirOn os opts attempt { req with streamingCtx := none } := by
  have hstream (records : List LinuxDirEntryOwned) (ctx : Option StreamingContext)
      (isSubdir skip : LinuxDirEntryOwned → Bool) (name : LinuxDirEntryOwned → OsString) :
      streamSubdirs opts { req with streamingCtx := ctx } isSubdir skip name records = pure 0 := by
    rw [streamSubdirs, streaming_eq_none hopts]
  have hstream' (records : List DirEntryInfo) (ctx : Option StreamingContext)
      (isSubdir skip : DirEntryInfo → Bool) (name : DirEntryInfo → OsString) :
      streamSubdirs opts { req with streamingCtx := ctx } isSubdir skip name records = pure 0 := by
    rw [streamSubdirs, streaming_eq_none hopts]
  cases os with
  | linux calls =>
    simp only [readDirOn, readDirLinuxViaGetdents, readDirWith, hstream]
    rfl
  | windows calls =>
    simp only [readDirOn, readDirWindows, readDirWith, hstream']
    rfl
  | unix calls => rfl

/-- Sorting or a client's callback rules out streaming. -/
theorem unstreamed_coreReadDirCallback [Inhabited E] (os : OperatingSystem) :
    Unstreamed (coreReadDirCallback (E := E) os opts) := by
  refine unstreamed_of_context (fun spec ctx => ?_) fun spec => ?_
  · unfold coreReadDirCallback
    dsimp only
    split_ifs with hdepth
    · rfl
    · refine retryTransientIo_context _ _ _ _ ctx ?_
      exact readDirOn_context hopts os 0 ⟨_, _, _, _, _, none⟩ ctx
  · unfold coreReadDirCallback
    dsimp only
    split_ifs with hdepth
    · exact ⟨rfl, rfl⟩
    · exact silent_retryTransientIo _ _ (fun attempt => silent_readDirOn _ _ attempt _ rfl) _ _

end Options

/-- Without streaming the counted child reads are those of the result. -/
theorem Unstreamed.counted_eq {callback : ReadDirCallback B E} (h : Unstreamed callback)
    (weighted : Weighted (ReadDirSpec B)) :
    ∃ weight, callback.counted weighted =
      (childSpecs (callback.read weighted.value)).mapIdx fun i spec =>
        ⟨spec, weighted.indexPath.adding i, weight⟩ := by
  have hcount := h.count_eq weighted
  simp only [ReadDirCallback.counted, h.streamed_eq, List.nil_append, h.result_eq] at hcount ⊢
  cases hr : callback.read weighted.value with
  | error err => exact ⟨0, rfl⟩
  | ok readDir =>
    rw [hr] at hcount
    simp only [streamedCount_ok] at hcount
    refine ⟨saturatingAdd weighted.weight readDir.resultsList.length, ?_⟩
    simp only [regularSpecs, hcount, ↓reduceIte, Option.getD_some, childSpecs]
    exact ReadDir.weightedChildrenSpecs_eq readDir hcount _ _

/-- A callback that does not stream reports that. -/
theorem Unstreamed.streams {callback : ReadDirCallback B E} (h : Unstreamed callback) :
    Streams callback := by
  intro weighted
  rw [h.streamed_eq, h.count_eq]
  rfl

/-- Without streaming the announced number is that of the child reads of the result. -/
theorem Unstreamed.childCount_eq {callback : ReadDirCallback B E} (h : Unstreamed callback)
    (weighted : Weighted (ReadDirSpec B)) :
    (callback.ordered weighted).childCount =
      (childSpecs (callback.read weighted.value)).length := by
  have hlength := congrArg List.length (h.streams.map_counted weighted)
  obtain ⟨weight, hcounted⟩ := h.counted_eq weighted
  simpa [hcounted] using hlength.symm

/-! ### The directory read at an index path -/

/-- The read below a spec at the end of a path of child positions. -/
def follow (callback : ReadDirCallback B E) : ReadDirSpec B → List ℕ → Option (ReadDirSpec B)
  | spec, [] => some spec
  | spec, i :: path =>
    match (childSpecs (callback.read spec))[i]? with
    | some child => follow callback child path
    | none => none

/-- The directory read at an index path of a walk from `root`. -/
def specAt (callback : ReadDirCallback B E) (root : ReadDirSpec B) :
    List ℕ → Option (ReadDirSpec B)
  | 0 :: path => follow callback root path
  | _ => none

variable {callback : ReadDirCallback B E} {root spec : ReadDirSpec B}

theorem follow_append (path : List ℕ) (i : ℕ) (start : ReadDirSpec B)
    (h : follow callback start path = some spec) :
    follow callback start (path ++ [i]) = (childSpecs (callback.read spec))[i]? := by
  induction path generalizing start with
  | nil =>
    obtain rfl := Option.some.inj h
    cases hc : (childSpecs (callback.read start))[i]? <;> simp [follow, hc]
  | cons j path ih =>
    cases hc : (childSpecs (callback.read start))[j]? with
    | none => simp [follow, hc] at h
    | some child =>
      simp only [follow, hc, List.cons_append] at h ⊢
      exact ih child h

/-- The child reads of a directory stand at the children of its index path. -/
theorem specAt_append {p : List ℕ} (h : specAt callback root p = some spec) (i : ℕ) :
    specAt callback root (p ++ [i]) = (childSpecs (callback.read spec))[i]? := by
  unfold specAt at h
  split at h
  · exact follow_append _ i root h
  · simp at h

theorem map_specAt_children {p : List ℕ} (h : specAt callback root p = some spec) :
    (children p (childSpecs (callback.read spec)).length).map (specAt callback root) =
      (childSpecs (callback.read spec)).map some := by
  refine List.ext_getElem (by simp [children]) fun i h₁ h₂ => ?_
  simp only [children, List.map_map, List.getElem_map, List.getElem_range, Function.comp,
    specAt_append h, List.getElem?_eq_getElem (by simpa using h₂)]

/-- An item is the read at its index path. -/
def ReadAt (callback : ReadDirCallback B E) (root : ReadDirSpec B)
    (weighted : Weighted (ReadDirSpec B)) : Prop :=
  specAt callback root weighted.address = some weighted.value

/-- A result is that of the read at its index path, and announces its child reads. -/
def ResultAt (callback : ReadDirCallback B E) (root : ReadDirSpec B)
    (ordered : Ordered (ReadDirResult B E)) : Prop :=
  ∃ spec, specAt callback root ordered.address = some spec ∧
    ordered.value = callback.read spec ∧
    ordered.childCount = (childSpecs (callback.read spec)).length

/-- Without streaming an item hands down to its children that they stand at their index paths. -/
theorem Unstreamed.handsDown (h : Unstreamed callback) (root : ReadDirSpec B) (capacity : ℕ)
    (hcapacity : 0 < capacity) :
    HandsDown (Config.walk callback capacity hcapacity false) (ReadAt callback root)
      (ResultAt callback root) := by
  intro weighted hw
  refine ⟨fun u hu => ?_, fun o ho => ?_⟩
  · rw [Config.walk, pushes_multiThreadedWalkDir] at hu
    obtain ⟨weight, hcounted⟩ := h.counted_eq weighted
    rw [hcounted] at hu
    obtain ⟨i, hi, rfl⟩ := List.mem_mapIdx.mp hu
    exact (specAt_append hw i).trans (List.getElem?_eq_getElem hi)
  · rw [Config.walk, results_multiThreadedWalkDir, List.mem_singleton] at ho
    subst ho
    exact ⟨weighted.value, hw, h.result_eq weighted, h.childCount_eq weighted⟩

/-! ### The simulation -/

/-- The serial walk stands where the parallel walk stands: its iterator is in the same state, and
the reads on its stack are those at the frontier of the cursor. -/
structure Follows (callback : ReadDirCallback B E) (root : ReadDirSpec B) (w : ParWalk B E N)
    (v : SerialWalk B E) : Prop where
  iter_eq : v.iter = w.iter
  stack_eq : v.serial.readDirSpecStack.map some =
    w.run.consumer.frontier.map (specAt callback root)

/-- What `next` of the ordered queue hands out is what the serial walk reads. -/
theorem next_of_handOut {serial : SerialIter B} {o : Ordered (ReadDirResult B E)}
    {F F' : List (List ℕ)} (hstack : serial.readDirSpecStack.map some =
      (o.address :: F).map (specAt callback root)) (ho : ResultAt callback root o)
    (hF' : F' = children o.address o.childCount ++ F) :
    (serial.next callback).1 = some o.value ∧
      (serial.next callback).2.readDirSpecStack.map some = F'.map (specAt callback root) := by
  obtain ⟨spec, hspec, hvalue, hcount⟩ := ho
  cases hs : serial.readDirSpecStack with
  | nil => simp [hs] at hstack
  | cons top stack =>
    rw [hs, List.map_cons, List.map_cons, hspec] at hstack
    obtain ⟨htop, hrest⟩ := List.cons.inj hstack
    obtain rfl := Option.some.inj htop
    refine ⟨?_, ?_⟩
    · simp [SerialIter.next, hs, hvalue]
    · rw [hF', List.map_append, hcount, map_specAt_children hspec, ← hrest]
      simp [SerialIter.next, hs]

/-- A turn of both iterators. -/
theorem Follows.turn {w : ParWalk B E N} {v : SerialWalk B E} (h : Follows callback root w v)
    (hfinished : w.iter.finished = false) (hawaiting : w.iter.awaiting = none) :
    Follows callback root { w with iter := w.iter.turn } (v.step callback) := by
  have hstep : v.step callback = { v with iter := w.iter.turn } := by
    simp [SerialWalk.step, h.iter_eq, hawaiting, hfinished]
  rw [hstep]
  exact ⟨rfl, h.stack_eq⟩

/-- A read that the serial walk makes while the parallel walk waits for it. -/
theorem serial_step_of_awaiting {v : SerialWalk B E} {dirEntry : DirEntry E}
    (hawaiting : v.iter.awaiting = some dirEntry) :
    v.step callback = ⟨(v.serial.next callback).2,
      v.iter.resume dirEntry (v.serial.next callback).1⟩ := by
  simp [SerialWalk.step, hawaiting]

/-- A step of the consumer while the iterator waits for a read. -/
theorem Follows.consume {w : ParWalk B E N} {v : SerialWalk B E} (h : Follows callback root w v)
    (hN : 0 < N) (hcourse : w.run.Course) (hacc : w.run.Accounted)
    (hresults : ∀ o ∈ w.run.sent, ResultAt callback root o) (hstop : w.run.stop = false)
    {dirEntry : DirEntry E} (hawaiting : w.iter.awaiting = some dirEntry) {expired : Bool}
    {channel : List (Ordered (ReadDirResult B E))} {consumer : Consumer (ReadDirResult B E)}
    (hs : w.run.consumer.step w.run.stop (!w.run.senders) expired w.run.resultChannel =
      some (channel, consumer)) :
    match ParWalk.returned w.run.consumer consumer with
    | some result =>
      Follows callback root
        ⟨{ w.run with resultChannel := channel, consumer := consumer },
          w.iter.resume dirEntry (result.map Ordered.value)⟩ (v.step callback)
    | none =>
      Follows callback root
        { w with run := { w.run with resultChannel := channel, consumer := consumer } } v := by
  rw [hstop] at hs
  obtain ⟨-, heffect⟩ := hcourse.onCourse.step
    (fun hgone => hcourse.rest_eq_nil hacc hN hstop (by simpa using hgone)) hs
  have hstep : v.step callback = ⟨(v.serial.next callback).2,
      v.iter.resume dirEntry (v.serial.next callback).1⟩ :=
    serial_step_of_awaiting (h.iter_eq ▸ hawaiting)
  cases heffect with
  | quiet hnexts hmatcher hperm =>
    simp only [ParWalk.returned, hnexts, List.drop_length, List.head?_nil]
    refine ⟨h.iter_eq, ?_⟩
    rw [h.stack_eq, Consumer.frontier, Consumer.frontier, hmatcher]
  | handOut o F hnexts hperm hbefore hafter =>
    have ho : o ∈ w.run.sent :=
      hcourse.atHand_sent (hperm.mem_iff.mpr List.mem_cons_self)
    have hstack := h.stack_eq
    rw [hbefore] at hstack
    obtain ⟨hresult, hstack'⟩ := next_of_handOut hstack (hresults o ho) hafter
    simp only [ParWalk.returned, hnexts, List.drop_left, List.head?_cons]
    rw [hstep, hresult, h.iter_eq]
    exact ⟨rfl, hstack'⟩
  | finish hnexts hnone hmatcher hperm =>
    -- the cursor has passed the whole tree, and the stack is empty
    have hfrontier : w.run.consumer.frontier = [] := OrderedMatcher.frontier_eq_nil hnone
    have hempty : v.serial.readDirSpecStack = [] := by
      have hstack := h.stack_eq
      rw [hfrontier] at hstack
      exact List.map_eq_nil_iff.mp hstack
    have hnext : v.serial.next callback = (none, v.serial) := by
      simp [SerialIter.next, hempty]
    simp only [ParWalk.returned, hnexts, List.drop_left, List.head?_cons]
    rw [hstep, hnext, h.iter_eq]
    refine ⟨rfl, ?_⟩
    rw [h.stack_eq, Consumer.frontier, Consumer.frontier, hmatcher]

/-- What a step of the consumer hands out is the result of the next read of the serial walk. -/
theorem Follows.nextRead_of_consume {w : ParWalk B E N} {v : SerialWalk B E}
    (h : Follows callback root w v) (hN : 0 < N) (hcourse : w.run.Course) (hacc : w.run.Accounted)
    (hstop : w.run.stop = false) {dirEntry : DirEntry E}
    (hawaiting : w.iter.awaiting = some dirEntry) {expired : Bool}
    {channel : List (Ordered (ReadDirResult B E))} {consumer : Consumer (ReadDirResult B E)}
    (hs : w.run.consumer.step w.run.stop (!w.run.senders) expired w.run.resultChannel =
      some (channel, consumer)) :
    consumer.nexts = w.run.consumer.nexts ++ (ParWalk.returned w.run.consumer consumer).toList ∧
      ∀ result, ParWalk.returned w.run.consumer consumer = some result →
        v.nextRead.map some = result.map fun o => specAt callback root o.address := by
  rw [hstop] at hs
  obtain ⟨-, heffect⟩ := hcourse.onCourse.step
    (fun hgone => hcourse.rest_eq_nil hacc hN hstop (by simpa using hgone)) hs
  have hnext : v.nextRead.map some =
      (w.run.consumer.frontier.map (specAt callback root)).head? := by
    rw [SerialWalk.nextRead, h.iter_eq, hawaiting, ← h.stack_eq, List.head?_map]
    rfl
  cases heffect with
  | quiet hnexts => simp [ParWalk.returned, hnexts]
  | handOut o F hnexts hperm hbefore hafter =>
    refine ⟨by simp [ParWalk.returned, hnexts], fun result hresult => ?_⟩
    simp only [ParWalk.returned, hnexts, List.drop_left, List.head?_cons, Option.some.injEq]
      at hresult
    rw [hnext, hbefore, ← hresult]
    rfl
  | finish hnexts hnone hmatcher hperm =>
    have hfrontier : w.run.consumer.frontier = [] := OrderedMatcher.frontier_eq_nil hnone
    refine ⟨by simp [ParWalk.returned, hnexts], fun result hresult => ?_⟩
    simp only [ParWalk.returned, hnexts, List.drop_left, List.head?_cons, Option.some.injEq]
      at hresult
    rw [hnext, hfrontier, ← hresult]
    rfl

/-- A course of the serial walk that has come to where the parallel walk stands, and has made the
reads whose results the parallel walk has handed out. -/
structure Traces (callback : ReadDirCallback B E) (root : ReadDirSpec B) (v : SerialWalk B E)
    (w : ParWalk B E N) (n : ℕ) : Prop extends Follows callback root w (v.steps callback n) where
  reads_eq : (v.reads callback n).map some =
    (w.run.consumer.nexts.filterMap id).map fun o => specAt callback root o.address

namespace ParWalk

/-- The steps of a parallel walk, by what they change. -/
inductive Move (cfg : Config (ReadDirSpec B) (ReadDirResult B E)) (w : ParWalk B E N) :
    ParWalk B E N → Prop
  /-- The iterator takes a turn. -/
  | turn (hfinished : w.iter.finished = false) (hawaiting : w.iter.awaiting = none) :
      Move cfg w { w with iter := w.iter.turn }
  /-- The run takes a step without the consumer. -/
  | run (run : RunState (ReadDirSpec B) (ReadDirResult B E) N) (hstep : RunState.Step cfg w.run run)
      (hconsumer : run.consumer = w.run.consumer) : Move cfg w { w with run := run }
  /-- The consumer takes a step and does not return. -/
  | consume (dirEntry : DirEntry E) (expired : Bool)
      (channel : List (Ordered (ReadDirResult B E))) (consumer : Consumer (ReadDirResult B E))
      (hawaiting : w.iter.awaiting = some dirEntry)
      (hstep : w.run.consumer.step w.run.stop (!w.run.senders) expired w.run.resultChannel =
        some (channel, consumer)) (hreceiver : w.run.receiver = true)
      (hreturned : returned w.run.consumer consumer = none) :
      Move cfg w { w with run := { w.run with resultChannel := channel, consumer := consumer } }
  /-- The consumer takes a step and returns. -/
  | deliver (dirEntry : DirEntry E) (expired : Bool)
      (channel : List (Ordered (ReadDirResult B E))) (consumer : Consumer (ReadDirResult B E))
      (result : Option (Ordered (ReadDirResult B E)))
      (hawaiting : w.iter.awaiting = some dirEntry)
      (hstep : w.run.consumer.step w.run.stop (!w.run.senders) expired w.run.resultChannel =
        some (channel, consumer)) (hreceiver : w.run.receiver = true)
      (hreturned : returned w.run.consumer consumer = some result) :
      Move cfg w ⟨{ w.run with resultChannel := channel, consumer := consumer },
        w.iter.resume dirEntry (result.map Ordered.value)⟩

variable {cfg : Config (ReadDirSpec B) (ReadDirResult B E)} {w w' : ParWalk B E N}

/-- A step of a worker, or one that ends the walk, leaves the consumer alone. -/
theorem consumer_of_step {a : Action N} {run : RunState (ReadDirSpec B) (ReadDirResult B E) N}
    (h : w.run.step cfg a = some run) (ha : ∀ expired, a ≠ .consumer expired) :
    run.consumer = w.run.consumer := by
  cases RunState.move_of_step h with
  | request i fail item op k s₁ answer hi hperformed => cases hperformed <;> rfl
  | consume expired => exact absurd rfl (ha expired)
  | _ => rfl

/-- What a step of a parallel walk can do. -/
theorem move_of_step {a : WalkAction N} (h : w.step cfg a = some w') : Move cfg w w' := by
  cases a with
  | turn =>
    simp only [step, Bool.or_eq_true] at h
    split_ifs at h with hbusy
    obtain rfl := Option.some.inj h
    simp only [not_or, Bool.not_eq_true, Option.isSome_eq_false_iff, Option.isNone_iff_eq_none]
      at hbusy
    exact .turn hbusy.1 hbusy.2
  | run a =>
    by_cases ha : ∃ expired, a = .consumer expired
    · obtain ⟨expired, rfl⟩ := ha
      simp only [step] at h
      split at h
      · rename_i dirEntry run hawaiting hrun
        have hmove : RunState.Move cfg w.run (.consumer expired) run := RunState.move_of_step hrun
        cases hmove with
        | consume expired channel consumer hreceiver hstep =>
          split at h
          · rename_i result hreturned
            obtain rfl := Option.some.inj h
            exact .deliver dirEntry expired channel consumer result hawaiting hstep hreceiver
              hreturned
          · rename_i hreturned
            obtain rfl := Option.some.inj h
            exact .consume dirEntry expired channel consumer hawaiting hstep hreceiver hreturned
      · simp at h
    · have ha' : ∀ expired, a ≠ .consumer expired := fun expired he => ha ⟨expired, he⟩
      have hstep : w.step cfg (.run a) =
          (w.run.step cfg a).map fun run => { w with run := run } := by
        cases a with
        | consumer expired => exact absurd rfl (ha' expired)
        | _ => simp only [step]; split <;> simp_all
      rw [hstep] at h
      obtain ⟨run, hrun, rfl⟩ := Option.map_eq_some_iff.mp h
      exact .run run ⟨a, hrun⟩ (consumer_of_step hrun ha')

/-- A step of a parallel walk is a step of its run or leaves the run alone. -/
theorem Move.run_reaches (h : Move cfg w w') : RunState.Reaches cfg w.run w'.run := by
  have hconsume {expired : Bool} {channel : List (Ordered (ReadDirResult B E))}
      {consumer : Consumer (ReadDirResult B E)} (hreceiver : w.run.receiver = true)
      (hstep : w.run.consumer.step w.run.stop (!w.run.senders) expired w.run.resultChannel =
        some (channel, consumer)) :
      RunState.Step cfg w.run { w.run with resultChannel := channel, consumer := consumer } :=
    ⟨.consumer expired, by simp [RunState.step, RunState.stepConsumer, hreceiver, hstep]⟩
  cases h with
  | turn => exact Relation.ReflTransGen.refl
  | run run hstep => exact Relation.ReflTransGen.single hstep
  | consume dirEntry expired channel consumer hawaiting hstep hreceiver =>
    exact Relation.ReflTransGen.single (hconsume hreceiver hstep)
  | deliver dirEntry expired channel consumer result hawaiting hstep hreceiver =>
    exact Relation.ReflTransGen.single (hconsume hreceiver hstep)

/-- The stop flag is never taken back. -/
theorem stop_of_reaches {s s' : RunState (ReadDirSpec B) (ReadDirResult B E) N}
    (h : RunState.Reaches cfg s s') (hstop : s'.stop = false) : s.stop = false := by
  induction h with
  | refl => exact hstop
  | tail _ hs ih => exact ih (hs.stop_of hstop)

/-- The run of a parallel walk. -/
theorem Reaches.run (h : Reaches cfg w w') : RunState.Reaches cfg w.run w'.run := by
  induction h with
  | refl => exact Relation.ReflTransGen.refl
  | tail _ hs ih =>
    obtain ⟨a, ha⟩ := hs
    exact ih.trans (move_of_step ha).run_reaches

section OneRoot

variable {root : B × List (Except Error (DirEntry E))} {minDepth maxReceiveBufferSize : ℕ}
  (hfail : cfg.sendsMayFail = false)
  (hwork : ∀ weighted, Disciplined .plain (cfg.work weighted))
  (hplanned : ∀ weighted, ∃ ordered,
    Planned weighted (asked unstopped (cfg.work weighted)) ordered)
  (hdown : HandsDown cfg (ReadAt callback spec) (ResultAt callback spec))
  (hN : 0 < N) (hroot : rootSpecs root = [spec])
  (h : Reaches cfg (init N root minDepth maxReceiveBufferSize) w)

include hfail hwork hplanned hdown hN hroot h

/-- One step of both walks: either the iterator of the parallel walk stays as it is, or the serial
walk takes a step too. -/
theorem traces_step (hstop : w.run.stop = false) {n : ℕ}
    (htraces : Traces callback spec (serialWalk root minDepth) w n)
    (hmove : Move cfg w w') :
    (w'.iter = w.iter ∧ Traces callback spec (serialWalk root minDepth) w' n) ∨
      Traces callback spec (serialWalk root minDepth) w' (n + 1) := by
  have hfollows := htraces.toFollows
  have hrun := Reaches.run h
  simp only [init, hroot] at hrun
  have hacc := RunState.accounted_of_reaches hwork hrun
  have hcourse := RunState.course_of_reaches hN hfail hwork hplanned rfl hrun hstop
  have hsent := (RunState.inherited_of_reaches hfail hdown
    (by simp [rootItems, ReadAt, Weighted.address, specAt, follow]) hrun hstop).sent
  cases hmove with
  | turn hfinished hawaiting =>
    -- a turn of the iterator makes no read
    refine Or.inr ⟨hfollows.turn hfinished hawaiting, ?_⟩
    rw [SerialWalk.reads, SerialWalk.nextRead, hfollows.iter_eq, hawaiting]
    simpa using htraces.reads_eq
  | run run hstep hconsumer =>
    refine Or.inl ⟨rfl, ⟨hfollows.iter_eq, ?_⟩, ?_⟩
    · rw [hconsumer]
      exact hfollows.stack_eq
    · rw [hconsumer]
      exact htraces.reads_eq
  | consume dirEntry expired channel consumer hawaiting hstep hreceiver hreturned =>
    have hnext := hfollows.consume hN hcourse hacc hsent hstop hawaiting hstep
    rw [hreturned] at hnext
    obtain ⟨hnexts, -⟩ := hfollows.nextRead_of_consume hN hcourse hacc hstop hawaiting hstep
    rw [hreturned, Option.toList_none, List.append_nil] at hnexts
    refine Or.inl ⟨rfl, hnext, ?_⟩
    rw [hnexts]
    exact htraces.reads_eq
  | deliver dirEntry expired channel consumer result hawaiting hstep hreceiver hreturned =>
    have hnext := hfollows.consume hN hcourse hacc hsent hstop hawaiting hstep
    rw [hreturned] at hnext
    obtain ⟨hnexts, hread⟩ := hfollows.nextRead_of_consume hN hcourse hacc hstop hawaiting hstep
    rw [hreturned] at hnexts
    refine Or.inr ⟨hnext, ?_⟩
    rw [hnexts, SerialWalk.reads, List.map_append, List.filterMap_append, List.map_append,
      htraces.reads_eq, ← Option.toList_map, hread result hreturned, Option.toList_map]
    cases result <;> rfl

/-- Both walks, step by step: while the parallel walk from one root is not stopped, a serial walk
whose reads stand at the index paths of the run can follow it. -/
theorem traces_of_handsDown (hstop : w.run.stop = false) :
    ∃ n, Traces callback spec (serialWalk root minDepth) w n := by
  induction h with
  | refl =>
    refine ⟨0, ⟨rfl, ?_⟩, rfl⟩
    simp only [SerialWalk.steps, serialWalk, SerialIter.new, hroot]
    rfl
  | tail hreach hstep ih =>
    obtain ⟨a, ha⟩ := hstep
    have hmove := move_of_step ha
    have hbefore := stop_of_reaches hmove.run_reaches hstop
    obtain ⟨n, htraces⟩ := ih hbefore
    rcases traces_step hfail hwork hplanned hdown hN hroot hreach hbefore htraces hmove with
      ⟨-, hsame⟩ | hnext
    · exact ⟨n, hsame⟩
    · exact ⟨n + 1, hnext⟩

end OneRoot

/-- An iterator that waits for no read and has no entry ahead of it that asks for one. -/
structure Readless (st : IterState E) : Prop where
  awaiting : st.awaiting = none
  ahead : ∀ results ∈ st.iter.readDirResultsStack, ∀ dirEntry, .ok dirEntry ∈ results →
    dirEntry.readChildrenPath = none

/-- Without an entry that asks for a read, none is ever waited for. -/
theorem Readless.turn {st : IterState E} (h : Readless st) : Readless st.turn := by
  obtain ⟨⟨minDepth, readDirIter, stack⟩, awaiting, finished, items⟩ := st
  obtain ⟨rfl, hahead⟩ := h
  simp only at hahead
  match stack with
  | [] => exact ⟨rfl, by simp [IterState.turn, DirEntryIter.turn, IterState.apply]⟩
  | [] :: stack => exact ⟨rfl, fun results hr => hahead results (List.mem_cons_of_mem _ hr)⟩
  | (.error err :: results) :: stack =>
    refine ⟨rfl, fun results' hr dirEntry hd => ?_⟩
    rcases List.mem_cons.mp hr with rfl | hr
    · exact hahead _ List.mem_cons_self dirEntry (List.mem_cons_of_mem _ hd)
    · exact hahead _ (List.mem_cons_of_mem _ hr) dirEntry hd
  | (.ok dirEntry :: results) :: stack =>
    have hnone : dirEntry.readChildrenPath = none :=
      hahead _ List.mem_cons_self dirEntry List.mem_cons_self
    have hrest : ∀ results' ∈ results :: stack, ∀ e, .ok e ∈ results' →
        e.readChildrenPath = none := by
      intro results' hr e he
      rcases List.mem_cons.mp hr with rfl | hr
      · exact hahead _ List.mem_cons_self e (List.mem_cons_of_mem _ he)
      · exact hahead _ (List.mem_cons_of_mem _ hr) e he
    simp only [IterState.turn, DirEntryIter.turn, hnone, Option.isSome_none, Bool.false_eq_true,
      ↓reduceIte, DirEntryIter.emit]
    split_ifs
    · exact ⟨rfl, hrest⟩
    · exact ⟨rfl, hrest⟩

/-- Root entries that ask for no read. -/
theorem readless_new {root : B × List (Except Error (DirEntry E))} (hroot : rootSpecs root = [])
    (minDepth : ℕ) : Readless (IterState.new root.2 minDepth) := by
  refine ⟨rfl, fun results hr dirEntry hd => ?_⟩
  obtain rfl : results = root.2 := List.mem_singleton.mp hr
  have hspec := List.filterMap_eq_nil_iff.mp hroot _ hd
  simpa [ReadDir.childSpec, DirEntry.readChildrenSpec] using hspec

/-- Both walks over root entries that ask for no read. -/
theorem readless_of_reaches {root : B × List (Except Error (DirEntry E))} {minDepth : ℕ}
    {maxReceiveBufferSize : ℕ} (hroot : rootSpecs root = [])
    (h : Reaches cfg (init N root minDepth maxReceiveBufferSize) w) :
    Readless w.iter ∧ ∃ n, ((serialWalk root minDepth).steps callback n).iter = w.iter := by
  induction h with
  | refl => exact ⟨readless_new hroot minDepth, 0, rfl⟩
  | @tail w₁ w₂ hreach hstep ih =>
    obtain ⟨a, ha⟩ := hstep
    obtain ⟨hreadless, n, hn⟩ := ih
    cases move_of_step ha with
    | turn hfinished hawaiting =>
      refine ⟨hreadless.turn, n + 1, ?_⟩
      rw [SerialWalk.steps, SerialWalk.step, hn, hawaiting]
      simp [hfinished]
    | run run hstep hconsumer => exact ⟨hreadless, n, hn⟩
    | consume dirEntry expired channel consumer hawaiting =>
      simp [hreadless.awaiting] at hawaiting
    | deliver dirEntry expired channel consumer result hawaiting =>
      simp [hreadless.awaiting] at hawaiting

/-- A parallel walk that has come to its end has yielded what a serial walk yields whose reads stand
at the index paths of the run. -/
theorem yields_of_handsDown {root : B × List (Except Error (DirEntry E))} {minDepth : ℕ}
    {maxReceiveBufferSize : ℕ} (hfail : cfg.sendsMayFail = false)
    (hwork : ∀ weighted, Disciplined .plain (cfg.work weighted))
    (hplanned : ∀ weighted, ∃ ordered,
      Planned weighted (asked unstopped (cfg.work weighted)) ordered)
    (hdown : ∀ spec, HandsDown cfg (ReadAt callback spec) (ResultAt callback spec))
    (hN : 0 < N) (hlength : (rootSpecs root).length ≤ 1)
    (h : Reaches cfg (init N root minDepth maxReceiveBufferSize) w) (hstop : w.run.stop = false)
    (hfinished : w.iter.finished = true) (items : List (Except Error (DirEntry E))) :
    (serialWalk root minDepth).Yields callback items ↔ items = w.iter.items := by
  have hsettled : (serialWalk root minDepth).Settled := by
    intro hf
    simp [serialWalk, IterState.new] at hf
  have hfollowed : ∃ n, ((serialWalk root minDepth).steps callback n).iter = w.iter := by
    cases hspecs : rootSpecs root with
    | nil => exact (readless_of_reaches hspecs h).2
    | cons spec specs =>
      obtain rfl : specs = [] := by
        simpa [hspecs] using hlength
      obtain ⟨n, hn⟩ := traces_of_handsDown hfail hwork hplanned (hdown spec) hN hspecs h hstop
      exact ⟨n, hn.iter_eq⟩
  obtain ⟨n, hn⟩ := hfollowed
  exact hsettled.yields_iff ⟨n, by rw [hn, hfinished], by rw [hn]⟩ items

/-- **The parallel walk yields what the serial walk yields.** For all answers of the operating
system, with sorting or a client's callback that leaves at most one root entry, whatever the number
of workers, the capacity of the channels and the size of the receive buffer: when the iterator of a
parallel walk that is not stopped has come to its end, the items it has yielded are those of the
serial walk. -/
theorem yields_serial [Inhabited E] (os : OperatingSystem) (opts : WalkDirOptions B E)
    (hopts : opts.sort = true ∨ opts.processReadDir.isSome = true) (root : Path)
    (rootReadDirState : B)
    (hroots : (rootEntryResults os opts root rootReadDirState).2.length ≤ 1) (hN : 0 < N)
    (capacity : ℕ) (hcapacity : 0 < capacity) (maxReceiveBufferSize minDepth : ℕ)
    (w : ParWalk B E N)
    (h : Reaches (Config.walk (coreReadDirCallback os opts) capacity hcapacity false)
      (init N (rootEntryResults os opts root rootReadDirState) minDepth maxReceiveBufferSize) w)
    (hstop : w.run.stop = false) (hfinished : w.iter.finished = true)
    (items : List (Except Error (DirEntry E))) :
    (serialWalk (rootEntryResults os opts root rootReadDirState) minDepth).Yields
      (coreReadDirCallback os opts) items ↔ items = w.iter.items := by
  have hcallback := unstreamed_coreReadDirCallback (E := E) hopts os
  have hlength := (List.length_filterMap_le (ReadDir.childSpec
    (rootEntryResults os opts root rootReadDirState).1) _).trans hroots
  exact yields_of_handsDown rfl (disciplined_multiThreadedWalkDir _)
    (fun weighted => ⟨_, planned_multiThreadedWalkDir hcallback.streams weighted⟩)
    (fun spec => hcallback.handsDown spec capacity hcapacity) hN hlength h hstop hfinished items

/-- A Linux where the directory `r` has a subdirectory `d` and a file `f`. -/
def nestedLinux : LinuxCalls :=
  { LinuxCalls.listing fun path =>
      if path = ⟨[.normal [114]]⟩ then ⟨[(DT_DIR, [100]), (8, [102])], none⟩ else ⟨[], none⟩ with
    symlinkMetadata := fun _ => .ok (.ofMode S_IFDIR 1 1) }

/-- The statement above for a walk of `r` by two workers over channels for one item, with a client's
callback that changes nothing: it ends after three entries. -/
theorem yields_serial_two_workers :
    ∃ (opts : WalkDirOptions Unit Unit) (w : ParWalk Unit Unit 2),
      opts.processReadDir.isSome = true ∧ w.iter.finished = true ∧ w.iter.items.length = 3 ∧
      ∀ items, (serialWalk (rootEntryResults (.linux nestedLinux) opts ⟨[.normal [114]]⟩ ())
        0).Yields (coreReadDirCallback (.linux nestedLinux) opts) items ↔ items = w.iter.items := by
  let opts : WalkDirOptions Unit Unit :=
    { (WalkDirOptions.new : WalkDirOptions Unit Unit) with
      processReadDir := some fun _ _ state results => (state, results) }
  let turns : List (WalkAction 2) :=
    (List.replicate 20 [.turn, .run (.worker 0 false), .run (.worker 1 false),
      .run (.consumer false)]).flatten
  let start : ParWalk Unit Unit 2 :=
    init 2 (rootEntryResults (.linux nestedLinux) opts ⟨[.normal [114]]⟩ ()) 0 4
  let cfg := Config.walk (coreReadDirCallback (.linux nestedLinux) opts) 1 Nat.one_pos false
  have hrun : (start.runActions cfg turns).run.stop = false ∧
      (start.runActions cfg turns).iter.finished = true ∧
      (start.runActions cfg turns).iter.items.length = 3 := by
    decide +kernel
  refine ⟨opts, start.runActions cfg turns, rfl, hrun.2.1, hrun.2.2, ?_⟩
  exact yields_serial (.linux nestedLinux) opts (Or.inr rfl) ⟨[.normal [114]]⟩ () (by decide)
    Nat.two_pos 1 Nat.one_pos 4 0 _ (reaches_runActions cfg start turns) hrun.1 hrun.2.1

end ParWalk

end JwalkMeta
