import JwalkMeta.WalkDir.ReadFailures

/-!
# Walks with several root entries

The client's callback may leave any number of entries at the root. Their reads do not enter a walk
as those of other directories do. The serial walk pushes the child reads of a directory in reverse
order, so that the first one is on top of the stack, but it takes over the reads of the root entries
as they are: the first entry gets the listing of the last one. In the parallel walk all reads of
root entries have the index path `[0]`, and the cursor counts one of them.

So root entries keep their own contents in the serial walk if the list of their reads is the same
backwards, and in the parallel walk if there is at most one read.

Source: `src/core/dir_entry_iter.rs`, `src/core/read_dir_iter.rs`, `src/core/ordered_queue.rs`.

## Main definitions

* `StacksAgree`: the reads on the stack are those that the rest of the listings will ask for.
* `SerialWalk.KeepsContents`, `ParWalk.KeepsContents`: root entries keep their own contents.

## Main results

* `SerialWalk.keepsContents`, `SerialWalk.KeepsContents.reverse_eq`: when they do in a serial walk.
* `ParWalk.keepsContents_of_reaches`: one root entry keeps its contents in every interleaving.
-/

namespace JwalkMeta

open Interaction SerialWalk

variable {B E : Type} {N : ℕ}

/-! ### The two stacks of the serial walk -/

/-- The reads on the stack are those that the rest of the listings will ask for, those of the root
entries with the state of the root. -/
inductive StacksAgree (rootReadDirState : B) :
    List (ReadDirSpec B) → List (List (Except Error (DirEntry E))) → Prop
  | finished : StacksAgree rootReadDirState [] []
  | root (results : List (Except Error (DirEntry E))) :
    StacksAgree rootReadDirState (results.filterMap (ReadDir.childSpec rootReadDirState)) [results]
  | inner (readDirState : B) (results : List (Except Error (DirEntry E)))
      {specs : List (ReadDirSpec B)} {listing : List (Except Error (DirEntry E))}
      {stack : List (List (Except Error (DirEntry E)))}
      (h : StacksAgree rootReadDirState specs (listing :: stack)) :
    StacksAgree rootReadDirState (results.filterMap (ReadDir.childSpec readDirState) ++ specs)
      (results :: listing :: stack)

section StacksAgree

variable {state : B} {specs : List (ReadDirSpec B)} {dirEntry : DirEntry E}
  {result : Except Error (DirEntry E)} {rest : List (Except Error (DirEntry E))}
  {stack : List (List (Except Error (DirEntry E)))}

/-- A listing that has come to its end. -/
theorem StacksAgree.pop (h : StacksAgree state specs ([] :: stack)) :
    StacksAgree state specs stack := by
  cases h with
  | root => exact .finished
  | inner readDirState results h => exact h

/-- A result that asks for no read. -/
theorem StacksAgree.skip (h : StacksAgree state specs ((result :: rest) :: stack))
    (hnone : ∀ readDirState : B, ReadDir.childSpec readDirState result = none) :
    StacksAgree state specs (rest :: stack) := by
  cases h with
  | root =>
    rw [List.filterMap_cons_none (hnone _)]
    exact .root rest
  | inner readDirState results h =>
    rw [List.filterMap_cons_none (hnone _)]
    exact .inner readDirState rest h

/-- An entry that asks for a read has it on top of the stack. -/
theorem StacksAgree.take (h : StacksAgree state specs ((.ok dirEntry :: rest) :: stack))
    (hpath : dirEntry.readChildrenPath.isSome = true) :
    ∃ spec specs', specs = spec :: specs' ∧ StacksAgree state specs' (rest :: stack) ∧
      (stack = [] → dirEntry.readChildrenSpec state = some spec) := by
  have hasks (readDirState : B) : ∃ spec, dirEntry.readChildrenSpec readDirState = some spec :=
    Option.isSome_iff_exists.mp (by simpa [DirEntry.readChildrenSpec] using hpath)
  cases h with
  | root =>
    obtain ⟨spec, hspec⟩ := hasks state
    exact ⟨spec, _, filterMap_childSpec_of_some hspec rest, .root rest, fun _ => hspec⟩
  | inner readDirState results h =>
    obtain ⟨spec, hspec⟩ := hasks readDirState
    rw [filterMap_childSpec_of_some hspec rest]
    exact ⟨spec, _, rfl, .inner readDirState rest h, fun he => by simp at he⟩

/-- The listing of a directory that has been read. -/
theorem StacksAgree.push (h : StacksAgree state specs (rest :: stack)) (readDir : ReadDir B E) :
    StacksAgree state (readDir.readChildrenSpecs ++ specs)
      (readDir.resultsList :: rest :: stack) :=
  .inner readDir.readDirState readDir.resultsList h

end StacksAgree

namespace SerialWalk

variable {callback : ReadDirCallback B E} {state : B} {w : SerialWalk B E}

/-- The two stacks of a walk agree until it ends; an entry whose read is being waited for counts as
one that is still to come. -/
inductive InStep (state : B) : SerialWalk B E → Prop
  | between {specs : List (ReadDirSpec B)} {stack : List (List (Except Error (DirEntry E)))}
      {minDepth : ℕ} {items : List (Except Error (DirEntry E))}
      (hagree : StacksAgree state specs stack) :
    InStep state (SerialWalk.between minDepth specs stack items)
  | awaiting {specs : List (ReadDirSpec B)} {dirEntry : DirEntry E}
      {rest : List (Except Error (DirEntry E))} {stack : List (List (Except Error (DirEntry E)))}
      {minDepth : ℕ} {items : List (Except Error (DirEntry E))}
      (hpath : dirEntry.readChildrenPath.isSome = true)
      (hagree : StacksAgree state specs ((.ok dirEntry :: rest) :: stack)) :
    InStep state ⟨⟨specs⟩, ⟨⟨minDepth, true, rest :: stack⟩, some dirEntry, false, items⟩⟩
  | finished {serial : SerialIter B} {iter : DirEntryIter E}
      {items : List (Except Error (DirEntry E))} : InStep state ⟨serial, ⟨iter, none, true, items⟩⟩

/-- Every turn keeps the stacks in agreement. -/
theorem InStep.step (h : w.InStep state) : (w.step callback).InStep state := by
  cases h with
  | @between specs stack minDepth items hagree =>
    match stack with
    | [] => exact .finished
    | [] :: stack => exact .between hagree.pop
    | (.error err :: rest) :: stack => exact .between (hagree.skip fun _ => rfl)
    | (.ok dirEntry :: rest) :: stack =>
      by_cases hpath : dirEntry.readChildrenPath.isSome = true
      · rw [step_awaits hpath]
        exact .awaiting hpath hagree
      · have hspec (readDirState : B) : dirEntry.readChildrenSpec readDirState = none := by
          simpa [DirEntry.readChildrenSpec] using hpath
        have hstep : (SerialWalk.between minDepth specs ((.ok dirEntry :: rest) :: stack)
            items).step callback = SerialWalk.between minDepth specs (rest :: stack)
              (items ++ emitted minDepth dirEntry) := steps_entry (hspec state)
        rw [hstep]
        exact .between (hagree.skip hspec)
  | @awaiting specs dirEntry rest stack minDepth items hpath hagree =>
    obtain ⟨spec, specs, rfl, hrest, -⟩ := hagree.take hpath
    have hstep : SerialWalk.step callback ⟨⟨spec :: specs⟩, ⟨⟨minDepth, true, rest :: stack⟩,
        some dirEntry, false, items⟩⟩ =
        ⟨⟨childSpecs (callback.read spec) ++ specs⟩, IterState.resume
          ⟨⟨minDepth, true, rest :: stack⟩, some dirEntry, false, items⟩ dirEntry
          (some (callback.read spec))⟩ := rfl
    rw [hstep]
    cases hread : callback.read spec with
    | error err =>
      simp only [IterState.resume, DirEntryIter.resume, IterState.apply_emit, childSpecs]
      exact .between hrest
    | ok readDir =>
      simp only [IterState.resume, DirEntryIter.resume, IterState.apply_emit, childSpecs]
      exact .between (hrest.push readDir)
  | finished => exact .finished

theorem InStep.steps (h : w.InStep state) (n : ℕ) : (w.steps callback n).InStep state := by
  induction n with
  | zero => exact h
  | succ n ih => exact ih.step

/-- A root entry whose read is being waited for has it on top of the stack. -/
theorem InStep.exists_read (h : w.InStep state) {dirEntry : DirEntry E}
    {rest : List (Except Error (DirEntry E))} (hawaiting : w.iter.awaiting = some dirEntry)
    (hstack : w.iter.iter.readDirResultsStack = [rest]) :
    ∃ spec, dirEntry.readChildrenSpec state = some spec ∧ w.nextRead = some spec := by
  cases h with
  | between => simp [SerialWalk.between] at hawaiting
  | @awaiting specs dirEntry' rest' stack minDepth items hpath hagree =>
    obtain rfl := Option.some.inj hawaiting
    obtain ⟨spec, specs, rfl, -, hspec⟩ := hagree.take hpath
    exact ⟨spec, hspec (List.cons.inj hstack).2, rfl⟩
  | finished => simp at hawaiting

/-- The next read is made by the `ReadDirIter`. -/
theorem step_of_nextRead {spec : ReadDirSpec B} {dirEntry : DirEntry E}
    (hawaiting : w.iter.awaiting = some dirEntry) (hnext : w.nextRead = some spec) :
    (w.step callback).iter = w.iter.resume dirEntry (some (callback.read spec)) := by
  obtain ⟨⟨specs⟩, iter⟩ := w
  simp only at hawaiting
  cases specs with
  | nil => simp [nextRead] at hnext
  | cons top specs =>
    obtain rfl : top = spec := by simpa [nextRead, hawaiting] using hnext
    simp only [SerialWalk.step, hawaiting]
    rfl

/-- **Root entries keep their own contents** in a serial walk. -/
structure KeepsContents (callback : ReadDirCallback B E)
    (root : B × List (Except Error (DirEntry E))) (minDepth : ℕ) : Prop where
  /-- The read that is made for a root entry is that of its own path. -/
  attached : ∀ n dirEntry rest,
    ((serialWalk root minDepth).steps callback n).iter.awaiting = some dirEntry →
    ((serialWalk root minDepth).steps callback n).iter.iter.readDirResultsStack = [rest] →
    ((serialWalk root minDepth).steps callback n).nextRead = dirEntry.readChildrenSpec root.1
  /-- At its end the walk has yielded every entry followed by the entries of its own directory, and
  has made the read of each directory in this order. -/
  depthFirst : ∀ items reads,
    (∃ n, ((serialWalk root minDepth).steps callback n).iter.finished = true ∧
        ((serialWalk root minDepth).steps callback n).iter.items = items ∧
        (serialWalk root minDepth).reads callback n = reads) ↔
      DepthFirst callback.read minDepth root.1 root.2 items reads

variable {root : B × List (Except Error (DirEntry E))} {minDepth : ℕ}

theorem inStep_serialWalk (hroots : (rootSpecs root).reverse = rootSpecs root) (n : ℕ) :
    ((serialWalk root minDepth).steps callback n).InStep root.1 := by
  rw [serialWalk_eq hroots, List.append_nil]
  exact (InStep.between (.root root.2)).steps n

/-- Root entries keep their contents if the list of their reads is the same backwards. -/
theorem keepsContents (hroots : (rootSpecs root).reverse = rootSpecs root) :
    KeepsContents callback root minDepth := by
  refine ⟨fun n dirEntry rest hawaiting hstack => ?_, serialWalk_iff_depthFirst hroots minDepth⟩
  obtain ⟨spec, hspec, hnext⟩ := (inStep_serialWalk hroots n).exists_read hawaiting hstack
  rw [hspec, hnext]

/-- A directory with finitely many reads below it is walked to its end. -/
theorem exists_steps_rest {height : ℕ} {spec : ReadDirSpec B}
    (hfinite : Lineage.Shallow callback.children height spec) {dirEntry : DirEntry E}
    (hpath : dirEntry.readChildrenPath.isSome = true) (specs : List (ReadDirSpec B))
    (rest : List (Except Error (DirEntry E))) (stack : List (List (Except Error (DirEntry E))))
    (before : List (Except Error (DirEntry E))) :
    ∃ n items, (between minDepth (spec :: specs) ((.ok dirEntry :: rest) :: stack) before).steps
      callback n = between minDepth specs (rest :: stack) items := by
  cases hread : callback.read spec with
  | error err => exact ⟨2, _, steps_failed hpath hread⟩
  | ok readDir =>
    -- the entries of the directory are walked, and its listing is taken off the stack
    obtain ⟨items, reads, hdir⟩ := exists_depthFirst minDepth readDir.readDirState
      readDir.resultsList fun child hchild =>
        hfinite.child (childSpecs_of_ok hread ▸ hchild)
    obtain ⟨n, hn, -⟩ := hdir.steps specs (rest :: stack) (before ++ emitted minDepth dirEntry)
    refine ⟨2 + (n + 1), before ++ emitted minDepth dirEntry ++ items, ?_⟩
    rw [steps_add, steps_listed hpath hread, steps_add, ReadDir.readChildrenSpecs, hn, steps_pop]

/-- **The reads on the stack are those of the root entries** that are still to come, if each of them
gets its own. The induction is on the root entries that are still to come. -/
theorem specs_eq_of_attached {height n : ℕ} {results : List (Except Error (DirEntry E))}
    {specs : List (ReadDirSpec B)} {before : List (Except Error (DirEntry E))}
    (hfinite : ∀ spec ∈ specs, Lineage.Shallow callback.children height spec)
    (hkeeps : KeepsContents callback root minDepth)
    (hsteps : (serialWalk root minDepth).steps callback n = between minDepth specs [results] before)
    (hlength : specs.length = (results.filterMap (ReadDir.childSpec root.1)).length) :
    specs = results.filterMap (ReadDir.childSpec root.1) := by
  induction results generalizing n specs before with
  | nil => exact List.eq_nil_of_length_eq_zero hlength
  | cons result rest ih =>
    cases result with
    | error err =>
      have hnext : (serialWalk root minDepth).steps callback (n + 1) =
          between minDepth specs [rest] (before ++ [.error err]) := by
        rw [steps_add, hsteps, steps_error]
      exact ih hfinite hnext hlength
    | ok dirEntry =>
      cases hspec : dirEntry.readChildrenSpec root.1 with
      | none =>
        rw [filterMap_childSpec_of_none hspec] at hlength ⊢
        have hnext : (serialWalk root minDepth).steps callback (n + 1) =
            between minDepth specs [rest] (before ++ emitted minDepth dirEntry) := by
          rw [steps_add, hsteps, steps_entry hspec]
        exact ih hfinite hnext hlength
      | some spec =>
        have hpath := isSome_readChildrenPath hspec
        rw [filterMap_childSpec_of_some hspec] at hlength ⊢
        cases specs with
        | nil => simp at hlength
        | cons top specs =>
          -- the read on top of the stack is made for this entry
          have hawaits : (serialWalk root minDepth).steps callback (n + 1) =
              ⟨⟨top :: specs⟩, ⟨⟨minDepth, true, [rest]⟩, some dirEntry, false, before⟩⟩ := by
            rw [SerialWalk.steps, hsteps, step_awaits hpath]
          have htop := hkeeps.attached (n + 1) dirEntry rest (by rw [hawaits]) (by rw [hawaits])
          rw [hawaits, hspec] at htop
          obtain rfl : top = spec := Option.some.inj htop
          obtain ⟨k, items, hk⟩ :=
            exists_steps_rest (hfinite top List.mem_cons_self) hpath specs rest [] before
          have hnext : (serialWalk root minDepth).steps callback (n + k) =
              between minDepth specs [rest] items := by
            rw [steps_add, hsteps, hk]
          rw [← ih (fun spec hspec => hfinite spec (List.mem_cons_of_mem _ hspec)) hnext
            (Nat.succ_injective hlength)]

/-- Root entries with finitely many reads below them keep their contents only if the list of their
reads is the same backwards. -/
theorem KeepsContents.reverse_eq {height : ℕ}
    (hfinite : ∀ spec ∈ rootSpecs root, Lineage.Shallow callback.children height spec)
    (h : KeepsContents callback root minDepth) : (rootSpecs root).reverse = rootSpecs root :=
  specs_eq_of_attached (n := 0) (fun spec hspec => hfinite spec (List.mem_reverse.mp hspec)) h rfl
    (List.length_reverse)

end SerialWalk

/-! ### Both walks -/

namespace ParWalk

variable {cfg : Config (ReadDirSpec B) (ReadDirResult B E)} {callback : ReadDirCallback B E}
  {root : B × List (Except Error (DirEntry E))} {minDepth maxReceiveBufferSize : ℕ}
  {w : ParWalk B E N}

/-- **Root entries keep their own contents** in a state of a parallel walk. -/
structure KeepsContents (cfg : Config (ReadDirSpec B) (ReadDirResult B E))
    (callback : ReadDirCallback B E) (root : B × List (Except Error (DirEntry E))) (minDepth : ℕ)
    (w : ParWalk B E N) : Prop where
  /-- The result that a root entry gets is that of its own path. -/
  attached : ∀ a w' dirEntry rest, w.step cfg a = some w' → w.iter.awaiting = some dirEntry →
    w.iter.iter.readDirResultsStack = [rest] → w'.iter = w.iter ∨
      ∃ spec, dirEntry.readChildrenSpec root.1 = some spec ∧
        w'.iter = w.iter.resume dirEntry (some (callback.read spec))
  /-- At its end the walk has yielded every entry followed by the entries of its own directory, and
  its workers have read each directory as often as it occurs in this order. -/
  depthFirst : w.iter.finished = true → ∃ reads,
    DepthFirst callback.read minDepth root.1 root.2 w.iter.items reads ∧
      (w.run.taken.map Weighted.value).Perm reads

/-- **One root entry keeps its contents in every interleaving.** -/
theorem keepsContents_of_reaches (hsound : cfg.Sound)
    (hdown : ∀ spec, HandsDown cfg (ReadAt callback spec) (ResultAt callback spec))
    (hN : 0 < N) (hlength : (rootSpecs root).length ≤ 1)
    (h : Reaches cfg (init N root minDepth maxReceiveBufferSize) w) (hstop : w.run.stop = false) :
    KeepsContents cfg callback root minDepth w := by
  have hroots := reverse_rootSpecs hlength
  refine ⟨fun a w' dirEntry rest hstep hawaiting hstack => ?_, fun hfinished => ?_⟩
  · match hspecs : rootSpecs root, hlength with
    | [], _ =>
      obtain ⟨hreadless, -⟩ : Readless w.iter ∧
          ∃ n, ((serialWalk root minDepth).steps callback n).iter = w.iter :=
        readless_of_reaches hspecs h
      simp [hreadless.awaiting] at hawaiting
    | [start], _ =>
      obtain ⟨n, htraces⟩ := traces_of_handsDown hsound.sends hsound.disciplined hsound.planned
        (hdown start) hN hspecs h hstop
      refine (traces_step hsound.sends hsound.disciplined hsound.planned (hdown start) hN hspecs h
        hstop htraces (move_of_step hstep)).imp And.left fun hnext => ?_
      -- the serial walk, which stands at the same entry, makes the read of this entry
      rw [← htraces.iter_eq] at hawaiting hstack
      obtain ⟨spec, hspec, hread⟩ := (inStep_serialWalk hroots n).exists_read hawaiting hstack
      refine ⟨spec, hspec, ?_⟩
      rw [← hnext.iter_eq, ← htraces.iter_eq]
      exact step_of_nextRead hawaiting hread
  · obtain ⟨n, hn, hperm⟩ :=
      exists_reads_of_finished hsound hdown hN hlength h hstop hfinished
    exact ⟨_, (serialWalk_iff_depthFirst hroots minDepth _ _).mp
      ⟨n, by rw [hn, hfinished], by rw [hn], rfl⟩, hperm⟩

end ParWalk

/-- **When root entries keep their own contents.** For any results of the client's callback at the
root, the entries of a serial walk do if the list of the reads that they ask for is the same
backwards, and over finitely many directories only if it is. In a parallel walk with a client's
callback, or one that sorts, they do in every state that can be reached without being stopped if at
most one of them asks for a read. -/
theorem keepsContents_iff [Inhabited E] (os : OperatingSystem) (opts : WalkDirOptions B E)
    (root : B × List (Except Error (DirEntry E))) (minDepth : ℕ) :
    ((rootSpecs root).reverse = rootSpecs root →
      SerialWalk.KeepsContents (coreReadDirCallback os opts) root minDepth) ∧
    (∀ height, (∀ spec ∈ rootSpecs root,
        Lineage.Shallow (coreReadDirCallback os opts).children height spec) →
      (SerialWalk.KeepsContents (coreReadDirCallback os opts) root minDepth ↔
        (rootSpecs root).reverse = rootSpecs root)) ∧
    ((rootSpecs root).length ≤ 1 → opts.sort = true ∨ opts.processReadDir.isSome = true →
      ∀ (N : ℕ), 0 < N → ∀ (capacity : ℕ) (hcapacity : 0 < capacity) (maxReceiveBufferSize : ℕ)
        (w : ParWalk B E N),
        ParWalk.Reaches (Config.walk (coreReadDirCallback os opts) capacity hcapacity false)
          (ParWalk.init N root minDepth maxReceiveBufferSize) w → w.run.stop = false →
        w.KeepsContents (Config.walk (coreReadDirCallback os opts) capacity hcapacity false)
          (coreReadDirCallback os opts) root minDepth) := by
  refine ⟨SerialWalk.keepsContents, fun height hfinite => ?_, fun hlength hopts N hN => ?_⟩
  · exact ⟨fun h => h.reverse_eq hfinite, SerialWalk.keepsContents⟩
  · intro capacity hcapacity maxReceiveBufferSize w hreach hstop
    have hcallback := unstreamed_coreReadDirCallback (E := E) hopts os
    exact ParWalk.keepsContents_of_reaches (hcallback.sound capacity hcapacity)
      (fun spec => hcallback.handsDown spec capacity hcapacity) hN hlength hreach hstop

/-- A Linux where the directory `a` has the file `x` and the directory `b` has the file `y`. -/
def twinLinux : LinuxCalls :=
  { LinuxCalls.listing fun path =>
      if path = ⟨[.normal [97]]⟩ then ⟨[(8, [120])], none⟩ else ⟨[(8, [121])], none⟩ with
    symlinkMetadata := fun _ => .ok (.ofMode S_IFDIR 1 1) }

/-- Options with a callback that adds results to those of the root. -/
def addingOptions (added : List (Except Error (DirEntry Unit))) : WalkDirOptions Unit Unit :=
  { (WalkDirOptions.new : WalkDirOptions Unit Unit) with
    processReadDir := some fun depth _ state results =>
      if depth.isSome then (state, results) else (state, results ++ added) }

/-- The statement above for walks of `a` with an error added to the root, a serial one and one by
two workers: the serial walk keeps the contents of `a`, and the parallel walk ends after `a`, `x`
and the error. -/
theorem keepsContents_iff_one_directory :
    SerialWalk.KeepsContents
      (coreReadDirCallback (.linux twinLinux) (addingOptions [.error Error.busy]))
      (rootEntryResults (.linux twinLinux) (addingOptions [.error Error.busy]) ⟨[.normal [97]]⟩ ())
      0 ∧
    ∃ w : ParWalk Unit Unit 2, w.iter.finished = true ∧ w.iter.items.length = 3 ∧
      ∃ reads, DepthFirst
        (coreReadDirCallback (.linux twinLinux) (addingOptions [.error Error.busy])).read 0
        (rootEntryResults (.linux twinLinux) (addingOptions [.error Error.busy])
          ⟨[.normal [97]]⟩ ()).1
        (rootEntryResults (.linux twinLinux) (addingOptions [.error Error.busy])
          ⟨[.normal [97]]⟩ ()).2 w.iter.items reads ∧
        (w.run.taken.map Weighted.value).Perm reads := by
  obtain ⟨-, hserial, hparallel⟩ := keepsContents_iff (.linux twinLinux)
    (addingOptions [.error Error.busy])
    (rootEntryResults (.linux twinLinux) (addingOptions [.error Error.busy]) ⟨[.normal [97]]⟩ ()) 0
  let turns : List (WalkAction 2) :=
    (List.replicate 20 [.turn, .run (.worker 0 false), .run (.worker 1 false),
      .run (.consumer false)]).flatten
  let start : ParWalk Unit Unit 2 := ParWalk.init 2
    (rootEntryResults (.linux twinLinux) (addingOptions [.error Error.busy]) ⟨[.normal [97]]⟩ ())
    0 4
  let cfg := Config.walk
    (coreReadDirCallback (.linux twinLinux) (addingOptions [.error Error.busy])) 1 Nat.one_pos false
  have hrun : (start.runActions cfg turns).run.stop = false ∧
      (start.runActions cfg turns).iter.finished = true ∧
      (start.runActions cfg turns).iter.items.length = 3 := by
    decide +kernel
  refine ⟨(hserial 1 fun spec hspec => ?_).mpr rfl, start.runActions cfg turns, hrun.2.1,
    hrun.2.2, ?_⟩
  · -- `x` asks for no read
    obtain rfl := List.mem_singleton.mp hspec
    exact fun child hchild => absurd hchild List.not_mem_nil
  · exact (hparallel (by decide) (Or.inr rfl) 2 Nat.two_pos 1 Nat.one_pos 4 _
      (ParWalk.reaches_runActions cfg start turns) hrun.1).depthFirst hrun.2.1

/-- With the directory `b` added to the root neither walk keeps the contents of the root entries:
the serial walk makes the read of `b` for `a`, and there is a parallel walk by one worker where `b`
gets no listing. -/
theorem not_keepsContents_two_directories :
    ∃ (opts : WalkDirOptions Unit Unit) (root : Unit × List (Except Error (DirEntry Unit))),
      root = rootEntryResults (.linux twinLinux) opts ⟨[.normal [97]]⟩ () ∧
      ¬ SerialWalk.KeepsContents (coreReadDirCallback (.linux twinLinux) opts) root 0 ∧
      ∃ w : ParWalk Unit Unit 1,
        ParWalk.Reaches
          (Config.walk (coreReadDirCallback (.linux twinLinux) opts) 2 Nat.two_pos false)
          (ParWalk.init 1 root 0 4) w ∧ w.run.stop = false ∧
        ¬ w.KeepsContents
          (Config.walk (coreReadDirCallback (.linux twinLinux) opts) 2 Nat.two_pos false)
          (coreReadDirCallback (.linux twinLinux) opts) root 0 := by
  let opts := addingOptions
    (rootEntryResults (.linux twinLinux) .new ⟨[.normal [98]]⟩ ()).2
  let root := rootEntryResults (.linux twinLinux) opts ⟨[.normal [97]]⟩ ()
  let cfg := Config.walk (coreReadDirCallback (.linux twinLinux) opts) 2 Nat.two_pos false
  let start : ParWalk Unit Unit 1 := ParWalk.init 1 root 0 4
  let turns : List (WalkAction 1) :=
    ((List.replicate 14 [.turn, .run (.worker 0 false), .run (.consumer false)]).flatten).take 41
  refine ⟨opts, root, rfl, fun hkeeps => ?_, start.runActions cfg turns,
    ParWalk.reaches_runActions cfg start turns, by decide +kernel, fun hkeeps => ?_⟩
  · have hpath := congrArg (Option.map ReadDirSpec.path) (hkeeps.attached 1 _ _ rfl rfl)
    exact absurd hpath (by decide +kernel)
  · -- the next step of the consumer leaves `b` without a listing
    obtain ⟨w', hstep⟩ : ∃ w', (start.runActions cfg turns).step cfg (.run (.consumer false)) =
        some w' := Option.isSome_iff_exists.mp (by decide +kernel)
    obtain ⟨dirEntry, hawaiting⟩ : ∃ dirEntry, (start.runActions cfg turns).iter.awaiting =
        some dirEntry := Option.isSome_iff_exists.mp (by decide +kernel)
    obtain ⟨rest, hstack⟩ : ∃ rest, (start.runActions cfg turns).iter.iter.readDirResultsStack =
        [rest] := List.length_eq_one_iff.mp (by decide +kernel)
    have hafter : (((start.runActions cfg turns).step cfg (.run (.consumer false))).map fun w' =>
        (w'.iter.awaiting.isSome, w'.iter.iter.readDirResultsStack.length)) = some (false, 1) := by
      decide +kernel
    have hread : (((start.runActions cfg turns).iter.awaiting.bind fun dirEntry =>
        dirEntry.readChildrenSpec root.1).map fun spec =>
          ((coreReadDirCallback (.linux twinLinux) opts).read spec).toOption.isSome) =
            some true := by
      decide +kernel
    rw [hstep, Option.map_some, Option.some.injEq, Prod.mk.injEq] at hafter
    rcases hkeeps.attached _ w' dirEntry rest hstep hawaiting hstack with
      hsame | ⟨spec, hspec, hresume⟩
    · rw [hsame, hawaiting] at hafter
      simp at hafter
    · -- with its own listing there would be one more listing to walk
      rw [hawaiting, Option.bind_some, hspec, Option.map_some, Option.some.injEq] at hread
      cases hresult : (coreReadDirCallback (.linux twinLinux) opts).read spec with
      | error err => simp [hresult, Except.toOption] at hread
      | ok readDir =>
        have hlength := congrArg (fun st => st.iter.readDirResultsStack.length) hresume
        rw [hresult] at hlength
        simp [hafter.2, IterState.resume, DirEntryIter.resume, IterState.apply_emit, hstack]
          at hlength

end JwalkMeta
