import JwalkMeta.Run.Serial
import JwalkMeta.WalkDir.Alignment

/-!
# A streaming parallel walk yields what the serial walk yields

A streaming read schedules its child reads while it enumerates, so their results can arrive before
its own. On a plain tree of Linux the scheduled child reads are nevertheless those that the entries
ask for, numbered in the same order: all types are known, links are not followed, and a directory
that fails has been found unreadable before anything was scheduled.

The result of a streaming read differs from that of the serial walk in the count of streamed
children, which no iterator looks at. So the serial walk is compared with its twin over the results
of the streaming reads.

## Main definitions

* `listing`: what an iterator sees of a result.
* `Plain`: the streamed child reads of a core callback are those of the serial walk.
* `PlainLinux`: the answers of Linux on a plain tree.

## Main results

* `plain_coreReadDirCallback`: reads of a plain tree.
* `ParWalk.yields_serial_streaming`: a streaming walk of a plain tree that has ended has yielded
  what the serial walk yields.
-/

namespace JwalkMeta

open Interaction Frontier

variable {B E : Type} {N : ℕ}

/-! ### Results that no iterator can tell apart -/

/-- What an iterator sees of a result: not the count of streamed children. -/
def listing (result : ReadDirResult B E) : Except Error (B × List (Except Error (DirEntry E))) :=
  result.map fun readDir => (readDir.readDirState, readDir.resultsList)

/-- Two such results are the same error, or two listings with the same state and entries. -/
theorem listing_cases {r r' : ReadDirResult B E} (h : listing r = listing r') :
    (∃ err, r = .error err ∧ r' = .error err) ∨
      ∃ readDir readDir', r = .ok readDir ∧ r' = .ok readDir' ∧
        readDir.readDirState = readDir'.readDirState ∧
        readDir.resultsList = readDir'.resultsList := by
  cases r with
  | error err =>
    cases r' with
    | error err' => exact Or.inl ⟨err, rfl, by rw [Except.error.inj h]⟩
    | ok readDir' => simp [listing, Except.map] at h
  | ok readDir =>
    cases r' with
    | error err' => simp [listing, Except.map] at h
    | ok readDir' =>
      obtain ⟨hstate, hresults⟩ := Prod.mk.inj (Except.ok.inj h)
      exact Or.inr ⟨readDir, readDir', rfl, rfl, hstate, hresults⟩

theorem childSpecs_of_listing {r r' : ReadDirResult B E} (h : listing r = listing r') :
    childSpecs r = childSpecs r' := by
  obtain ⟨err, rfl, rfl⟩ | ⟨readDir, readDir', rfl, rfl, hstate, hresults⟩ := listing_cases h
  · rfl
  · simp [childSpecs, ReadDir.readChildrenSpecs, hstate, hresults]

theorem resume_of_listing {r r' : ReadDirResult B E} (h : listing r = listing r')
    (st : IterState E) (dirEntry : DirEntry E) :
    st.resume dirEntry (some r) = st.resume dirEntry (some r') := by
  obtain ⟨err, rfl, rfl⟩ | ⟨readDir, readDir', rfl, rfl, -, hresults⟩ := listing_cases h
  · rfl
  · simp [IterState.resume, DirEntryIter.resume, hresults]

/-- Serial walks over results that no iterator can tell apart go the same way. -/
theorem SerialWalk.steps_of_listing {callback callback' : ReadDirCallback B E}
    (h : ∀ spec, listing (callback.read spec) = listing (callback'.read spec))
    (w : SerialWalk B E) (n : ℕ) : w.steps callback n = w.steps callback' n := by
  have hstep (v : SerialWalk B E) : v.step callback = v.step callback' := by
    unfold SerialWalk.step SerialIter.next
    cases v.iter.awaiting with
    | none => rfl
    | some dirEntry =>
      cases v.serial.readDirSpecStack with
      | nil => rfl
      | cons spec stack =>
        simp only [childSpecs_of_listing (h spec), resume_of_listing (h spec)]
  induction n with
  | zero => rfl
  | succ n ih => rw [SerialWalk.steps, SerialWalk.steps, ih, hstep]

/-- The core callback that gives, without a context, what a streaming read gives. -/
def ReadDirCallback.twin (callback : ReadDirCallback B E) : ReadDirCallback B E :=
  fun spec _ => .done (callback.result ⟨spec, ⟨[]⟩, 0⟩)

/-- The streamed child reads of a core callback are those of the serial walk. -/
structure Plain (callback : ReadDirCallback B E) : Prop where
  streams : Streams callback
  /-- The result depends neither on the place in the tree nor on the weight. -/
  result_eq : ∀ weighted, callback.result weighted = callback.result ⟨weighted.value, ⟨[]⟩, 0⟩
  listing_eq : ∀ weighted,
    listing (callback.result weighted) = listing (callback.read weighted.value)
  aligned : ∀ weighted, callback.AlignedAt weighted

variable {callback : ReadDirCallback B E}

/-- A counted child read stands at its number. -/
theorem Plain.counted_getElem (h : Plain callback) {weighted u : Weighted (ReadDirSpec B)}
    (hu : u ∈ callback.counted weighted) :
    ∃ i, u.indexPath = weighted.indexPath.adding i ∧
      (childSpecs (callback.result weighted))[i]? = some u.value := by
  obtain ⟨i, hi, rfl⟩ := List.getElem_of_mem hu
  have hpath := congrArg (fun l => l[i]?) (h.streams.map_counted weighted)
  have hvalue := congrArg (fun l => l[i]?) (h.aligned weighted)
  simp only [List.getElem?_map, List.getElem?_eq_getElem hi, Option.map_some] at hpath hvalue
  refine ⟨i, ?_, hvalue.symm⟩
  obtain ⟨j, hj, hadding⟩ := Option.map_eq_some_iff.mp hpath.symm
  obtain ⟨hlt, rfl⟩ := List.getElem?_eq_some_iff.mp hj
  rw [← hadding, List.getElem_range]

/-- The announced number is that of the child reads that the entries ask for. -/
theorem Plain.childCount_eq (h : Plain callback) (weighted : Weighted (ReadDirSpec B)) :
    (callback.ordered weighted).childCount = (childSpecs (callback.result weighted)).length := by
  have hlength := congrArg List.length (h.streams.map_counted weighted)
  have hlength' := congrArg List.length (h.aligned weighted)
  simp only [List.length_map, List.length_range] at hlength hlength'
  omega

/-- An item hands down to its children that they stand at their index paths. -/
theorem Plain.handsDown (h : Plain callback) (root : ReadDirSpec B) (capacity : ℕ)
    (hcapacity : 0 < capacity) :
    HandsDown (Config.walk callback capacity hcapacity false) (ReadAt callback.twin root)
      (ResultAt callback.twin root) := by
  intro weighted hw
  have hread : callback.twin.read weighted.value = callback.result weighted :=
    (h.result_eq weighted).symm
  refine ⟨fun u hu => ?_, fun o ho => ?_⟩
  · rw [Config.walk, pushes_multiThreadedWalkDir] at hu
    obtain ⟨i, hpath, hvalue⟩ := h.counted_getElem hu
    have hat := specAt_append hw i
    rw [hread, hvalue] at hat
    rw [ReadAt, Weighted.address, hpath]
    exact hat
  · rw [Config.walk, results_multiThreadedWalkDir, List.mem_singleton] at ho
    subst ho
    refine ⟨weighted.value, hw, hread.symm, ?_⟩
    rw [hread]
    exact h.childCount_eq weighted

/-! ### Plain trees of Linux -/

/-- A read that makes no use of its context. -/
theorem aligned_of_context {weighted : Weighted (ReadDirSpec B)}
    (hctx : callback weighted.value (some ⟨weighted.indexPath, weighted.weight⟩) =
      callback weighted.value none)
    (hsilent : asked StreamOp.unstopped (callback weighted.value none) = [] ∧
      streamedCount (value StreamOp.unstopped (callback weighted.value none)) = 0) :
    callback.result weighted = callback.read weighted.value ∧ callback.AlignedAt weighted := by
  have hstreamed : callback.streamed weighted = [] := by
    rw [ReadDirCallback.streamed, hctx, hsilent.1]
    rfl
  refine ⟨?_, ?_⟩
  · rw [ReadDirCallback.result, hctx, ReadDirCallback.read]
    exact value_eq_of_asked hsilent.1
  · cases hresult : callback.result weighted with
    | error err =>
      simp [ReadDirCallback.AlignedAt, ReadDirCallback.counted, hstreamed, hresult, regularSpecs,
        childSpecs]
    | ok readDir =>
      have hcount : streamedCount (callback.result weighted) = 0 := by
        rw [ReadDirCallback.result, hctx]
        exact hsilent.2
      rw [hresult, streamedCount_ok] at hcount
      rw [alignedAt_iff_of_result hresult (by rw [hstreamed, hcount]; rfl)]
      exact Or.inl hstreamed

/-- The answers of Linux on a plain tree: all types are known, and a directory is enumerated to its
end or cannot be opened. -/
structure PlainLinux (os : LinuxCalls) : Prop where
  known : ∀ path attempt, ∀ info ∈ (linuxRecords os path attempt).records, info.dType ≠ DT_UNKNOWN
  complete : ∀ path attempt, (linuxRecords os path attempt).error = none ∨
    (linuxRecords os path attempt).records = []

section PlainTree

variable [Inhabited E] {os : LinuxCalls} {opts : WalkDirOptions B E}

/-- A directory that is not read, or that cannot be opened, makes no use of a context. -/
theorem coreReadDirCallback_context {spec : ReadDirSpec B}
    (h : opts.maxDepth < saturatingAdd spec.depth 1 ∨ (linuxRecords os spec.path 0).records = [])
    (ctx : Option StreamingContext) :
    coreReadDirCallback (E := E) (.linux os) opts spec ctx =
      coreReadDirCallback (.linux os) opts spec none := by
  unfold coreReadDirCallback
  dsimp only
  split_ifs with hdepth
  · rfl
  · have hrecords := h.resolve_left hdepth
    refine retryTransientIo_context _ _ _ _ ctx ?_
    have hstream (req : ReadRequest B) :
        streamSubdirs opts req (fun info => info.dType == DT_DIR) (skipLinux opts)
          LinuxDirEntryOwned.name (linuxRecords os spec.path 0).records = pure 0 := by
      rw [hrecords, streamSubdirs]
      cases opts.streaming req <;> rfl
    simp only [readDirOn_linux, readDirWith, hstream]
    rfl

theorem silent_coreReadDirCallback (spec : ReadDirSpec B) :
    asked StreamOp.unstopped (coreReadDirCallback (E := E) (.linux os) opts spec none) = [] ∧
      streamedCount (value StreamOp.unstopped
        (coreReadDirCallback (E := E) (.linux os) opts spec none)) = 0 := by
  unfold coreReadDirCallback
  dsimp only
  split_ifs with hdepth
  · exact ⟨rfl, rfl⟩
  · exact silent_retryTransientIo _ _ (fun attempt => silent_readDirOn _ _ attempt _ rfl) _ _

variable (hplain : PlainLinux os) (hsort : opts.sort = false)
  (hprocess : opts.processReadDir = none) (hfollow : opts.followLinks = false)

include hsort hprocess

/-- The result of a streaming read of a directory that is enumerated to its end. -/
theorem result_streaming (weighted : Weighted (ReadDirSpec B))
    (hdepth : saturatingAdd weighted.value.depth 1 ≤ opts.maxDepth)
    (hok : (linuxRecords os weighted.value.path 0).error = none) :
    let req := coreRequest os.toSystemCalls opts weighted
    let records := (linuxRecords os weighted.value.path 0).records
    let results :=
      (batchStatx os opts req.path records).filterMap (linuxResult (E := E) os opts req)
    (coreReadDirCallback (.linux os) opts).result weighted =
        .ok ⟨weighted.value.clientReadState, results,
          (subdirs (fun info => info.dType == DT_DIR) (skipLinux opts) records).length⟩ ∧
      (coreReadDirCallback (.linux os) opts).read weighted.value =
        .ok ⟨weighted.value.clientReadState, results, 0⟩ := by
  intro req records results
  refine ⟨(streaming_of_outcome hsort hprocess hdepth (readDirOn_linux os opts 0 req) _ ?_).1, ?_⟩
  · simp [readDirOutcome, hok, finishReadDir, hsort, hprocess, coreRequest, results, req, records]
  · have hvalue : (readDirOn (E := E) (.linux os) opts 0 { req with streamingCtx := none }).value
        (fun _ => false) = .ok ⟨weighted.value.clientReadState, results, 0⟩ := by
      rw [readDirOn_linux, readDirWith_of_context _ _ _ _ _ _ _ rfl]
      simp only [value_done, readDirOutcome, finishReadDir, hsort, hprocess, Bool.false_eq_true,
        ↓reduceIte]
      rw [show (linuxRecords os req.path 0).error = none from hok]
      rfl
    have hread := retryTransientIo_of_ok .unix
      (fun attempt streamingCtx => readDirOn (E := E) (.linux os) opts attempt
        { req with streamingCtx := streamingCtx }) opts.maxRetries none hvalue
    simp only [ReadDirCallback.read, coreReadDirCallback, Nat.not_lt.mpr hdepth, ↓reduceIte]
    exact hread.1

include hplain hfollow

/-- The child reads that a streaming read of a plain tree schedules are those that its entries ask
for. -/
theorem alignedAt_plain {weighted : Weighted (ReadDirSpec B)}
    (hdepth : saturatingAdd weighted.value.depth 1 ≤ opts.maxDepth)
    (hok : (linuxRecords os weighted.value.path 0).error = none) :
    (coreReadDirCallback (E := E) (.linux os) opts).AlignedAt weighted := by
  refine (alignedAt_linux_streaming_iff os hsort hprocess hdepth hok).mpr (Or.inr ?_)
  set req := coreRequest os.toSystemCalls opts weighted with hreq
  have hresults := filterMap_linuxResults (E := E) os opts req (saturatingAdd_one_ne_zero _) _
    (hplain.known weighted.value.path 0)
  refine Eq.trans ?_ hresults.symm
  simp [asksLinux, hfollow]

/-- **Reads of a plain tree of Linux.** -/
theorem plain_coreReadDirCallback :
    Plain (coreReadDirCallback (E := E) (.linux os) opts) := by
  -- either nothing is scheduled, or the directory is enumerated to its end
  have hcases (spec : ReadDirSpec B) :
      (opts.maxDepth < saturatingAdd spec.depth 1 ∨ (linuxRecords os spec.path 0).records = []) ∨
      (saturatingAdd spec.depth 1 ≤ opts.maxDepth ∧
        (linuxRecords os spec.path 0).error = none) := by
    rcases Nat.lt_or_ge opts.maxDepth (saturatingAdd spec.depth 1) with hdepth | hdepth
    · exact Or.inl (Or.inl hdepth)
    · rcases hplain.complete spec.path 0 with hok | hnil
      · exact Or.inr ⟨hdepth, hok⟩
      · exact Or.inl (Or.inr hnil)
  have hsilent (weighted : Weighted (ReadDirSpec B))
      (h : opts.maxDepth < saturatingAdd weighted.value.depth 1 ∨
        (linuxRecords os weighted.value.path 0).records = []) :
      (coreReadDirCallback (E := E) (.linux os) opts).result weighted =
          (coreReadDirCallback (.linux os) opts).read weighted.value ∧
        (coreReadDirCallback (E := E) (.linux os) opts).AlignedAt weighted :=
    aligned_of_context (coreReadDirCallback_context h _) (silent_coreReadDirCallback weighted.value)
  refine ⟨streams_walkCallback (fun _ => .linux os) opts, fun weighted => ?_, fun weighted => ?_,
    fun weighted => ?_⟩
  · rcases hcases weighted.value with h | ⟨hdepth, hok⟩
    · rw [(hsilent weighted h).1, (hsilent ⟨weighted.value, ⟨[]⟩, 0⟩ h).1]
    · rw [(result_streaming hsort hprocess weighted hdepth hok).1]
      exact (result_streaming hsort hprocess ⟨weighted.value, ⟨[]⟩, 0⟩ hdepth hok).1.symm
  · rcases hcases weighted.value with h | ⟨hdepth, hok⟩
    · rw [(hsilent weighted h).1]
    · obtain ⟨hresult, hread⟩ := result_streaming (E := E) hsort hprocess weighted hdepth hok
      rw [hresult, hread]
      rfl
  · rcases hcases weighted.value with h | ⟨hdepth, hok⟩
    · exact (hsilent weighted h).2
    · exact alignedAt_plain hplain hsort hprocess hfollow hdepth hok

end PlainTree

/-! ### The walk -/

namespace ParWalk

/-- **A streaming parallel walk of a plain tree yields what the serial walk yields.** On Linux, with
all types known, with every directory enumerated to its end or not to be opened, without sorting,
client's callback and followed links, whatever the other options, the number of workers, the
capacity of the channels and the size of the receive buffer: when the iterator of a parallel walk
that is not stopped has come to its end, the items it has yielded are those of the serial walk. -/
theorem yields_serial_streaming [Inhabited E] (os : LinuxCalls) (hplain : PlainLinux os)
    (opts : WalkDirOptions B E) (hsort : opts.sort = false) (hprocess : opts.processReadDir = none)
    (hfollow : opts.followLinks = false) (root : Path) (rootReadDirState : B) (hN : 0 < N)
    (capacity : ℕ) (hcapacity : 0 < capacity) (maxReceiveBufferSize minDepth : ℕ)
    (w : ParWalk B E N)
    (h : Reaches (Config.walk (coreReadDirCallback (.linux os) opts) capacity hcapacity false)
      (init N (rootEntryResults (.linux os) opts root rootReadDirState) minDepth
        maxReceiveBufferSize) w)
    (hstop : w.run.stop = false) (hfinished : w.iter.finished = true)
    (items : List (Except Error (DirEntry E))) :
    (serialWalk (rootEntryResults (.linux os) opts root rootReadDirState) minDepth).Yields
      (coreReadDirCallback (.linux os) opts) items ↔ items = w.iter.items := by
  have hcallback := plain_coreReadDirCallback (E := E) hplain hsort hprocess hfollow
  have hlength : (rootSpecs (rootEntryResults (E := E) (.linux os) opts root
      rootReadDirState)).length ≤ 1 := by
    refine (List.length_filterMap_le _ _).trans ?_
    simp [rootEntryResults, hprocess]
  have htwin := yields_of_handsDown rfl (disciplined_multiThreadedWalkDir _)
    (fun weighted => ⟨_, planned_multiThreadedWalkDir hcallback.streams weighted⟩)
    (fun spec => hcallback.handsDown spec capacity hcapacity) hN hlength h hstop hfinished items
  -- the serial walk cannot tell the results of its twin from its own
  have hlisting (spec : ReadDirSpec B) :
      listing ((coreReadDirCallback (.linux os) opts).twin.read spec) =
        listing ((coreReadDirCallback (E := E) (.linux os) opts).read spec) :=
    hcallback.listing_eq ⟨spec, ⟨[]⟩, 0⟩
  rw [← htwin]
  simp only [SerialWalk.Yields, SerialWalk.steps_of_listing hlisting]

/-- A Linux where the directory `r` has the subdirectories `a` and `b`, and `a` has a file. -/
def plainLinux : LinuxCalls :=
  { LinuxCalls.listing fun path =>
      if path = ⟨[.normal [114]]⟩ then ⟨[(DT_DIR, [97]), (8, [102]), (DT_DIR, [98])], none⟩
      else if path = ⟨[.normal [114], .normal [97]]⟩ then ⟨[(8, [103])], none⟩
      else ⟨[], some (.os 13)⟩ with
    symlinkMetadata := fun _ => .ok (.ofMode S_IFDIR 1 1) }

theorem plainLinux_plain : PlainLinux plainLinux := by
  have hcases (path : Path) (attempt : ℕ) :
      linuxRecords plainLinux path attempt =
        if path = ⟨[.normal [114]]⟩ then
          ⟨[⟨DT_DIR, [97], none⟩, ⟨8, [102], none⟩, ⟨DT_DIR, [98], none⟩], none⟩
        else if path = ⟨[.normal [114], .normal [97]]⟩ then ⟨[⟨8, [103], none⟩], none⟩
        else ⟨[], some (.os 13)⟩ := by
    simp only [linuxRecords, plainLinux, LinuxCalls.listing]
    split_ifs <;> rfl
  refine ⟨fun path attempt => ?_, fun path attempt => ?_⟩
  · rw [hcases]
    split_ifs <;> decide
  · rw [hcases]
    split_ifs <;> simp

/-- The statement above for a walk of `r` by two workers over channels for two items, with the
options of `WalkDirGeneric::new`; the directory `b` cannot be opened. It ends after five entries. -/
theorem yields_serial_streaming_two_workers :
    ∃ w : ParWalk Unit Unit 2,
      w.iter.finished = true ∧ w.iter.items.length = 5 ∧
      ∀ items, (serialWalk (rootEntryResults (.linux plainLinux)
          (WalkDirOptions.new : WalkDirOptions Unit Unit) ⟨[.normal [114]]⟩ ()) 0).Yields
        (coreReadDirCallback (.linux plainLinux) .new) items ↔ items = w.iter.items := by
  let turns : List (WalkAction 2) :=
    (List.replicate 30 [.turn, .run (.worker 0 false), .run (.worker 1 false),
      .run (.consumer false)]).flatten
  let start : ParWalk Unit Unit 2 :=
    init 2 (rootEntryResults (.linux plainLinux) (WalkDirOptions.new : WalkDirOptions Unit Unit)
      ⟨[.normal [114]]⟩ ()) 0 4
  let cfg := Config.walk (coreReadDirCallback (.linux plainLinux)
    (WalkDirOptions.new : WalkDirOptions Unit Unit)) 2 Nat.two_pos false
  have hrun : (start.runActions cfg turns).run.stop = false ∧
      (start.runActions cfg turns).iter.finished = true ∧
      (start.runActions cfg turns).iter.items.length = 5 := by
    decide +kernel
  refine ⟨start.runActions cfg turns, hrun.2.1, hrun.2.2, ?_⟩
  exact yields_serial_streaming plainLinux plainLinux_plain .new rfl rfl rfl ⟨[.normal [114]]⟩ ()
    Nat.two_pos 2 Nat.two_pos 4 0 _ (reaches_runActions cfg start turns) hrun.1 hrun.2.1

end ParWalk

end JwalkMeta
