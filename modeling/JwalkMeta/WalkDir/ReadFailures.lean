import JwalkMeta.Run.Progress
import JwalkMeta.Run.Serial
import JwalkMeta.WalkDir.DepthFirst
import JwalkMeta.WalkDir.Origins

/-!
# Directory reads that fail

A read that fails has no listing. Its error goes to the entry that has asked for the read, and the
entry is yielded if it is deep enough: the minimal depth, which only says what is yielded, takes the
error away together with the entry. It does not keep the directory from being read.

The serial walk makes the reads that descend from the root entries, and a parallel walk that has
come to its end has made the same reads, in another order.

## Main definitions

* `ReadDirCallback.Visits`: the reads that descend from the root entries.
* `Reported`: an item tells of a failed read.
* `FailsBelow`: reads fail at the minimal depth or below it only.

## Main results

* `DepthFirst.mem_reads_iff`: the serial walk makes the reads that descend from the root entries.
* `ParWalk.exists_reads_of_finished`: a parallel walk that has ended has made these reads.
* `DepthFirst.reported_iff`: when the items tell of all failed reads.
* `readFailures_reported_iff`: when both walks do.
-/

namespace JwalkMeta

open Interaction Frontier SerialWalk

variable {B E : Type} {N : ℕ}

/-- The reads that descend from given ones: from a read to those that its entries ask for. -/
def ReadDirCallback.Visits (callback : ReadDirCallback B E) (roots : List (ReadDirSpec B))
    (spec : ReadDirSpec B) : Prop :=
  ∃ ancestors, Lineage roots (fun spec child => child ∈ callback.children spec) (spec :: ancestors)

/-- The items tell of a failed read: by the error, or by the entry that has asked for the read. -/
def Reported (items : List (Except Error (DirEntry E))) (spec : ReadDirSpec B) (err : Error) :
    Prop :=
  .error err ∈ items ∨ ∃ dirEntry, .ok dirEntry ∈ items ∧ dirEntry.readChildrenError = some err ∧
    dirEntry.readChildrenSpec spec.clientReadState = some spec

/-- The items tell of all failed reads. -/
def AllReported (callback : ReadDirCallback B E) (reads : List (ReadDirSpec B))
    (items : List (Except Error (DirEntry E))) : Prop :=
  ∀ spec ∈ reads, ∀ err, callback.read spec = .error err → Reported items spec err

/-- No read above the minimal depth fails. -/
def FailsBelow (callback : ReadDirCallback B E) (roots : List (ReadDirSpec B)) (minDepth : ℕ) :
    Prop :=
  ∀ spec, callback.Visits roots spec → ∀ err, callback.read spec = .error err →
    minDepth ≤ spec.depth

/-! ### The reads of the recursive definition -/

section DepthFirst

variable {callback : ReadDirCallback B E} {minDepth : ℕ} {state : B}
  {results items : List (Except Error (DirEntry E))} {reads : List (ReadDirSpec B)}
  {spec : ReadDirSpec B} {err : Error} {dirEntry : DirEntry E}

theorem childSpecs_of_ok {readDir : ReadDir B E} (h : callback.read spec = .ok readDir) :
    callback.children spec =
      readDir.resultsList.filterMap (ReadDir.childSpec readDir.readDirState) := by
  rw [ReadDirCallback.children, h]
  rfl

/-- The reads that a listing asks for are made. -/
theorem DepthFirst.roots_subset (h : DepthFirst callback.read minDepth state results items reads) :
    results.filterMap (ReadDir.childSpec state) ⊆ reads := by
  induction h with
  | nil => exact List.Subset.refl _
  | error hrest ih => rwa [List.filterMap_cons_none rfl]
  | entry hspec hrest ih => rwa [filterMap_childSpec_of_none hspec]
  | failed hspec hread hrest ih =>
    rw [filterMap_childSpec_of_some hspec]
    exact List.cons_subset_cons _ ih
  | listed hspec hread hdir hrest ihdir ihrest =>
    rw [filterMap_childSpec_of_some hspec]
    exact List.cons_subset_cons _ fun s hs => List.mem_append_right _ (ihrest hs)

/-- With a read those that its entries ask for are made. -/
theorem DepthFirst.children_subset
    (h : DepthFirst callback.read minDepth state results items reads) :
    ∀ spec ∈ reads, callback.children spec ⊆ reads := by
  induction h with
  | nil => simp
  | error hrest ih => exact ih
  | entry hspec hrest ih => exact ih
  | @failed state dirEntry spec err rest items reads hspec hread hrest ih =>
    intro s hs
    rcases List.mem_cons.mp hs with rfl | hs
    · rw [ReadDirCallback.children, hread]
      exact List.nil_subset _
    · exact fun c hc => List.mem_cons_of_mem _ (ih s hs hc)
  | @listed state dirEntry spec readDir rest items items' reads reads' hspec hread hdir hrest ihdir
      ihrest =>
    intro s hs c hc
    rcases List.mem_cons.mp hs with rfl | hs
    · rw [childSpecs_of_ok hread] at hc
      exact List.mem_cons_of_mem _ (List.mem_append_left _ (hdir.roots_subset hc))
    · refine List.mem_cons_of_mem _ ?_
      rcases List.mem_append.mp hs with hs | hs
      · exact List.mem_append_left _ (ihdir s hs hc)
      · exact List.mem_append_right _ (ihrest s hs hc)

/-- Every read descends from those that the listing asks for. -/
theorem DepthFirst.visits (h : DepthFirst callback.read minDepth state results items reads) :
    ∀ spec ∈ reads, callback.Visits (results.filterMap (ReadDir.childSpec state)) spec := by
  induction h with
  | nil => simp
  | error hrest ih => rwa [List.filterMap_cons_none rfl]
  | entry hspec hrest ih => rwa [filterMap_childSpec_of_none hspec]
  | failed hspec hread hrest ih =>
    rw [filterMap_childSpec_of_some hspec]
    intro s hs
    rcases List.mem_cons.mp hs with rfl | hs
    · exact ⟨[], .root List.mem_cons_self⟩
    · obtain ⟨ancestors, hlineage⟩ := ih s hs
      exact ⟨ancestors, hlineage.mono (List.subset_cons_self _ _)⟩
  | @listed state dirEntry spec readDir rest items items' reads reads' hspec hread hdir hrest ihdir
      ihrest =>
    rw [filterMap_childSpec_of_some hspec]
    intro s hs
    rcases List.mem_cons.mp hs with rfl | hs
    · exact ⟨[], .root List.mem_cons_self⟩
    · rcases List.mem_append.mp hs with hs | hs
      · -- the line of descent goes on from the directory
        obtain ⟨ancestors, hlineage⟩ := ihdir s hs
        rw [← childSpecs_of_ok hread] at hlineage
        exact ⟨_, hlineage.append (fun _ hb => hb) (.root List.mem_cons_self)⟩
      · obtain ⟨ancestors, hlineage⟩ := ihrest s hs
        exact ⟨ancestors, hlineage.mono (List.subset_cons_self _ _)⟩

/-- **The reads of a walk are those that descend from the root entries.** -/
theorem DepthFirst.mem_reads_iff
    (h : DepthFirst callback.read minDepth state results items reads) :
    spec ∈ reads ↔ callback.Visits (results.filterMap (ReadDir.childSpec state)) spec := by
  refine ⟨h.visits spec, ?_⟩
  rintro ⟨ancestors, hlineage⟩
  exact hlineage.forall_mem (fun s hs => h.roots_subset hs)
    (fun s c hs hc => h.children_subset s hs hc) spec List.mem_cons_self

/-! ### The items of the recursive definition -/

theorem mem_emitted {item : Except Error (DirEntry E)} :
    item ∈ emitted minDepth dirEntry ↔ minDepth ≤ dirEntry.depth ∧ item = .ok dirEntry := by
  unfold emitted
  split_ifs with hdepth <;> simp [hdepth]

/-- Every entry that is yielded is deep enough. -/
theorem DepthFirst.le_depth_of_mem
    (h : DepthFirst callback.read minDepth state results items reads)
    (hmem : .ok dirEntry ∈ items) : minDepth ≤ dirEntry.depth := by
  have hfirst {e : DirEntry E} (he : .ok dirEntry ∈ emitted minDepth e) :
      minDepth ≤ dirEntry.depth := by
    obtain ⟨hdepth, he⟩ := mem_emitted.mp he
    rwa [Except.ok.inj he]
  induction h with
  | nil => simp at hmem
  | error hrest ih => exact ih (by simpa using hmem)
  | entry hspec hrest ih => exact (List.mem_append.mp hmem).elim hfirst ih
  | failed hspec hread hrest ih => exact (List.mem_append.mp hmem).elim hfirst ih
  | listed hspec hread hdir hrest ihdir ihrest =>
    rcases List.mem_append.mp hmem with hmem | hmem
    · exact hfirst hmem
    · exact (List.mem_append.mp hmem).elim ihdir ihrest

/-- Every error that is yielded comes from a listing. -/
theorem DepthFirst.origin_of_error
    (h : DepthFirst callback.read minDepth state results items reads)
    (hmem : .error err ∈ items) :
    .error err ∈ results ∨
      ∃ spec ∈ reads, ∃ readDir, callback.read spec = .ok readDir ∧
        .error err ∈ readDir.resultsList := by
  have hfirst {e : DirEntry E} : .error err ∉ emitted minDepth e := by
    simp [mem_emitted]
  induction h with
  | nil => simp at hmem
  | @error state err' rest items reads hrest ih =>
    rcases List.mem_cons.mp hmem with he | hmem
    · exact Or.inl (he ▸ List.mem_cons_self)
    · exact (ih hmem).imp_left (List.mem_cons_of_mem _)
  | entry hspec hrest ih =>
    have hmem := (List.mem_append.mp hmem).resolve_left hfirst
    exact (ih hmem).imp_left (List.mem_cons_of_mem _)
  | failed hspec hread hrest ih =>
    have hmem := (List.mem_append.mp hmem).resolve_left hfirst
    refine (ih hmem).imp (List.mem_cons_of_mem _) ?_
    rintro ⟨s, hs, hread⟩
    exact ⟨s, List.mem_cons_of_mem _ hs, hread⟩
  | @listed state dirEntry spec readDir rest items items' reads reads' hspec hread hdir hrest ihdir
      ihrest =>
    rcases List.mem_append.mp ((List.mem_append.mp hmem).resolve_left hfirst) with hmem | hmem
    · refine Or.inr ?_
      rcases ihdir hmem with hmem | ⟨s, hs, hread'⟩
      · exact ⟨spec, List.mem_cons_self, readDir, hread, hmem⟩
      · exact ⟨s, List.mem_cons_of_mem _ (List.mem_append_left _ hs), hread'⟩
    · refine (ihrest hmem).imp (List.mem_cons_of_mem _) ?_
      rintro ⟨s, hs, hread'⟩
      exact ⟨s, List.mem_cons_of_mem _ (List.mem_append_right _ hs), hread'⟩

theorem Reported.mono {items' : List (Except Error (DirEntry E))} (h : Reported items spec err)
    (hitems : items ⊆ items') : Reported items' spec err := by
  refine h.imp (fun hmem => hitems hmem) ?_
  rintro ⟨e, he, hentry⟩
  exact ⟨e, hitems he, hentry⟩

/-- A failed read at the minimal depth or below it is reported by its entry. -/
theorem DepthFirst.reported (h : DepthFirst callback.read minDepth state results items reads)
    (hspec : spec ∈ reads) (hread : callback.read spec = .error err)
    (hdepth : minDepth ≤ spec.depth) : Reported items spec err := by
  induction h with
  | nil => simp at hspec
  | error hrest ih => exact (ih hspec).mono (List.subset_cons_self _ _)
  | entry hnone hrest ih => exact (ih hspec).mono (List.subset_append_right _ _)
  | @failed state dirEntry spec' err' rest items reads hasks hread' hrest ih =>
    rcases List.mem_cons.mp hspec with rfl | hspec
    · obtain rfl : err' = err := Except.error.inj (hread'.symm.trans hread)
      obtain ⟨path, hpath, rfl⟩ := Option.map_eq_some_iff.mp hasks
      refine Or.inr ⟨_, List.mem_append_left _ (mem_emitted.mpr ⟨hdepth, rfl⟩), rfl, ?_⟩
      exact Option.map_eq_some_iff.mpr ⟨path, hpath, rfl⟩
    · exact (ih hspec).mono (List.subset_append_right _ _)
  | listed hasks hread' hdir hrest ihdir ihrest =>
    rcases List.mem_cons.mp hspec with rfl | hspec
    · rw [hread] at hread'
      cases hread'
    · rcases List.mem_append.mp hspec with hspec | hspec
      · exact (ihdir hspec).mono fun i hi =>
          List.mem_append_right _ (List.mem_append_left _ hi)
      · exact (ihrest hspec).mono fun i hi =>
          List.mem_append_right _ (List.mem_append_right _ hi)

/-- **When the items tell of all failed reads**, if the errors of listings are not those of reads:
if the reads fail at the minimal depth or below it only. -/
theorem DepthFirst.reported_iff (h : DepthFirst callback.read minDepth state results items reads)
    (hlisted : ∀ spec err, callback.Visits (results.filterMap (ReadDir.childSpec state)) spec →
      callback.read spec = .error err →
      .error err ∉ results ∧ ∀ spec' readDir, callback.read spec' = .ok readDir →
        .error err ∉ readDir.resultsList) :
    AllReported callback reads items ↔
      FailsBelow callback (results.filterMap (ReadDir.childSpec state)) minDepth := by
  refine ⟨fun hall spec hvisits err hread => ?_, fun hbelow spec hspec err hread => ?_⟩
  · rcases hall spec (h.mem_reads_iff.mpr hvisits) err hread with hmem | ⟨e, he, -, hasks⟩
    · obtain ⟨hroot, hdir⟩ := hlisted spec err hvisits hread
      rcases h.origin_of_error hmem with hmem | ⟨spec', -, readDir, hread', hmem⟩
      · exact absurd hmem hroot
      · exact absurd hmem (hdir spec' readDir hread')
    · -- the entry that has asked for the read stands at its depth
      obtain ⟨path, -, hspec⟩ := Option.map_eq_some_iff.mp hasks
      rw [← hspec]
      exact h.le_depth_of_mem he
  · exact h.reported hspec hread (hbelow spec (h.mem_reads_iff.mp hspec) err hread)

end DepthFirst

/-! ### Errors of listings and of reads -/

section Options

variable [Inhabited E]

/-- An error among the results of a listing is reported at the depth of the entries. -/
theorem depth_of_mem_rawListing {os : OperatingSystem} {opts : WalkDirOptions B E} {attempt : ℕ}
    {req : ReadRequest B} {results : List (Except Error (DirEntry E))} {err : Error}
    (h : rawListing os opts attempt req = .ok results) (hmem : .error err ∈ results) :
    err.depth = req.readDirContentsDepth := by
  rcases entered_of_mem_rawListing h hmem with ⟨e, hentered, herror⟩ | ⟨path, ioErr, herror, -⟩
  · rw [(of_processDirEntryResult_error herror.symm).1, hentered.depth_eq]
  · rw [Except.error.inj herror]

/-- A read without a context is an attempt of it, unless the maximal depth keeps the directory from
being read. -/
theorem read_cases (os : OperatingSystem) (opts : WalkDirOptions B E) (spec : ReadDirSpec B) :
    (coreReadDirCallback os opts).read spec = .ok (.new spec.clientReadState []) ∨
      ∃ attempt, (coreReadDirCallback os opts).read spec =
        attemptOutcome opts (readRequest os.systemCalls opts spec none)
          (rawListing os opts attempt (readRequest os.systemCalls opts spec none)) 0 := by
  have hreturns : MayReturn (coreReadDirCallback os opts spec none)
      ((coreReadDirCallback os opts).read spec) := mayReturn_value _ _
  rcases mayReturn_coreReadDirCallback hreturns with ⟨-, hempty⟩ | ⟨attempt, n, hlast⟩
  · exact Or.inl hempty
  · have hn : n = 0 := by
      by_contra hne
      exact (hlast.scheduling hne).2.1 rfl
    exact Or.inr ⟨attempt, hn ▸ hlast.result_eq⟩

/-- The errors of reads are told apart from those among the results of a read without a client's
callback by the depth. -/
theorem error_not_mem_of_read {os : OperatingSystem} {opts : WalkDirOptions B E}
    (hprocess : opts.processReadDir = none) {spec spec' : ReadDirSpec B} {readDir : ReadDir B E}
    {err : Error} (hfailed : (coreReadDirCallback os opts).read spec = .error err)
    (hread : (coreReadDirCallback os opts).read spec' = .ok readDir) :
    .error err ∉ readDir.resultsList := by
  have hfailedDepth : err.depth = 0 := by
    rcases read_cases os opts spec with hempty | ⟨attempt, hattempt⟩
    · rw [hempty] at hfailed
      cases hfailed
    · obtain ⟨ioErr, -, rfl⟩ := listingError_of_attemptOutcome (hattempt.symm.trans hfailed)
      rfl
  intro hmem
  rcases read_cases os opts spec' with hempty | ⟨attempt, hattempt⟩
  · obtain rfl := Except.ok.inj (hempty.symm.trans hread)
    exact absurd hmem List.not_mem_nil
  · rw [hattempt] at hread
    cases hlisting : rawListing (E := E) os opts attempt
        (readRequest os.systemCalls opts spec' none) with
    | error ioErr =>
      rw [hlisting] at hread
      cases hread
    | ok results =>
      rw [hlisting] at hread
      obtain rfl := Except.ok.inj hread
      have hraw : .error err ∈ results := (finishReadDir_perm hprocess _ _ _).mem_iff.mp hmem
      exact saturatingAdd_one_ne_zero spec'.depth
        ((depth_of_mem_rawListing hlisting hraw).symm.trans hfailedDepth)

end Options

/-! ### The reads of a parallel walk -/

section Parallel

variable {callback : ReadDirCallback B E} {start spec : ReadDirSpec B}

/-- Nothing descends from nothing. -/
theorem not_visits_nil : ¬ callback.Visits [] spec := by
  rintro ⟨ancestors, hlineage⟩
  exact hlineage.forall_mem (p := fun _ => False) (by simp) (fun _ _ h _ => h) spec
    List.mem_cons_self

/-- Once everything has been handed out, every item that has been taken has had its result handed
out, once. -/
theorem RunState.OnTrack.taken_perm {S R : Type} {s : RunState S R N} (h : s.OnTrack)
    (houtstanding : s.outstanding = []) :
    (s.taken.map Weighted.address).Perm (s.yielded.map Ordered.address) := by
  obtain ⟨hrest, hatHand⟩ := List.append_eq_nil_iff.mp houtstanding
  obtain ⟨-, htoSend⟩ := List.append_eq_nil_iff.mp hrest
  have hdelivered := h.delivered
  rw [List.map_eq_nil_iff.mp hatHand, List.append_nil] at hdelivered
  have htaken := h.course.taken
  rw [List.map_eq_nil_iff.mp htoSend, List.append_nil] at htaken
  exact htaken.trans (hdelivered.map _)

/-- A walk with a callback that does not stream. -/
theorem Unstreamed.sound (h : Unstreamed callback) (capacity : ℕ) (hcapacity : 0 < capacity) :
    (Config.walk callback capacity hcapacity false).Sound where
  sends := rfl
  disciplined := disciplined_multiThreadedWalkDir _
  planned := fun weighted => ⟨_, planned_multiThreadedWalkDir h.streams weighted⟩

variable {root : B × List (Except Error (DirEntry E))} {minDepth : ℕ}

/-- A serial walk that has come to its end has no read left. -/
theorem stack_of_finished (hroots : (rootSpecs root).reverse = rootSpecs root) {n : ℕ}
    (h : ((serialWalk root minDepth).steps callback n).iter.finished = true) :
    ((serialWalk root minDepth).steps callback n).serial.readDirSpecStack = [] := by
  rw [serialWalk_eq hroots minDepth] at h ⊢
  have hsettled := settled_between minDepth
    (root.2.filterMap (ReadDir.childSpec root.1) ++ []) [root.2] []
  obtain ⟨items, reads, hwalk⟩ := depthFirst_of_finished n root.1 root.2 [] [] [] h
  obtain ⟨m, hm, -⟩ := hwalk.steps [] [] []
  have hend : ((between minDepth (root.2.filterMap (ReadDir.childSpec root.1) ++ []) [root.2]
      []).steps callback (m + 2)) = ⟨⟨[]⟩, ⟨⟨minDepth, true, []⟩, none, true, items⟩⟩ := by
    rw [steps_add, hm]
    rfl
  rcases Nat.le_total n (m + 2) with hle | hle
  · obtain ⟨k, hk⟩ := Nat.exists_eq_add_of_le hle
    rw [hk, hsettled.steps_of_finished h] at hend
    rw [hend]
  · obtain ⟨k, rfl⟩ := Nat.exists_eq_add_of_le hle
    rw [hsettled.steps_of_finished (by rw [hend]), hend]

/-- The reads of a walk without a root entry that asks for one. -/
theorem reads_eq_nil_of_finished (hspecs : rootSpecs root = []) {n : ℕ}
    (h : ((serialWalk root minDepth).steps callback n).iter.finished = true) :
    (serialWalk root minDepth).reads callback n = [] := by
  refine List.eq_nil_iff_forall_not_mem.mpr fun spec hspec => ?_
  have hwalk := (serialWalk_iff_depthFirst (by rw [hspecs]; rfl) minDepth _ _).mp ⟨n, h, rfl, rfl⟩
  have hvisits := hwalk.mem_reads_iff.mp hspec
  rw [← rootSpecs, hspecs] at hvisits
  exact not_visits_nil hvisits

/-- A serial walk that traces a parallel walk up to its end has made the reads of the items that
have been taken: an item is the read at its index path, and so is a result that has been handed
out. -/
theorem Traces.taken_perm {w : ParWalk B E N} {n : ℕ}
    (htraces : Traces callback start (serialWalk root minDepth) w n) (htrack : w.run.OnTrack)
    (htaken : ∀ item ∈ w.run.taken, ReadAt callback start item)
    (hstack : ((serialWalk root minDepth).steps callback n).serial.readDirSpecStack = []) :
    (w.run.taken.map Weighted.value).Perm ((serialWalk root minDepth).reads callback n) := by
  -- the cursor has passed the whole tree
  have hfrontier : w.run.consumer.frontier = [] := by
    have hmap := htraces.stack_eq
    rw [hstack] at hmap
    exact List.map_eq_nil_iff.mp hmap.symm
  have hperm := htrack.taken_perm (htrack.course.onCourse.covers.nil_iff.mp hfrontier)
  have hvalues : (w.run.taken.map Weighted.value).map some =
      (w.run.taken.map Weighted.address).map (specAt callback start) := by
    rw [List.map_map, List.map_map]
    exact List.map_congr_left fun item hitem => (htaken item hitem).symm
  have hreads : ((serialWalk root minDepth).reads callback n).map some =
      (w.run.yielded.map Ordered.address).map (specAt callback start) := by
    rw [List.map_map]
    exact htraces.reads_eq
  refine (List.map_perm_map_iff (Option.some_injective _)).mp ?_
  rw [hvalues, hreads]
  exact hperm.map _

/-- **A parallel walk that has come to its end has made the reads of the serial walk**, each of them
as often, and its iterator is in the same state. -/
theorem ParWalk.exists_reads_of_finished {cfg : Config (ReadDirSpec B) (ReadDirResult B E)}
    {w : ParWalk B E N} {maxReceiveBufferSize : ℕ} (hsound : cfg.Sound)
    (hdown : ∀ spec, HandsDown cfg (ReadAt callback spec) (ResultAt callback spec))
    (hN : 0 < N) (hlength : (rootSpecs root).length ≤ 1)
    (h : Reaches cfg (init N root minDepth maxReceiveBufferSize) w) (hstop : w.run.stop = false)
    (hfinished : w.iter.finished = true) :
    ∃ n, ((serialWalk root minDepth).steps callback n).iter = w.iter ∧
      (w.run.taken.map Weighted.value).Perm ((serialWalk root minDepth).reads callback n) := by
  have hrun := Reaches.run h
  cases hspecs : rootSpecs root with
  | nil =>
    obtain ⟨-, n, hn⟩ : Readless w.iter ∧
        ∃ n, ((serialWalk root minDepth).steps callback n).iter = w.iter :=
      readless_of_reaches hspecs h
    have htaken : ∀ item ∈ w.run.taken, False := by
      refine RunState.taken_of_reaches (Q := fun _ => False) hsound.sends (fun _ hP => hP.elim) ?_
        hrun hstop
      simp [hspecs, rootItems]
    refine ⟨n, hn, ?_⟩
    rw [reads_eq_nil_of_finished hspecs (by rw [hn, hfinished]),
      List.eq_nil_iff_forall_not_mem.mpr htaken]
    exact List.Perm.refl _
  | cons start specs =>
    obtain rfl : specs = [] := by
      simpa [hspecs] using hlength
    have hitems : ∀ item ∈ rootItems [start], ReadAt callback start item := by
      simp [rootItems, ReadAt, Weighted.address, specAt, follow]
    obtain ⟨n, htraces⟩ := traces_of_handsDown hsound.sends hsound.disciplined hsound.planned
      (hdown start) hN hspecs h hstop
    simp only [init, hspecs] at hrun
    refine ⟨n, htraces.iter_eq, htraces.taken_perm
      (RunState.onTrack_of_reaches hN hsound rfl hrun hstop)
      (RunState.taken_of_reaches hsound.sends (hdown start) hitems hrun hstop) ?_⟩
    -- the serial walk has come to its end too
    exact stack_of_finished (reverse_rootSpecs hlength) (by rw [htraces.iter_eq, hfinished])

end Parallel

/-! ### Both walks -/

section Walks

variable [Inhabited E] {os : OperatingSystem} {opts : WalkDirOptions B E} {root : Path}
  {rootReadDirState : B} {minDepth : ℕ} {items : List (Except Error (DirEntry E))}
  {reads : List (ReadDirSpec B)}

/-- Without a client's callback a walk has one root entry. -/
theorem rootEntryResults_of_none (os : OperatingSystem) (hprocess : opts.processReadDir = none)
    (root : Path) (rootReadDirState : B) :
    ∃ result : Except Error (DirEntry E),
      (rootEntryResults os opts root rootReadDirState).2 = [result] := by
  simp only [rootEntryResults, hprocess]
  exact ⟨_, rfl⟩

/-- When the items of a walk without a client's callback tell of all failed reads. -/
theorem reported_iff_of_depthFirst (hprocess : opts.processReadDir = none)
    (h : DepthFirst (coreReadDirCallback os opts).read minDepth
      (rootEntryResults os opts root rootReadDirState).1
      (rootEntryResults os opts root rootReadDirState).2 items reads) :
    AllReported (coreReadDirCallback os opts) reads items ↔
      FailsBelow (coreReadDirCallback os opts)
        (rootSpecs (rootEntryResults os opts root rootReadDirState)) minDepth := by
  refine h.reported_iff fun spec err hvisits hread => ⟨fun hmem => ?_, fun spec' readDir hread' =>
    error_not_mem_of_read hprocess hread hread'⟩
  -- a root entry that is an error asks for no read
  obtain ⟨result, hresult⟩ := rootEntryResults_of_none (E := E) os hprocess root rootReadDirState
  rw [hresult, List.mem_singleton] at hmem
  rw [hresult, ← hmem] at hvisits
  exact not_visits_nil hvisits

/-- **No directory read that fails is lost below the minimal depth.** In a walk without a client's
callback that has come to its end, a serial one or a parallel one that sorts and has not been
stopped, the items tell of all failed reads if and only if no directory above the minimal depth
fails to be read. The serial walk over finitely many directories comes to its end. -/
theorem readFailures_reported_iff (os : OperatingSystem) (opts : WalkDirOptions B E)
    (hprocess : opts.processReadDir = none) (root : Path) (rootReadDirState : B) (minDepth : ℕ) :
    (∀ n, ((serialWalk (rootEntryResults os opts root rootReadDirState) minDepth).steps
          (coreReadDirCallback os opts) n).iter.finished = true →
      (AllReported (coreReadDirCallback os opts)
          ((serialWalk (rootEntryResults os opts root rootReadDirState) minDepth).reads
            (coreReadDirCallback os opts) n)
          ((serialWalk (rootEntryResults os opts root rootReadDirState) minDepth).steps
            (coreReadDirCallback os opts) n).iter.items ↔
        FailsBelow (coreReadDirCallback os opts)
          (rootSpecs (rootEntryResults os opts root rootReadDirState)) minDepth)) ∧
    (∀ height, (∀ spec ∈ rootSpecs (rootEntryResults os opts root rootReadDirState),
        Lineage.Shallow (coreReadDirCallback os opts).children height spec) →
      ∃ n, ((serialWalk (rootEntryResults os opts root rootReadDirState) minDepth).steps
        (coreReadDirCallback os opts) n).iter.finished = true) ∧
    (opts.sort = true → ∀ (N : ℕ), 0 < N → ∀ (capacity : ℕ) (hcapacity : 0 < capacity)
      (maxReceiveBufferSize : ℕ) (w : ParWalk B E N),
      ParWalk.Reaches (Config.walk (coreReadDirCallback os opts) capacity hcapacity false)
        (ParWalk.init N (rootEntryResults os opts root rootReadDirState) minDepth
          maxReceiveBufferSize) w → w.run.stop = false → w.iter.finished = true →
      (AllReported (coreReadDirCallback os opts) (w.run.taken.map Weighted.value) w.iter.items ↔
        FailsBelow (coreReadDirCallback os opts)
          (rootSpecs (rootEntryResults os opts root rootReadDirState)) minDepth)) := by
  have hlength : (rootSpecs (rootEntryResults os opts root rootReadDirState)).length ≤ 1 := by
    obtain ⟨result, hresult⟩ :=
      rootEntryResults_of_none (E := E) os hprocess root rootReadDirState
    rw [rootSpecs, hresult]
    exact List.length_filterMap_le _ _
  refine ⟨fun n hn => ?_, fun height hfinite => ?_, ?_⟩
  · exact reported_iff_of_depthFirst hprocess
      ((serialWalk_iff_depthFirst (reverse_rootSpecs hlength) minDepth _ _).mp
        ⟨n, hn, rfl, rfl⟩)
  · obtain ⟨items, reads, hwalk⟩ := exists_depthFirst minDepth _ _ hfinite
    obtain ⟨n, hn, -⟩ := hwalk.finished (reverse_rootSpecs hlength)
    exact ⟨n, hn⟩
  · intro hsort N hN capacity hcapacity maxReceiveBufferSize w hreach hstop hfinished
    have hcallback := unstreamed_coreReadDirCallback (E := E) (Or.inl hsort) os
    -- the items are those of the serial walk, and so are the reads
    obtain ⟨n, hn, hperm⟩ := ParWalk.exists_reads_of_finished
      (hcallback.sound capacity hcapacity)
      (fun spec => hcallback.handsDown spec capacity hcapacity) hN hlength hreach hstop hfinished
    have hwalk := (serialWalk_iff_depthFirst (reverse_rootSpecs hlength) minDepth _ _).mp
      ⟨n, by rw [hn, hfinished], by rw [hn], rfl⟩
    rw [← reported_iff_of_depthFirst hprocess hwalk]
    simp only [AllReported, hperm.mem_iff]

end Walks

/-- A Linux where the directory `r` cannot be listed. -/
def lockedLinux : LinuxCalls :=
  { LinuxCalls.listing fun _ => ⟨[], some (.os 13)⟩ with
    symlinkMetadata := fun _ => .ok (.ofMode S_IFDIR 1 1) }

/-- Options for a walk that sorts. -/
def sortOptions : WalkDirOptions Unit Unit :=
  { (WalkDirOptions.new : WalkDirOptions Unit Unit) with sort := true }

/-- The statement above for walks of `r`, a serial one and one by two workers: both yield `r` with
the error. -/
theorem readFailures_reported_locked :
    ∃ n, ∃ w : ParWalk Unit Unit 2,
      ((serialWalk (rootEntryResults (.linux lockedLinux) sortOptions ⟨[.normal [114]]⟩ ()) 0).reads
        (coreReadDirCallback (.linux lockedLinux) sortOptions) n).length = 1 ∧
      AllReported (coreReadDirCallback (.linux lockedLinux) sortOptions)
        ((serialWalk (rootEntryResults (.linux lockedLinux) sortOptions ⟨[.normal [114]]⟩ ())
          0).reads (coreReadDirCallback (.linux lockedLinux) sortOptions) n)
        ((serialWalk (rootEntryResults (.linux lockedLinux) sortOptions ⟨[.normal [114]]⟩ ())
          0).steps (coreReadDirCallback (.linux lockedLinux) sortOptions) n).iter.items ∧
      w.run.taken.length = 1 ∧
      AllReported (coreReadDirCallback (.linux lockedLinux) sortOptions)
        (w.run.taken.map Weighted.value) w.iter.items := by
  let turns : List (WalkAction 2) :=
    (List.replicate 10 [.turn, .run (.worker 0 false), .run (.worker 1 false),
      .run (.consumer false)]).flatten
  let start : ParWalk Unit Unit 2 := ParWalk.init 2
    (rootEntryResults (.linux lockedLinux) sortOptions ⟨[.normal [114]]⟩ ()) 0 4
  let cfg := Config.walk (coreReadDirCallback (.linux lockedLinux) sortOptions) 1 Nat.one_pos false
  have hrun : (start.runActions cfg turns).run.stop = false ∧
      (start.runActions cfg turns).iter.finished = true ∧
      (start.runActions cfg turns).run.taken.length = 1 := by
    decide +kernel
  have hserial : ((serialWalk (rootEntryResults (.linux lockedLinux) sortOptions
        ⟨[.normal [114]]⟩ ()) 0).steps (coreReadDirCallback (.linux lockedLinux) sortOptions)
        5).iter.finished = true ∧
      ((serialWalk (rootEntryResults (.linux lockedLinux) sortOptions ⟨[.normal [114]]⟩ ())
        0).reads (coreReadDirCallback (.linux lockedLinux) sortOptions) 5).length = 1 := by
    decide +kernel
  obtain ⟨hserialIff, -, hparallelIff⟩ := readFailures_reported_iff (.linux lockedLinux) sortOptions
    rfl ⟨[.normal [114]]⟩ () 0
  have hbelow : FailsBelow (coreReadDirCallback (.linux lockedLinux) sortOptions)
      (rootSpecs (rootEntryResults (.linux lockedLinux) sortOptions ⟨[.normal [114]]⟩ ())) 0 :=
    fun spec _ _ _ => Nat.zero_le spec.depth
  exact ⟨5, start.runActions cfg turns, hserial.2, (hserialIff 5 hserial.1).mpr hbelow, hrun.2.2,
    (hparallelIff rfl 2 Nat.two_pos 1 Nat.one_pos 4 _ (ParWalk.reaches_runActions cfg start turns)
      hrun.1 hrun.2.1).mpr hbelow⟩

/-- With the minimal depth 1 the serial walk of `r` yields nothing, and nothing tells of its failed
read. -/
theorem not_readFailures_reported_root :
    ∃ n, ((serialWalk (rootEntryResults (.linux lockedLinux) sortOptions ⟨[.normal [114]]⟩ ())
        1).steps (coreReadDirCallback (.linux lockedLinux) sortOptions) n).iter.finished = true ∧
      ¬ AllReported (coreReadDirCallback (.linux lockedLinux) sortOptions)
        ((serialWalk (rootEntryResults (.linux lockedLinux) sortOptions ⟨[.normal [114]]⟩ ())
          1).reads (coreReadDirCallback (.linux lockedLinux) sortOptions) n)
        ((serialWalk (rootEntryResults (.linux lockedLinux) sortOptions ⟨[.normal [114]]⟩ ())
          1).steps (coreReadDirCallback (.linux lockedLinux) sortOptions) n).iter.items := by
  refine ⟨5, by decide +kernel, fun hall => ?_⟩
  have hitems : ((serialWalk (rootEntryResults (.linux lockedLinux) sortOptions ⟨[.normal [114]]⟩
      ()) 1).steps (coreReadDirCallback (.linux lockedLinux) sortOptions) 5).iter.items = [] :=
    List.eq_nil_of_length_eq_zero (by decide +kernel)
  obtain ⟨spec, hspec, err, herr⟩ : ∃ spec ∈ (serialWalk (rootEntryResults (.linux lockedLinux)
        sortOptions ⟨[.normal [114]]⟩ ()) 1).reads
        (coreReadDirCallback (.linux lockedLinux) sortOptions) 5,
      ∃ err, (coreReadDirCallback (.linux lockedLinux) sortOptions).read spec = .error err :=
    ⟨_, List.mem_singleton_self _, _, rfl⟩
  have hreported := hall spec hspec err herr
  rw [hitems] at hreported
  simp [Reported] at hreported

end JwalkMeta
