import JwalkMeta.Run.Awaited
import JwalkMeta.WalkDir.Unfolding

/-!
# A parallel walk ahead of its iterator

The workers of a parallel walk read ahead of the iterator. As long as the walk has not been stopped,
what the iterator has yielded is what the serial walk yields first, and all that has been put into
the work queue are reads that the serial walk makes, none of them more often.

## Main definitions

* `childAt`: the read at a path of child positions below a list of reads.

## Main results

* `prefix_items`: the items of a parallel walk are a prefix of those of the serial walk.
* `scheduled_subperm`: no read is scheduled that the serial walk does not make.
-/

namespace JwalkMeta

open Interaction SerialWalk

variable {B E : Type} {N : ℕ}

/-! ### What has been yielded -/

namespace SerialWalk

variable {callback : ReadDirCallback B E} {w : SerialWalk B E}

/-- A turn yields after what has been yielded before. -/
theorem prefix_items_apply (st : IterState E) (turn : Turn E) :
    st.items <+: (st.apply turn).items := by
  cases turn with
  | yields item iter => exact List.prefix_append _ _
  | _ => exact List.prefix_refl _

theorem prefix_items_step : w.iter.items <+: (w.step callback).iter.items := by
  unfold SerialWalk.step
  split
  · exact prefix_items_apply _ _
  · split_ifs
    · exact List.prefix_refl _
    · exact prefix_items_apply _ _

/-- Later turns yield after earlier ones. -/
theorem prefix_items_steps {n m : ℕ} (h : n ≤ m) :
    (w.steps callback n).iter.items <+: (w.steps callback m).iter.items := by
  induction h with
  | refl => exact List.prefix_refl _
  | step _ ih => exact ih.trans prefix_items_step

/-- What has been yielded at some point is what is yielded first. -/
theorem Settled.prefix_of_yields (h : w.Settled) {items : List (Except Error (DirEntry E))}
    (hyields : w.Yields callback items) (n : ℕ) : (w.steps callback n).iter.items <+: items := by
  obtain ⟨m, hfinished, rfl⟩ := hyields
  rcases Nat.le_total n m with hle | hle
  · exact prefix_items_steps hle
  · obtain ⟨k, rfl⟩ := Nat.exists_eq_add_of_le hle
    rw [h.steps_of_finished hfinished]

end SerialWalk

/-! ### The reads at index paths -/

/-- The read at a path of child positions below a list of reads. -/
def childAt (callback : ReadDirCallback B E) (specs : List (ReadDirSpec B)) :
    List ℕ → Option (ReadDirSpec B)
  | [] => none
  | i :: path => specs[i]?.bind fun spec => follow callback spec path

section Paths

variable {callback : ReadDirCallback B E} {spec : ReadDirSpec B} {specs : List (ReadDirSpec B)}

/-- The paths below the first read of a list. -/
theorem childAt_cons_zero (path : List ℕ) :
    childAt callback (spec :: specs) (0 :: path) = follow callback spec path := rfl

theorem follow_eq_childAt (i : ℕ) (path : List ℕ) :
    follow callback spec (i :: path) =
      childAt callback (childSpecs (callback.read spec)) (i :: path) := by
  rw [follow, childAt]
  cases (childSpecs (callback.read spec))[i]? <;> rfl

theorem childAt_singleton (path : List ℕ) :
    childAt callback [spec] path = specAt callback spec path := by
  cases path with
  | nil => rfl
  | cons i path => cases i <;> rfl

/-- One position further. -/
def shift : List ℕ → List ℕ
  | [] => []
  | i :: path => (i + 1) :: path

/-- **The serial walk makes the reads at all index paths**, each of them once. -/
theorem DepthFirst.exists_paths {minDepth : ℕ} {state : B}
    {results items : List (Except Error (DirEntry E))} {reads : List (ReadDirSpec B)}
    (h : DepthFirst callback.read minDepth state results items reads) :
    ∃ paths : List (List ℕ),
      paths.map (childAt callback (results.filterMap (ReadDir.childSpec state))) =
        reads.map some ∧
      ∀ path, childAt callback (results.filterMap (ReadDir.childSpec state)) path ≠ none →
        path ∈ paths := by
  induction h with
  | nil => exact ⟨[], rfl, fun path hpath => absurd (by cases path <;> rfl) hpath⟩
  | error hrest ih => exact ih
  | entry hspec hrest ih =>
    rw [filterMap_childSpec_of_none hspec]
    exact ih
  | @failed state dirEntry spec err rest items reads hspec hread hrest ih =>
    obtain ⟨paths, hpaths, hall⟩ := ih
    rw [filterMap_childSpec_of_some hspec]
    refine ⟨[0] :: paths.map shift, ?_, fun path hpath => ?_⟩
    · rw [List.map_cons, List.map_cons, List.map_map, ← hpaths]
      refine congrArg₂ List.cons rfl (List.map_congr_left fun path _ => ?_)
      cases path <;> rfl
    · match path with
      | [] => exact absurd rfl hpath
      | [0] => exact List.mem_cons_self
      | 0 :: i :: path =>
        -- a failed read has no children
        rw [childAt_cons_zero, follow_eq_childAt, hread] at hpath
        exact absurd rfl hpath
      | (i + 1) :: path =>
        exact List.mem_cons_of_mem _ (List.mem_map_of_mem (f := shift) (hall (i :: path) hpath))
  | @listed state dirEntry spec readDir rest items items' reads reads' hspec hread hdir hrest ihdir
      ihrest =>
    obtain ⟨below, hbelow, hallBelow⟩ := ihdir
    obtain ⟨paths, hpaths, hall⟩ := ihrest
    have hchildren : childSpecs (callback.read spec) =
        readDir.resultsList.filterMap (ReadDir.childSpec readDir.readDirState) := by
      rw [hread]
      rfl
    rw [filterMap_childSpec_of_some hspec]
    refine ⟨[0] :: (below.map (List.cons 0) ++ paths.map shift), ?_, fun path hpath => ?_⟩
    · rw [List.map_cons, List.map_cons, List.map_append, List.map_append, List.map_map,
        List.map_map, ← hpaths, ← hbelow]
      refine congrArg₂ List.cons rfl (congrArg₂ (· ++ ·) ?_ ?_)
      · refine List.map_congr_left fun path hpath => ?_
        cases path with
        | nil =>
          -- a read stands below the listing
          have hnone : none ∈ reads'.map some := hbelow ▸ List.mem_map_of_mem hpath
          simp at hnone
        | cons i path =>
          rw [Function.comp_apply, childAt_cons_zero, follow_eq_childAt, hchildren]
      · refine List.map_congr_left fun path _ => ?_
        cases path <;> rfl
    · match path with
      | [] => exact absurd rfl hpath
      | [0] => exact List.mem_cons_self
      | 0 :: i :: path =>
        rw [childAt_cons_zero, follow_eq_childAt, hchildren] at hpath
        exact List.mem_cons_of_mem _ (List.mem_append_left _
          (List.mem_map_of_mem (hallBelow _ hpath)))
      | (i + 1) :: path =>
        exact List.mem_cons_of_mem _ (List.mem_append_right _
          (List.mem_map_of_mem (f := shift) (hall (i :: path) hpath)))

omit callback spec specs in
theorem filterMap_of_map_eq {α β : Type} {f : α → Option β} {l : List α} {values : List β}
    (h : l.map f = values.map some) : l.filterMap f = values := by
  simpa using congrArg (List.filterMap id) h

/-- Reads at different index paths are reads of the serial walk, none of them more often. -/
theorem DepthFirst.subperm_reads {minDepth : ℕ} {state : B}
    {results items : List (Except Error (DirEntry E))} {reads values : List (ReadDirSpec B)}
    (h : DepthFirst callback.read minDepth state results items reads) {paths : List (List ℕ)}
    (hnodup : paths.Nodup)
    (hvalues : paths.map (childAt callback (results.filterMap (ReadDir.childSpec state))) =
      values.map some) : values.Subperm reads := by
  obtain ⟨allPaths, hreads, hall⟩ := h.exists_paths
  have hsub : paths.Subperm allPaths := by
    refine List.subperm_of_subset hnodup fun path hpath => hall path ?_
    intro hnone
    have hmem : none ∈ values.map some := by
      rw [← hvalues, ← hnone]
      exact List.mem_map_of_mem hpath
    simp at hmem
  obtain ⟨others, hperm, hsublist⟩ := hsub
  have hperm' := hperm.filterMap (childAt callback (results.filterMap (ReadDir.childSpec state)))
  have hsublist' := hsublist.filterMap
    (childAt callback (results.filterMap (ReadDir.childSpec state)))
  rw [filterMap_of_map_eq hvalues] at hperm'
  rw [filterMap_of_map_eq hreads] at hsublist'
  exact ⟨_, hperm', hsublist'⟩

end Paths

/-! ### What has been scheduled -/

section Scheduled

variable {callback twin : ReadDirCallback B E} {root : B × List (Except Error (DirEntry E))}
  {minDepth maxReceiveBufferSize capacity n : ℕ} {hcapacity : 0 < capacity} {w : ParWalk B E N}

/-- What has been scheduled has the properties that items hand down. -/
theorem RunState.scheduled_of_reaches {S R : Type} {P : Weighted S → Prop} {Q : Ordered R → Prop}
    {cfg : Config S R} (hsound : cfg.Sound) (hdown : HandsDown cfg P Q)
    {items : List (Weighted S)} (hitems : ∀ item ∈ items, P item) {s : RunState S R N}
    (h : Reaches cfg (init N items maxReceiveBufferSize) s) (hstop : s.stop = false) :
    ∀ item ∈ s.scheduled, P item := by
  intro item hitem
  have hacc := accounted_of_reaches hsound.disciplined h
  rcases List.mem_append.mp (hacc.scheduled_perm.mem_iff.mp hitem) with htaken | hqueued
  · exact taken_of_reaches hsound.sends hdown hitems h hstop item htaken
  · exact (inherited_of_reaches hsound.sends hdown hitems h hstop).queued item hqueued

/-- **Every scheduled read is a read of the serial walk**, none of them more often. -/
theorem Traceable.subperm_scheduled (h : Traceable callback) (hN : 0 < N)
    (hroots : (rootSpecs root).length ≤ 1)
    (hserial : ((serialWalk root minDepth).steps callback n).iter.finished = true)
    (hreach : ParWalk.Reaches (.walk callback capacity hcapacity false)
      (.init N root minDepth maxReceiveBufferSize) w) (hstop : w.run.stop = false) :
    (w.run.scheduled.map Weighted.value).Subperm ((serialWalk root minDepth).reads callback n) := by
  obtain ⟨twin, hlisting, hdown⟩ := h.exists_twin
  have hsound := h.sound capacity hcapacity
  have hrun := ParWalk.Reaches.run hreach
  cases hspecs : rootSpecs root with
  | nil =>
    have hnone : ∀ item ∈ w.run.scheduled, False := by
      refine RunState.scheduled_of_reaches (Q := fun _ => False) hsound (fun _ hP => hP.elim) ?_
        hrun hstop
      simp [hspecs, rootItems]
    rw [List.eq_nil_iff_forall_not_mem.mpr hnone]
    exact List.nil_subperm
  | cons start specs =>
    obtain rfl : specs = [] := by
      simpa [hspecs] using hroots
    simp only [ParWalk.init, hspecs] at hrun
    have hreadAt : ∀ item ∈ w.run.scheduled, ReadAt twin start item := by
      refine RunState.scheduled_of_reaches hsound (hdown start capacity hcapacity) ?_ hrun hstop
      simp [rootItems, ReadAt, Weighted.address, specAt, follow]
    -- no two items share an index path
    have htrack := RunState.onTrack_of_reaches hN hsound rfl hrun hstop
    have hnodup : (w.run.scheduled.map Weighted.address).Nodup := by
      have hpaths := htrack.course.nodup_indexPath htrack.accounted
      rw [List.map_append] at hpaths
      rw [← RunState.map_indices_indexPath]
      exact (List.nodup_append.mp hpaths).1.map fun p q => IndexPath.ext_indices
    rw [← SerialWalk.reads_of_listing hlisting]
    rw [← SerialWalk.steps_of_listing hlisting] at hserial
    refine ((serialWalk_iff_depthFirst (reverse_rootSpecs hroots) minDepth _ _).mp
      ⟨n, hserial, rfl, rfl⟩).subperm_reads hnodup ?_
    rw [List.map_map, List.map_map, show root.2.filterMap (ReadDir.childSpec root.1) = [start]
      from hspecs]
    refine List.map_congr_left fun item hitem => ?_
    rw [Function.comp_apply, childAt_singleton]
    exact hreadAt item hitem

end Scheduled

/-! ### Parallel walks that keep to the order -/

section Walks

variable [Inhabited E]

omit [Inhabited E] in
theorem settled_serialWalk (root : B × List (Except Error (DirEntry E))) (minDepth : ℕ) :
    (serialWalk root minDepth).Settled := fun h => absurd h Bool.false_ne_true

/-- **The items of a parallel walk are a prefix of those of the serial walk.** In every reachable
state of a walk that keeps to the order and where at most one entry of the root asks for a read,
with any number of workers, any capacities and any order of steps, the iterator has yielded what the
serial walk yields in some number of turns, until the walk is stopped. So a client that drops the
iterator early has seen what comes first in the serial walk. -/
theorem prefix_items (os : OperatingSystem) (opts : WalkDirOptions B E)
    (horder : KeepsOrder os opts) (root : Path) (state : B)
    (hroots : (rootSpecs (rootEntryResults os opts root state)).length ≤ 1)
    (minDepth capacity : ℕ) (hcapacity : 0 < capacity) (maxReceiveBufferSize : ℕ) (hN : 0 < N)
    (w : ParWalk B E N)
    (hreach : ParWalk.Reaches (.walk (coreReadDirCallback os opts) capacity hcapacity false)
      (.init N (rootEntryResults os opts root state) minDepth maxReceiveBufferSize) w)
    (hstop : w.run.stop = false) :
    (∃ n, ((serialWalk (rootEntryResults os opts root state) minDepth).steps
      (coreReadDirCallback os opts) n).iter.items = w.iter.items) ∧
    ∀ items, (serialWalk (rootEntryResults os opts root state) minDepth).Yields
      (coreReadDirCallback os opts) items → w.iter.items <+: items := by
  obtain ⟨n, hn⟩ := horder.traceable.exists_steps hN hroots hreach hstop
  refine ⟨⟨n, congrArg IterState.items hn⟩, fun items hyields => ?_⟩
  rw [← hn]
  exact (settled_serialWalk _ minDepth).prefix_of_yields hyields n

/-- **No read is scheduled that the serial walk does not make.** Let at most one entry of the root
ask for a read. If the serial walk ends, then in every reachable state of a parallel walk that keeps
to the order and is not stopped, what has been put into the work queue are reads of the serial walk,
none of them more often; and when the iterator has come to its end, these are all of them, and all
have been made. -/
theorem scheduled_subperm (os : OperatingSystem) (opts : WalkDirOptions B E)
    (horder : KeepsOrder os opts) (root : Path) (state : B)
    (hroots : (rootSpecs (rootEntryResults os opts root state)).length ≤ 1)
    (minDepth n : ℕ) (hserial : ((serialWalk (rootEntryResults os opts root state) minDepth).steps
      (coreReadDirCallback os opts) n).iter.finished = true)
    (capacity : ℕ) (hcapacity : 0 < capacity) (maxReceiveBufferSize : ℕ) (hN : 0 < N)
    (w : ParWalk B E N)
    (hreach : ParWalk.Reaches (.walk (coreReadDirCallback os opts) capacity hcapacity false)
      (.init N (rootEntryResults os opts root state) minDepth maxReceiveBufferSize) w)
    (hstop : w.run.stop = false) :
    (w.run.scheduled.map Weighted.value).Subperm
      ((serialWalk (rootEntryResults os opts root state) minDepth).reads
        (coreReadDirCallback os opts) n) ∧
    (w.iter.finished = true → w.run.taken.Perm w.run.scheduled ∧
      (w.run.scheduled.map Weighted.value).Perm
        ((serialWalk (rootEntryResults os opts root state) minDepth).reads
          (coreReadDirCallback os opts) n)) := by
  have hsub := horder.traceable.subperm_scheduled hN hroots hserial hreach hstop
  refine ⟨hsub, fun hfinished => ?_⟩
  obtain ⟨m, hm, hperm⟩ := horder.traceable.exists_reads hN hroots hreach hstop hfinished
  have hsettled := settled_serialWalk (rootEntryResults os opts root state) minDepth
  have hreads : (serialWalk (rootEntryResults os opts root state) minDepth).reads
      (coreReadDirCallback os opts) m =
    (serialWalk (rootEntryResults os opts root state) minDepth).reads
      (coreReadDirCallback os opts) n := by
    have hfinished' : ((serialWalk (rootEntryResults os opts root state) minDepth).steps
        (coreReadDirCallback os opts) m).iter.finished = true := by rw [hm, hfinished]
    rcases Nat.le_total n m with hle | hle
    · obtain ⟨k, rfl⟩ := Nat.exists_eq_add_of_le hle
      exact reads_of_finished hsettled hserial k
    · obtain ⟨k, rfl⟩ := Nat.exists_eq_add_of_le hle
      exact (reads_of_finished hsettled hfinished' k).symm
  rw [hreads] at hperm
  -- the reads that have been made are among those that have been scheduled
  have hscheduled := (RunState.accounted_of_reaches
    (horder.traceable.sound capacity hcapacity).disciplined
    (ParWalk.Reaches.run hreach)).scheduled_perm
  have hlength := hsub.length_le
  have hlengths := hscheduled.length_eq
  have htaken := hperm.length_eq
  rw [List.length_map] at hlength htaken
  rw [List.length_append] at hlengths
  obtain ⟨hqueue, hbuffer⟩ := List.append_eq_nil_iff.mp (List.eq_nil_of_length_eq_zero
    (l := w.run.specChannel ++ w.run.receiveBuffer) (by omega))
  rw [hqueue, hbuffer, List.append_nil, List.append_nil] at hscheduled
  exact ⟨hscheduled.symm, (hscheduled.map _).trans hperm⟩

end Walks

/-! ### A walk in its course -/

/-- The start of a walk of `r` by two workers, with the options of `WalkDirGeneric::new`. -/
def plainStart : ParWalk Unit Unit 2 :=
  .init 2 (rootEntryResults (.linux ParWalk.plainLinux)
    (WalkDirOptions.new : WalkDirOptions Unit Unit) ⟨[.normal [114]]⟩ ()) 0 4

/-- The walk over channels for two items. -/
def plainWalk : Config (ReadDirSpec Unit) (ReadDirResult Unit Unit) :=
  .walk (coreReadDirCallback (.linux ParWalk.plainLinux)
    (WalkDirOptions.new : WalkDirOptions Unit Unit)) 2 Nat.two_pos false

/-- Turns in which every thread takes its steps. -/
def plainTurns (k : ℕ) : List (WalkAction 2) :=
  (List.replicate k [.turn, .run (.worker 0 false), .run (.worker 1 false),
    .run (.consumer false)]).flatten

theorem keepsOrder_plain :
    KeepsOrder (.linux ParWalk.plainLinux) (WalkDirOptions.new : WalkDirOptions Unit Unit) :=
  Or.inr (Or.inr ⟨ParWalk.plainLinux_plain, rfl⟩)

/-- The first statement above after 19 rounds of this walk: it has yielded three of the five
entries. -/
theorem prefix_items_plain :
    (plainStart.runActions plainWalk (plainTurns 19)).iter.items.length = 3 ∧
      ∀ items, (serialWalk (rootEntryResults (.linux ParWalk.plainLinux)
          (WalkDirOptions.new : WalkDirOptions Unit Unit) ⟨[.normal [114]]⟩ ()) 0).Yields
        (coreReadDirCallback (.linux ParWalk.plainLinux) .new) items →
        (plainStart.runActions plainWalk (plainTurns 19)).iter.items <+: items :=
  ⟨by decide +kernel, (prefix_items (.linux ParWalk.plainLinux) .new keepsOrder_plain
    ⟨[.normal [114]]⟩ () (by decide +kernel) 0 2 Nat.two_pos 4 Nat.two_pos _
    (ParWalk.reaches_runActions plainWalk plainStart _) (by decide +kernel)).2⟩

/-- The second statement above after 16 rounds: three reads are scheduled, two of which have been
made, when the iterator has yielded one entry. -/
theorem scheduled_subperm_plain :
    (plainStart.runActions plainWalk (plainTurns 16)).iter.items.length = 1 ∧
      (plainStart.runActions plainWalk (plainTurns 16)).run.taken.length = 2 ∧
      (plainStart.runActions plainWalk (plainTurns 16)).run.scheduled.length = 3 ∧
      ((plainStart.runActions plainWalk (plainTurns 16)).run.scheduled.map Weighted.value).Subperm
        ((serialWalk (rootEntryResults (.linux ParWalk.plainLinux)
          (WalkDirOptions.new : WalkDirOptions Unit Unit) ⟨[.normal [114]]⟩ ()) 0).reads
            (coreReadDirCallback (.linux ParWalk.plainLinux) .new) 12) :=
  ⟨by decide +kernel, by decide +kernel, by decide +kernel,
    (scheduled_subperm (.linux ParWalk.plainLinux) .new keepsOrder_plain ⟨[.normal [114]]⟩ ()
      (by decide +kernel) 0 12 (by decide +kernel) 2 Nat.two_pos 4 Nat.two_pos _
      (ParWalk.reaches_runActions plainWalk plainStart _) (by decide +kernel)).1⟩

end JwalkMeta
