import JwalkMeta.Run.Course
import JwalkMeta.WalkDir.Streaming

/-!
# Nothing is awaited in vain

The consumer waits for the result at the index path that its cursor looks for. In a parallel walk
from one root that is not stopped, exactly one item at this index path is on its way, whatever the
directories contain, which reads fail, when they fail and how often they are repeated.

## Main definitions

* `RunState.scheduledBelow`, `RunState.toPushFor`: the child reads of an index path.

## Main results

* `RunState.awaited_outstanding`: the index paths of a run, and the one that is looked for.
-/

namespace JwalkMeta

open Interaction Frontier

/-- Whether an index path is a child of another one. -/
def IndexPath.isChildOf (q p : IndexPath) : Bool := !q.isEmpty && decide (q.pop = p)

theorem IndexPath.isChildOf_iff {q p : IndexPath} :
    q.isChildOf p = true ↔ ∃ i, q = p.adding i := by
  constructor
  · intro h
    simp only [isChildOf, isEmpty, Bool.and_eq_true, Bool.not_eq_true', decide_eq_true_eq,
      List.isEmpty_eq_false_iff] at h
    obtain ⟨hne, rfl⟩ := h
    exact ⟨q.indices.getLast hne, ext_indices (List.dropLast_append_getLast hne).symm⟩
  · rintro ⟨i, rfl⟩
    simp [isChildOf, isEmpty, pop, adding]

namespace RunState

variable {S R : Type} {N : ℕ}

/-- The scheduled items whose index path is a child of `p`. -/
def scheduledBelow (s : RunState S R N) (p : IndexPath) : List (Weighted S) :=
  s.scheduled.filter fun weighted => weighted.indexPath.isChildOf p

/-- The items that are still to be pushed by a worker that processes an item at `p`. -/
def toPushFor (s : RunState S R N) (p : IndexPath) : List (Weighted S) :=
  Pool.gather (fun w => if w.item.any fun item => decide (item.indexPath = p) then w.toPush
    else []) s.workers

variable {s : RunState S R N}

theorem mem_toPushFor {p : IndexPath} {weighted : Weighted S} :
    weighted ∈ s.toPushFor p ↔
      ∃ i, (∃ item ∈ (s.workers i).item, item.indexPath = p) ∧
        weighted ∈ (s.workers i).toPush := by
  simp [toPushFor, Pool.mem_gather]

theorem toPushFor_sublist (s : RunState S R N) (p : IndexPath) :
    (s.toPushFor p).Sublist s.toPush :=
  Pool.gather_sublist (fun w => by split_ifs <;> simp) s.workers

/-- The known addresses are those of the items that are scheduled or to be pushed. -/
theorem Course.scheduled_perm_known (h : s.Course) (hacc : s.Accounted) :
    ((s.scheduled ++ s.toPush).map Weighted.address).Perm s.known := by
  have hfst : ((s.sent ++ s.toSend).map announcement).map Prod.fst =
      (s.sent ++ s.toSend).map Ordered.address := List.map_map ..
  have hun : s.unstarted.map Weighted.address = s.toPush.map Weighted.address ++
      (s.specChannel ++ s.receiveBuffer).map Weighted.address := List.map_append
  have hscheduled := hacc.scheduled_perm.map Weighted.address
  rw [List.map_append] at hscheduled
  rw [known, hfst, hun, List.map_append]
  refine (hscheduled.append_right _).trans ?_
  rw [List.append_assoc]
  exact h.taken.append List.perm_append_comm

theorem map_indices_indexPath (l : List (Weighted S)) :
    (l.map Weighted.indexPath).map IndexPath.indices = l.map Weighted.address := List.map_map ..

/-- No two items that are scheduled or to be pushed share an index path. -/
theorem Course.nodup_indexPath (h : s.Course) (hacc : s.Accounted) :
    ((s.scheduled ++ s.toPush).map Weighted.indexPath).Nodup := by
  have hnd := (h.scheduled_perm_known hacc).nodup_iff.mpr h.explored.nodup
  rw [← map_indices_indexPath] at hnd
  exact hnd.of_map _

/-- The children of a sent result are scheduled, or still to be pushed by the worker that has sent
it. -/
theorem Course.children_of_sent (h : s.Course) (hacc : s.Accounted) {o : Ordered R}
    (ho : o ∈ s.sent) :
    ((s.scheduledBelow o.indexPath ++ s.toPushFor o.indexPath).map Weighted.indexPath).Perm
      ((List.range o.childCount).map o.indexPath.adding) := by
  have hknown := h.scheduled_perm_known hacc
  have hchildren : ChildrenIn s.known o.address o.childCount :=
    h.explored.children (announcement o) (List.mem_map_of_mem (List.mem_append_left _ ho))
  have hmem {weighted : Weighted S} (hw : weighted ∈ s.scheduled ++ s.toPush) :
      weighted.address ∈ s.known :=
    hknown.mem_iff.mp (List.mem_map_of_mem hw)
  have hsub : (s.scheduledBelow o.indexPath ++ s.toPushFor o.indexPath).Sublist
      (s.scheduled ++ s.toPush) :=
    List.filter_sublist.append (s.toPushFor_sublist _)
  have hnd := (h.nodup_indexPath hacc).sublist (hsub.map _)
  have hrange : ((List.range o.childCount).map o.indexPath.adding).Nodup :=
    List.nodup_range.map fun i j hij => (IndexPath.adding_injective hij).2
  refine (List.perm_ext_iff_of_nodup hnd hrange).mpr fun q => ⟨fun hq => ?_, fun hq => ?_⟩
  · obtain ⟨weighted, hw, rfl⟩ := List.mem_map.mp hq
    obtain ⟨i, hi⟩ : ∃ i, weighted.indexPath = o.indexPath.adding i := by
      rcases List.mem_append.mp hw with hw | hw
      · exact IndexPath.isChildOf_iff.mp (List.mem_filter.mp hw).2
      · obtain ⟨j, ⟨item, hitem, hp⟩, hpush⟩ := mem_toPushFor.mp hw
        obtain ⟨item', hitem', k, hk⟩ := (h.own j).toPush weighted hpush
        obtain rfl : item' = item := by
          cases hj : s.workers j <;> simp_all [Worker.item]
        exact ⟨k, hp ▸ hk⟩
    have haddress : weighted.address = o.address ++ [i] := congrArg IndexPath.indices hi
    have hin := hmem (hsub.subset hw)
    rw [haddress] at hin
    rcases hchildren.2 _ hin (List.prefix_append _ _) with he | ⟨k, hk, hpre⟩
    · simp at he
    · have hke := (append_singleton_inj (hpre.eq_of_length (by simp))).2
      exact List.mem_map.mpr ⟨i, List.mem_range.mpr (hke ▸ hk), hi.symm⟩
  · obtain ⟨i, hi, rfl⟩ := List.mem_map.mp hq
    have hin := hknown.mem_iff.mpr (hchildren.1 i (List.mem_range.mp hi))
    obtain ⟨weighted, hw, haddress⟩ := List.mem_map.mp hin
    have hpath : weighted.indexPath = o.indexPath.adding i := IndexPath.ext_indices haddress
    refine List.mem_map.mpr ⟨weighted, ?_, hpath⟩
    rcases List.mem_append.mp hw with hw | hw
    · exact List.mem_append_left _ (List.mem_filter.mpr
        ⟨hw, IndexPath.isChildOf_iff.mpr ⟨i, hpath⟩⟩)
    · obtain ⟨j, hj⟩ := Pool.mem_gather.mp hw
      obtain ⟨item, hitem, k, hk⟩ := (h.own j).toPush weighted hj
      refine List.mem_append_right _ (mem_toPushFor.mpr ⟨j, ⟨item, hitem, ?_⟩, hj⟩)
      exact (IndexPath.adding_injective (hk.symm.trans hpath)).1

/-- **Nothing is awaited in vain.** In every reachable state of a parallel walk from one root that
is not stopped, on every platform and for all answers of the operating system to each read:

* no two items that are scheduled or to be pushed share an index path;
* for every sent result the child reads at its index path that are scheduled, or to be pushed by
  the worker that sent it, are exactly those that it announces;
* the index path that the consumer looks for is outstanding exactly once, that is, it belongs to
  exactly one item that is to be pushed, in the channel or the heap of the work queue, held by a
  worker that has not sent its result, in the result channel or in the receive buffer, and it is
  the least of all of them;
* the consumer is not after a disconnect, where it would take any result. -/
theorem awaited_outstanding {B E : Type} [Inhabited E] (os : IndexPath → OperatingSystem)
    (opts : WalkDirOptions B E) (capacity : ℕ) (hcapacity : 0 < capacity) (hN : 0 < N)
    (spec : ReadDirSpec B) (maxReceiveBufferSize : ℕ)
    (s : RunState (ReadDirSpec B) (ReadDirResult B E) N)
    (h : Reaches (Config.walk (walkCallback os opts) capacity hcapacity false)
      (init N (rootItems [spec]) maxReceiveBufferSize) s) (hstop : s.stop = false) :
    ((s.scheduled ++ s.toPush).map Weighted.indexPath).Nodup ∧
    (∀ o ∈ s.sent,
      ((s.scheduledBelow o.indexPath ++ s.toPushFor o.indexPath).map Weighted.indexPath).Perm
        ((List.range o.childCount).map o.indexPath.adding)) ∧
    (s.consumer.iter.orderedMatcher.isNone = false →
      s.outstanding.count s.consumer.iter.orderedMatcher.lookingFor.indices = 1 ∧
      ∀ q ∈ s.outstanding, s.consumer.iter.orderedMatcher.lookingFor.indices ≤ q) ∧
    s.consumer.pc ≠ .disconnected := by
  have hwork := disciplined_multiThreadedWalkDir (walkCallback (E := E) os opts)
  have hacc := accounted_of_reaches hwork h
  have hcourse : s.Course := course_of_reaches hN rfl hwork
    (fun weighted => ⟨_, planned_multiThreadedWalkDir (streams_walkCallback os opts) weighted⟩)
    rfl h hstop
  refine ⟨hcourse.nodup_indexPath hacc, fun o ho => hcourse.children_of_sent hacc ho,
    fun hne => ⟨?_, fun q hq => ?_⟩, hcourse.onCourse.alive.1⟩
  · exact List.count_eq_one_of_mem hcourse.onCourse.covers.nodup
      (hcourse.onCourse.lookingFor_mem hne)
  · exact hcourse.onCourse.lookingFor_le hne hq

/-- A Linux where every directory has two subdirectories, after which its enumeration fails. -/
def failingLinux : LinuxCalls :=
  .listing fun _ => ⟨[(DT_DIR, [97]), (DT_DIR, [98])], some (.os 5)⟩

/-- The statement above in a run of one worker whose root read has failed midway: its result is
sent, and announces the two child reads that were streamed. -/
theorem awaited_outstanding_failed_midway :
    ∃ s : RunState (ReadDirSpec Unit) (ReadDirResult Unit Unit) 1,
      s.sent.map Ordered.childCount = [2] ∧
      ((s.scheduled ++ s.toPush).map Weighted.indexPath).Nodup ∧
      (∀ o ∈ s.sent,
        ((s.scheduledBelow o.indexPath ++ s.toPushFor o.indexPath).map Weighted.indexPath).Perm
          ((List.range o.childCount).map o.indexPath.adding)) ∧
      s.consumer.pc ≠ .disconnected := by
  let opts : WalkDirOptions Unit Unit := .new
  obtain ⟨s, hrun, hstop, hsent⟩ : ∃ s,
      run (Config.walk (walkCallback (fun _ => .linux failingLinux) opts) 4
        (Nat.succ_pos 3) false) (init 1 (rootItems [⟨0, ⟨[]⟩, (), none⟩]) 0)
        (List.replicate 12 (.worker 0 false)) = some s ∧ s.stop = false ∧
        s.sent.map Ordered.childCount = [2] :=
    ⟨_, rfl, rfl, rfl⟩
  obtain ⟨hnodup, hchildren, -, hpc⟩ := awaited_outstanding (fun _ => .linux failingLinux)
    opts 4 (Nat.succ_pos 3) Nat.one_pos ⟨0, ⟨[]⟩, (), none⟩ 0 s (reaches_of_run hrun)
    hstop
  exact ⟨s, hsent, hnodup, hchildren, hpc⟩

end RunState

end JwalkMeta
