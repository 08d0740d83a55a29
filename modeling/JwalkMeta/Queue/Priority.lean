import JwalkMeta.Run.System
import JwalkMeta.WalkDir.Callback

/-!
# Which item the work queue returns

`PriorityQueueIter::next` drains the channel into the heap and pops the heap. The priority-flood
rule wants the heaviest item, and among items of one weight the first one in depth-first order. The
heap is a max-heap for `Ord for Weighted`, and that order compares the weights with exchanged
arguments although the heap already puts the greatest element first: the lightest item leaves it.
The index paths are compared with exchanged arguments twice, so the second half of the rule holds.

Source: `src/core/weighted.rs`, `src/core/priority_queue.rs`, `README.md`.

## Main definitions

* `HeaviestFirst`: the priority-flood rule for one pop.
* `RunState.Returns`: a step in which `next` returns an item.

## Main results

* `RunState.Returns.lightest`: what the queue returns instead.
* `RunState.heaviestFirst_iff`: the rule is met only among items of one weight.
-/

namespace JwalkMeta

variable {S R : Type} {N : ℕ}

/-- The priority-flood rule: no item of the heap is heavier than the returned one, and those of the
same weight do not come before it in depth-first order. -/
def HeaviestFirst (receiveBuffer : List (Weighted S)) (weighted : Weighted S) : Prop :=
  ∀ u ∈ receiveBuffer, u.weight ≤ weighted.weight ∧
    (u.weight = weighted.weight → weighted.indexPath.indices ≤ u.indexPath.indices)

namespace RunState

/-- A step of a run in which `next` returns an item to some worker. -/
structure Returns (cfg : Config S R) (s : RunState S R N) (weighted : Weighted S)
    (s' : RunState S R N) : Prop where
  step : Step cfg s s'
  taken_eq : s'.taken = s.taken ++ [weighted]

variable {cfg : Config S R} {s s' : RunState S R N} {weighted : Weighted S}

/-- The channel has been drained, and the item is popped from the heap. -/
theorem Returns.pop (h : Returns cfg s weighted s') :
    s.specChannel = [] ∧ BinaryHeap.pop s.receiveBuffer = some (weighted, s'.receiveBuffer) := by
  obtain ⟨a, hmove⟩ := h.step.move
  have htaken := h.taken_eq
  cases hmove with
  | take i fail weighted' buffer hi halive hchannel hpop =>
    obtain rfl : weighted' = weighted := by simpa using htaken
    exact ⟨hchannel, hpop⟩
  | request i fail item op k s₁ answer hi hperformed =>
    have hsame : s₁.taken = s.taken := by cases hperformed <;> rfl
    rw [setWorker, hsame] at htaken
    simp at htaken
  | _ => simp [setWorker] at htaken

/-- **The lightest item leaves the heap first**, and among the lightest the first one in depth-first
order. -/
theorem Returns.lightest (h : Returns cfg s weighted s') :
    ∀ u ∈ s.receiveBuffer, weighted.weight ≤ u.weight ∧
      (u.weight = weighted.weight → weighted.indexPath.indices ≤ u.indexPath.indices) := by
  intro u hu
  have hle := (Weighted.compare_isLE_iff u weighted).mp (BinaryHeap.pop_ge h.pop.2 u hu)
  rcases hle with hlt | ⟨heq, hpath⟩
  · exact ⟨hlt.le, fun he => absurd he hlt.ne'⟩
  · exact ⟨heq.le, fun _ => hpath⟩

/-- **When the queue returns the heaviest item.** Whatever has been pushed, whenever `next` returns
an item it meets the priority-flood rule if and only if all items in the heap have the same
weight. -/
theorem heaviestFirst_iff (hreturns : Returns cfg s weighted s') :
    HeaviestFirst s.receiveBuffer weighted ↔
      ∀ u ∈ s.receiveBuffer, ∀ v ∈ s.receiveBuffer, u.weight = v.weight := by
  have hlightest := hreturns.lightest
  have hmem : weighted ∈ s.receiveBuffer := BinaryHeap.mem_of_pop hreturns.pop.2
  constructor
  · intro h u hu v hv
    have hu' := le_antisymm (h u hu).1 (hlightest u hu).1
    have hv' := le_antisymm (h v hv).1 (hlightest v hv).1
    rw [hu', hv']
  · intro h u hu
    exact ⟨(h u hu weighted hmem).le, (hlightest u hu).2⟩

/-- The walk of a directory `r` with the subdirectories `a` and `b`, of which `a` has a subdirectory
`c`, by one worker, with a client's callback that changes nothing. -/
def unevenWalk : Config (ReadDirSpec Unit) (ReadDirResult Unit Unit) :=
  Config.walk (coreReadDirCallback
    (.linux (.listing fun path =>
      if path = ⟨[.normal [114]]⟩ then ⟨[(DT_DIR, [97]), (DT_DIR, [98])], none⟩
      else if path = ⟨[.normal [114], .normal [97]]⟩ then ⟨[(DT_DIR, [99])], none⟩
      else ⟨[], none⟩))
    { (WalkDirOptions.new : WalkDirOptions Unit Unit) with
      processReadDir := some fun _ _ state results => (state, results) }) 4 (Nat.succ_pos 3) false

/-- The start of that walk. -/
def unevenStart : RunState (ReadDirSpec Unit) (ReadDirResult Unit Unit) 1 :=
  init 1 (rootItems [⟨0, ⟨[.normal [114]]⟩, (), none⟩]) 0

/-- The statement above when `a` is returned: `a` and `b` have the same weight, and `a` comes
first. -/
theorem heaviestFirst_same_weight :
    ∃ s weighted s', Reaches unevenWalk unevenStart s ∧ Returns unevenWalk s weighted s' ∧
      s.receiveBuffer.length = 2 ∧ HeaviestFirst s.receiveBuffer weighted := by
  obtain ⟨s, weighted, s', hrun, hstep, htaken, hlength, hweights⟩ : ∃ s weighted s',
      unevenStart.run unevenWalk (List.replicate 15 (.worker 0 false)) = some s ∧
      s.step unevenWalk (.worker 0 false) = some s' ∧ s'.taken = s.taken ++ [weighted] ∧
      s.receiveBuffer.length = 2 ∧
      ∀ u ∈ s.receiveBuffer, ∀ v ∈ s.receiveBuffer, u.weight = v.weight := by
    refine ⟨_, _, _, rfl, rfl, rfl, rfl, ?_⟩
    decide +kernel
  have hreturns : Returns unevenWalk s weighted s' := ⟨⟨_, hstep⟩, htaken⟩
  exact ⟨s, weighted, s', reaches_of_run hrun, hreturns, hlength,
    (heaviestFirst_iff hreturns).mpr hweights⟩

/-- When `c` waits in the heap with `b`, it is heavier, because `r` has two entries and `a` has one
more; but `b` is returned. -/
theorem not_heaviestFirst_lighter_sibling :
    ∃ s weighted s', Reaches unevenWalk unevenStart s ∧ Returns unevenWalk s weighted s' ∧
      weighted.value.path = ⟨[.normal [114], .normal [98]]⟩ ∧
      weighted.weight = rootWeight + 2 ∧
      (∃ u ∈ s.receiveBuffer, u.weight = rootWeight + 3) ∧
      ¬ HeaviestFirst s.receiveBuffer weighted := by
  obtain ⟨s, weighted, s', hrun, hstep, htaken, hpath, hweight, hheavy⟩ : ∃ s weighted s',
      unevenStart.run unevenWalk (List.replicate 24 (.worker 0 false)) = some s ∧
      s.step unevenWalk (.worker 0 false) = some s' ∧ s'.taken = s.taken ++ [weighted] ∧
      weighted.value.path = ⟨[.normal [114], .normal [98]]⟩ ∧
      weighted.weight = rootWeight + 2 ∧ ∃ u ∈ s.receiveBuffer, u.weight = rootWeight + 3 := by
    refine ⟨_, _, _, rfl, rfl, rfl, rfl, rfl, ?_⟩
    decide +kernel
  refine ⟨s, weighted, s', reaches_of_run hrun, ⟨⟨_, hstep⟩, htaken⟩, hpath, hweight, hheavy,
    fun h => ?_⟩
  obtain ⟨u, hu, hweight'⟩ := hheavy
  have hle := (h u hu).1
  omega

end RunState

end JwalkMeta
