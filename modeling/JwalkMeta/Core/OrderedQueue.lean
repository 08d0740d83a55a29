import JwalkMeta.Core.IndexPath
import JwalkMeta.Lib.BinaryHeap
import JwalkMeta.Lib.Frontier

/-!
# The ordered result queue

Results of directory reads arrive over a bounded channel in any order; `OrderedQueueIter` hands
them out in depth-first order. It keeps early arrivals in a heap and a cursor, the
`OrderedMatcher`, on the index path it has to hand out next.

`OrderedQueueIter::next` shares the channel and the stop flag with other threads, so it is a
machine (`Consumer.step`) whose steps are the single reads of shared state: loading the stop flag,
one `try_recv` of `drain_channel`, one look at the clock, one `recv_timeout`. What `next` returned
so far is `Consumer.nexts`.

Source: `src/core/ordered_queue.rs`.

## Main definitions

* `OrderedMatcher`, `OrderedMatcher.advancePast`: the cursor.
* `OrderedQueueIter`, `Consumer`, `Consumer.step`: the consuming side of the queue.
* `OrderedMatcher.frontier`: the subtrees that the cursor still has to enter.

## Main results

* `OrderedMatcher.advancePast_frontier`: advancing the cursor replaces the head of the frontier
  by its announced children.
-/

namespace JwalkMeta

open Frontier

/-! ### The cursor -/

/-- `OrderedMatcher`: the index path to hand out next, and for each of its components how many
siblings are still to come. The last element of the source's vector is the head of the list. -/
structure OrderedMatcher where
  lookingFor : IndexPath
  childCountStack : List ℕ

namespace OrderedMatcher

/-- `OrderedMatcher::default`: a single root read, at the index path `[0]`. -/
def default : OrderedMatcher := ⟨⟨[0]⟩, [1]⟩

/-- Whether the whole tree has been handed out. -/
def isNone (m : OrderedMatcher) : Bool := m.lookingFor.isEmpty

/-- `decrement_remaining_children`, with the source's saturating subtraction. -/
def decrementRemainingChildren (m : OrderedMatcher) : OrderedMatcher :=
  match m.childCountStack with
  | [] => m
  | count :: counts => { m with childCountStack := (count - 1) :: counts }

/-- The `while` loop of `advance_past`: leave every level that has no sibling left. -/
def popExhausted (lookingFor : IndexPath) : List ℕ → Option OrderedMatcher
  | 0 :: counts =>
    let parent := lookingFor.pop
    if parent.isEmpty then popExhausted parent counts
    else
      match parent.incrementLast with
      | none => none
      | some sibling => popExhausted sibling counts
  | counts => some ⟨lookingFor, counts⟩

/-- `advance_past`: move the cursor behind a result that announces `childCount` child reads.
`none` is the failed assertion of `increment_last` on an empty index path. -/
def advancePast (m : OrderedMatcher) (childCount : ℕ) : Option OrderedMatcher :=
  let m := m.decrementRemainingChildren
  if 0 < childCount then some ⟨m.lookingFor.push 0, childCount :: m.childCountStack⟩
  else
    match m.lookingFor.incrementLast with
    | none => none
    | some sibling => popExhausted sibling m.childCountStack

/-- The `c` siblings from number `i` on below a node, given by its reversed address. -/
def siblings (r : List ℕ) (i c : ℕ) : List (List ℕ) :=
  (List.range' i c).map fun k => r.reverse ++ [k]

/-- The siblings still to come on the levels of a node that has been entered. The node is given by
its reversed address. -/
def laterSiblings : List ℕ → List ℕ → List (List ℕ)
  | j :: r, count :: counts => siblings r (j + 1) count ++ laterSiblings r counts
  | _, _ => []

/-- The subtrees still to be entered from a node on, the node given by its reversed address. -/
def frontierFrom : List ℕ → List ℕ → List (List ℕ)
  | i :: r, count :: counts => siblings r i count ++ laterSiblings r counts
  | _, _ => []

/-- The subtrees that the cursor still has to enter, from left to right. -/
def frontier (m : OrderedMatcher) : List (List ℕ) :=
  frontierFrom m.lookingFor.indices.reverse m.childCountStack

/-- The cursor stands on a node: there is a count for each component of its path, and the node
itself is counted. -/
structure WF (m : OrderedMatcher) : Prop where
  length_eq : m.childCountStack.length = m.lookingFor.indices.length
  head_pos : ∀ count counts, m.childCountStack = count :: counts → 0 < count

theorem wf_default : default.WF := by
  refine ⟨rfl, fun count counts h => ?_⟩
  obtain ⟨rfl, -⟩ := List.cons.inj h
  exact Nat.one_pos

theorem siblings_succ (r : List ℕ) (i c : ℕ) :
    siblings r i (c + 1) = (r.reverse ++ [i]) :: siblings r (i + 1) c := by
  simp [siblings, List.range'_succ]

theorem siblings_range (r : List ℕ) (c : ℕ) : siblings r 0 c = children r.reverse c := by
  simp [siblings, children, List.range_eq_range']

theorem frontierFrom_succ (i : ℕ) (r counts : List ℕ) (c : ℕ) :
    frontierFrom (i :: r) ((c + 1) :: counts) =
      (r.reverse ++ [i]) :: (siblings r (i + 1) c ++ laterSiblings r counts) := by
  simp [frontierFrom, siblings_succ]

/-- Leaving a level that has no sibling left, the walk goes on behind the parent. -/
theorem frontierFrom_parent (j : ℕ) (r counts : List ℕ) :
    frontierFrom ((j + 1) :: r) counts = laterSiblings (j :: r) counts := by
  cases counts <;> rfl

/-- A cursor that stands on a node has this node at the head of its frontier. -/
theorem frontier_eq_cons {m : OrderedMatcher} (hm : m.WF) (hne : m.isNone = false) :
    ∃ F, m.frontier = m.lookingFor.indices :: F := by
  obtain ⟨⟨l⟩, stack⟩ := m
  obtain ⟨hlen, hpos⟩ := hm
  simp only [isNone, IndexPath.isEmpty] at hne
  obtain ⟨r, i, rfl⟩ : ∃ r i, l = r ++ [i] :=
    ⟨_, _, (List.dropLast_append_getLast (List.isEmpty_eq_false_iff.mp hne)).symm⟩
  cases stack with
  | nil => simp at hlen
  | cons count counts =>
    obtain ⟨c, rfl⟩ := Nat.exists_eq_succ_of_ne_zero (hpos count counts rfl).ne'
    exact ⟨_, by simp only [frontier, List.reverse_append, List.reverse_singleton,
      List.singleton_append, frontierFrom_succ, List.reverse_reverse]; rfl⟩

theorem frontier_eq_nil {m : OrderedMatcher} (hnone : m.isNone = true) : m.frontier = [] := by
  have h : m.lookingFor.indices = [] := (IndexPath.isEmpty_iff _).mp hnone
  simp [frontier, h, frontierFrom]

theorem incrementLast_concat (l : List ℕ) (i : ℕ) :
    (IndexPath.mk (l ++ [i])).incrementLast = some ⟨l ++ [i + 1]⟩ := by
  simp [IndexPath.incrementLast]

theorem pop_concat (l : List ℕ) (i : ℕ) : (IndexPath.mk (l ++ [i])).pop = ⟨l⟩ := by
  simp [IndexPath.pop]

/-- The `while` loop keeps the frontier and ends on a node or at the end of the tree. -/
theorem popExhausted_spec (i : ℕ) (r : List ℕ) (stack : List ℕ)
    (hlen : stack.length = r.length + 1) :
    ∃ m, popExhausted ⟨(i :: r).reverse⟩ stack = some m ∧ m.WF ∧
      m.frontier = frontierFrom (i :: r) stack := by
  induction stack generalizing i r with
  | nil => simp at hlen
  | cons count counts ih =>
    cases count with
    | succ c =>
      refine ⟨⟨⟨(i :: r).reverse⟩, (c + 1) :: counts⟩, rfl, ⟨by simpa using hlen, ?_⟩, ?_⟩
      · intro a as h
        obtain ⟨rfl, -⟩ := List.cons.inj h
        exact Nat.succ_pos c
      · simp [frontier]
    | zero =>
      simp only [popExhausted, List.reverse_cons, pop_concat]
      cases r with
      | nil =>
        -- the root level itself is exhausted: the tree has been handed out
        obtain rfl : counts = [] := by simpa using hlen
        exact ⟨⟨⟨[]⟩, []⟩, rfl, ⟨rfl, by simp⟩, rfl⟩
      | cons j r =>
        obtain ⟨m, hm, hwf, hf⟩ := ih (j + 1) r (by simpa using hlen)
        refine ⟨m, ?_, hwf, ?_⟩
        · simpa [IndexPath.isEmpty, incrementLast_concat] using hm
        · rw [hf, frontierFrom_parent]
          rfl

/-- **Advancing the cursor.** Behind a result that announces `c` child reads, the head of the
frontier is replaced by its `c` children, and no assertion of `increment_last` fails. -/
theorem advancePast_frontier {m : OrderedMatcher} (hm : m.WF) {f : List ℕ} {F : List (List ℕ)}
    (hf : m.frontier = f :: F) (c : ℕ) :
    ∃ m', m.advancePast c = some m' ∧ m'.WF ∧ m'.frontier = children f c ++ F := by
  obtain ⟨⟨l⟩, stack⟩ := m
  obtain ⟨hlen, hpos⟩ := hm
  obtain ⟨i, r, rfl⟩ | rfl : (∃ i r, l = (i :: r).reverse) ∨ l = [] := by
    cases h : l.reverse with
    | nil => exact Or.inr (List.reverse_eq_nil_iff.mp h)
    | cons i r => exact Or.inl ⟨i, r, by rw [← h, List.reverse_reverse]⟩
  · cases stack with
    | nil => simp at hlen
    | cons count counts =>
      obtain ⟨n, rfl⟩ := Nat.exists_eq_succ_of_ne_zero (hpos count counts rfl).ne'
      have hlen' : counts.length = r.length := by simpa using hlen
      simp only [frontier, List.reverse_reverse, frontierFrom_succ] at hf
      obtain ⟨rfl, rfl⟩ := List.cons.inj hf
      rcases Nat.eq_zero_or_pos c with rfl | hc
      · obtain ⟨m', hm', hwf, hfr⟩ := popExhausted_spec (i + 1) r (n :: counts) (by simp [hlen'])
        refine ⟨m', ?_, hwf, ?_⟩
        · simpa [advancePast, decrementRemainingChildren, incrementLast_concat] using hm'
        · simpa [frontierFrom] using hfr
      · refine ⟨⟨⟨r.reverse ++ [i] ++ [0]⟩, c :: n :: counts⟩, ?_, ⟨by simp [hlen'], ?_⟩, ?_⟩
        · simp [advancePast, decrementRemainingChildren, hc, IndexPath.push]
        · intro a as h
          obtain ⟨rfl, -⟩ := List.cons.inj h
          exact hc
        · simp [frontier, frontierFrom, laterSiblings, siblings_range]
  · simp [frontier, frontierFrom] at hf

end OrderedMatcher

/-! ### The consuming side of the queue -/

/-- `OrderedQueueIter`: the early arrivals, the cursor, and the limit that `drain_channel`
respects. -/
structure OrderedQueueIter (T : Type) where
  receiveBuffer : List (Ordered T)
  orderedMatcher : OrderedMatcher
  maxReceiveBufferSize : ℕ

/-- Where the consuming thread stands in `OrderedQueueIter::next`. -/
inductive NextPc
  /-- Outside of `next`. -/
  | idle
  /-- At the top of the loop of `try_next_strict`, about to load the stop flag. -/
  | top
  /-- In `drain_channel`. -/
  | drain
  /-- About to compare the clock with the deadline. -/
  | deadline
  /-- In `recv_timeout`. -/
  | recv
  /-- `recv_timeout` has reported that all senders are gone. -/
  | disconnected
  /-- An `unwrap` or an assertion has failed. -/
  | panicked
  deriving DecidableEq, Repr

/-- The consuming thread: the queue it owns, where it stands, and what `next` has returned. -/
structure Consumer (T : Type) where
  iter : OrderedQueueIter T
  pc : NextPc
  nexts : List (Option (Ordered T))

namespace Consumer

variable {T : Type}

/-- The consumer of a new queue (`new_ordered_queue`). -/
def new (maxReceiveBufferSize : ℕ) : Consumer T :=
  ⟨⟨[], OrderedMatcher.default, maxReceiveBufferSize⟩, .idle, []⟩

/-- Whether the first element of the receive buffer is the one looked for. -/
def topMatches (c : Consumer T) : Bool :=
  match BinaryHeap.peek c.iter.receiveBuffer with
  | none => false
  | some top => decide (top.indexPath = c.iter.orderedMatcher.lookingFor)

/-- Put a received result into the receive buffer. -/
def receive (c : Consumer T) (ordered : Ordered T) (pc : NextPc) : Consumer T :=
  { c with
    iter := { c.iter with receiveBuffer := BinaryHeap.push c.iter.receiveBuffer ordered }
    pc := pc }

/-- `next` returns the first element of the receive buffer and advances the cursor past it. -/
def takeTop (c : Consumer T) : Consumer T :=
  match BinaryHeap.pop c.iter.receiveBuffer with
  | none => { c with pc := .panicked }
  | some (ordered, rest) =>
    match c.iter.orderedMatcher.advancePast ordered.childCount with
    | none => { c with pc := .panicked }
    | some matcher =>
      { iter := { c.iter with receiveBuffer := rest, orderedMatcher := matcher }
        pc := .idle
        nexts := c.nexts ++ [some ordered] }

/-- `next` returns `None`. -/
def giveUp (c : Consumer T) : Consumer T := { c with pc := .idle, nexts := c.nexts ++ [none] }

/-- What follows `drain_channel` in the loop: hand out the element looked for, end with the tree,
or wait. -/
def afterDrain (c : Consumer T) : Consumer T :=
  if c.topMatches then c.takeTop
  else if c.iter.orderedMatcher.isNone then c.giveUp
  else { c with pc := .deadline }

/-- What follows `drain_channel` once the senders are gone: hand out the element looked for, else
any element without advancing the cursor, else end. -/
def afterDisconnect (c : Consumer T) : Consumer T :=
  if c.topMatches then c.takeTop
  else
    match BinaryHeap.pop c.iter.receiveBuffer with
    | none => c.giveUp
    | some (fallback, rest) =>
      { iter := { c.iter with receiveBuffer := rest }
        pc := .idle
        nexts := c.nexts ++ [some fallback] }

/-- One iteration of `drain_channel`, followed by `after` when it ends. -/
def drainChannel (after : Consumer T → Consumer T) (channel : List (Ordered T))
    (c : Consumer T) : List (Ordered T) × Consumer T :=
  if c.iter.receiveBuffer.length < c.iter.maxReceiveBufferSize then
    match channel with
    | [] => ([], after c)
    | ordered :: channel => (channel, c.receive ordered c.pc)
  else (channel, after c)

/-- One step of the consuming thread. `stop` is the stop flag, `gone` says that every sender of
the channel is gone, `expired` that the deadline of `try_next_strict` has passed. The result is
the channel and the consumer after the step. A `recv_timeout` on a channel that stays empty times
out, and the loop goes on. -/
def step (stop gone expired : Bool) (channel : List (Ordered T)) (c : Consumer T) :
    Option (List (Ordered T) × Consumer T) :=
  match c.pc with
  | .idle => some (channel, { c with pc := .top })
  | .top =>
    if stop then some (channel, c.giveUp)
    else if c.topMatches then some (channel, c.takeTop)
    else some (channel, { c with pc := .drain })
  | .drain => some (drainChannel afterDrain channel c)
  | .deadline => some (channel, { c with pc := if expired then .top else .recv })
  | .recv =>
    match channel with
    | ordered :: channel => some (channel, c.receive ordered .top)
    | [] => some ([], { c with pc := if gone then .disconnected else .top })
  | .disconnected => some (drainChannel afterDisconnect channel c)
  | .panicked => none

end Consumer

end JwalkMeta
