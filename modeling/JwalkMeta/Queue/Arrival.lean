import JwalkMeta.Lib.Reachability
import JwalkMeta.Queue.Cursor

/-!
# Depth-first order from any order of arrival

The results of a finite tree of directory reads are pushed in any order, by any number of senders,
over a bounded channel, while the consumer calls `next`. The consumer receives the nodes of the
tree in preorder, and then `None`.

The tree `Tree T` carries the results; `Tree.items` lists its nodes in preorder as the items that
are pushed, with their index paths and child counts. `QueueRun` is the state of such a run: what is
still to be pushed, the channel, and the consumer.

## Main definitions

* `Tree`, `Tree.items`: a tree of results and its items in preorder.
* `QueueRun`, `QueueRun.Step`: the interleavings of pushes and of the consumer's steps.

## Main results

* `QueueRun.next_is_preorder`: whatever `next` has returned is an initial part of the preorder
  followed by `None`s, the consumer has not panicked, and the run can always be completed.
-/

namespace JwalkMeta

open Frontier

variable {T : Type}

/-! ### Trees of results -/

/-- A finite ordered tree of results. -/
inductive Tree (T : Type) : Type
  | node (value : T) (children : List (Tree T)) : Tree T

namespace Tree

mutual

/-- The items of a tree at an index path, in preorder. -/
def items : Tree T → IndexPath → List (Ordered T)
  | node value children, p => ⟨value, p, children.length⟩ :: forestItems children p 0

/-- The items of the trees at the children of `p` from number `i` on, in preorder. -/
def forestItems : List (Tree T) → IndexPath → ℕ → List (Ordered T)
  | [], _, _ => []
  | t :: ts, p, i => items t (p.adding i) ++ forestItems ts p (i + 1)

end

mutual

/-- Every item of a tree lies below its root. -/
theorem prefix_of_mem_items : (t : Tree T) → (p : IndexPath) → (o : Ordered T) →
    o ∈ t.items p → p.indices <+: o.address
  | node value children, p, o, ho => by
    rcases List.mem_cons.mp ho with rfl | ho
    · exact List.prefix_refl _
    · obtain ⟨k, -, -, hk⟩ := prefix_of_mem_forestItems children p 0 o ho
      exact (List.prefix_append p.indices [k]).trans hk

/-- Every item of a forest lies below one of its roots. -/
theorem prefix_of_mem_forestItems : (ts : List (Tree T)) → (p : IndexPath) → (i : ℕ) →
    (o : Ordered T) → o ∈ forestItems ts p i →
    ∃ k, i ≤ k ∧ k < i + ts.length ∧ p.indices ++ [k] <+: o.address
  | [], p, i, o, ho => by simp [forestItems] at ho
  | t :: ts, p, i, o, ho => by
    rcases List.mem_append.mp ho with ho | ho
    · exact ⟨i, le_rfl, by simp, prefix_of_mem_items t (p.adding i) o ho⟩
    · obtain ⟨k, hik, hk, hpre⟩ := prefix_of_mem_forestItems ts p (i + 1) o ho
      refine ⟨k, by omega, ?_, hpre⟩
      rw [List.length_cons]
      omega

end

/-- The roots of a forest are among its items. -/
theorem root_mem_forestItems (ts : List (Tree T)) (p : IndexPath) (i k : ℕ)
    (hk : k < ts.length) :
    p.indices ++ [i + k] ∈ (forestItems ts p i).map Ordered.address := by
  induction ts generalizing i k with
  | nil => simp at hk
  | cons t ts ih =>
    rw [forestItems, List.map_append]
    cases k with
    | zero =>
      obtain ⟨value, children⟩ := t
      exact List.mem_append_left _ (by simp [items, Ordered.address])
    | succ k =>
      refine List.mem_append_right _ ?_
      have hmem := ih (i + 1) k (by simpa using hk)
      rwa [show i + 1 + k = i + (k + 1) by omega] at hmem

mutual

/-- The items of a tree stand in the order of their addresses. -/
theorem items_sorted : (t : Tree T) → (p : IndexPath) →
    (t.items p).Pairwise fun a b => a.address < b.address
  | node value children, p => by
    refine List.pairwise_cons.mpr ⟨fun o ho => ?_, forestItems_sorted children p 0⟩
    obtain ⟨k, -, -, hk⟩ := prefix_of_mem_forestItems children p 0 o ho
    have hlt : p.indices < p.indices ++ [k] :=
      lt_of_le_of_ne (prefix_le (List.prefix_append _ _)) (by simp)
    exact hlt.trans_le (prefix_le hk)

/-- The items of a forest stand in the order of their addresses. -/
theorem forestItems_sorted : (ts : List (Tree T)) → (p : IndexPath) → (i : ℕ) →
    (forestItems ts p i).Pairwise fun a b => a.address < b.address
  | [], p, i => List.Pairwise.nil
  | t :: ts, p, i => by
    refine List.pairwise_append.mpr
      ⟨items_sorted t (p.adding i), forestItems_sorted ts p (i + 1), fun a ha b hb => ?_⟩
    have hpa := prefix_of_mem_items t (p.adding i) a ha
    obtain ⟨k, hik, -, hpb⟩ := prefix_of_mem_forestItems ts p (i + 1) b hb
    have hleft := leftOf_append_singleton p.indices (Nat.lt_of_succ_le hik)
    exact (hleft.extend hpa hpb).lt

end

mutual

/-- Every item of a tree announces its children. -/
theorem childrenIn_items : (t : Tree T) → (p : IndexPath) → (o : Ordered T) → o ∈ t.items p →
    ChildrenIn ((t.items p).map Ordered.address) o.address o.childCount
  | node value children, p, o, ho => by
    rcases List.mem_cons.mp ho with rfl | ho
    · refine ⟨fun k hk => ?_, fun q hq hpq => ?_⟩
      · have hmem := root_mem_forestItems children p 0 k hk
        rw [Nat.zero_add] at hmem
        exact List.mem_cons_of_mem _ hmem
      · rcases List.mem_cons.mp hq with rfl | hq
        · exact Or.inl rfl
        · obtain ⟨o, ho, rfl⟩ := List.mem_map.mp hq
          obtain ⟨k, -, hk, hpre⟩ := prefix_of_mem_forestItems children p 0 o ho
          exact Or.inr ⟨k, by simpa using hk, hpre⟩
    · refine (childrenIn_forestItems children p 0 o ho).mono (List.subset_cons_self _ _) ?_
      intro q hq hoq
      rcases List.mem_cons.mp hq with rfl | hq
      · -- the root is not below an item of its forest
        obtain ⟨k, -, -, hk⟩ := prefix_of_mem_forestItems children p 0 o ho
        have hlen := (hk.trans hoq).length_le
        simp only [Ordered.address, List.length_append, List.length_singleton] at hlen
        omega
      · exact hq

/-- Every item of a forest announces its children. -/
theorem childrenIn_forestItems : (ts : List (Tree T)) → (p : IndexPath) → (i : ℕ) →
    (o : Ordered T) → o ∈ forestItems ts p i →
    ChildrenIn ((forestItems ts p i).map Ordered.address) o.address o.childCount
  | [], p, i, o, ho => by simp [forestItems] at ho
  | t :: ts, p, i, o, ho => by
    rw [forestItems, List.map_append]
    rcases List.mem_append.mp ho with ho | ho
    · have hpo := prefix_of_mem_items t (p.adding i) o ho
      refine (childrenIn_items t (p.adding i) o ho).mono (List.subset_append_left _ _) ?_
      intro q hq hoq
      refine (List.mem_append.mp hq).resolve_right fun hq => ?_
      obtain ⟨b, hb, rfl⟩ := List.mem_map.mp hq
      obtain ⟨k, hik, -, hpb⟩ := prefix_of_mem_forestItems ts p (i + 1) b hb
      have hleft := leftOf_append_singleton p.indices (Nat.lt_of_succ_le hik)
      exact hleft.not_prefix hpb (hpo.trans hoq)
    · obtain ⟨k, hik, -, hpo⟩ := prefix_of_mem_forestItems ts p (i + 1) o ho
      refine (childrenIn_forestItems ts p (i + 1) o ho).mono (List.subset_append_right _ _) ?_
      intro q hq hoq
      refine (List.mem_append.mp hq).resolve_left fun hq => ?_
      obtain ⟨a, ha, rfl⟩ := List.mem_map.mp hq
      have hpa := prefix_of_mem_items t (p.adding i) a ha
      have hleft := leftOf_append_singleton p.indices (Nat.lt_of_succ_le hik)
      exact hleft.not_prefix (hpo.trans hoq) hpa

end

/-- The items of a tree, its root at the index path `[0]`, in preorder. -/
def preorder (t : Tree T) : List (Ordered T) := t.items ⟨[0]⟩

theorem preorder_sorted (t : Tree T) : t.preorder.Pairwise fun a b => a.address < b.address :=
  t.items_sorted _

/-- At the start the cursor covers the whole tree. -/
theorem covers_preorder (t : Tree T) : Covers [[0]] (t.preorder.map Ordered.address) := by
  refine ⟨?_, ?_, fun q hq => ?_, List.pairwise_singleton _ _⟩
  · exact (List.pairwise_map.mpr t.preorder_sorted).imp ne_of_lt
  · obtain ⟨value, children⟩ := t
    simp [preorder, items, Ordered.address]
  · obtain ⟨o, ho, rfl⟩ := List.mem_map.mp hq
    exact ⟨[0], List.mem_singleton_self _, t.prefix_of_mem_items _ o ho⟩

end Tree

/-! ### Runs of the queue -/

/-- A run of the queue: what is still to be pushed, the channel, whether a sender is alive, and
the consumer. -/
structure QueueRun (T : Type) where
  unsent : List (Ordered T)
  channel : List (Ordered T)
  senders : Bool
  consumer : Consumer T

namespace QueueRun

/-- The start of a run that pushes the items of a tree. -/
def init (t : Tree T) (maxReceiveBufferSize : ℕ) : QueueRun T :=
  ⟨t.preorder, [], true, Consumer.new maxReceiveBufferSize⟩

/-- One step of a run with the stop flag not set: any unsent item is pushed while the channel has
room (a channel of capacity 0 hands over one item at a time), the senders are dropped after all
pushes, or the consumer takes a step, its deadline having passed or not. -/
inductive Step (capacity : ℕ) : QueueRun T → QueueRun T → Prop
  | push {s : QueueRun T} (l₁ l₂ : List (Ordered T)) (o : Ordered T)
      (hunsent : s.unsent = l₁ ++ o :: l₂) (hroom : s.channel.length < max 1 capacity) :
      Step capacity s { s with unsent := l₁ ++ l₂, channel := s.channel ++ [o] }
  | dropSenders {s : QueueRun T} (hunsent : s.unsent = []) :
      Step capacity s { s with senders := false }
  | next {s : QueueRun T} (expired : Bool) {channel : List (Ordered T)} {consumer : Consumer T}
      (hstep : s.consumer.step false (!s.senders) expired s.channel = some (channel, consumer)) :
      Step capacity s { s with channel := channel, consumer := consumer }

/-- The states that a run can reach. -/
def Reaches (capacity : ℕ) : QueueRun T → QueueRun T → Prop := Relation.ReflTransGen (Step capacity)

/-- Push one of the unsent items, given by its number, or let the consumer take a step before its
deadline. -/
def act (s : QueueRun T) : Option ℕ → Option (QueueRun T)
  | some i => s.unsent[i]?.map fun o =>
      { s with unsent := s.unsent.eraseIdx i, channel := s.channel ++ [o] }
  | none => (s.consumer.step false (!s.senders) false s.channel).map fun after =>
      { s with channel := after.1, consumer := after.2 }

/-- The run of a list of actions. -/
def actions (s : QueueRun T) (list : List (Option ℕ)) : ℕ → QueueRun T
  | 0 => s
  | k + 1 => ((s.actions list k).act (list.getD k none)).getD (s.actions list k)

/-- All items that `next` has not returned. -/
def left (s : QueueRun T) : List (Ordered T) := s.unsent ++ s.consumer.atHand s.channel

/-- The invariant of a run over the items `all`: what `next` has returned is `done`, followed by
`None`s only when nothing is left. -/
structure Inv (all : List (Ordered T)) (s : QueueRun T) : Prop where
  onCourse : s.consumer.OnCourse (s.unsent.map Ordered.address) s.channel
  announced : ∀ o ∈ s.left, ChildrenIn (s.left.map Ordered.address) o.address o.childCount
  senders : s.senders = false → s.unsent = []
  returned : ∃ done todo n, all = done ++ todo ∧ s.left.Perm todo ∧ (0 < n → todo = []) ∧
    s.consumer.nexts = done.map some ++ List.replicate n none

variable {capacity : ℕ} {all : List (Ordered T)} {s s' : QueueRun T}

theorem step_of_act {action : Option ℕ} (hroom : s.channel.length < max 1 capacity)
    (h : s.act action = some s') : Step capacity s s' := by
  cases action with
  | some i =>
    obtain ⟨o, ho, rfl⟩ := Option.map_eq_some_iff.mp h
    obtain ⟨hi, rfl⟩ := List.getElem?_eq_some_iff.mp ho
    rw [List.eraseIdx_eq_take_drop_succ]
    refine .push _ _ _ ?_ hroom
    rw [← List.drop_eq_getElem_cons hi, List.take_append_drop]
  | none =>
    obtain ⟨after, hstep, rfl⟩ := Option.map_eq_some_iff.mp h
    exact .next false hstep

theorem step_actions {list : List (Option ℕ)} {length : ℕ}
    (henabled : ∀ k < length, ((s.actions list k).act (list.getD k none)).isSome ∧
      (s.actions list k).channel.length < max 1 capacity) (k : ℕ) (hk : k < length) :
    Step capacity (s.actions list k) (s.actions list (k + 1)) := by
  obtain ⟨hsome, hroom⟩ := henabled k hk
  obtain ⟨s', hs'⟩ := Option.isSome_iff_exists.mp hsome
  have hnext : s.actions list (k + 1) = s' := by rw [actions, hs', Option.getD_some]
  rw [hnext]
  exact step_of_act hroom hs'

theorem reaches_actions {list : List (Option ℕ)} {length : ℕ}
    (hsteps : ∀ k < length, Step capacity (s.actions list k) (s.actions list (k + 1))) :
    Reaches capacity s (s.actions list length) := by
  induction length with
  | zero => exact Relation.ReflTransGen.refl
  | succ n ih =>
    exact (ih fun k hk => hsteps k (hk.trans (Nat.lt_succ_self n))).tail
      (hsteps n (Nat.lt_succ_self n))

theorem map_left (s : QueueRun T) : s.left.map Ordered.address =
    s.consumer.outstanding (s.unsent.map Ordered.address) s.channel :=
  List.map_append

theorem inv_init (t : Tree T) (maxReceiveBufferSize : ℕ) :
    Inv t.preorder (init t maxReceiveBufferSize) := by
  have hleft : (init t maxReceiveBufferSize).left = t.preorder := by
    simp [left, init, Consumer.atHand, Consumer.new]
  refine ⟨⟨OrderedMatcher.wf_default, ?_, ?_, ?_, ?_⟩, fun o ho => ?_, ?_, ?_⟩
  · rw [← map_left, hleft]
    exact t.covers_preorder
  · simp [init, Consumer.atHand, Consumer.new]
  · simp [init, Consumer.new]
  · simp [init, Consumer.new]
  · rw [hleft] at ho ⊢
    exact t.childrenIn_items _ o ho
  · simp [init]
  · exact ⟨[], t.preorder, 0, rfl, by rw [hleft], by simp, by simp [init, Consumer.new]⟩

/-- The head of a sorted list is the only element with the least address. -/
theorem eq_head_of_le {o x : Ordered T} {l : List (Ordered T)}
    (hsort : (x :: l).Pairwise fun a b => a.address < b.address) (ho : o ∈ x :: l)
    (hle : o.address ≤ x.address) : o = x := by
  rcases List.mem_cons.mp ho with rfl | ho
  · rfl
  · exact absurd ((List.pairwise_cons.mp hsort).1 o ho) (not_lt_of_ge hle)

/-- Every step keeps the invariant. -/
theorem Inv.step (hsort : all.Pairwise fun a b => a.address < b.address) (h : Inv all s)
    (hstep : Step capacity s s') : Inv all s' := by
  obtain ⟨done, todo, n, hall, hleft, hn, hnexts⟩ := h.returned
  cases hstep with
  | push l₁ l₂ o hunsent hroom =>
    have hperm : s.left.Perm (left { s with unsent := l₁ ++ l₂, channel := s.channel ++ [o] }) := by
      simp only [left, Consumer.atHand, hunsent, List.append_assoc, List.cons_append,
        List.nil_append]
      refine List.Perm.append_left l₁ ?_
      exact (List.perm_middle.symm.trans (by simp)).trans
        (List.Perm.append_left l₂ List.perm_middle.symm)
    have hO := hperm.map Ordered.address
    refine ⟨⟨h.onCourse.wf, ?_, fun o' ho' => ?_, h.onCourse.waiting, h.onCourse.alive⟩,
      fun o' ho' => ?_, fun hs => ?_, done, todo, n, hall, hperm.symm.trans hleft, hn, hnexts⟩
    · rw [map_left, map_left] at hO
      exact h.onCourse.covers.perm hO
    · rw [← map_left]
      refine (h.announced o' (hperm.mem_iff.mpr ?_)).perm hO
      exact List.mem_append_right _ ho'
    · exact (h.announced o' (hperm.mem_iff.mpr ho')).perm hO
    · simp [h.senders hs] at hunsent
  | dropSenders hunsent =>
    exact ⟨h.onCourse, h.announced, fun _ => hunsent, done, todo, n, hall, hleft, hn, hnexts⟩
  | next expired hc =>
    rename_i channel consumer
    obtain ⟨hcourse, heffect⟩ := h.onCourse.step (fun hg => by
      simp [h.senders (by simpa using hg)]) hc
    cases heffect with
    | quiet hnexts' hmatcher hperm =>
      have hl : s.left.Perm (left { s with channel := channel, consumer := consumer }) :=
        hperm.append_left _
      refine ⟨hcourse, fun o ho => ?_, h.senders, done, todo, n, hall, hl.symm.trans hleft, hn,
        hnexts'.trans hnexts⟩
      exact (h.announced o (hl.mem_iff.mpr ho)).perm (hl.map _)
    | finish hnexts' hnone hmatcher hperm =>
      have hl : s.left.Perm (left { s with channel := channel, consumer := consumer }) :=
        hperm.append_left _
      have hnil : s.left = [] := by
        have := h.onCourse.outstanding_eq_nil hnone
        rwa [← map_left, List.map_eq_nil_iff] at this
      have htodo : todo = [] := by
        rw [hnil] at hleft
        exact hleft.nil_eq.symm
      refine ⟨hcourse, fun o ho => ?_, h.senders, done, todo, n + 1, hall, hl.symm.trans hleft,
        fun _ => htodo, ?_⟩
      · exact (h.announced o (hl.mem_iff.mpr ho)).perm (hl.map _)
      · simp [hnexts', hnexts, List.replicate_succ']
    | handOut o F hnexts' hperm hbefore hafter =>
      have hl : s.left.Perm (o :: left { s with channel := channel, consumer := consumer }) :=
        (hperm.append_left _).trans List.perm_middle
      have hcov := h.onCourse.covers
      rw [hbefore, ← map_left] at hcov
      have ho : o ∈ todo := hleft.mem_iff.mp (hl.mem_iff.mpr List.mem_cons_self)
      cases todo with
      | nil => simp at ho
      | cons x todo =>
        -- the item looked for is the least one that is left, which is the next in preorder
        have hx : o.address ≤ x.address :=
          hcov.head_le (List.mem_map_of_mem (hleft.mem_iff.mpr List.mem_cons_self))
        have hsort' : (x :: todo).Pairwise fun a b => a.address < b.address :=
          (List.pairwise_append.mp (hall ▸ hsort)).2.1
        obtain rfl := eq_head_of_le hsort' ho hx
        have hn0 : n = 0 := by
          by_contra hne
          simpa using hn (Nat.pos_of_ne_zero hne)
        refine ⟨hcourse, fun o' ho' => ?_, h.senders, done ++ [o], todo, 0, by simp [hall],
          (List.perm_cons o).mp (hl.symm.trans hleft), by simp, ?_⟩
        · have hmem := hl.mem_iff.mpr (List.mem_cons_of_mem o ho')
          refine (h.announced o' hmem).erase (hl.map _) (hcov.head_le ?_)
          exact List.mem_map_of_mem hmem
        · simp [hnexts', hnexts, hn0]

/-- Every reachable state satisfies the invariant. -/
theorem inv_of_reaches (t : Tree T) (maxReceiveBufferSize : ℕ)
    (h : Reaches capacity (init t maxReceiveBufferSize) s) : Inv t.preorder s :=
  Reachability.invariant h (inv_init t maxReceiveBufferSize) fun _ _ hinv hstep =>
    hinv.step t.preorder_sorted hstep

/-! ### Completing a run -/

/-- How far the consumer is from waiting in `recv_timeout`. -/
def pcRank : NextPc → ℕ
  | .idle => 4
  | .top => 3
  | .drain => 2
  | .deadline => 1
  | _ => 0

/-- The work left before the item looked for is at hand: pushes and receives weigh more than the
consumer's way through its loop. -/
def distance (s : QueueRun T) : ℕ :=
  5 * (2 * s.unsent.length + s.channel.length) + pcRank s.consumer.pc

/-- A step of the consumer after which `next` has returned or waits with less to receive. -/
theorem exists_step_of_next (expired : Bool) {channel : List (Ordered T)} {consumer : Consumer T}
    (hc : s.consumer.step false (!s.senders) expired s.channel = some (channel, consumer))
    (hd : consumer.nexts ≠ s.consumer.nexts ∨ 5 * channel.length + pcRank consumer.pc <
      5 * s.channel.length + pcRank s.consumer.pc) :
    ∃ s', Step capacity s s' ∧
      (s'.consumer.nexts ≠ s.consumer.nexts ∨ s'.distance < s.distance) := by
  refine ⟨_, .next expired hc, hd.imp id fun hd => ?_⟩
  simp only [distance]
  omega

/-- What follows `drain_channel` returns from `next` or goes on to wait. -/
theorem afterDrain_closer {rest : List (List ℕ)} {channel : List (Ordered T)} {c : Consumer T}
    (h : c.OnCourse rest channel) : c.afterDrain.nexts ≠ c.nexts ∨ c.afterDrain.pc = .deadline := by
  unfold Consumer.afterDrain
  split_ifs with htop hnone
  · exact Or.inl (h.takeTop_nexts_ne htop)
  · exact Or.inl (by simp [Consumer.giveUp])
  · exact Or.inr rfl

/-- Unless `next` returns, some step comes closer to the next result. -/
theorem Inv.exists_step (h : Inv all s) : ∃ s', Step capacity s s' ∧
    (s'.consumer.nexts ≠ s.consumer.nexts ∨ s'.distance < s.distance) := by
  cases hpc : s.consumer.pc with
  | idle =>
    refine exists_step_of_next false (by simp only [Consumer.step, hpc]; rfl) (Or.inr ?_)
    simp [pcRank, hpc]
  | top =>
    cases htop : s.consumer.topMatches with
    | true =>
      refine exists_step_of_next false
        (by simp only [Consumer.step, hpc, htop, Bool.false_eq_true, ↓reduceIte]; rfl) (Or.inl ?_)
      exact h.onCourse.takeTop_nexts_ne htop
    | false =>
      refine exists_step_of_next false
        (by simp only [Consumer.step, hpc, htop, Bool.false_eq_true, ↓reduceIte]; rfl) (Or.inr ?_)
      simp [pcRank, hpc]
  | drain =>
    have hend : s.consumer.afterDrain.nexts ≠ s.consumer.nexts ∨
        5 * s.channel.length + pcRank s.consumer.afterDrain.pc <
          5 * s.channel.length + pcRank s.consumer.pc := by
      refine (afterDrain_closer h.onCourse).imp id fun hd => ?_
      simp [pcRank, hpc, hd]
    by_cases hroom : s.consumer.iter.receiveBuffer.length < s.consumer.iter.maxReceiveBufferSize
    · cases hch : s.channel with
      | nil =>
        refine exists_step_of_next false (by
          simp only [Consumer.step, hpc, Consumer.drainChannel, hroom, ↓reduceIte, hch]; rfl) ?_
        simpa [hch] using hend
      | cons o channel =>
        refine exists_step_of_next false (by
          simp only [Consumer.step, hpc, Consumer.drainChannel, hroom, ↓reduceIte, hch]; rfl)
          (Or.inr ?_)
        simp only [hch, List.length_cons, Consumer.receive, hpc, pcRank]
        omega
    · exact exists_step_of_next false (by
        simp only [Consumer.step, hpc, Consumer.drainChannel, hroom, ↓reduceIte]) hend
  | deadline =>
    refine exists_step_of_next false (by simp only [Consumer.step, hpc]; rfl) (Or.inr ?_)
    simp [pcRank, hpc]
  | recv =>
    obtain ⟨htop, hne⟩ := h.onCourse.waiting (Or.inr hpc)
    cases hch : s.channel with
    | cons o channel =>
      refine exists_step_of_next false (by simp only [Consumer.step, hpc, hch]; rfl) (Or.inr ?_)
      simp only [hch, List.length_cons, Consumer.receive, hpc, pcRank]
      omega
    | nil =>
      -- the channel is empty, so the item looked for is one of those still to be pushed
      have hmem := h.onCourse.lookingFor_mem_of_not_topMatches hne htop
      simp only [hch, List.map_nil, List.append_nil] at hmem
      obtain ⟨o, ho, -⟩ := List.mem_map.mp hmem
      obtain ⟨l₁, l₂, hsplit⟩ := List.append_of_mem ho
      have hempty : s.channel.length < max 1 capacity := by
        rw [hch, List.length_nil]
        omega
      refine ⟨_, .push l₁ l₂ o hsplit hempty, Or.inr ?_⟩
      simp only [distance, hsplit, hch, List.length_append, List.length_cons, List.length_nil]
      omega
  | disconnected => exact absurd hpc h.onCourse.alive.1
  | panicked => exact absurd hpc h.onCourse.alive.2

/-- A step adds at most one result of `next`. -/
theorem Inv.nexts_step (h : Inv all s) (hstep : Step capacity s s') :
    s'.consumer.nexts = s.consumer.nexts ∨
      s'.consumer.nexts.length = s.consumer.nexts.length + 1 := by
  cases hstep with
  | push => exact Or.inl rfl
  | dropSenders => exact Or.inl rfl
  | next expired hc =>
    obtain ⟨-, heffect⟩ := h.onCourse.step (fun hg => by
      simp [h.senders (by simpa using hg)]) hc
    cases heffect with
    | quiet hnexts => exact Or.inl hnexts
    | handOut o F hnexts => exact Or.inr (by simp [hnexts])
    | finish hnexts => exact Or.inr (by simp [hnexts])

/-- From every state of a run `next` can be made to return once more. -/
theorem Inv.exists_returns (hsort : all.Pairwise fun a b => a.address < b.address)
    (h : Inv all s) : ∃ s', Reaches capacity s s' ∧ Inv all s' ∧
      s'.consumer.nexts.length = s.consumer.nexts.length + 1 := by
  induction hd : s.distance using Nat.strong_induction_on generalizing s with
  | _ d ih =>
    obtain ⟨s₁, hstep, hcase⟩ : ∃ s', Step capacity s s' ∧
      (s'.consumer.nexts ≠ s.consumer.nexts ∨ s'.distance < s.distance) := h.exists_step
    have h₁ := h.step hsort hstep
    rcases h.nexts_step hstep with hsame | hmore
    · have hlt : s₁.distance < d := hd ▸ hcase.resolve_left (not_not_intro hsame)
      obtain ⟨s₂, hreach, h₂, hlen⟩ := ih _ hlt h₁ rfl
      exact ⟨s₂, hreach.head hstep, h₂, by rw [hlen, hsame]⟩
    · exact ⟨s₁, Relation.ReflTransGen.single hstep, h₁, hmore⟩

/-- From every state of a run `next` can be made to return any number of times. -/
theorem Inv.exists_returns_many (hsort : all.Pairwise fun a b => a.address < b.address)
    (h : Inv all s) (j : ℕ) : ∃ s', Reaches capacity s s' ∧ Inv all s' ∧
      s'.consumer.nexts.length = s.consumer.nexts.length + j := by
  induction j with
  | zero => exact ⟨s, Relation.ReflTransGen.refl, h, rfl⟩
  | succ j ih =>
    obtain ⟨s₁, hreach₁, h₁, hlen₁⟩ := ih
    obtain ⟨s₂, hreach₂, h₂, hlen₂⟩ : ∃ s', Reaches capacity s₁ s' ∧ Inv all s' ∧
      s'.consumer.nexts.length = s₁.consumer.nexts.length + 1 := h₁.exists_returns hsort
    exact ⟨s₂, hreach₁.trans hreach₂, h₂, by omega⟩

/-- **Preorder from any order of arrival.** In every reachable state, what `next` has returned is
an initial part of the preorder of the tree, followed by `None`s only once the whole tree has been
returned; no assertion has failed; and the run can be completed, with the whole preorder followed
by `None`. -/
theorem next_is_preorder (t : Tree T) (capacity maxReceiveBufferSize : ℕ) (s : QueueRun T)
    (h : Reaches capacity (init t maxReceiveBufferSize) s) :
    (∃ k n, s.consumer.nexts = (t.preorder.take k).map some ++ List.replicate n none ∧
      (0 < n → t.preorder.length ≤ k)) ∧
    s.consumer.pc ≠ .panicked ∧
    ∃ s' n, Reaches capacity s s' ∧
      s'.consumer.nexts = t.preorder.map some ++ List.replicate (n + 1) none := by
  have hinv := inv_of_reaches t maxReceiveBufferSize h
  refine ⟨?_, hinv.onCourse.alive.2, ?_⟩
  · obtain ⟨done, todo, n, hall, -, hn, hnexts⟩ := hinv.returned
    refine ⟨done.length, n, by simp [hall, hnexts], fun hpos => ?_⟩
    simp [hall, hn hpos]
  · obtain ⟨s', hreach, h', hlen⟩ : ∃ s', Reaches capacity s s' ∧ Inv t.preorder s' ∧
      s'.consumer.nexts.length = s.consumer.nexts.length + (t.preorder.length + 1) :=
      hinv.exists_returns_many t.preorder_sorted _
    obtain ⟨done, todo, n, hall, -, hn, hnexts⟩ := h'.returned
    -- more results than nodes, so a `None` has been returned and nothing is left
    have hpos : 0 < n := by
      simp only [hnexts, hall, List.length_append, List.length_map, List.length_replicate] at hlen
      omega
    obtain ⟨m, rfl⟩ := Nat.exists_eq_succ_of_ne_zero hpos.ne'
    refine ⟨s', m, hreach, ?_⟩
    rw [hnexts, hall, hn hpos, List.append_nil]

/-- A root with two children. -/
def twoChildren : Tree ℕ := .node 0 [.node 1 [], .node 2 []]

/-- A run in which the second child arrives before the first one, and both before the root, while
the consumer waits. -/
def childrenFirst : ℕ → QueueRun ℕ :=
  (init twoChildren 2).actions
    (some 2 :: some 1 :: List.replicate 6 none ++ some 0 :: List.replicate 2 none)

/-- The statement above at the end of this run: `next` has returned the root. -/
theorem next_is_preorder_two_children :
    Reaches 3 (init twoChildren 2) (childrenFirst 11) ∧ (childrenFirst 11).unsent = [] ∧
      (childrenFirst 11).consumer.nexts = (twoChildren.preorder.take 1).map some ∧
      (childrenFirst 11).consumer.pc ≠ .panicked ∧
      ∃ s' n, Reaches 3 (childrenFirst 11) s' ∧
        s'.consumer.nexts = twoChildren.preorder.map some ++ List.replicate (n + 1) none := by
  have hreach : Reaches 3 (init twoChildren 2) (childrenFirst 11) :=
    reaches_actions (step_actions (by decide +kernel))
  obtain ⟨-, halive, hcompletes⟩ := next_is_preorder twoChildren 3 2 (childrenFirst 11) hreach
  exact ⟨hreach, rfl, rfl, halive, hcompletes⟩

end QueueRun

end JwalkMeta
