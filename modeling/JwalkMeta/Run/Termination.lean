import JwalkMeta.Run.Ancestry
import JwalkMeta.Run.Progress
import Mathlib.Algebra.Order.BigOperators.Group.Finset
import Mathlib.Data.Prod.Lex
import Mathlib.Order.OrderIsoNat

/-!
# Walks that come to an end

A run that takes a bounded number of items makes progress finitely often, in every order of steps:
each item moves through the queues once, and the program of a worker is finite. If moreover there is
room for all items that can ever be scheduled, then the workers never wait for room all at once, and
from every state the threads can lead the run to its end.

## Main definitions

* `RunState.movesLeft`: the moves that are left while no further item is taken.

## Main results

* `RunState.finite_progress`: progress is made finitely often.
* `RunState.exists_final`: a run that is never wedged can be led to its end.
* `RunState.Wedged.le_spending`: what a wedged run has spent.
-/

namespace JwalkMeta

open Interaction

variable {S R : Type} {N : ℕ}

/-! ### The moves that are left -/

/-- The moves that a request leads to: its own, and those of the item or result that it sends. -/
def moveCost : WorkerOp S R → Bool → ℕ
  | .sendSpec _, _ => 2
  | .sendResult _, _ => 3
  | _, _ => 1

/-- The most moves that are left in the program of a worker. -/
def Worker.movesLeft : Worker S R → ℕ
  | running _ program => program.outlay moveCost fun _ => 0
  | _ => 0

theorem Worker.movesLeft_of_program {w : Worker S R} (h : w.program = none) : w.movesLeft = 0 := by
  cases w with
  | running item program => cases h
  | _ => rfl

@[simp] theorem Worker.movesLeft_resume (item : Weighted S) (p : WorkerProgram S R Unit) :
    (resume item p).movesLeft = p.outlay moveCost fun _ => 0 := by
  cases p <;> rfl

namespace RunState

variable {cfg : Config S R} {s s' : RunState S R N}

/-- The moves that are left while no further item is taken: those of the workers, of the channel of
the work queue, and of the results. -/
def movesLeft (s : RunState S R N) : ℕ :=
  ∑ i, (s.workers i).movesLeft + s.specChannel.length + s.slack

theorem sum_movesLeft_setWorker (s : RunState S R N) (i : Fin N) (w : Worker S R) :
    ∑ j, ((s.setWorker i w).workers j).movesLeft + (s.workers i).movesLeft =
      ∑ j, (s.workers j).movesLeft + w.movesLeft :=
  Pool.sum_update Worker.movesLeft s.workers i w

/-- A request of a worker uses up moves. -/
theorem Performed.movesLeft_lt {i : Fin N} {item : Weighted S} {op : WorkerOp S R}
    {k : Bool → WorkerProgram S R Unit} {answer : Bool}
    (hi : s.workers i = .running item (.ask op k)) (h : Performed cfg s item op s' answer) :
    (s'.setWorker i (.resume item (k answer))).movesLeft < s.movesLeft := by
  have hleft : (s.workers i).movesLeft = (ask op k).outlay moveCost fun _ => 0 := by
    rw [hi]
    rfl
  have hanswer : moveCost op answer + (k answer).outlay moveCost (fun _ => 0) ≤
      (ask op k).outlay moveCost fun _ => 0 := outlay_answer op k answer
  have hsum := sum_movesLeft_setWorker s i (.resume item (k answer))
  rw [hleft, Worker.movesLeft_resume] at hsum
  cases h with
  | sendSpec weighted hroom =>
    simp only [movesLeft, slack, moveCost, Consumer.atHand, setWorker, List.length_append,
      List.length_singleton] at hanswer hsum ⊢
    omega
  | sendResult ordered hreceiver hroom =>
    simp only [movesLeft, slack, moveCost, Consumer.atHand, setWorker, List.length_append,
      List.length_singleton] at hanswer hsum ⊢
    omega
  | _ =>
    simp only [movesLeft, slack, moveCost, setWorker] at hanswer hsum ⊢
    omega

/-- A step of the consumer leaves no more results at hand, and fewer if it makes progress. -/
theorem slack_of_consume (hN : 0 < N) (h : s.OnTrack) (hstop : s.stop = false) {expired : Bool}
    {channel : List (Ordered R)} {consumer : Consumer R}
    (hstep : s.consumer.step s.stop (!s.senders) expired s.resultChannel =
      some (channel, consumer)) :
    channel.length + (consumer.atHand channel).length ≤ s.slack ∧
      (channel.length ≠ s.resultChannel.length ∨
        consumer.iter.receiveBuffer.length ≠ s.consumer.iter.receiveBuffer.length →
          channel.length + (consumer.atHand channel).length < s.slack) := by
  have hle := length_of_consumer_step hstep
  rw [hstop] at hstep
  obtain ⟨-, heffect⟩ := h.course.onCourse.step
    (fun hgone => h.course.rest_eq_nil h.accounted hN hstop (by simpa using hgone)) hstep
  have hhand : (consumer.atHand channel).length ≤ (s.consumer.atHand s.resultChannel).length := by
    cases heffect with
    | quiet hnexts hmatcher hperm => exact hperm.length_eq.ge
    | finish hnexts hnone hmatcher hperm => exact hperm.length_eq.ge
    | handOut o F hnexts hperm hbefore hafter =>
      have hlength := hperm.length_eq
      rw [List.length_cons] at hlength
      omega
  simp only [slack, Consumer.atHand, List.length_append] at hhand ⊢
  exact ⟨by omega, by omega⟩

/-- **What a step of a thread does to the moves that are left**: a further item is taken, or there
are no more moves than before, and fewer if progress is made. -/
theorem movesLeft_of_step (hN : 0 < N) (h : s.OnTrack) (hstop : s.stop = false) {a : Action N}
    (ha : a.ofThread = true) (hs : s.step cfg a = some s') :
    s'.stop = false ∧ (s.taken.length < s'.taken.length ∨
      s'.taken.length = s.taken.length ∧ s'.movesLeft ≤ s.movesLeft ∧
        (Progress s a s' → s'.movesLeft < s.movesLeft)) := by
  cases move_of_step hs with
  | advance i fail w hi hw halive hreturn =>
    have hsum := sum_movesLeft_setWorker s i w
    rw [Worker.movesLeft_of_program hi, Worker.movesLeft_of_program hw] at hsum
    refine ⟨hstop, Or.inr ⟨rfl, ?_, fun hprogress => ?_⟩⟩
    · exact (congrArg (· + s.specChannel.length + s.slack) hsum).le
    · rcases hprogress with hne | hne | hne | hne | ⟨j, fail', hj, hprogram⟩
      · exact absurd rfl hne
      · exact absurd rfl hne
      · exact absurd rfl hne
      · exact absurd rfl hne
      · obtain ⟨rfl, -⟩ := Action.worker.inj hj
        simp [hi] at hprogram
  | receive i fail w weighted channel hi hw halive hreturn hchannel =>
    have hsum := sum_movesLeft_setWorker s i w
    rw [Worker.movesLeft_of_program hi, Worker.movesLeft_of_program hw] at hsum
    have hlt : RunState.movesLeft { s.setWorker i w with
        specChannel := channel
        receiveBuffer := BinaryHeap.push s.receiveBuffer weighted } < s.movesLeft := by
      simp only [movesLeft, slack, hchannel, List.length_cons, setWorker] at hsum ⊢
      omega
    exact ⟨hstop, Or.inr ⟨rfl, hlt.le, fun _ => hlt⟩⟩
  | take i fail weighted buffer hi halive hchannel hpop =>
    refine ⟨hstop, Or.inl ?_⟩
    rw [List.length_append, List.length_singleton]
    exact Nat.lt_succ_self _
  | request i fail item op k s₁ answer hi hperformed =>
    have hlt := hperformed.movesLeft_lt hi
    have hsame : s₁.stop = s.stop ∧ s₁.taken = s.taken := by
      cases hperformed <;> exact ⟨rfl, rfl⟩
    exact ⟨hsame.1.trans hstop, Or.inr ⟨congrArg List.length hsame.2, hlt.le, fun _ => hlt⟩⟩
  | consume expired channel consumer hreceiver hstep =>
    obtain ⟨hle, hlt⟩ := slack_of_consume hN h hstop hstep
    refine ⟨hstop, Or.inr ⟨rfl, Nat.add_le_add_left hle _, fun hprogress => ?_⟩⟩
    refine Nat.add_lt_add_left (hlt ?_) _
    simpa [Progress] using hprogress
  | _ => simp [Action.ofThread] at ha

/-! ### Runs that take a bounded number of items -/

/-- What is left of a run that takes at most `n` items: items first, then moves. -/
def left (n : ℕ) (s : RunState S R N) : ℕ ×ₗ ℕ := toLex (n - s.taken.length, s.movesLeft)

section Bounded

variable {root : Weighted S} {maxReceiveBufferSize n : ℕ}

/-- A reachable state of a run that is not stopped. -/
def Live (cfg : Config S R) (root : Weighted S) (maxReceiveBufferSize : ℕ) (s : RunState S R N) :
    Prop := Reaches cfg (init N [root] maxReceiveBufferSize) s ∧ s.stop = false

variable (hN : 0 < N) (hsound : cfg.Sound) (hroot : root.indexPath = ⟨[0]⟩)
  (hbound : ∀ t : RunState S R N, Reaches cfg (init N [root] maxReceiveBufferSize) t →
    t.taken.length ≤ n)

include hN hsound hroot hbound

theorem left_of_step (h : Live cfg root maxReceiveBufferSize s) {a : Action N}
    (ha : a.ofThread = true) (hs : s.step cfg a = some s') :
    Live cfg root maxReceiveBufferSize s' ∧ s'.left n ≤ s.left n ∧
      (Progress s a s' → s'.left n < s.left n) := by
  have hreach : Reaches cfg (init N [root] maxReceiveBufferSize) s' := h.1.tail ⟨a, hs⟩
  obtain ⟨hstop, hleft⟩ :=
    movesLeft_of_step hN (onTrack_of_reaches hN hsound hroot h.1 h.2) h.2 ha hs
  have hle := hbound s' hreach
  refine ⟨⟨hreach, hstop⟩, ?_⟩
  simp only [left, Prod.Lex.toLex_le_toLex, Prod.Lex.toLex_lt_toLex]
  rcases hleft with htaken | ⟨htaken, hmoves, hprogress⟩
  · exact ⟨Or.inl (by omega), fun _ => Or.inl (by omega)⟩
  · rw [htaken]
    exact ⟨Or.inr ⟨rfl, hmoves⟩, fun h => Or.inr ⟨rfl, hprogress h⟩⟩

/-- **Progress is made finitely often** in every run of threads. -/
theorem finite_progress {f : ℕ → RunState S R N} {action : ℕ → Action N}
    (hstart : Live cfg root maxReceiveBufferSize (f 0))
    (hthread : ∀ k, (action k).ofThread = true)
    (hsteps : ∀ k, (f k).step cfg (action k) = some (f (k + 1))) :
    { k | Progress (f k) (action k) (f (k + 1)) }.Finite := by
  have hlive (k : ℕ) : Live cfg root maxReceiveBufferSize (f k) := by
    induction k with
    | zero => exact hstart
    | succ k ih => exact (left_of_step hN hsound hroot hbound ih (hthread k) (hsteps k)).1
  have hantitone : Antitone fun k => (f k).left n := antitone_nat_of_succ_le fun k =>
    (left_of_step hN hsound hroot hbound (hlive k) (hthread k) (hsteps k)).2.1
  -- what is left does not change any more from some step on
  obtain ⟨m, hm⟩ := WellFoundedLT.antitone_chain_condition hantitone
  refine (Set.finite_Iio m).subset fun k hprogress => ?_
  by_contra hk
  rw [Set.mem_Iio, not_lt] at hk
  have hlt := (left_of_step hN hsound hroot hbound (hlive k) (hthread k) (hsteps k)).2.2 hprogress
  rw [← hm k hk, ← hm (k + 1) (hk.trans (Nat.le_succ k))] at hlt
  exact lt_irrefl _ hlt

/-- **A run that is never wedged can be led to its end** from each of its states. -/
theorem exists_final
    (hroom : ∀ t : RunState S R N, Live cfg root maxReceiveBufferSize t → ¬ t.Wedged cfg)
    (h : Live cfg root maxReceiveBufferSize s) :
    ∃ s', Relation.ReflTransGen (ThreadStep cfg) s s' ∧ s'.Final := by
  obtain ⟨s', hreach, -, hfinal⟩ : ∃ s', Relation.ReflTransGen (ThreadStep cfg) s s' ∧
      Live cfg root maxReceiveBufferSize s' ∧ s'.Final := by
    refine Reachability.exists_of_measure (fun t => t.left n) (fun t ht => ?_) h
    rcases final_or_canProgress hN (onTrack_of_reaches hN hsound hroot ht.1 ht.2) ht.2
      (hroom t ht) with hfinal | ⟨t₁, a, t₂, hquiet, ha, hstep, hprogress⟩
    · exact Or.inl hfinal
    -- the run up to the progress does not add to what is left
    have hlive₁ : Live cfg root maxReceiveBufferSize t₁ ∧ t₁.left n ≤ t.left n := by
      refine @Reachability.invariant _ _
        (fun u => Live cfg root maxReceiveBufferSize u ∧ u.left n ≤ t.left n) _ _ hquiet
        ⟨ht, le_rfl⟩ ?_
      rintro u u' ⟨hlive, hle⟩ ⟨b, hb, hbs⟩
      obtain ⟨hlive', hle', -⟩ := left_of_step hN hsound hroot hbound hlive hb hbs
      exact ⟨hlive', hle'.trans hle⟩
    obtain ⟨hlive₂, -, hlt⟩ := left_of_step hN hsound hroot hbound hlive₁.1 ha hstep
    exact Or.inr ⟨t₂, hquiet.tail ⟨a, ha, hstep⟩, hlive₂, (hlt hprogress).trans_le hlive₁.2⟩
  exact ⟨s', hreach, hfinal⟩

end Bounded

/-! ### Room for all items -/

theorem length_le_totalWeight {weight : S → ℕ} (hweight : ∀ spec, 1 ≤ weight spec)
    (specs : List S) : specs.length ≤ totalWeight weight specs := by
  induction specs with
  | nil => exact Nat.zero_le _
  | cons spec specs ih =>
    rw [totalWeight_cons, List.length_cons]
    have := hweight spec
    omega

/-- **What a wedged run has spent**: the channel is full, and every worker has taken an item and is
about to send another one. -/
theorem Wedged.le_spending {weight : S → ℕ} (hweight : ∀ spec, 1 ≤ weight spec)
    (hacc : s.Accounted) (hwedged : s.Wedged cfg) : cfg.capacity + 2 * N ≤ s.spending weight := by
  obtain ⟨hfull, hall⟩ := hwedged
  have hqueue := length_le_totalWeight hweight
    ((s.specChannel ++ s.receiveBuffer).map Weighted.value)
  have hworker (i : Fin N) :
      1 ≤ (s.workers i).outlay weight ∧ 1 ≤ (s.workers i).item.length := by
    have hi := hall i
    cases hw : s.workers i with
    | running item p =>
      rw [hw] at hi
      cases p with
      | done u => cases hi
      | ask op k =>
        cases op with
        | sendSpec weighted =>
          refine ⟨?_, le_rfl⟩
          rw [Worker.outlay, outlay_ask]
          have hsent := hweight weighted.value
          simp only [sendCost]
          omega
        | _ => cases hi
    | _ => simp [hw, Worker.inSend] at hi
  have houtlay : N ≤ ∑ i, (s.workers i).outlay weight := by
    simpa using Finset.card_nsmul_le_sum Finset.univ (fun i => (s.workers i).outlay weight) 1
      fun i _ => (hworker i).1
  have htaken : N ≤ s.taken.length := by
    have hprocessing : N ≤ s.processing.length := by
      rw [processing, Pool.length_gather]
      simpa using Finset.card_nsmul_le_sum Finset.univ (fun i => (s.workers i).item.length) 1
        fun i _ => (hworker i).2
    have hlength := hacc.taken_perm.length_eq
    rw [List.length_append] at hlength
    omega
  rw [List.length_map, List.length_append] at hqueue
  simp only [spending]
  omega

end RunState

/-! ### Walks -/

section Walks

variable {B E : Type} {callback : ReadDirCallback B E} {root spec : ReadDirSpec B} {n : ℕ}

/-- With any context a read leads to what the entries ask for only, and to no more of it. -/
structure ReadDirCallback.Economical (callback : ReadDirCallback B E) (spec : ReadDirSpec B) :
    Prop where
  spawns : ∀ child, callback.Spawns spec child → child ∈ callback.children spec
  frugal : callback.Frugal spec

/-- A read that asks for nothing. -/
theorem economical_of_done (h : ∃ result, ∀ ctx, callback spec ctx = .done result) :
    callback.Economical spec := by
  obtain ⟨result, hdone⟩ := h
  have hchildren : callback.children spec = childSpecs result := by
    rw [ReadDirCallback.children, ReadDirCallback.read, hdone]
    rfl
  refine ⟨?_, fun weight ctx => ?_⟩
  · rintro child ⟨ctx, ⟨weighted, hask, -⟩ | ⟨result', hreturn, hchild⟩⟩
    · rw [hdone] at hask
      exact absurd hask mayAsk_done
    · rw [hdone, mayReturn_done] at hreturn
      rwa [hchildren, ← hreturn]
  · rw [hdone, outlay_done, hchildren]
    split_ifs
    · exact le_rfl
    · exact Nat.zero_le _

variable (h : ∀ spec, callback.Economical spec)

include h

/-- A line of descent in a tree of reads. -/
theorem shallow_of_lineage (hshallow : Lineage.Shallow callback.children n root)
    {spec : ReadDirSpec B} {ancestors : List (ReadDirSpec B)}
    (hline : Lineage [root] callback.Spawns (spec :: ancestors)) :
    ∃ m, Lineage.Shallow callback.children (m + 1) spec ∧ ancestors.length + m + 1 ≤ n := by
  generalize hl : spec :: ancestors = line at hline
  induction hline generalizing spec ancestors with
  | root ha =>
    obtain ⟨rfl, rfl⟩ := List.cons.inj hl
    obtain rfl := List.mem_singleton.mp ha
    cases n with
    | zero => exact hshallow.elim
    | succ n => exact ⟨n, hshallow, by simp⟩
  | @child a b line hline hspawns ih =>
    obtain ⟨rfl, rfl⟩ := List.cons.inj hl
    obtain ⟨m, hm, hle⟩ := ih rfl
    have hb : Lineage.Shallow callback.children m spec := hm spec ((h a).spawns _ hspawns)
    cases m with
    | zero => exact hb.elim
    | succ m => exact ⟨m, hb, by simp only [List.length_cons]; omega⟩

/-- What a run has spent is at most what its tree of reads weighs. -/
theorem spending_le (hshallow : Lineage.Shallow callback.children n root) {capacity : ℕ}
    {hcapacity : 0 < capacity} {sendsMayFail : Bool} {maxReceiveBufferSize : ℕ}
    {s : RunState (ReadDirSpec B) (ReadDirResult B E) N}
    (hreach : RunState.Reaches (.walk callback capacity hcapacity sendsMayFail)
      (.init N (rootItems [root]) maxReceiveBufferSize) s) :
    s.spending (Lineage.weight (fun _ => 1) callback.children n) ≤
      Lineage.weight (fun _ => 1) callback.children n root := by
  set weight := Lineage.weight (fun _ => 1) callback.children n with hweight
  have hwork (item : Weighted (ReadDirSpec B)) (hitem : RunState.Descends [root] callback item) :
      (multiThreadedWalkDir callback item).outlay (sendCost weight) (fun _ => 0) + 1 ≤
        weight item.value := by
    obtain ⟨ancestors, hline⟩ := hitem
    obtain ⟨m, hm, hle⟩ := shallow_of_lineage h hshallow hline
    have hitem : Lineage.Shallow callback.children n item.value :=
      Lineage.Shallow.mono hm (by omega)
    have hsend := outlay_multiThreadedWalkDir_le (h item.value).frugal weight
    rw [hweight, hitem.weight_eq, ← hweight]
    exact (Nat.add_le_add_right hsend 1).trans (Nat.add_comm _ _).le
  simpa [rootItems, totalWeight] using RunState.spending_of_reaches RunState.descends_of_mayAsk
    hwork RunState.descends_rootItems hreach

end Walks

end JwalkMeta
