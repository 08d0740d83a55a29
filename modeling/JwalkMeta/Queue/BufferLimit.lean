import JwalkMeta.Queue.Arrival

/-!
# The limit of the receive buffer

The documentation calls `max_receive_buffer_size` the maximal capacity of the receive buffer.
`drain_channel` respects it. The blocking receive does not look at it: each `recv_timeout` that
succeeds puts one more result into the buffer. So the buffer keeps its limit in exactly those runs
in which no blocking receive takes a result while the buffer is full.

Source: `src/core/ordered_queue.rs`.

## Main definitions

* `QueueRun.Transition`: the steps of a run, with the stop flag set or not.
* `QueueRun.TakesBeyondLimit`: a blocking receive takes a result while the buffer is full.

## Main results

* `QueueRun.receiveBuffer_le_iff`: the runs in which the buffer keeps its limit.
-/

namespace JwalkMeta

variable {T : Type}

namespace Consumer

/-- What one step of the consuming thread does with the receive buffer. -/
inductive BufferEffect (channel channel' : List (Ordered T)) (c c' : Consumer T) : Prop
  /-- Nothing enters it. -/
  | keeps (hle : c'.iter.receiveBuffer.length ≤ c.iter.receiveBuffer.length)
      (hchannel : c.pc = .recv → channel' = channel)
  /-- `drain_channel` puts a result into it, which has room. -/
  | drains (hpc : c.pc ≠ .recv)
      (hroom : c.iter.receiveBuffer.length < c.iter.maxReceiveBufferSize)
      (hlength : c'.iter.receiveBuffer.length = c.iter.receiveBuffer.length + 1)
  /-- `recv_timeout` puts a result into it. -/
  | receives (hpc : c.pc = .recv) (hchannel : channel'.length < channel.length)
      (hlength : c'.iter.receiveBuffer.length = c.iter.receiveBuffer.length + 1)

variable {c c' : Consumer T} {channel channel' : List (Ordered T)}

@[simp] theorem length_receive (c : Consumer T) (ordered : Ordered T) (pc : NextPc) :
    (c.receive ordered pc).iter.receiveBuffer.length = c.iter.receiveBuffer.length + 1 := rfl

theorem length_takeTop_le (c : Consumer T) :
    c.takeTop.iter.receiveBuffer.length ≤ c.iter.receiveBuffer.length ∧
      c.takeTop.iter.maxReceiveBufferSize = c.iter.maxReceiveBufferSize := by
  rw [takeTop]
  cases hpop : BinaryHeap.pop c.iter.receiveBuffer with
  | none => exact ⟨le_rfl, rfl⟩
  | some popped =>
    obtain ⟨ordered, rest⟩ := popped
    have hlength := (BinaryHeap.pop_perm hpop).length_eq
    rw [List.length_cons] at hlength
    simp only
    cases c.iter.orderedMatcher.advancePast ordered.childCount with
    | none => exact ⟨le_rfl, rfl⟩
    | some matcher => exact ⟨by simp only; omega, rfl⟩

theorem length_afterDrain_le (c : Consumer T) :
    c.afterDrain.iter.receiveBuffer.length ≤ c.iter.receiveBuffer.length ∧
      c.afterDrain.iter.maxReceiveBufferSize = c.iter.maxReceiveBufferSize := by
  rw [afterDrain]
  split_ifs
  · exact c.length_takeTop_le
  · exact ⟨le_rfl, rfl⟩
  · exact ⟨le_rfl, rfl⟩

theorem length_afterDisconnect_le (c : Consumer T) :
    c.afterDisconnect.iter.receiveBuffer.length ≤ c.iter.receiveBuffer.length ∧
      c.afterDisconnect.iter.maxReceiveBufferSize = c.iter.maxReceiveBufferSize := by
  rw [afterDisconnect]
  split_ifs
  · exact c.length_takeTop_le
  · cases hpop : BinaryHeap.pop c.iter.receiveBuffer with
    | none => exact ⟨le_rfl, rfl⟩
    | some popped =>
      have hlength := (BinaryHeap.pop_perm hpop).length_eq
      rw [List.length_cons] at hlength
      exact ⟨by simp only; omega, rfl⟩

theorem bufferEffect_drainChannel {after : Consumer T → Consumer T} (hpc : c.pc ≠ .recv)
    (hafter : ∀ c, (after c).iter.receiveBuffer.length ≤ c.iter.receiveBuffer.length ∧
      (after c).iter.maxReceiveBufferSize = c.iter.maxReceiveBufferSize)
    (h : drainChannel after channel c = (channel', c')) :
    BufferEffect channel channel' c c' ∧
      c'.iter.maxReceiveBufferSize = c.iter.maxReceiveBufferSize := by
  have hkeeps : BufferEffect channel channel' c (after c) :=
    .keeps (hafter c).1 fun hrecv => absurd hrecv hpc
  simp only [drainChannel] at h
  split_ifs at h with hroom
  · cases channel with
    | nil =>
      obtain ⟨-, rfl⟩ := Prod.mk.inj h
      exact ⟨hkeeps, (hafter c).2⟩
    | cons ordered rest =>
      obtain ⟨-, rfl⟩ := Prod.mk.inj h
      exact ⟨.drains hpc hroom (length_receive c ordered c.pc), rfl⟩
  · obtain ⟨-, rfl⟩ := Prod.mk.inj h
    exact ⟨hkeeps, (hafter c).2⟩

/-- **One step and the receive buffer.** A result enters it through `drain_channel`, which looks
for room, or through `recv_timeout`, which does not. -/
theorem bufferEffect_step {stop gone expired : Bool}
    (h : c.step stop gone expired channel = some (channel', c')) :
    BufferEffect channel channel' c c' ∧
      c'.iter.maxReceiveBufferSize = c.iter.maxReceiveBufferSize := by
  simp only [step] at h
  cases hpc : c.pc with
  | idle =>
    obtain ⟨-, rfl⟩ : channel = channel' ∧ { c with pc := .top } = c' := by simpa [hpc] using h
    exact ⟨.keeps le_rfl (by simp [hpc]), rfl⟩
  | top =>
    simp only [hpc] at h
    split_ifs at h
    · obtain ⟨-, rfl⟩ : channel = channel' ∧ c.giveUp = c' := by simpa using h
      exact ⟨.keeps le_rfl (by simp [hpc]), rfl⟩
    · obtain ⟨-, rfl⟩ : channel = channel' ∧ c.takeTop = c' := by simpa using h
      exact ⟨.keeps c.length_takeTop_le.1 (by simp [hpc]), c.length_takeTop_le.2⟩
    · obtain ⟨-, rfl⟩ : channel = channel' ∧ { c with pc := .drain } = c' := by simpa using h
      exact ⟨.keeps le_rfl (by simp [hpc]), rfl⟩
  | drain =>
    exact bufferEffect_drainChannel (by simp [hpc]) length_afterDrain_le (by simpa [hpc] using h)
  | deadline =>
    obtain ⟨-, rfl⟩ : channel = channel' ∧
        { c with pc := if expired then .top else .recv } = c' := by
      simpa [hpc] using h
    exact ⟨.keeps le_rfl (by simp [hpc]), rfl⟩
  | recv =>
    cases channel with
    | nil =>
      obtain ⟨rfl, rfl⟩ : [] = channel' ∧
          { c with pc := if gone then .disconnected else .top } = c' := by
        simpa [hpc] using h
      exact ⟨.keeps le_rfl fun _ => rfl, rfl⟩
    | cons ordered rest =>
      obtain ⟨rfl, rfl⟩ : rest = channel' ∧ c.receive ordered .top = c' := by simpa [hpc] using h
      exact ⟨.receives hpc (by simp) (length_receive c ordered .top), rfl⟩
  | disconnected =>
    exact bufferEffect_drainChannel (by simp [hpc]) length_afterDisconnect_le
      (by simpa [hpc] using h)
  | panicked => simp [hpc] at h

end Consumer

namespace QueueRun

/-- The steps of a run, with the stop flag set or not. -/
inductive Transition (capacity : ℕ) : QueueRun T → QueueRun T → Prop
  | running {s s' : QueueRun T} (h : Step capacity s s') : Transition capacity s s'
  | stopped {s : QueueRun T} (expired : Bool) {channel : List (Ordered T)} {consumer : Consumer T}
      (hstep : s.consumer.step true (!s.senders) expired s.channel = some (channel, consumer)) :
      Transition capacity s { s with channel := channel, consumer := consumer }

/-- The start of a run that pushes any results. -/
def start (unsent : List (Ordered T)) (maxReceiveBufferSize : ℕ) : QueueRun T :=
  ⟨unsent, [], true, Consumer.new maxReceiveBufferSize⟩

/-- The receive buffer keeps its limit. -/
def WithinLimit (s : QueueRun T) : Prop :=
  s.consumer.iter.receiveBuffer.length ≤ s.consumer.iter.maxReceiveBufferSize

/-- From `s` to `s'` a blocking receive takes a result out of the channel, and in `s` the receive
buffer has no room. -/
def TakesBeyondLimit (s s' : QueueRun T) : Prop :=
  s.consumer.pc = .recv ∧ s'.channel.length < s.channel.length ∧
    s.consumer.iter.maxReceiveBufferSize ≤ s.consumer.iter.receiveBuffer.length

variable {capacity : ℕ} {s s' : QueueRun T}

/-- **A step and the limit.** The buffer keeps its limit in a step unless a blocking receive takes a
result beyond it. -/
theorem Transition.withinLimit_iff (h : Transition capacity s s') (hs : s.WithinLimit) :
    (s'.WithinLimit ↔ ¬ TakesBeyondLimit s s') ∧
      s'.consumer.iter.maxReceiveBufferSize = s.consumer.iter.maxReceiveBufferSize := by
  have hconsumer {channel : List (Ordered T)} {consumer : Consumer T}
      (heffect : Consumer.BufferEffect s.channel channel s.consumer consumer ∧
        consumer.iter.maxReceiveBufferSize = s.consumer.iter.maxReceiveBufferSize) :
      (WithinLimit { s with channel := channel, consumer := consumer } ↔
        ¬ TakesBeyondLimit s { s with channel := channel, consumer := consumer }) ∧
      consumer.iter.maxReceiveBufferSize = s.consumer.iter.maxReceiveBufferSize := by
    obtain ⟨heffect, hmax⟩ := heffect
    refine ⟨?_, hmax⟩
    simp only [WithinLimit, TakesBeyondLimit, hmax] at hs ⊢
    cases heffect with
    | keeps hle hchannel =>
      refine ⟨fun _ hbeyond => ?_, fun _ => hle.trans hs⟩
      rw [hchannel hbeyond.1] at hbeyond
      exact lt_irrefl _ hbeyond.2.1
    | drains hpc hroom hlength =>
      exact ⟨fun _ hbeyond => hpc hbeyond.1, fun _ => by omega⟩
    | receives hpc hchannel hlength =>
      refine ⟨fun hle hbeyond => ?_, fun hnot => ?_⟩
      · have hfull := hbeyond.2.2
        omega
      · by_contra hgt
        exact hnot ⟨hpc, hchannel, by omega⟩
  cases h with
  | running hstep =>
    cases hstep with
    | push l₁ l₂ o hunsent hroom =>
      refine ⟨⟨fun _ hbeyond => ?_, fun _ => hs⟩, rfl⟩
      have hlt := hbeyond.2.1
      rw [List.length_append] at hlt
      omega
    | dropSenders hunsent =>
      exact ⟨⟨fun _ hbeyond => lt_irrefl _ hbeyond.2.1, fun _ => hs⟩, rfl⟩
    | next expired hnext => exact hconsumer (Consumer.bufferEffect_step hnext)
  | stopped expired hnext => exact hconsumer (Consumer.bufferEffect_step hnext)

/-- **When the receive buffer respects its limit.** Whatever is pushed and however it arrives, in
all states of a run the buffer holds at most `maxReceiveBufferSize` results if and only if no
blocking receive of the run takes a result while the buffer is full. -/
theorem receiveBuffer_le_iff (unsent : List (Ordered T)) (maxReceiveBufferSize : ℕ)
    (states : ℕ → QueueRun T) (length : ℕ) (hstart : states 0 = start unsent maxReceiveBufferSize)
    (hrun : ∀ k < length, Transition capacity (states k) (states (k + 1))) :
    (∀ k ≤ length,
        (states k).consumer.iter.receiveBuffer.length ≤ maxReceiveBufferSize) ↔
      ∀ k < length, ¬ TakesBeyondLimit (states k) (states (k + 1)) := by
  have hfirst : (states 0).WithinLimit ∧
      (states 0).consumer.iter.maxReceiveBufferSize = maxReceiveBufferSize := by
    rw [hstart]
    exact ⟨Nat.zero_le _, rfl⟩
  constructor
  · intro hlimit
    have hmax : ∀ k ≤ length,
        (states k).consumer.iter.maxReceiveBufferSize = maxReceiveBufferSize := by
      intro k hk
      induction k with
      | zero => exact hfirst.2
      | succ k ih =>
        have hbefore := ih (by omega)
        have hwithin : (states k).WithinLimit := by
          rw [WithinLimit, hbefore]
          exact hlimit k (by omega)
        exact ((hrun k hk).withinLimit_iff hwithin).2.trans hbefore
    intro k hk
    have hwithin (j : ℕ) (hj : j ≤ length) : (states j).WithinLimit := by
      rw [WithinLimit, hmax j hj]
      exact hlimit j hj
    exact ((hrun k hk).withinLimit_iff (hwithin k hk.le)).1.mp (hwithin (k + 1) hk)
  · intro hnever k hk
    have hwithin : (states k).WithinLimit ∧
        (states k).consumer.iter.maxReceiveBufferSize = maxReceiveBufferSize := by
      induction k with
      | zero => exact hfirst
      | succ k ih =>
        obtain ⟨hbefore, hmax⟩ := ih (by omega)
        obtain ⟨hiff, hsame⟩ := (hrun k hk).withinLimit_iff hbefore
        exact ⟨hiff.mpr (hnever k hk), hsame.trans hmax⟩
    obtain ⟨hlimit, hmax⟩ := hwithin
    rwa [WithinLimit, hmax] at hlimit

/-! ### A run within the limit, and one beyond it -/

/-- The results of a directory with two subdirectories, the second of which has a subdirectory. -/
def lateTree : Tree Unit := .node () [.node () [], .node () [.node () []]]

/-- A run that hands out the results one after the other, with room for one in the receive buffer.
The consumer waits for the first subdirectory. -/
def promptRun : ℕ → QueueRun Unit :=
  (start lateTree.preorder 1).actions
    (some 0 :: List.replicate 8 none ++ some 0 :: List.replicate 2 none ++
      some 0 :: List.replicate 4 none ++ some 0 :: List.replicate 7 none)

/-- The statement above for this run: the buffer keeps its limit until `next` has returned `None`
after the four results. -/
theorem receiveBuffer_le_iff_promptRun :
    (∀ k ≤ 25, (promptRun k).consumer.iter.receiveBuffer.length ≤ 1) ∧
      (promptRun 25).consumer.nexts = lateTree.preorder.map some ++ [none] := by
  have hroom : ∀ k < 25, (promptRun k).consumer.pc = .recv →
      (promptRun k).consumer.iter.receiveBuffer.length <
        (promptRun k).consumer.iter.maxReceiveBufferSize := by decide +kernel
  refine ⟨(@receiveBuffer_le_iff _ 4 lateTree.preorder 1 promptRun 25 rfl
    fun k hk => .running (step_actions (by decide +kernel) k hk)).mpr fun k hk htakes => ?_, rfl⟩
  exact absurd (hroom k hk htakes.1) (Nat.not_lt.mpr htakes.2.2)

/-- The root is pushed and handed out. Then the second subdirectory and its subdirectory arrive
before the first one, and the consumer waits for that. -/
def lateRun : ℕ → QueueRun Unit :=
  (start lateTree.preorder 1).actions
    (some 0 :: List.replicate 4 none ++ some 1 :: some 1 :: List.replicate 6 none)

/-- In this run the receive buffer holds two results where one is allowed. -/
theorem not_receiveBuffer_le :
    ¬ ∀ (unsent : List (Ordered Unit)) (maxReceiveBufferSize capacity : ℕ)
      (states : ℕ → QueueRun Unit) (length : ℕ), 1 ≤ maxReceiveBufferSize →
      states 0 = start unsent maxReceiveBufferSize →
      (∀ k < length, Transition capacity (states k) (states (k + 1))) →
      ∀ k ≤ length, (states k).consumer.iter.receiveBuffer.length ≤ maxReceiveBufferSize := by
  intro h
  have hle := h lateTree.preorder 1 4 lateRun 13 le_rfl rfl
    (fun k hk => .running (step_actions (by decide +kernel) k hk)) 13 le_rfl
  have htwo : (lateRun 13).consumer.iter.receiveBuffer.length = 2 := by decide +kernel
  omega

end QueueRun

end JwalkMeta
