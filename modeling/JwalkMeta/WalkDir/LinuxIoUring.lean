import JwalkMeta.Lib.IoRing
import JwalkMeta.WalkDir.Entry
import Mathlib.Data.List.Forall2

/-!
# The batch through `io_uring`

On a slow network file system the `statx` calls for the entries of a directory are made in batches:
for each chunk of the entries a ring is built, one request for each name is queued, the ring is
submitted, and the completions are reaped. The path strings and the buffers that the kernel writes
to belong to the function and are released when it returns.

The function and the kernel are two parties here: the kernel takes requests, completes them in any
order and with any result, and decides whether the ring can be built and how `submit_and_wait`
returns. When this call fails the function returns at once, whatever the kernel still works on.

Source: `src/core/linux_io_uring.rs`.

## Main definitions

* `ChunkState`, `ChunkState.step`: `batch_statx_chunk` and the kernel.
* `BatchReturns`: what `batch_statx_via_io_uring` can return.
* `ChunkState.BuffersHeld`: the kernel does not work on a buffer that has been released.

## Main results

* `buffersHeld_iff`: no buffer is released too early if and only if `submit_and_wait` does not fail
  while a request is in flight.
* `filled_of_batchReturns`: every entry gets its own `statx`, or none.
* `exists_prefetch_of_batchReturns`: a batch fetches by name.
-/

namespace JwalkMeta

/-! ### The two parties -/

/-- A `Statx` request. The slot number stands in `user_data` and is the number of its buffer. -/
structure Sqe where
  name : OsString
  userData : ℕ
  deriving DecidableEq, Repr

/-- A completion. -/
structure Cqe where
  userData : ℕ
  result : Int
  deriving DecidableEq, Repr

/-- Where `batch_statx_chunk` is. -/
inductive ChunkPhase
  | start
  /-- In `submit_and_wait`. -/
  | waiting (submitted : ℕ)
  /-- In the loop over the completions. -/
  | reaping (cqes : List Cqe)
  | returned (result : Except IoError Unit)

/-- The completions that the loop has not come to. -/
def ChunkPhase.cqes : ChunkPhase → List Cqe
  | reaping cqes => cqes
  | _ => []

/-- The state of `batch_statx_chunk` and of the kernel. -/
structure ChunkState where
  entries : List LinuxDirEntryOwned
  ring : IoRing Sqe Cqe
  statxBufs : ℕ → Statx
  localToEntry : List ℕ
  phase : ChunkPhase

/-- What can happen next. -/
inductive ChunkEvent
  /-- The ring is built with so many slots, or it is not. -/
  | build (result : Except IoError ℕ)
  /-- The kernel takes a request. -/
  | take
  /-- The kernel completes one of its requests. -/
  | complete (index : ℕ) (result : Int)
  /-- `submit_and_wait` returns. -/
  | wait (result : Except IoError Unit)
  /-- The loop over the completions takes a turn. -/
  | reap

/-- `MaybeUninit::zeroed`. -/
def Statx.zeroed : Statx :=
  ⟨0, 0, 0, ⟨0, 0⟩, ⟨0, 0⟩, ⟨0, 0⟩, ⟨0, 0⟩, 0, 0, 0, 0, 0, 0, 0, 0, 0, 0⟩

/-- The loop that queues the requests: the requests and the entries that they are for. A name with
a NUL byte is left out, and the loop ends when the queue is full. -/
def pushStatx (capacity : ℕ) :
    ℕ → List LinuxDirEntryOwned → List Sqe → List ℕ → List Sqe × List ℕ
  | _, [], sqes, localToEntry => (sqes, localToEntry)
  | entryIdx, entry :: rest, sqes, localToEntry =>
    if hasNul entry.name then pushStatx capacity (entryIdx + 1) rest sqes localToEntry
    else if sqes.length < capacity then
      pushStatx capacity (entryIdx + 1) rest (sqes ++ [⟨entry.name, sqes.length⟩])
        (localToEntry ++ [entryIdx])
    else (sqes, localToEntry)

namespace ChunkState

/-- The call of `batch_statx_chunk`. -/
def start (entries : List LinuxDirEntryOwned) : ChunkState :=
  ⟨entries, .empty, fun _ => .zeroed, [], .start⟩

/-- The state with a completion for request number `index`. A request that succeeds has the answer
of `statx` written to its buffer. -/
def complete (os : LinuxCalls) (path : Path) (s : ChunkState) (index : ℕ) (result : Int) :
    Option ChunkState :=
  match s.ring.inFlight[index]? with
  | none => none
  | some sqe =>
    if result = 0 then
      match os.statx path sqe.name with
      | .error _ => none
      | .ok statx => some { s with
          ring := s.ring.complete index ⟨sqe.userData, result⟩
          statxBufs := Function.update s.statxBufs sqe.userData statx }
    else some { s with ring := s.ring.complete index ⟨sqe.userData, result⟩ }

/-- One turn of the loop over the completions: what has succeeded is written to its entry. -/
def reap (s : ChunkState) (cqe : Cqe) (rest : List Cqe) : ChunkState :=
  match s.localToEntry[cqe.userData]? with
  | none => { s with phase := .reaping rest }
  | some entryIdx =>
    if cqe.result = 0 then
      { s with
        entries := s.entries.modify entryIdx fun info =>
          { info with statx := some (s.statxBufs cqe.userData) }
        phase := .reaping rest }
    else { s with phase := .reaping rest }

/-- `batch_statx_chunk` and the kernel: the state after an event, if it can happen. -/
def step (os : LinuxCalls) (path : Path) (s : ChunkState) (event : ChunkEvent) :
    Option ChunkState :=
  match event, s.phase with
  | .build (.error err), .start => some { s with phase := .returned (.error err) }
  | .build (.ok capacity), .start =>
    let (sqes, localToEntry) := pushStatx capacity 0 s.entries [] []
    some { s with
      ring := { s.ring with submission := sqes }
      localToEntry := localToEntry
      phase := if sqes.length = 0 then .returned (.ok ()) else .waiting sqes.length }
  | .take, .waiting _ => s.ring.take.map fun ring => { s with ring := ring }
  | .complete index result, _ => s.complete os path index result
  | .wait (.ok _), .waiting submitted =>
    if submitted ≤ s.ring.completion.length then
      some { s with
        ring := { s.ring with completion := [] }
        phase := .reaping s.ring.completion }
    else none
  | .wait (.error err), .waiting _ => some { s with phase := .returned (.error err) }
  | .reap, .reaping [] => some { s with phase := .returned (.ok ()) }
  | .reap, .reaping (cqe :: rest) => some (s.reap cqe rest)
  | _, _ => none

end ChunkState

/-- `RING_SIZE`. -/
def ringSize : ℕ := 256

/-- What `batch_statx_chunk` can return, with the entries that it leaves. -/
def ChunkReturns (os : LinuxCalls) (path : Path) (entries : List LinuxDirEntryOwned)
    (result : Except IoError Unit) (entries' : List LinuxDirEntryOwned) : Prop :=
  ∃ events s, runEvents (ChunkState.step os path) (.start entries) events = some s ∧
    s.phase = .returned result ∧ s.entries = entries'

/-- What `batch_statx_via_io_uring` can return, with the entries that it leaves: chunk after chunk,
until one of them fails. -/
inductive BatchReturns (os : LinuxCalls) (path : Path) :
    List LinuxDirEntryOwned → Except IoError Unit → List LinuxDirEntryOwned → Prop
  | nil : BatchReturns os path [] (.ok ()) []
  | next {entries chunk' rest' : List LinuxDirEntryOwned} {result : Except IoError Unit} :
    entries ≠ [] → ChunkReturns os path (entries.take ringSize) (.ok ()) chunk' →
      BatchReturns os path (entries.drop ringSize) result rest' →
      BatchReturns os path entries result (chunk' ++ rest')
  | fail {entries chunk' : List LinuxDirEntryOwned} {err : IoError} :
    entries ≠ [] → ChunkReturns os path (entries.take ringSize) (.error err) chunk' →
      BatchReturns os path entries (.error err) (chunk' ++ entries.drop ringSize)

/-! ### What a step can do -/

namespace ChunkState

variable {os : LinuxCalls} {path : Path} {s s' : ChunkState} {event : ChunkEvent}

/-- The steps of `batch_statx_chunk` and of the kernel, one by one. -/
inductive Steps (os : LinuxCalls) (path : Path) (s : ChunkState) : ChunkEvent → ChunkState → Prop
  | refuse {err : IoError} (hphase : s.phase = .start) :
    Steps os path s (.build (.error err)) { s with phase := .returned (.error err) }
  | push {capacity : ℕ} {sqes : List Sqe} {localToEntry : List ℕ} (hphase : s.phase = .start)
      (hpush : pushStatx capacity 0 s.entries [] [] = (sqes, localToEntry)) :
    Steps os path s (.build (.ok capacity)) { s with
      ring := { s.ring with submission := sqes }
      localToEntry := localToEntry
      phase := if sqes.length = 0 then .returned (.ok ()) else .waiting sqes.length }
  | take {submitted : ℕ} {ring : IoRing Sqe Cqe} (hphase : s.phase = .waiting submitted)
      (htake : s.ring.take = some ring) : Steps os path s .take { s with ring := ring }
  | succeed {index : ℕ} {sqe : Sqe} {statx : Statx} (hsqe : s.ring.inFlight[index]? = some sqe)
      (hstatx : os.statx path sqe.name = .ok statx) :
    Steps os path s (.complete index 0) { s with
      ring := s.ring.complete index ⟨sqe.userData, 0⟩
      statxBufs := Function.update s.statxBufs sqe.userData statx }
  | fail {index : ℕ} {sqe : Sqe} {result : Int} (hsqe : s.ring.inFlight[index]? = some sqe)
      (hresult : result ≠ 0) :
    Steps os path s (.complete index result)
      { s with ring := s.ring.complete index ⟨sqe.userData, result⟩ }
  | waitOk {submitted : ℕ} (hphase : s.phase = .waiting submitted)
      (henough : submitted ≤ s.ring.completion.length) :
    Steps os path s (.wait (.ok ())) { s with
      ring := { s.ring with completion := [] }
      phase := .reaping s.ring.completion }
  | waitErr {submitted : ℕ} {err : IoError} (hphase : s.phase = .waiting submitted) :
    Steps os path s (.wait (.error err)) { s with phase := .returned (.error err) }
  | reap {cqe : Cqe} {rest : List Cqe} (hphase : s.phase = .reaping (cqe :: rest)) :
    Steps os path s .reap (s.reap cqe rest)
  | finish (hphase : s.phase = .reaping []) :
    Steps os path s .reap { s with phase := .returned (.ok ()) }

theorem steps_complete {index : ℕ} {result : Int} (h : s.complete os path index result = some s') :
    Steps os path s (.complete index result) s' := by
  unfold complete at h
  split at h
  · simp at h
  · next sqe hsqe =>
    split_ifs at h with hresult
    · subst hresult
      split at h
      · simp at h
      · next statx hstatx =>
        rw [← Option.some.inj h]
        exact .succeed hsqe hstatx
    · rw [← Option.some.inj h]
      exact .fail hsqe hresult

theorem steps_of_step (h : s.step os path event = some s') : Steps os path s event s' := by
  unfold step at h
  split at h
  · next hphase =>
    rw [← Option.some.inj h]
    exact .refuse hphase
  · next hphase =>
    rw [← Option.some.inj h]
    exact .push hphase rfl
  · next hphase =>
    obtain ⟨ring, htake, rfl⟩ := Option.map_eq_some_iff.mp h
    exact .take hphase htake
  · exact steps_complete h
  · next hphase =>
    split_ifs at h with henough
    rw [← Option.some.inj h]
    exact .waitOk hphase henough
  · next hphase =>
    rw [← Option.some.inj h]
    exact .waitErr hphase
  · next hphase =>
    rw [← Option.some.inj h]
    exact .finish hphase
  · next hphase =>
    rw [← Option.some.inj h]
    exact .reap hphase
  · simp at h

/-! ### Requests and buffers -/

/-- The function has returned, and its buffers are released. -/
def Released (s : ChunkState) : Prop := ∃ result, s.phase = .returned result

/-- The kernel does not work on a buffer that has been released. -/
def BuffersHeld (s : ChunkState) : Prop := s.Released → s.ring.inFlight = []

/-- Before the function returns, its requests are accounted for. -/
def Accounted (s : ChunkState) : Prop :=
  match s.phase with
  | .start => s.ring = .empty
  | .waiting submitted => s.ring.size = submitted
  | .reaping _ | .returned _ => s.ring.inFlight = []

theorem reap_ring (s : ChunkState) (cqe : Cqe) (rest : List Cqe) :
    (s.reap cqe rest).ring = s.ring ∧ (s.reap cqe rest).phase = .reaping rest := by
  unfold reap
  split
  · exact ⟨rfl, rfl⟩
  · split_ifs <;> exact ⟨rfl, rfl⟩

/-- A completion keeps the requests accounted for. -/
theorem accounted_complete (h : s.Accounted) {index : ℕ} {sqe : Sqe}
    (hsqe : s.ring.inFlight[index]? = some sqe) (cqe : Cqe) (bufs : ℕ → Statx) :
    Accounted { s with ring := s.ring.complete index cqe, statxBufs := bufs } := by
  have hindex : index < s.ring.inFlight.length := (List.getElem?_eq_some_iff.mp hsqe).1
  have hnone (hnil : s.ring.inFlight = []) : False := by simp [hnil] at hindex
  unfold Accounted at h ⊢
  cases hphase : s.phase with
  | start =>
    rw [hphase] at h
    exact (hnone (congrArg IoRing.inFlight h)).elim
  | waiting submitted =>
    rw [hphase] at h
    exact (IoRing.size_complete hindex cqe).trans h
  | reaping cqes =>
    rw [hphase] at h
    exact (hnone h).elim
  | returned result =>
    rw [hphase] at h
    exact (hnone h).elim

/-- Every step keeps the requests accounted for, but an error of `submit_and_wait`. -/
theorem Accounted.step (h : s.Accounted) (hstep : s.step os path event = some s')
    (herr : ∀ err, event = .wait (.error err) → s.ring.inFlight = []) : s'.Accounted := by
  cases steps_of_step hstep with
  | refuse hphase =>
    rw [Accounted, hphase] at h
    exact congrArg IoRing.inFlight h
  | push hphase hpush =>
    rename_i capacity sqes localToEntry
    rw [Accounted, hphase] at h
    have hring : s.ring.inFlight = [] ∧ s.ring.completion = [] := by rw [h]; exact ⟨rfl, rfl⟩
    unfold Accounted
    split
    · next hp => split_ifs at hp
    · next submitted hp =>
      split_ifs at hp
      obtain rfl := ChunkPhase.waiting.inj hp
      simp [IoRing.size, hring]
    · exact hring.1
    · exact hring.1
  | take hphase htake =>
    rw [Accounted, hphase] at h
    rw [Accounted, hphase]
    exact (IoRing.size_take htake).trans h
  | succeed hsqe hstatx => exact accounted_complete h hsqe _ _
  | fail hsqe hresult => exact accounted_complete h hsqe _ s.statxBufs
  | waitOk hphase henough =>
    rw [Accounted, hphase] at h
    have hsize : s.ring.size ≤ s.ring.completion.length := Nat.le_trans (Nat.le_of_eq h) henough
    exact (IoRing.inFlight_of_size_le hsize).2
  | waitErr hphase => exact herr _ rfl
  | reap hphase =>
    rename_i cqe rest
    obtain ⟨hring, hphase'⟩ := reap_ring s cqe rest
    rw [Accounted, hphase] at h
    rw [Accounted, hphase', hring]
    exact h
  | finish hphase =>
    rw [Accounted, hphase] at h
    exact h

theorem Accounted.buffersHeld (h : s.Accounted) : s.BuffersHeld := by
  rintro ⟨result, hphase⟩
  rw [Accounted, hphase] at h
  exact h

end ChunkState

/-- **When buffers are released too early.** In every run of `batch_statx_chunk` with the kernel,
the kernel never works on a released buffer if and only if `submit_and_wait` never fails while a
request that the kernel has taken is not completed. -/
theorem buffersHeld_iff (os : LinuxCalls) (path : Path) (entries : List LinuxDirEntryOwned)
    (events : List ChunkEvent) (s : ChunkState)
    (hrun : runEvents (ChunkState.step os path) (.start entries) events = some s) :
    (∀ pre t, pre <+: events →
      runEvents (ChunkState.step os path) (.start entries) pre = some t → t.BuffersHeld) ↔
    ∀ pre err t, pre ++ [.wait (.error err)] <+: events →
      runEvents (ChunkState.step os path) (.start entries) pre = some t → t.ring.inFlight = [] := by
  constructor
  · intro hheld pre err t hpre ht
    -- the step that returns the error leaves what is in flight
    obtain ⟨t', ht'⟩ : ∃ t', runEvents (ChunkState.step os path) (.start entries)
        (pre ++ [.wait (.error err)]) = some t' := by
      obtain ⟨rest, rfl⟩ := hpre
      rw [runEvents, List.foldlM_append] at hrun
      obtain ⟨t', ht', -⟩ := Option.bind_eq_some_iff.mp hrun
      exact ⟨t', ht'⟩
    obtain ⟨t₀, ht₀, hstep⟩ := runEvents_concat.mp ht'
    obtain rfl : t = t₀ := Option.some.inj (ht.symm.trans ht₀)
    have hreleased := hheld _ t' hpre ht'
    cases ChunkState.steps_of_step hstep with
    | waitErr hphase => exact hreleased ⟨_, rfl⟩
  · intro herr pre t hpre ht
    have hstart : (ChunkState.start entries).Accounted := rfl
    refine ChunkState.Accounted.buffersHeld (runEvents_induction hstart ?_ ht)
    intro pre' event t₀ t₁ hpre' ht₀ hacc hstep
    refine hacc.step hstep fun err hevent => ?_
    subst hevent
    exact herr pre' err t₀ (hpre'.trans hpre) ht₀

/-- The entries of a directory with the files `a` and `b`. -/
def twoFiles : List LinuxDirEntryOwned := [⟨8, [97], none⟩, ⟨8, [98], none⟩]

/-- A Linux where every `statx` succeeds. -/
def statxLinux : LinuxCalls :=
  { LinuxCalls.listing fun _ => ⟨[], none⟩ with
    statx := fun _ _ => .ok { Statx.zeroed with stxMode := 0x8000 } }

/-- The statement above for a batch of two requests that are completed in the other order. -/
theorem buffersHeld_two_files :
    ∃ s, runEvents (ChunkState.step statxLinux ⟨[]⟩) (.start twoFiles)
        [.build (.ok 2), .take, .take, .complete 1 0, .complete 0 (-5), .wait (.ok ()), .reap,
          .reap, .reap] = some s ∧ s.Released ∧ s.BuffersHeld := by
  obtain ⟨s, hs, hphase⟩ : ∃ s, runEvents (ChunkState.step statxLinux ⟨[]⟩) (.start twoFiles)
      [.build (.ok 2), .take, .take, .complete 1 0, .complete 0 (-5), .wait (.ok ()), .reap, .reap,
        .reap] = some s ∧ s.phase = .returned (.ok ()) := ⟨_, rfl, rfl⟩
  refine ⟨s, hs, ⟨_, hphase⟩, ?_⟩
  refine (buffersHeld_iff statxLinux ⟨[]⟩ twoFiles _ s hs).mpr ?_ _ s (List.prefix_refl _) hs
  intro pre err t hpre
  have hmem := hpre.subset (List.mem_append_right pre (List.mem_singleton_self _))
  simp at hmem

/-- An interrupted `submit_and_wait`: the kernel has taken the request for `a`, the function has
returned, and the kernel still works on its buffer. -/
theorem not_buffersHeld_interrupted :
    ∃ s, runEvents (ChunkState.step statxLinux ⟨[]⟩) (.start twoFiles)
        [.build (.ok 2), .take, .wait (.error (.os 4))] = some s ∧ ¬ s.BuffersHeld := by
  obtain ⟨s, hs, hphase, hflight⟩ : ∃ s, runEvents (ChunkState.step statxLinux ⟨[]⟩)
      (.start twoFiles) [.build (.ok 2), .take, .wait (.error (.os 4))] = some s ∧
      s.phase = .returned (.error (.os 4)) ∧ s.ring.inFlight = [⟨[97], 0⟩] := ⟨_, rfl, rfl, rfl⟩
  refine ⟨s, hs, fun hheld => ?_⟩
  have hnone := hheld ⟨_, hphase⟩
  rw [hflight] at hnone
  simp at hnone

/-! ### Requests and entries -/

/-- An entry after the batch: it has got its own `statx`, or nothing. -/
structure FilledFrom (os : LinuxCalls) (path : Path) (info info' : LinuxDirEntryOwned) : Prop where
  dType : info'.dType = info.dType
  name : info'.name = info.name
  statx : info'.statx = info.statx ∨ ∃ statx, hasNul info.name = false ∧
    os.statx path info.name = .ok statx ∧ info'.statx = some statx

theorem FilledFrom.refl (os : LinuxCalls) (path : Path) (info : LinuxDirEntryOwned) :
    FilledFrom os path info info := ⟨rfl, rfl, Or.inl rfl⟩

/-- A slot number stands for an entry. -/
def StandsFor (entries : List LinuxDirEntryOwned) (localToEntry : List ℕ) (userData : ℕ)
    (name : OsString) : Prop :=
  ∃ entryIdx info, localToEntry[userData]? = some entryIdx ∧ entries[entryIdx]? = some info ∧
    info.name = name ∧ hasNul name = false

/-- **The loop over the entries numbers its requests.** -/
theorem standsFor_pushStatx {entries rest : List LinuxDirEntryOwned} {capacity entryIdx : ℕ}
    {sqes : List Sqe} {localToEntry : List ℕ} (hrest : entries.drop entryIdx = rest)
    (hlength : sqes.length = localToEntry.length)
    (hsqes : ∀ sqe ∈ sqes, StandsFor entries localToEntry sqe.userData sqe.name) :
    ∀ sqe ∈ (pushStatx capacity entryIdx rest sqes localToEntry).1,
      StandsFor entries (pushStatx capacity entryIdx rest sqes localToEntry).2 sqe.userData
        sqe.name := by
  induction rest generalizing entryIdx sqes localToEntry with
  | nil => exact hsqes
  | cons entry rest ih =>
    have hentry : entries[entryIdx]? = some entry := by
      rw [← List.head?_drop, hrest, List.head?_cons]
    have hrest' : entries.drop (entryIdx + 1) = rest := by
      rw [← List.drop_drop, hrest, List.drop_succ_cons, List.drop_zero]
    unfold pushStatx
    split_ifs with hnul hcapacity
    · exact ih hrest' hlength hsqes
    · refine ih hrest' (by simp [hlength]) fun sqe hsqe => ?_
      rcases List.mem_append.mp hsqe with hold | hnew
      · -- the requests before it keep their numbers
        obtain ⟨idx, info, hidx, hinfo⟩ := hsqes sqe hold
        have hlt : sqe.userData < localToEntry.length := (List.getElem?_eq_some_iff.mp hidx).1
        exact ⟨idx, info, by rw [List.getElem?_append_left hlt, hidx], hinfo⟩
      · rw [List.mem_singleton.mp hnew]
        exact ⟨entryIdx, entry, by simp [hlength], hentry, rfl, by simpa using hnul⟩
    · exact hsqes

/-- What is known while a chunk is worked on. -/
structure ChunkState.Fills (os : LinuxCalls) (path : Path) (entries : List LinuxDirEntryOwned)
    (s : ChunkState) : Prop where
  start : s.phase = .start → s.entries = entries ∧ s.ring = .empty
  filled : List.Forall₂ (FilledFrom os path) entries s.entries
  requests : ∀ sqe ∈ s.ring.submission ++ s.ring.inFlight,
    StandsFor entries s.localToEntry sqe.userData sqe.name
  /-- The buffer of a request that has succeeded holds the answer for its entry. -/
  answers : ∀ cqe ∈ s.ring.completion ++ s.phase.cqes, cqe.result = 0 →
    ∃ name, StandsFor entries s.localToEntry cqe.userData name ∧
      os.statx path name = .ok (s.statxBufs cqe.userData)

theorem StandsFor.unique {entries : List LinuxDirEntryOwned} {localToEntry : List ℕ} {userData : ℕ}
    {name name' : OsString} (h : StandsFor entries localToEntry userData name)
    (h' : StandsFor entries localToEntry userData name') : name = name' := by
  obtain ⟨entryIdx, info, hidx, hinfo, rfl, -⟩ := h
  obtain ⟨entryIdx', info', hidx', hinfo', rfl, -⟩ := h'
  obtain rfl : entryIdx = entryIdx' := Option.some.inj (hidx.symm.trans hidx')
  rw [Option.some.inj (hinfo.symm.trans hinfo')]

/-- Two related lists stay related when one element is changed in keeping with the relation. -/
theorem forall₂_modify {α β : Type} {r : α → β → Prop} {l : List α} {m : List β}
    (h : List.Forall₂ r l m) {index : ℕ} {f : β → β}
    (hf : ∀ a, l[index]? = some a → ∀ b, r a b → r a (f b)) :
    List.Forall₂ r l (m.modify index f) := by
  induction h generalizing index with
  | nil => rw [List.modify_nil]; exact .nil
  | cons hab hrest ih =>
    cases index with
    | zero => exact .cons (hf _ rfl _ hab) hrest
    | succ index => exact .cons hab (ih fun a ha => hf a ha)

namespace ChunkState

variable {os : LinuxCalls} {path : Path} {entries : List LinuxDirEntryOwned} {s s' : ChunkState}
  {event : ChunkEvent}

/-- One turn of the loop over the completions fills an entry with its own `statx`. -/
theorem Fills.reap (h : s.Fills os path entries) {cqe : Cqe} {rest : List Cqe}
    (hphase : s.phase = .reaping (cqe :: rest)) : (s.reap cqe rest).Fills os path entries := by
  have hcqes : s.phase.cqes = cqe :: rest := by rw [hphase]; rfl
  have hanswers : ∀ c ∈ s.ring.completion ++ rest, c.result = 0 →
      ∃ name, StandsFor entries s.localToEntry c.userData name ∧
        os.statx path name = .ok (s.statxBufs c.userData) := by
    intro c hc
    refine h.answers c ?_
    rw [hcqes]
    exact List.mem_append.mpr ((List.mem_append.mp hc).imp_right (List.mem_cons_of_mem _))
  unfold ChunkState.reap
  split
  · exact ⟨nofun, h.filled, h.requests, hanswers⟩
  · next entryIdx hidx =>
    split_ifs with hresult
    · obtain ⟨name, hstands, hstatx⟩ := h.answers cqe (by simp [hcqes]) hresult
      obtain ⟨entryIdx', info, hidx', hinfo, rfl, hnul⟩ := hstands
      obtain rfl : entryIdx = entryIdx' := Option.some.inj (hidx.symm.trans hidx')
      refine ⟨nofun, ?_, h.requests, hanswers⟩
      refine forall₂_modify h.filled fun a ha b hab => ?_
      obtain rfl : info = a := Option.some.inj (hinfo.symm.trans ha)
      exact ⟨hab.dType, hab.name, Or.inr ⟨_, hnul, hstatx, rfl⟩⟩
    · exact ⟨nofun, h.filled, h.requests, hanswers⟩

/-- A completion: its buffer holds the answer for its request, and the other buffers are left as
they are. -/
theorem Fills.complete (h : s.Fills os path entries) {index : ℕ} {sqe : Sqe} {result : Int}
    {bufs : ℕ → Statx} (hsqe : s.ring.inFlight[index]? = some sqe)
    (hnew : result = 0 → os.statx path sqe.name = .ok (bufs sqe.userData))
    (hbufs : ∀ userData name, StandsFor entries s.localToEntry userData name →
      os.statx path name = .ok (s.statxBufs userData) → os.statx path name = .ok (bufs userData)) :
    Fills os path entries { s with
      ring := s.ring.complete index ⟨sqe.userData, result⟩
      statxBufs := bufs } := by
  have hmem : sqe ∈ s.ring.inFlight := List.mem_of_getElem? hsqe
  refine ⟨fun hphase => ?_, h.filled, fun q hq => h.requests q ?_, fun cqe hcqe hresult => ?_⟩
  · obtain ⟨-, hring⟩ := h.start hphase
    simp [hring, IoRing.empty] at hmem
  · exact List.mem_append.mpr ((List.mem_append.mp hq).imp_right List.mem_of_mem_eraseIdx)
  · rcases List.mem_append.mp hcqe with hcompleted | hreaped
    · rcases List.mem_append.mp hcompleted with hold | hnew'
      · obtain ⟨name, hstands, hstatx⟩ :=
          h.answers cqe (List.mem_append_left _ hold) hresult
        exact ⟨name, hstands, hbufs _ _ hstands hstatx⟩
      · rw [List.mem_singleton.mp hnew'] at hresult ⊢
        exact ⟨sqe.name, h.requests sqe (List.mem_append_right _ hmem), hnew hresult⟩
    · obtain ⟨name, hstands, hstatx⟩ := h.answers cqe (List.mem_append_right _ hreaped) hresult
      exact ⟨name, hstands, hbufs _ _ hstands hstatx⟩

/-- Every step keeps to the entries. -/
theorem Fills.step (h : s.Fills os path entries) (hstep : s.step os path event = some s') :
    s'.Fills os path entries := by
  cases steps_of_step hstep with
  | refuse hphase =>
    obtain ⟨-, hring⟩ := h.start hphase
    refine ⟨nofun, h.filled, h.requests, ?_⟩
    simp [hring, IoRing.empty, ChunkPhase.cqes]
  | push hphase hpush =>
    rename_i capacity sqes localToEntry
    obtain ⟨hentries, hring⟩ := h.start hphase
    have hsqes : ∀ sqe ∈ (pushStatx capacity 0 s.entries [] []).1,
        StandsFor s.entries (pushStatx capacity 0 s.entries [] []).2 sqe.userData sqe.name :=
      standsFor_pushStatx List.drop_zero rfl (by simp)
    rw [hpush] at hsqes
    refine ⟨fun hstart => ?_, h.filled, ?_, ?_⟩
    · dsimp only at hstart
      split_ifs at hstart
    · rw [← hentries, hring]
      simpa [IoRing.empty] using hsqes
    · dsimp only
      split_ifs <;> simp [hring, IoRing.empty, ChunkPhase.cqes]
  | take hphase htake =>
    refine ⟨fun hstart => ?_, h.filled, fun sqe hsqe => ?_, fun cqe hcqe => ?_⟩
    · simp [hphase] at hstart
    · exact h.requests sqe (IoRing.mem_take htake hsqe)
    · rw [IoRing.completion_take htake] at hcqe
      exact h.answers cqe hcqe
  | succeed hsqe hstatx =>
    rename_i index sqe statx
    refine h.complete hsqe (fun _ => by rwa [Function.update_self]) ?_
    intro userData name hstands hold
    -- another answer for the same slot is an answer for the same name
    by_cases hslot : userData = sqe.userData
    · subst hslot
      have hsqe' := h.requests sqe (List.mem_append_right _ (List.mem_of_getElem? hsqe))
      rw [hstands.unique hsqe', hstatx, Function.update_self]
    · rwa [Function.update_of_ne hslot]
  | fail hsqe hresult =>
    exact h.complete hsqe (fun hzero => absurd hzero hresult) fun _ _ _ hold => hold
  | waitOk hphase henough =>
    refine ⟨nofun, h.filled, h.requests, fun cqe hcqe => h.answers cqe ?_⟩
    rw [List.nil_append] at hcqe
    exact List.mem_append_left _ hcqe
  | waitErr hphase =>
    refine ⟨nofun, h.filled, h.requests, fun cqe hcqe => h.answers cqe ?_⟩
    exact List.mem_append_left _ (by simpa [ChunkPhase.cqes] using hcqe)
  | reap hphase => exact h.reap hphase
  | finish hphase =>
    refine ⟨nofun, h.filled, h.requests, fun cqe hcqe => h.answers cqe ?_⟩
    exact List.mem_append_left _ (by simpa [ChunkPhase.cqes] using hcqe)

end ChunkState

/-- **Every entry of a chunk gets its own `statx`, or nothing**, in whatever order the requests are
completed, whichever of them fail, and however the function returns. -/
theorem filled_of_chunkReturns {os : LinuxCalls} {path : Path}
    {entries entries' : List LinuxDirEntryOwned} {result : Except IoError Unit}
    (h : ChunkReturns os path entries result entries') :
    List.Forall₂ (FilledFrom os path) entries entries' := by
  obtain ⟨events, s, hrun, -, rfl⟩ := h
  have hstart : (ChunkState.start entries).Fills os path entries := by
    refine ⟨fun _ => ⟨rfl, rfl⟩, List.forall₂_same.mpr fun info _ => .refl os path info, ?_, ?_⟩ <;>
      simp [ChunkState.start, IoRing.empty, ChunkPhase.cqes]
  have hfills : s.Fills os path entries :=
    runEvents_induction hstart (fun _ _ _ _ _ _ hfills hstep => hfills.step hstep) hrun
  exact hfills.filled

/-- **Every entry gets its own `statx`, or nothing**, for any number of chunks. -/
theorem filled_of_batchReturns {os : LinuxCalls} {path : Path}
    {entries entries' : List LinuxDirEntryOwned} {result : Except IoError Unit}
    (h : BatchReturns os path entries result entries') :
    List.Forall₂ (FilledFrom os path) entries entries' := by
  induction h with
  | nil => exact .nil
  | @next entries chunk' rest' result hne hchunk hrest ih =>
    rw [← List.take_append_drop ringSize entries]
    exact List.rel_append (filled_of_chunkReturns hchunk) ih
  | @fail entries chunk' err hne hchunk =>
    have hsame : List.Forall₂ (FilledFrom os path) (entries.drop ringSize)
        (entries.drop ringSize) := List.forall₂_same.mpr fun info _ => .refl os path info
    have happend : List.Forall₂ (FilledFrom os path)
        (entries.take ringSize ++ entries.drop ringSize) (chunk' ++ entries.drop ringSize) :=
      List.rel_append (filled_of_chunkReturns hchunk) hsame
    rwa [List.take_append_drop] at happend

/-- A batch fetches by name: for a directory, where names do not repeat, what it leaves in the
entries is given by a function on names. -/
theorem exists_prefetch_of_batchReturns {os : LinuxCalls} {path : Path}
    {entries entries' : List LinuxDirEntryOwned} {result : Except IoError Unit}
    (h : BatchReturns os path entries result entries')
    (hnodup : (entries.map LinuxDirEntryOwned.name).Nodup) :
    ∃ fetched : OsString → Option Statx,
      entries' = entries.map fun info => { info with statx := fetched info.name } := by
  have hfilled := filled_of_batchReturns h
  clear h
  induction hfilled with
  | nil => exact ⟨fun _ => none, rfl⟩
  | @cons info info' rest rest' hfrom _ ih =>
    obtain ⟨hnot, hrest⟩ := List.nodup_cons.mp hnodup
    obtain ⟨fetched, rfl⟩ := ih hrest
    refine ⟨Function.update fetched info.name info'.statx, ?_⟩
    rw [List.map_cons, Function.update_self]
    congr 1
    · rw [← hfrom.dType, ← hfrom.name]
    · refine List.map_congr_left fun other hother => ?_
      have hne : other.name ≠ info.name := fun heq =>
        hnot (heq ▸ List.mem_map_of_mem hother)
      rw [Function.update_of_ne hne]

end JwalkMeta
