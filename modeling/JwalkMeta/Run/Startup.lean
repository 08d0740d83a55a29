import JwalkMeta.Run.System

/-!
# The start of a parallel walk

`ReadDirIter::try_new` puts the root reads into the work queue before it spawns the thread that
takes them out. A send blocks while the channel is full, and nobody receives. The source relies on
the channel having room because it is new. It has room for as many items as its capacity says, which
the client chooses; with capacity 0 a send waits for a receiver from the start.

Source: `src/core/read_dir_iter.rs`, `src/core/priority_queue.rs`.

## Main definitions

* `pushRoots`: the loop of `try_new` over the root reads.
* `Startup`, `Startup.step`: the thread that runs it, while nobody receives.

## Main results

* `Startup.eq_init_of_completes`: a walk starts from `RunState.init`.
* `Startup.completes_iff`: when all pushes complete.
-/

namespace JwalkMeta

open Interaction

variable {S R B E : Type}

/-- The loop of `try_new` over the root reads. The value `false` is the failed `expect`. -/
def pushRoots : List (Weighted S) → WorkerProgram S R Bool
  | [] => return true
  | each :: rest => do
    if ← push each then pushRoots rest
    else return false

/-- The thread that calls `try_new`: what is left of its pushes, and the work queue. -/
structure Startup (S R : Type) where
  pendingCount : ℤ
  specChannel : List (Weighted S)
  program : WorkerProgram S R Bool

namespace Startup

/-- One step of the thread. The receiver of the channel exists, so no send fails, and nobody uses
it: a send is carried out if the channel has room, and blocks if it has none. -/
def step (capacity : ℕ) (s : Startup S R) : Option (Startup S R) :=
  match s.program with
  | .ask .fetchAdd k => some { s with pendingCount := s.pendingCount + 1, program := k true }
  | .ask (.sendSpec weighted) k =>
    if s.specChannel.length < capacity then
      some { s with specChannel := s.specChannel ++ [weighted], program := k true }
    else none
  | .ask .fetchSub k => some { s with pendingCount := s.pendingCount - 1, program := k true }
  | _ => none

/-- The states that the thread can reach. -/
def Reaches (capacity : ℕ) : Startup S R → Startup S R → Prop :=
  Relation.ReflTransGen fun s s' => s.step capacity = some s'

/-- The thread before its first push, with a new channel. -/
def new (items : List (Weighted S)) : Startup S R := ⟨0, [], pushRoots items⟩

/-- All pushes complete. -/
def Completes (capacity : ℕ) (items : List (Weighted S)) (s : Startup S R) : Prop :=
  Reaches capacity (new items) s ∧ s.program = .done true

variable {capacity : ℕ} {items : List (Weighted S)} {s s' : Startup S R}

/-- The program of a push and of those behind it, about to count the item. -/
theorem pushRoots_cons (each : Weighted S) (rest : List (Weighted S)) :
    ∃ k : Bool → WorkerProgram S R Bool, k true = pushRoots rest ∧
      pushRoots (R := R) (each :: rest) = .ask .fetchAdd fun _ => .ask (.sendSpec each) k := by
  refine ⟨_, ?_, rfl⟩
  rfl

/-! ### Pushes that complete -/

/-- One push, if the channel has room. -/
theorem reaches_push {pendingCount : ℤ} {specChannel : List (Weighted S)} (each : Weighted S)
    (rest : List (Weighted S)) (hroom : specChannel.length < capacity) :
    Reaches capacity (⟨pendingCount, specChannel, pushRoots (each :: rest)⟩ : Startup S R)
      ⟨pendingCount + 1, specChannel ++ [each], pushRoots rest⟩ := by
  obtain ⟨k, hk, hprogram⟩ := pushRoots_cons (R := R) each rest
  rw [hprogram, ← hk]
  exact .tail (.single rfl) (by simp [step, hroom])

theorem reaches_pushRoots (items : List (Weighted S)) (pendingCount : ℤ)
    (specChannel : List (Weighted S)) (hroom : specChannel.length + items.length ≤ capacity) :
    Reaches capacity (⟨pendingCount, specChannel, pushRoots items⟩ : Startup S R)
      ⟨pendingCount + items.length, specChannel ++ items, .done true⟩ := by
  induction items generalizing pendingCount specChannel with
  | nil =>
    simp only [List.length_nil, Int.natCast_zero, Int.add_zero, List.append_nil]
    exact .refl
  | cons each rest ih =>
    rw [List.length_cons] at hroom
    have hrest := ih (pendingCount + 1) (specChannel ++ [each]) (by
      rw [List.length_append, List.length_singleton]
      omega)
    have hcount : pendingCount + 1 + (rest.length : ℤ) = pendingCount + (each :: rest).length := by
      simp only [List.length_cons]
      omega
    rw [hcount, List.append_assoc, List.singleton_append] at hrest
    exact (reaches_push each rest (by omega)).trans hrest

/-! ### What every state keeps -/

/-- The items in the channel and those of the pushes that are left are all items; each of those in
the channel, and the one that is being sent, is counted. -/
structure Inv (capacity : ℕ) (items : List (Weighted S)) (s : Startup S R) : Prop where
  withinCapacity : s.specChannel.length ≤ capacity
  progress : (∃ rest, items = s.specChannel ++ rest ∧ s.program = pushRoots rest ∧
      s.pendingCount = s.specChannel.length) ∨
    ∃ each rest k, items = s.specChannel ++ each :: rest ∧ k true = pushRoots rest ∧
      s.program = .ask (.sendSpec each) k ∧ s.pendingCount = s.specChannel.length + 1

theorem inv_new (items : List (Weighted S)) : Inv capacity items (new items : Startup S R) :=
  ⟨Nat.zero_le _, .inl ⟨items, rfl, rfl, rfl⟩⟩

theorem Inv.step (h : Inv capacity items s) (hstep : s.step capacity = some s') :
    Inv capacity items s' := by
  rcases h.progress with ⟨rest, hitems, hprogram, hcount⟩ | ⟨each, rest, k, hitems, hk, hprogram,
    hcount⟩
  · cases rest with
    | nil => simp [Startup.step, hprogram, pushRoots] at hstep
    | cons each rest =>
      obtain ⟨k, hk, hpush⟩ := pushRoots_cons (R := R) each rest
      rw [Startup.step, hprogram, hpush] at hstep
      obtain rfl := Option.some.inj hstep
      exact ⟨h.withinCapacity, .inr ⟨each, rest, k, hitems, hk, rfl, by rw [hcount]⟩⟩
  · rw [Startup.step, hprogram] at hstep
    simp only at hstep
    split_ifs at hstep with hroom
    obtain rfl := Option.some.inj hstep
    refine ⟨?_, .inl ⟨rest, by simp [hitems], hk, by simp [hcount]⟩⟩
    simp only [List.length_append, List.length_singleton]
    omega

theorem Inv.of_reaches (h : Reaches capacity (new items) s) : Inv capacity items s :=
  Reachability.invariant h (inv_new items) fun _ _ hinv hstep => hinv.step hstep

/-- At the end all items are in the channel, within its capacity, and counted. -/
theorem of_completes (h : Completes capacity items s) :
    s.specChannel = items ∧ s.pendingCount = items.length ∧ items.length ≤ capacity := by
  obtain ⟨hreaches, hdone⟩ := h
  have hinv := Inv.of_reaches hreaches
  rcases hinv.progress with ⟨rest, hitems, hprogram, hcount⟩ | ⟨each, rest, k, -, -, hprogram, -⟩
  · cases rest with
    | nil =>
      rw [List.append_nil] at hitems
      rw [hitems]
      exact ⟨rfl, hcount, hinv.withinCapacity⟩
    | cons each rest =>
      obtain ⟨k, -, hpush⟩ := pushRoots_cons (R := R) each rest
      rw [hdone, hpush] at hprogram
      cases hprogram
  · rw [hdone] at hprogram
    cases hprogram

/-- A walk whose pushes complete starts from `RunState.init`. -/
theorem eq_init_of_completes (h : Completes capacity items s) (N maxReceiveBufferSize : ℕ) :
    s.specChannel = (RunState.init N items maxReceiveBufferSize : RunState S R N).specChannel ∧
      s.pendingCount =
        (RunState.init N items maxReceiveBufferSize : RunState S R N).pendingCount :=
  ⟨(of_completes h).1, (of_completes h).2.1⟩

/-! ### When the start does not block -/

/-- **When starting a parallel walk does not block.** All initial pushes complete if and only if
there are at most as many root reads as the channel has room for. -/
theorem completes_iff (capacity : ℕ) (specs : List (ReadDirSpec B)) :
    (∃ s : Startup (ReadDirSpec B) (ReadDirResult B E), Completes capacity (rootItems specs) s) ↔
      specs.length ≤ capacity := by
  have hlength : (rootItems specs).length = specs.length := by simp [rootItems]
  constructor
  · rintro ⟨s, hcompletes⟩
    rw [← hlength]
    exact (of_completes hcompletes).2.2
  · intro hle
    exact ⟨_, reaches_pushRoots (rootItems specs) 0 [] (by simpa [hlength] using hle), rfl⟩

/-- The root read of a walk of `r`. -/
def rootSpec : ReadDirSpec Unit := ⟨0, ⟨[.normal [114]]⟩, (), none⟩

/-- With capacity 0 the push of the only root read blocks, after it has been counted. -/
theorem blocks_capacity_zero :
    ∃ s : Startup (ReadDirSpec Unit) (ReadDirResult Unit Unit),
      Reaches 0 (new (rootItems [rootSpec])) s ∧ s.pendingCount = 1 ∧ s.specChannel = [] ∧
      s.step 0 = none ∧
      ¬ ∃ s : Startup (ReadDirSpec Unit) (ReadDirResult Unit Unit),
        Completes 0 (rootItems [rootSpec]) s := by
  refine ⟨_, .single rfl, rfl, rfl, rfl, ?_⟩
  rintro ⟨s, hcompletes⟩
  have hle := (of_completes hcompletes).2.2
  simp [rootItems] at hle

end Startup

end JwalkMeta
