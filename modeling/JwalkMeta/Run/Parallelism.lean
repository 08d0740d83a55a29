import Mathlib.Data.Nat.Notation

/-!
# Where a walk runs

`Parallelism::spawn` decides which threads run the operation that it is given. For `RayonNewPool` a
thread keeps one pool: the first such call on a thread builds it, and all later ones share it, so
that pools are not built and torn down for every walk. The number of threads that a later call asks
for is not looked at: each operation runs on a pool of the size that it was to have only where all
calls ask for the same size.

Source: `src/lib.rs`.

## Main definitions

* `Parallelism`, `Parallelism.spawn`: the strategies, and where each of them runs an operation.
* `Parallelism.spawnAll`: the calls of one thread, one after another.

## Main results

* `Parallelism.spawn_tlsPool`: a thread never replaces its pool.
* `Parallelism.spawnAll_rayonNewPool`: all calls share the pool of the first one.
* `Parallelism.spawnAll_ownSize_iff`: when each operation runs on a pool of its size.
-/

namespace JwalkMeta

/-- `rayon::ThreadPool`: which one it is, and how many threads it has. -/
structure ThreadPool where
  id : ℕ
  numThreads : ℕ
  deriving DecidableEq, Repr

/-- `Parallelism`. A timeout is given in milliseconds. -/
inductive Parallelism
  | serial
  | rayonDefaultPool (busyTimeout : ℕ)
  | rayonExistingPool (pool : ThreadPool) (busyTimeout : Option ℕ)
  | rayonNewPool (numThreads : ℕ)
  deriving DecidableEq, Repr

/-- Where an operation runs. -/
inductive RunsOn
  /-- On the calling thread. -/
  | caller
  /-- On the global pool of `rayon`. -/
  | globalPool
  | pool (pool : ThreadPool)
  deriving DecidableEq, Repr

/-- What one thread keeps: its pool, and how often it has tried to build one. -/
structure ThreadLocal where
  tlsPool : Option ThreadPool
  builds : ℕ
  deriving DecidableEq, Repr

/-- A thread that has not called `spawn` yet. -/
def ThreadLocal.new : ThreadLocal := ⟨none, 0⟩

namespace Parallelism

section Spawn

-- `ThreadPoolBuilder::build`, by how often the thread has called it before, and by the number of
-- threads if the builder was given one
variable (build : ℕ → Option ℕ → Option ThreadPool)

/-- `Parallelism::spawn`: where the operation runs, and what the calling thread keeps. -/
def spawn (parallelism : Parallelism) (tls : ThreadLocal) : RunsOn × ThreadLocal :=
  match parallelism with
  | .serial => (.caller, tls)
  | .rayonDefaultPool _ => (.globalPool, tls)
  | .rayonNewPool numThreads =>
    let tls :=
      if tls.tlsPool.isNone then
        { tlsPool := build tls.builds (if 0 < numThreads then some numThreads else none)
          builds := tls.builds + 1 }
      else tls
    (tls.tlsPool.elim .globalPool .pool, tls)
  | .rayonExistingPool pool _ => (.pool pool, tls)

/-- `Parallelism::timeout`: how long to wait for a spawned operation to begin, if limited. -/
def timeout : Parallelism → Option ℕ
  | .serial | .rayonNewPool _ => none
  | .rayonDefaultPool busyTimeout => some busyTimeout
  | .rayonExistingPool _ busyTimeout => busyTimeout

/-- The calls of one thread, one after another: where each operation runs. -/
def spawnAll : List Parallelism → ThreadLocal → List RunsOn × ThreadLocal
  | [], tls => ([], tls)
  | parallelism :: calls, tls =>
    let (runsOn, tls) := parallelism.spawn build tls
    let (later, tls) := spawnAll calls tls
    (runsOn :: later, tls)

variable {build}

/-- **A thread never replaces its pool**, whatever it is asked for. -/
theorem spawn_tlsPool {tls : ThreadLocal} {pool : ThreadPool} (h : tls.tlsPool = some pool)
    (parallelism : Parallelism) : (parallelism.spawn build tls).2 = tls := by
  cases parallelism with
  | rayonNewPool numThreads => simp [spawn, h]
  | serial | rayonDefaultPool busyTimeout | rayonExistingPool existing busyTimeout => rfl

/-- A thread that has a pool runs on it whatever asks for a new one. -/
theorem spawn_rayonNewPool {tls : ThreadLocal} {pool : ThreadPool} (h : tls.tlsPool = some pool)
    (numThreads : ℕ) : ((rayonNewPool numThreads).spawn build tls).1 = .pool pool := by
  simp [spawn, h]

theorem spawnAll_of_tlsPool {tls : ThreadLocal} {pool : ThreadPool} (h : tls.tlsPool = some pool)
    (sizes : List ℕ) :
    spawnAll build (sizes.map rayonNewPool) tls = (sizes.map fun _ => .pool pool, tls) := by
  induction sizes with
  | nil => rfl
  | cons numThreads sizes ih =>
    have hfirst : (rayonNewPool numThreads).spawn build tls = (.pool pool, tls) :=
      Prod.ext (spawn_rayonNewPool h numThreads) (spawn_tlsPool h _)
    simp only [List.map_cons, spawnAll, hfirst, ih]

/-- **All calls on one thread share the pool of the first one.** It is built once, with the number
of threads that the first call asks for. -/
theorem spawnAll_rayonNewPool
    (hbuild : ∀ count numThreads, 0 < numThreads →
      ∃ pool, build count (some numThreads) = some pool ∧ pool.numThreads = numThreads)
    (first : ℕ) (sizes : List ℕ) (hpos : ∀ numThreads ∈ first :: sizes, 0 < numThreads) :
    ∃ pool, pool.numThreads = first ∧
      spawnAll build ((first :: sizes).map rayonNewPool) ThreadLocal.new =
        ((first :: sizes).map fun _ => .pool pool, ⟨some pool, 1⟩) := by
  have hfirst := hpos first List.mem_cons_self
  obtain ⟨pool, hpool, hsize⟩ := hbuild 0 first hfirst
  have hspawn : (rayonNewPool first).spawn build ThreadLocal.new =
      (.pool pool, ⟨some pool, 1⟩) := by
    simp [spawn, ThreadLocal.new, hfirst, hpool]
  have hlater : spawnAll build (sizes.map rayonNewPool) ⟨some pool, 1⟩ =
      (sizes.map fun _ => .pool pool, ⟨some pool, 1⟩) := spawnAll_of_tlsPool rfl sizes
  exact ⟨pool, hsize, by simp only [List.map_cons, spawnAll, hspawn, hlater]⟩

/-- **When each operation runs on a pool of its size.** This is so if and only if all calls ask for
as many threads as the first one. -/
theorem spawnAll_ownSize_iff
    (hbuild : ∀ count numThreads, 0 < numThreads →
      ∃ pool, build count (some numThreads) = some pool ∧ pool.numThreads = numThreads)
    (sizes : List ℕ) (hpos : ∀ numThreads ∈ sizes, 0 < numThreads) :
    (∀ i (hi : i < sizes.length), ∃ pool,
      (spawnAll build (sizes.map rayonNewPool) ThreadLocal.new).1[i]? = some (.pool pool) ∧
        pool.numThreads = sizes[i]) ↔
      ∀ numThreads ∈ sizes, sizes.head? = some numThreads := by
  cases sizes with
  | nil => simp
  | cons first sizes =>
    obtain ⟨pool, hsize, hruns⟩ := spawnAll_rayonNewPool hbuild first sizes hpos
    have hat (i : ℕ) (hi : i < (first :: sizes).length) :
        (spawnAll build ((first :: sizes).map rayonNewPool) ThreadLocal.new).1[i]? =
          some (.pool pool) := by
      rw [hruns, List.getElem?_map, List.getElem?_eq_getElem hi, Option.map_some]
    rw [List.head?_cons]
    constructor
    · intro hown numThreads hmem
      obtain ⟨i, hi, rfl⟩ := List.getElem_of_mem hmem
      obtain ⟨pool', hpool', hsize'⟩ := hown i hi
      rw [hat i hi] at hpool'
      obtain rfl : pool = pool' := by simpa using hpool'
      exact congrArg some (hsize.symm.trans hsize')
    · intro hsame i hi
      refine ⟨pool, hat i hi, ?_⟩
      rw [hsize]
      exact Option.some.inj (hsame _ (List.getElem_mem hi))

end Spawn

/-- A system where every pool can be built. -/
def buildsAll (count : ℕ) (numThreads : Option ℕ) : Option ThreadPool :=
  some ⟨count, numThreads.getD 8⟩

theorem buildsAll_size (count numThreads : ℕ) (_ : 0 < numThreads) :
    ∃ pool, buildsAll count (some numThreads) = some pool ∧ pool.numThreads = numThreads :=
  ⟨_, rfl, rfl⟩

/-- Two walks that ask for four threads each have them. -/
theorem spawnAll_ownSize_four :
    (∃ pool, (spawnAll buildsAll ([4, 4].map rayonNewPool) ThreadLocal.new).1[0]? =
        some (.pool pool) ∧ pool.numThreads = 4) ∧
      ∃ pool, (spawnAll buildsAll ([4, 4].map rayonNewPool) ThreadLocal.new).1[1]? =
        some (.pool pool) ∧ pool.numThreads = 4 := by
  have hown := (spawnAll_ownSize_iff buildsAll_size [4, 4] (by simp)).mpr (by simp)
  exact ⟨hown 0 (by simp), hown 1 (by simp)⟩

/-- The walk that asks for four threads runs on the pool of one thread. -/
theorem not_spawnAll_own_size :
    ¬ ∀ (build : ℕ → Option ℕ → Option ThreadPool) (sizes : List ℕ),
      (∀ count numThreads, 0 < numThreads →
        ∃ pool, build count (some numThreads) = some pool ∧ pool.numThreads = numThreads) →
      (∀ numThreads ∈ sizes, 0 < numThreads) →
      ∀ i (hi : i < sizes.length), ∃ pool,
        (spawnAll build (sizes.map rayonNewPool) ThreadLocal.new).1[i]? = some (.pool pool) ∧
          pool.numThreads = sizes[i] := by
  intro h
  obtain ⟨pool, hruns, hsize⟩ := h buildsAll [1, 4] buildsAll_size (by simp) 1 (by simp)
  have hsecond : (spawnAll buildsAll ([1, 4].map rayonNewPool) ThreadLocal.new).1[1]? =
      some (.pool ⟨0, 1⟩) := rfl
  rw [hsecond] at hruns
  obtain rfl : ⟨0, 1⟩ = pool := by simpa using hruns
  simp at hsize

end Parallelism

end JwalkMeta
