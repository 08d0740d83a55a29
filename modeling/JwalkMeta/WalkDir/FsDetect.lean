import JwalkMeta.WalkDir.Entry
import Mathlib.Logic.Function.Basic

/-!
# The strategy for a file system

On Linux a directory on a slow network file system is listed with a batch of `statx` requests. For
each device the first directory that is asked about decides: `statfs` tells the type of its file
system, and for a network file system one `fstatat` is timed. The answer is kept for the device.

The timed call has the directory descriptor -1 where its comment has `AT_FDCWD`. For an absolute
path the descriptor does not matter; for a relative one the call fails, and the device counts as
local. The call does not follow a link at the end of the path either, so a link is timed in place of
the directory that it leads to.

Source: `src/core/fs_detect.rs`.

## Main definitions

* `Kernel`, `Kernel.Lawful`: the calls, and what is assumed of them.
* `IoStrategyCache.detect`, `detectAll`: the strategy for a path, and for one path after another.
* `Kernel.OnSlowNetwork`: a directory on a slow network file system.

## Main results

* `detectAll_eq`: a device keeps the strategy of the path that was asked about first.
* `networkAsync_iff`: when slow network file systems get their strategy.
-/

namespace JwalkMeta

/-! ### The kernel -/

/-- `AT_FDCWD`. -/
def AT_FDCWD : Int := -100

/-- The calls of the kernel on a path. -/
structure Kernel where
  /-- `stat`: the device. -/
  stat : Path → Except IoError UInt64
  /-- `statfs`: the type of the file system. -/
  statfs : Path → Except IoError Int
  /-- `fstatat` without following a link at the end of the path: the device, and the nanoseconds
  that the call takes. -/
  fstatat : Int → Path → Except IoError UInt64 × ℕ
  /-- The latency of a lookup on a device, in nanoseconds. -/
  latency : UInt64 → ℕ

/-- What is assumed of the kernel. -/
structure Kernel.Lawful (kernel : Kernel) : Prop where
  /-- The descriptor is ignored for an absolute path. -/
  absolute : ∀ dirfd path, path.isAbsolute = true →
    kernel.fstatat dirfd path = kernel.fstatat AT_FDCWD path
  /-- Another negative descriptor than `AT_FDCWD` is a bad one for a relative path. -/
  relative : ∀ dirfd path, dirfd < 0 → dirfd ≠ AT_FDCWD → path.isAbsolute = false →
    (kernel.fstatat dirfd path).1 = .error (.os 9)
  /-- Where a path can be followed to its end, its last component can be looked up. -/
  lookup : ∀ path dev, kernel.stat path = .ok dev →
    ∃ dev', (kernel.fstatat AT_FDCWD path).1 = .ok dev'
  /-- A device has one file system. -/
  fileSystem : ∀ path path' dev fType fType', kernel.stat path = .ok dev →
    kernel.stat path' = .ok dev → kernel.statfs path = .ok fType →
    kernel.statfs path' = .ok fType' → fType = fType'
  /-- A lookup takes as long as the latency of the device says. -/
  latency : ∀ path dev, (kernel.fstatat AT_FDCWD path).1 = .ok dev →
    kernel.latency dev ≤ (kernel.fstatat AT_FDCWD path).2

/-- How long the last component of a path takes to look up, in nanoseconds. -/
def Kernel.lookupTime (kernel : Kernel) (path : Path) : ℕ := (kernel.fstatat AT_FDCWD path).2

/-! ### The strategy for a path -/

/-- `IoStrategy`. -/
inductive IoStrategy
  | localSync
  | networkAsync
  | skipNlinks
  deriving DecidableEq, Repr

/-- `SMB_SUPER_MAGIC`, `NFS_SUPER_MAGIC`, `CIFS_MAGIC_NUMBER` and `SMB2_SUPER_MAGIC`. -/
def networkTypes : List Int := [0x517B, 0x6969, 0xFF534D42, 0xFE534D42]

/-- `MSDOS_SUPER_MAGIC` and `EXFAT_SUPER_MAGIC`. -/
def fatTypes : List Int := [0x4D44, 0x2011BAB0]

/-- `LATENCY_THRESHOLD`, in nanoseconds. -/
def LATENCY_THRESHOLD : ℕ := 1000000

/-- `strategy_from_ftype`: the known local file systems and all others are treated alike. -/
def strategyFromFtype (fType : Int) : IoStrategy :=
  if fType ∈ networkTypes then .networkAsync
  else if fType ∈ fatTypes then .skipNlinks
  else .localSync

/-- `stat_dev`. -/
def statDev (kernel : Kernel) (path : Path) : Except IoError UInt64 :=
  if hasNul path.asOsStr then .error (.simple .invalidInput) else kernel.stat path

/-- `probe_latency`. -/
def probeLatency (kernel : Kernel) (path : Path) : IoStrategy :=
  if hasNul path.asOsStr then .localSync
  else
    match kernel.fstatat (-1) path with
    | (.error _, _) => .localSync
    | (.ok _, elapsed) => if LATENCY_THRESHOLD ≤ elapsed then .networkAsync else .localSync

/-- `statfs_strategy`. -/
def statfsStrategy (kernel : Kernel) (path : Path) : Option IoStrategy :=
  if hasNul path.asOsStr then none
  else
    match kernel.statfs path with
    | .error _ => none
    | .ok fType =>
      if strategyFromFtype fType = .networkAsync then some (probeLatency kernel path)
      else some (strategyFromFtype fType)

/-- `IoStrategyCache`: the strategy of each device that has been asked about. -/
structure IoStrategyCache where
  map : UInt64 → Option IoStrategy

namespace IoStrategyCache

/-- `IoStrategyCache::new`. -/
def new : IoStrategyCache := ⟨fun _ => none⟩

/-- `IoStrategyCache::detect`. -/
def detect (kernel : Kernel) (cache : IoStrategyCache) (path : Path) :
    IoStrategy × IoStrategyCache :=
  match statDev kernel path with
  | .error _ => (.localSync, cache)
  | .ok dev =>
    match cache.map dev with
    | some strategy => (strategy, cache)
    | none =>
      let strategy := (statfsStrategy kernel path).getD .localSync
      (strategy, ⟨Function.update cache.map dev (some strategy)⟩)

end IoStrategyCache

/-- The answers of one cache to one path after another. -/
def detectAll (kernel : Kernel) : IoStrategyCache → List Path → List IoStrategy
  | _, [] => []
  | cache, path :: paths =>
    let (strategy, cache) := cache.detect kernel path
    strategy :: detectAll kernel cache paths

/-! ### What a device is taken for -/

/-- The path leads to a directory of a network file system with a latency from the threshold on. -/
def Kernel.OnSlowNetwork (kernel : Kernel) (path : Path) : Prop :=
  ∃ dev fType, kernel.stat path = .ok dev ∧ kernel.statfs path = .ok fType ∧
    fType ∈ networkTypes ∧ LATENCY_THRESHOLD ≤ kernel.latency dev

/-- `stat` and `statfs` succeed on a path. -/
def Kernel.Answers (kernel : Kernel) (path : Path) : Prop :=
  (∃ dev, statDev kernel path = .ok dev) ∧ ∃ fType, kernel.statfs path = .ok fType

/-- The strategy that a path leads to if its device has not been asked about. -/
def ownStrategy (kernel : Kernel) (path : Path) : IoStrategy :=
  (statfsStrategy kernel path).getD .localSync

/-- The first of the paths on a device. -/
def firstOn (kernel : Kernel) (paths : List Path) (dev : UInt64) : Option Path :=
  paths.find? fun path => (statDev kernel path).toOption = some dev

section Detect

variable {kernel : Kernel} {cache : IoStrategyCache} {path : Path} {dev : UInt64}

theorem statDev_eq_ok (h : statDev kernel path = .ok dev) :
    hasNul path.asOsStr = false ∧ kernel.stat path = .ok dev := by
  rw [statDev] at h
  cases hnul : hasNul path.asOsStr with
  | true => simp [hnul] at h
  | false => exact ⟨rfl, by simpa [hnul] using h⟩

/-- One call: a known device keeps its strategy, a new one gets that of the path. -/
theorem detect_eq (h : statDev kernel path = .ok dev) :
    (cache.detect kernel path).1 = (cache.map dev).getD (ownStrategy kernel path) ∧
      ∀ dev', (cache.detect kernel path).2.map dev' =
        (cache.map dev').or (if dev' = dev then some (ownStrategy kernel path) else none) := by
  cases hmap : cache.map dev with
  | some strategy =>
    have hdetect : cache.detect kernel path = (strategy, cache) := by
      simp only [IoStrategyCache.detect, h, hmap]
    rw [hdetect]
    refine ⟨rfl, fun dev' => ?_⟩
    by_cases hdev : dev' = dev
    · simp [hdev, hmap]
    · simp [hdev]
  | none =>
    have hdetect : cache.detect kernel path = (ownStrategy kernel path,
        ⟨Function.update cache.map dev (some (ownStrategy kernel path))⟩) := by
      simp only [IoStrategyCache.detect, h, hmap, ownStrategy]
    rw [hdetect]
    refine ⟨rfl, fun dev' => ?_⟩
    by_cases hdev : dev' = dev
    · simp [hdev, hmap]
    · simp [hdev]

/-- What the cache knows after some paths: each device has the strategy of the first path on it. -/
def Remembers (kernel : Kernel) (seen : List Path) (cache : IoStrategyCache) : Prop :=
  ∀ dev, cache.map dev = (firstOn kernel seen dev).map (ownStrategy kernel)

theorem Remembers.detect {seen : List Path} (hcache : Remembers kernel seen cache)
    (h : statDev kernel path = .ok dev) :
    Remembers kernel (seen ++ [path]) (cache.detect kernel path).2 := by
  intro dev'
  rw [(detect_eq h).2 dev', hcache dev', firstOn, firstOn, List.find?_append]
  have hsame : decide ((statDev kernel path).toOption = some dev') = decide (dev' = dev) := by
    simp [h, Except.toOption, eq_comm]
  cases seen.find? fun path => decide ((statDev kernel path).toOption = some dev') with
  | some first => rfl
  | none =>
    by_cases hdev : dev' = dev
    · simp [h, Except.toOption, hdev]
    · simp [h, Except.toOption, hdev, Ne.symm hdev]

/-- **A device keeps the strategy of the path that was asked about first.** -/
theorem detectAll_eq {paths : List Path} (hpaths : ∀ path ∈ paths, kernel.Answers path)
    (before : List Path) (path : Path) (after : List Path) (h : paths = before ++ path :: after)
    {seen : List Path} (hcache : Remembers kernel seen cache) {dev : UInt64}
    (hdev : statDev kernel path = .ok dev) :
    (detectAll kernel cache paths)[before.length]? =
      some (ownStrategy kernel ((firstOn kernel (seen ++ before) dev).getD path)) := by
  induction before generalizing paths cache seen with
  | nil =>
    subst h
    rw [List.nil_append, detectAll, List.append_nil, List.length_nil, List.getElem?_cons_zero,
      (detect_eq hdev).1, hcache dev]
    cases firstOn kernel seen dev <;> rfl
  | cons first before ih =>
    subst h
    obtain ⟨⟨dev', hdev'⟩, -⟩ := hpaths first List.mem_cons_self
    have hrest := @ih (cache.detect kernel first).2 (before ++ path :: after)
      (fun path hpath => hpaths path (List.mem_cons_of_mem first hpath)) rfl (seen ++ [first])
      (hcache.detect hdev')
    rw [List.append_assoc, List.singleton_append] at hrest
    rw [List.cons_append, detectAll, List.length_cons, List.getElem?_cons_succ, hrest]

/-- When a path on a slow network file system leads to the strategy for it. -/
theorem ownStrategy_iff (hkernel : kernel.Lawful) (hpath : kernel.Answers path)
    (hslow : kernel.OnSlowNetwork path) :
    ownStrategy kernel path = .networkAsync ↔
      path.isAbsolute = true ∧ LATENCY_THRESHOLD ≤ kernel.lookupTime path := by
  obtain ⟨⟨dev, hdev⟩, -⟩ := hpath
  obtain ⟨-, fType, -, hfType, hnetwork, -⟩ := hslow
  obtain ⟨hnul, hstat⟩ := statDev_eq_ok hdev
  have hprobe : ownStrategy kernel path = probeLatency kernel path := by
    simp [ownStrategy, statfsStrategy, hnul, hfType, strategyFromFtype, hnetwork]
  rw [hprobe, probeLatency, hnul]
  cases habsolute : path.isAbsolute with
  | true =>
    obtain ⟨dev', hlookup⟩ := hkernel.lookup path dev hstat
    have hcall : kernel.fstatat (-1) path = (.ok dev', kernel.lookupTime path) := by
      rw [hkernel.absolute (-1) path habsolute, ← hlookup]
      rfl
    by_cases htime : LATENCY_THRESHOLD ≤ kernel.lookupTime path <;> simp [hcall, htime]
  | false =>
    have hbad := hkernel.relative (-1) path (by decide) (by decide) habsolute
    have hcall : kernel.fstatat (-1) path = (.error (.os 9), (kernel.fstatat (-1) path).2) := by
      rw [← hbad]
    rw [hcall]
    simp

/-- An object on the device itself takes as long to look up as the device. -/
theorem lookupTime_of_onSlowNetwork (hkernel : kernel.Lawful) (hslow : kernel.OnSlowNetwork path)
    (hobject : (kernel.fstatat AT_FDCWD path).1 = kernel.stat path) :
    LATENCY_THRESHOLD ≤ kernel.lookupTime path := by
  obtain ⟨dev, -, hstat, -, -, hlatency⟩ := hslow
  exact Nat.le_trans hlatency (hkernel.latency path dev (hobject.trans hstat))

theorem firstOn_eq_none {paths : List Path} (hpaths : ∀ path ∈ paths, kernel.Answers path)
    (hdev : statDev kernel path = .ok dev) :
    firstOn kernel paths dev = none ↔
      ∀ earlier ∈ paths, kernel.stat earlier ≠ kernel.stat path := by
  rw [firstOn, List.find?_eq_none]
  refine forall₂_congr fun earlier hearlier => ?_
  obtain ⟨⟨dev', hdev'⟩, -⟩ := hpaths earlier hearlier
  rw [(statDev_eq_ok hdev).2, (statDev_eq_ok hdev').2, hdev']
  simp [Except.toOption]

/-- The first path on a device, with those that were asked about before it. -/
theorem exists_of_firstOn_eq_some {paths : List Path} {first : Path}
    (hpaths : ∀ path ∈ paths, kernel.Answers path) (h : firstOn kernel paths dev = some first) :
    ∃ before after, paths = before ++ first :: after ∧ statDev kernel first = .ok dev ∧
      firstOn kernel before dev = none := by
  obtain ⟨hon, before, after, hsplit, hbefore⟩ := List.find?_eq_some_iff_append.mp h
  refine ⟨before, after, hsplit, ?_, List.find?_eq_none.mpr fun earlier hmem => ?_⟩
  · obtain ⟨⟨dev', hdev'⟩, -⟩ := hpaths first (by simp [hsplit])
    rw [hdev'] at hon ⊢
    simpa [Except.toOption] using hon
  · simpa using hbefore earlier hmem

/-- A slow network file system is one for all paths on its device. -/
theorem Kernel.OnSlowNetwork.of_statDev {first : Path} (hkernel : kernel.Lawful)
    (hslow : kernel.OnSlowNetwork path) (hdev : statDev kernel path = .ok dev)
    (hfirst : statDev kernel first = .ok dev) (hanswers : kernel.Answers first) :
    kernel.OnSlowNetwork first := by
  obtain ⟨dev', fType, hstat, hfType, hnetwork, hlatency⟩ := hslow
  obtain ⟨-, fType', hfType'⟩ := hanswers
  obtain rfl : dev = dev' := Except.ok.inj ((statDev_eq_ok hdev).2.symm.trans hstat)
  have hstat' := (statDev_eq_ok hfirst).2
  obtain rfl := hkernel.fileSystem first path dev fType' fType hstat' hstat hfType' hfType
  exact ⟨dev, fType', hstat', hfType', hnetwork, hlatency⟩

/-- **When slow network file systems get their strategy.** Whatever paths a cache is asked about,
all those on slow network file systems are listed with the batch if and only if on each of these
devices the first path is absolute, and looking up its last component takes as long as the threshold
says. -/
theorem networkAsync_iff (kernel : Kernel) (hkernel : kernel.Lawful) (paths : List Path)
    (hpaths : ∀ path ∈ paths, kernel.Answers path) :
    (∀ before path after, paths = before ++ path :: after → kernel.OnSlowNetwork path →
        (detectAll kernel .new paths)[before.length]? = some .networkAsync) ↔
      ∀ before path after, paths = before ++ path :: after → kernel.OnSlowNetwork path →
        (∀ earlier ∈ before, kernel.stat earlier ≠ kernel.stat path) →
        path.isAbsolute = true ∧ LATENCY_THRESHOLD ≤ kernel.lookupTime path := by
  have hnew : Remembers kernel [] .new := fun dev => rfl
  have hbefore {before after : List Path} {path : Path} (hsplit : paths = before ++ path :: after) :
      ∀ earlier ∈ before, kernel.Answers earlier := fun earlier hmem =>
    hpaths earlier (by simp [hsplit, hmem])
  constructor
  · intro hall before path after hsplit hslow hearlier
    have hpath := hpaths path (by simp [hsplit])
    obtain ⟨dev, hdev⟩ := hpath.1
    have hresult := hall before path after hsplit hslow
    rw [detectAll_eq hpaths before path after hsplit hnew hdev, List.nil_append,
      (firstOn_eq_none (hbefore hsplit) hdev).mpr hearlier, Option.getD_none,
      Option.some.injEq] at hresult
    exact (ownStrategy_iff hkernel hpath hslow).mp hresult
  · intro hfirst before path after hsplit hslow
    have hpath := hpaths path (by simp [hsplit])
    obtain ⟨dev, hdev⟩ := hpath.1
    rw [detectAll_eq hpaths before path after hsplit hnew hdev, List.nil_append]
    cases hdecided : firstOn kernel before dev with
    | none =>
      have hearlier := (firstOn_eq_none (hbefore hsplit) hdev).mp hdecided
      rw [Option.getD_none, (ownStrategy_iff hkernel hpath hslow).mpr
        (hfirst before path after hsplit hslow hearlier)]
    | some first =>
      -- the path that decides is on the same device, so on the same slow network file system
      obtain ⟨before', after', hsplit', hon, hnone⟩ :=
        exists_of_firstOn_eq_some (hbefore hsplit) hdecided
      have hanswers := hbefore hsplit first (by simp [hsplit'])
      have hslow' := hslow.of_statDev hkernel hdev hon hanswers
      have hwhole : paths = before' ++ first :: (after' ++ path :: after) := by
        simp [hsplit, hsplit']
      have hearlier := (firstOn_eq_none (hbefore hwhole) hon).mp hnone
      rw [Option.getD_some, (ownStrategy_iff hkernel hanswers hslow').mpr
        (hfirst before' first _ hwhole hslow' hearlier)]

end Detect

/-- A kernel on which every path is on an NFS file system with a latency of five milliseconds. -/
def nfsKernel : Kernel where
  stat := fun _ => .ok 7
  statfs := fun _ => .ok 0x6969
  fstatat := fun dirfd path =>
    if dirfd < 0 ∧ dirfd ≠ AT_FDCWD ∧ path.isAbsolute = false then (.error (.os 9), 0)
    else (.ok 7, 5000000)
  latency := fun _ => 5000000

theorem lawful_nfsKernel : nfsKernel.Lawful where
  absolute := fun dirfd path habsolute => by simp [nfsKernel, habsolute]
  relative := fun dirfd path hneg hne hrelative => by simp [nfsKernel, hneg, hne, hrelative]
  lookup := fun path dev _ => ⟨7, by simp [nfsKernel]⟩
  fileSystem := fun path path' dev fType fType' _ _ h h' => Except.ok.inj (h.symm.trans h')
  latency := fun path dev _ => by simp [nfsKernel]

theorem answers_nfsKernel {paths : List Path}
    (hnul : ∀ path ∈ paths, hasNul path.asOsStr = false) :
    ∀ path ∈ paths, nfsKernel.Answers path :=
  fun path hpath => ⟨⟨7, by simp [statDev, hnul path hpath, nfsKernel]⟩, _, rfl⟩

/-- The absolute path `/d` and the relative path `d`. -/
def absoluteFirst : List Path := [⟨[.rootDir, .normal [100]]⟩, ⟨[.normal [100]]⟩]

/-- The statement above for these two paths: the absolute one makes the device a slow one, for both
of them. -/
theorem networkAsync_iff_absoluteFirst :
    (∀ path ∈ absoluteFirst, nfsKernel.OnSlowNetwork path) ∧
      ∀ before path after, absoluteFirst = before ++ path :: after → nfsKernel.OnSlowNetwork path →
        (detectAll nfsKernel .new absoluteFirst)[before.length]? = some .networkAsync := by
  refine ⟨fun path _ => ⟨7, 0x6969, rfl, rfl, by decide, by decide⟩, ?_⟩
  refine (networkAsync_iff nfsKernel lawful_nfsKernel absoluteFirst
    (answers_nfsKernel (by decide +kernel))).mpr fun before path after hsplit _ hearlier => ?_
  cases before with
  | nil =>
    obtain ⟨rfl, -⟩ := List.cons.inj hsplit
    decide +kernel
  | cons first before => exact absurd rfl (hearlier first List.mem_cons_self)

/-- The relative path `d` and the absolute path `/d`. -/
def relativeFirst : List Path := absoluteFirst.reverse

/-- The relative path makes the device a local one, for the absolute path as well. -/
theorem not_networkAsync_relativeFirst :
    detectAll nfsKernel .new relativeFirst = [.localSync, .localSync] ∧
      ¬ ∀ (kernel : Kernel) (paths : List Path), kernel.Lawful →
        (∀ path ∈ paths, kernel.Answers path) →
        ∀ before path after, paths = before ++ path :: after → kernel.OnSlowNetwork path →
          (detectAll kernel .new paths)[before.length]? = some .networkAsync := by
  have hresults : detectAll nfsKernel .new relativeFirst = [.localSync, .localSync] := by
    decide +kernel
  refine ⟨hresults, fun h => ?_⟩
  have hfirst := h nfsKernel relativeFirst lawful_nfsKernel
    (answers_nfsKernel (by decide +kernel)) [] _ _ rfl
    ⟨7, 0x6969, rfl, rfl, by decide, by decide⟩
  rw [hresults] at hfirst
  simp at hfirst

end JwalkMeta
