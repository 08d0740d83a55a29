import JwalkMeta.Lib.Forest
import JwalkMeta.Run.Streamed
import JwalkMeta.WalkDir.ReadFailures

/-!
# The forest of a walk

A walk that comes to its end unfolds a forest: one label for each result of a listing, with the
results of its own directory below it. The items are the labels in preorder, without the entries
above the minimal depth. The forest does not depend on the minimal depth, and it is the same for the
serial walk and for every parallel walk that keeps to the order of the serial one.

## Main definitions

* `Visit`, `Visit.emit`: what a walk does with one result.
* `Unfolds`: the forest of a walk.
* `KeepsOrder`: the parallel walks that keep to the order of the serial one.
* `Completes`: a walk has come to its end, a serial or a parallel one.
* `CompletesOnly`: the serial walk completes, and no walk that keeps to its order has other items.

## Main results

* `depthFirst_iff_unfolds`: the recursive definition of a walk in terms of its forest.
* `Completes.unfolds`: every walk that comes to its end unfolds its forest.
* `completesOnly_of_unfolds`: a walk whose forest is there comes to its end in one way only.
-/

namespace JwalkMeta

open Interaction SerialWalk

variable {B E : Type} {N : ℕ}

/-! ### The forest of a walk -/

/-- What a walk does with one result of a listing: the result, and the error of the read that it has
asked for. -/
structure Visit (E : Type) where
  result : Except Error (DirEntry E)
  readError : Option Error

/-- The item for a result: an entry whose directory could not be read carries the error. -/
def Visit.item (visit : Visit E) : Except Error (DirEntry E) :=
  match visit.result, visit.readError with
  | .ok dirEntry, some err => .ok { dirEntry with readChildrenError := some err }
  | result, _ => result

/-- The item, unless it is an entry above the minimal depth. -/
def Visit.emit (minDepth : ℕ) (visit : Visit E) : Option (Except Error (DirEntry E)) :=
  match visit.item with
  | .error err => some (.error err)
  | .ok dirEntry => if minDepth ≤ dirEntry.depth then some (.ok dirEntry) else none

/-- **The forest of a walk** over the results of a listing and the state that the client's callback
has left on its directory. -/
inductive Unfolds (read : ReadDirSpec B → ReadDirResult B E) :
    B → List (Except Error (DirEntry E)) → Forest (Visit E) → Prop
  | nil {state : B} : Unfolds read state [] .nil
  | error {state : B} {err : Error} {rest : List (Except Error (DirEntry E))}
      {forest : Forest (Visit E)} (hrest : Unfolds read state rest forest) :
    Unfolds read state (.error err :: rest) (.node ⟨.error err, none⟩ .nil forest)
  /-- An entry that asks for no read. -/
  | entry {state : B} {dirEntry : DirEntry E} {rest : List (Except Error (DirEntry E))}
      {forest : Forest (Visit E)} (hspec : dirEntry.readChildrenSpec state = none)
      (hrest : Unfolds read state rest forest) :
    Unfolds read state (.ok dirEntry :: rest) (.node ⟨.ok dirEntry, none⟩ .nil forest)
  /-- An entry whose directory cannot be read. -/
  | failed {state : B} {dirEntry : DirEntry E} {spec : ReadDirSpec B} {err : Error}
      {rest : List (Except Error (DirEntry E))} {forest : Forest (Visit E)}
      (hspec : dirEntry.readChildrenSpec state = some spec) (hread : read spec = .error err)
      (hrest : Unfolds read state rest forest) :
    Unfolds read state (.ok dirEntry :: rest) (.node ⟨.ok dirEntry, some err⟩ .nil forest)
  /-- An entry with the results of its directory below it. -/
  | listed {state : B} {dirEntry : DirEntry E} {spec : ReadDirSpec B} {readDir : ReadDir B E}
      {rest : List (Except Error (DirEntry E))} {below forest : Forest (Visit E)}
      (hspec : dirEntry.readChildrenSpec state = some spec) (hread : read spec = .ok readDir)
      (hdir : Unfolds read readDir.readDirState readDir.resultsList below)
      (hrest : Unfolds read state rest forest) :
    Unfolds read state (.ok dirEntry :: rest) (.node ⟨.ok dirEntry, none⟩ below forest)

section Forest

variable {read : ReadDirSpec B → ReadDirResult B E} {state : B} {minDepth : ℕ}
  {results items : List (Except Error (DirEntry E))} {reads : List (ReadDirSpec B)}
  {forest : Forest (Visit E)} {dirEntry : DirEntry E}

theorem emit_error (minDepth : ℕ) (err : Error) :
    Visit.emit (E := E) minDepth ⟨.error err, none⟩ = some (.error err) := rfl

theorem toList_emit_ok (minDepth : ℕ) (dirEntry : DirEntry E) :
    (Visit.emit minDepth ⟨.ok dirEntry, none⟩).toList = emitted minDepth dirEntry := by
  simp only [Visit.emit, Visit.item, emitted]
  split_ifs <;> rfl

theorem toList_emit_failed (minDepth : ℕ) (dirEntry : DirEntry E) (err : Error) :
    (Visit.emit minDepth ⟨.ok dirEntry, some err⟩).toList =
      emitted minDepth { dirEntry with readChildrenError := some err } := by
  simp only [Visit.emit, Visit.item, emitted]
  split_ifs <;> rfl

/-- The items of a forest, from its first root on. -/
theorem filterMap_emit_node (minDepth : ℕ) (visit : Visit E) (below rest : Forest (Visit E)) :
    (Forest.node visit below rest).labels.filterMap (Visit.emit minDepth) =
      (visit.emit minDepth).toList ++ (below.labels.filterMap (Visit.emit minDepth) ++
        rest.labels.filterMap (Visit.emit minDepth)) := by
  rw [Forest.labels_node, List.filterMap_cons, List.filterMap_append]
  cases visit.emit minDepth <;> rfl

/-- The roots of the forest are the results of the listing. -/
theorem Unfolds.map_result_roots (h : Unfolds read state results forest) :
    forest.roots.map Visit.result = results := by
  induction h with
  | nil => rfl
  | error hrest ih => rw [Forest.roots_node, List.map_cons, ih]
  | entry hspec hrest ih => rw [Forest.roots_node, List.map_cons, ih]
  | failed hspec hread hrest ih => rw [Forest.roots_node, List.map_cons, ih]
  | listed hspec hread hdir hrest ihdir ihrest => rw [Forest.roots_node, List.map_cons, ihrest]

/-- A walk has one forest. -/
theorem Unfolds.unique {forest' : Forest (Visit E)} (h : Unfolds read state results forest)
    (h' : Unfolds read state results forest') : forest = forest' := by
  induction h generalizing forest' with
  | nil => cases h' with | nil => rfl
  | error hrest ih => cases h' with | error hrest' => rw [ih hrest']
  | entry hspec hrest ih =>
    cases h' with
    | entry hspec' hrest' => rw [ih hrest']
    | failed hspec' hread' hrest' => simp [hspec] at hspec'
    | listed hspec' hread' hdir' hrest' => simp [hspec] at hspec'
  | failed hspec hread hrest ih =>
    cases h' with
    | entry hspec' hrest' => simp [hspec] at hspec'
    | failed hspec' hread' hrest' =>
      obtain rfl := Option.some.inj (hspec.symm.trans hspec')
      obtain rfl := Except.error.inj (hread.symm.trans hread')
      rw [ih hrest']
    | listed hspec' hread' hdir' hrest' =>
      obtain rfl := Option.some.inj (hspec.symm.trans hspec')
      simp [hread] at hread'
  | listed hspec hread hdir hrest ihdir ihrest =>
    cases h' with
    | entry hspec' hrest' => simp [hspec] at hspec'
    | failed hspec' hread' hrest' =>
      obtain rfl := Option.some.inj (hspec.symm.trans hspec')
      simp [hread] at hread'
    | listed hspec' hread' hdir' hrest' =>
      obtain rfl := Option.some.inj (hspec.symm.trans hspec')
      obtain rfl := Except.ok.inj (hread.symm.trans hread')
      rw [ihdir hdir', ihrest hrest']

/-- The results of the directory of an entry stand in the forest, if there is no error of a read. -/
theorem Unfolds.exists_read (h : Unfolds read state results forest)
    (hvisit : ⟨.ok dirEntry, none⟩ ∈ forest.labels) {path : Path}
    (hpath : dirEntry.readChildrenPath = some path) :
    ∃ spec readDir, spec.path = path ∧ spec.depth = dirEntry.depth ∧ read spec = .ok readDir ∧
      ∀ result ∈ readDir.resultsList, ∃ visit ∈ forest.labels, visit.result = result := by
  have hasks (state : B) : dirEntry.readChildrenSpec state =
      some ⟨dirEntry.depth, path, state, dirEntry.followLinkAncestors⟩ := by
    rw [DirEntry.readChildrenSpec, hpath]
    rfl
  have hgrow {inner outer : Forest (Visit E)} (hsub : inner.labels ⊆ outer.labels) :
      (∃ spec readDir, spec.path = path ∧ spec.depth = dirEntry.depth ∧ read spec = .ok readDir ∧
        ∀ result ∈ readDir.resultsList, ∃ visit ∈ inner.labels, visit.result = result) →
      ∃ spec readDir, spec.path = path ∧ spec.depth = dirEntry.depth ∧ read spec = .ok readDir ∧
        ∀ result ∈ readDir.resultsList, ∃ visit ∈ outer.labels, visit.result = result := by
    rintro ⟨spec, readDir, hspec, hdepth, hread, hresults⟩
    refine ⟨spec, readDir, hspec, hdepth, hread, fun result hresult => ?_⟩
    obtain ⟨visit, hmem, rfl⟩ := hresults result hresult
    exact ⟨visit, hsub hmem, rfl⟩
  induction h with
  | nil => exact absurd hvisit List.not_mem_nil
  | error hrest ih =>
    rcases List.mem_cons.mp hvisit with hfirst | hmem
    · cases hfirst
    · exact hgrow (List.subset_cons_self _ _) (ih hmem)
  | @entry state' dirEntry' rest forest hspec hrest ih =>
    rcases List.mem_cons.mp hvisit with hfirst | hmem
    · cases hfirst
      rw [hasks] at hspec
      cases hspec
    · exact hgrow (List.subset_cons_self _ _) (ih hmem)
  | failed hspec hread hrest ih =>
    rcases List.mem_cons.mp hvisit with hfirst | hmem
    · cases hfirst
    · exact hgrow (List.subset_cons_self _ _) (ih hmem)
  | @listed state' dirEntry' spec readDir rest below forest hspec hread hdir hrest ihdir ihrest =>
    rcases List.mem_cons.mp hvisit with hfirst | hmem
    · cases hfirst
      obtain rfl := Option.some.inj ((hasks state').symm.trans hspec)
      refine ⟨_, readDir, rfl, rfl, hread, fun result hresult => ?_⟩
      rw [← hdir.map_result_roots] at hresult
      obtain ⟨visit, hroot, rfl⟩ := List.mem_map.mp hresult
      exact ⟨visit, List.mem_cons_of_mem _
        (List.mem_append_left _ (Forest.mem_labels_of_mem_roots hroot)), rfl⟩
    · rcases List.mem_append.mp hmem with hbelow | hafter
      · exact hgrow (List.subset_cons_of_subset _ (List.subset_append_left _ _)) (ihdir hbelow)
      · exact hgrow (List.subset_cons_of_subset _ (List.subset_append_right _ _)) (ihrest hafter)

theorem DepthFirst.exists_unfolds (h : DepthFirst read minDepth state results items reads) :
    ∃ forest, Unfolds read state results forest ∧
      items = forest.labels.filterMap (Visit.emit minDepth) := by
  induction h with
  | nil => exact ⟨.nil, .nil, rfl⟩
  | error hrest ih =>
    obtain ⟨forest, hforest, rfl⟩ := ih
    refine ⟨_, .error hforest, ?_⟩
    rw [filterMap_emit_node, emit_error]
    rfl
  | entry hspec hrest ih =>
    obtain ⟨forest, hforest, rfl⟩ := ih
    refine ⟨_, .entry hspec hforest, ?_⟩
    rw [filterMap_emit_node, toList_emit_ok]
    rfl
  | failed hspec hread hrest ih =>
    obtain ⟨forest, hforest, rfl⟩ := ih
    refine ⟨_, .failed hspec hread hforest, ?_⟩
    rw [filterMap_emit_node, toList_emit_failed]
    rfl
  | listed hspec hread hdir hrest ihdir ihrest =>
    obtain ⟨below, hbelow, rfl⟩ := ihdir
    obtain ⟨forest, hforest, rfl⟩ := ihrest
    refine ⟨_, .listed hspec hread hbelow hforest, ?_⟩
    rw [filterMap_emit_node, toList_emit_ok]

theorem Unfolds.exists_depthFirst (h : Unfolds read state results forest) (minDepth : ℕ) :
    ∃ reads, DepthFirst read minDepth state results
      (forest.labels.filterMap (Visit.emit minDepth)) reads := by
  induction h with
  | nil => exact ⟨[], .nil⟩
  | error hrest ih =>
    obtain ⟨reads, hreads⟩ := ih
    rw [filterMap_emit_node, emit_error]
    exact ⟨reads, .error hreads⟩
  | entry hspec hrest ih =>
    obtain ⟨reads, hreads⟩ := ih
    rw [filterMap_emit_node, toList_emit_ok]
    exact ⟨reads, .entry hspec hreads⟩
  | failed hspec hread hrest ih =>
    obtain ⟨reads, hreads⟩ := ih
    rw [filterMap_emit_node, toList_emit_failed]
    exact ⟨_, .failed hspec hread hreads⟩
  | listed hspec hread hdir hrest ihdir ihrest =>
    obtain ⟨reads, hreads⟩ := ihdir
    obtain ⟨reads', hreads'⟩ := ihrest
    rw [filterMap_emit_node, toList_emit_ok]
    exact ⟨_, .listed hspec hread hreads hreads'⟩

/-- **The recursive definition of a walk in terms of its forest.** -/
theorem depthFirst_iff_unfolds :
    (∃ reads, DepthFirst read minDepth state results items reads) ↔
      ∃ forest, Unfolds read state results forest ∧
        items = forest.labels.filterMap (Visit.emit minDepth) := by
  constructor
  · rintro ⟨reads, h⟩
    exact h.exists_unfolds
  · rintro ⟨forest, h, rfl⟩
    exact h.exists_depthFirst minDepth

end Forest

/-! ### Parallel walks that the serial walk can follow -/

/-- A core callback whose parallel walks the serial walk can follow: the reads of a run stand at the
index paths of a core callback whose results no iterator can tell from those of the serial walk. -/
structure Traceable (callback : ReadDirCallback B E) : Prop where
  streams : Streams callback
  exists_twin : ∃ twin : ReadDirCallback B E,
    (∀ spec, listing (twin.read spec) = listing (callback.read spec)) ∧
    ∀ root capacity hcapacity, HandsDown (Config.walk callback capacity hcapacity false)
      (ReadAt twin root) (ResultAt twin root)

theorem Unstreamed.traceable {callback : ReadDirCallback B E} (h : Unstreamed callback) :
    Traceable callback :=
  ⟨h.streams, callback, fun _ => rfl, h.handsDown⟩

theorem Plain.traceable {callback : ReadDirCallback B E} (h : Plain callback) :
    Traceable callback :=
  ⟨h.streams, callback.twin, fun spec => h.listing_eq ⟨spec, ⟨[]⟩, 0⟩, h.handsDown⟩

/-- A walk with such a callback over bounded channels. -/
theorem Traceable.sound {callback : ReadDirCallback B E} (h : Traceable callback) (capacity : ℕ)
    (hcapacity : 0 < capacity) : (Config.walk callback capacity hcapacity false).Sound where
  sends := rfl
  disciplined := disciplined_multiThreadedWalkDir _
  planned := fun weighted => ⟨_, planned_multiThreadedWalkDir h.streams weighted⟩

/-- Serial walks over results that no iterator can tell apart make the same reads. -/
theorem SerialWalk.reads_of_listing {callback callback' : ReadDirCallback B E}
    (h : ∀ spec, listing (callback.read spec) = listing (callback'.read spec))
    (w : SerialWalk B E) (n : ℕ) : w.reads callback n = w.reads callback' n := by
  induction n with
  | zero => rfl
  | succ n ih => rw [SerialWalk.reads, SerialWalk.reads, ih, SerialWalk.steps_of_listing h]

section Traces

variable {callback : ReadDirCallback B E} {root : B × List (Except Error (DirEntry E))}
  {minDepth maxReceiveBufferSize capacity : ℕ} {hcapacity : 0 < capacity} {w : ParWalk B E N}

/-- **The serial walk can follow**: as long as a parallel walk has not been stopped, its iterator is
in a state of the serial walk. -/
theorem Traceable.exists_steps (h : Traceable callback) (hN : 0 < N)
    (hroots : (rootSpecs root).length ≤ 1)
    (hreach : ParWalk.Reaches (.walk callback capacity hcapacity false)
      (.init N root minDepth maxReceiveBufferSize) w) (hstop : w.run.stop = false) :
    ∃ n, ((serialWalk root minDepth).steps callback n).iter = w.iter := by
  obtain ⟨twin, hlisting, hdown⟩ := h.exists_twin
  have hsound := h.sound capacity hcapacity
  obtain ⟨n, hn⟩ : ∃ n, ((serialWalk root minDepth).steps twin n).iter = w.iter := by
    cases hspecs : rootSpecs root with
    | nil => exact (ParWalk.readless_of_reaches hspecs hreach).2
    | cons spec specs =>
      obtain rfl : specs = [] := by
        simpa [hspecs] using hroots
      obtain ⟨n, hn⟩ := ParWalk.traces_of_handsDown hsound.sends hsound.disciplined hsound.planned
        (hdown spec capacity hcapacity) hN hspecs hreach hstop
      exact ⟨n, hn.iter_eq⟩
  exact ⟨n, by rw [← SerialWalk.steps_of_listing hlisting, hn]⟩

/-- When a parallel walk has come to its end, it has made the reads of the serial walk. -/
theorem Traceable.exists_reads (h : Traceable callback) (hN : 0 < N)
    (hroots : (rootSpecs root).length ≤ 1)
    (hreach : ParWalk.Reaches (.walk callback capacity hcapacity false)
      (.init N root minDepth maxReceiveBufferSize) w) (hstop : w.run.stop = false)
    (hfinished : w.iter.finished = true) :
    ∃ n, ((serialWalk root minDepth).steps callback n).iter = w.iter ∧
      (w.run.taken.map Weighted.value).Perm ((serialWalk root minDepth).reads callback n) := by
  obtain ⟨twin, hlisting, hdown⟩ := h.exists_twin
  obtain ⟨n, hn, hperm⟩ := ParWalk.exists_reads_of_finished (h.sound capacity hcapacity)
    (fun spec => hdown spec capacity hcapacity) hN hroots hreach hstop hfinished
  exact ⟨n, by rw [← SerialWalk.steps_of_listing hlisting, hn],
    by rwa [← SerialWalk.reads_of_listing hlisting]⟩

end Traces

/-! ### Walks that come to their end -/

section Walks

variable [Inhabited E] {os : OperatingSystem} {opts : WalkDirOptions B E} {root : Path}
  {state : B} {minDepth : ℕ} {items : List (Except Error (DirEntry E))}

/-- The walks whose parallel form keeps to the order of the serial one: sorting, a client's callback
or the platform rules out streaming, or the tree is a plain tree of Linux and links are not
followed. -/
def KeepsOrder (os : OperatingSystem) (opts : WalkDirOptions B E) : Prop :=
  opts.sort = true ∨ opts.processReadDir.isSome = true ∨
    match os with
    | .linux calls => PlainLinux calls ∧ opts.followLinks = false
    | .windows _ => False
    | .unix _ => True

/-- **A walk has come to its end** with these items: the serial walk, or a parallel walk that keeps
to its order and has not been stopped, with any number of workers, any capacity of the channels, any
size of the receive buffer, and any order of steps. -/
inductive Completes (os : OperatingSystem) (opts : WalkDirOptions B E) (root : Path) (state : B)
    (minDepth : ℕ) : List (Except Error (DirEntry E)) → Prop
  | serial {items : List (Except Error (DirEntry E))}
      (hyields : (serialWalk (rootEntryResults os opts root state) minDepth).Yields
        (coreReadDirCallback os opts) items) : Completes os opts root state minDepth items
  | parallel {N capacity maxReceiveBufferSize : ℕ} (hN : 0 < N) (hcapacity : 0 < capacity)
      (w : ParWalk B E N) (horder : KeepsOrder os opts)
      (hreach : ParWalk.Reaches (.walk (coreReadDirCallback os opts) capacity hcapacity false)
        (.init N (rootEntryResults os opts root state) minDepth maxReceiveBufferSize) w)
      (hstop : w.run.stop = false) (hfinished : w.iter.finished = true) :
    Completes os opts root state minDepth w.iter.items

/-- **A walk completes with these items only**: the serial walk comes to its end with them, and a
parallel walk that keeps to its order does so if it comes to its end. -/
structure CompletesOnly (os : OperatingSystem) (opts : WalkDirOptions B E) (root : Path) (state : B)
    (minDepth : ℕ) (items : List (Except Error (DirEntry E))) : Prop where
  serial : (serialWalk (rootEntryResults os opts root state) minDepth).Yields
    (coreReadDirCallback os opts) items
  only : ∀ items', Completes os opts root state minDepth items' → items' = items

/-- `std::fs::read_dir` is not streamed. -/
theorem unstreamed_unix (calls : UnixCalls) (opts : WalkDirOptions B E) :
    Unstreamed (coreReadDirCallback (E := E) (.unix calls) opts) := by
  refine unstreamed_of_context (fun spec ctx => ?_) fun spec => ?_
  · unfold coreReadDirCallback
    dsimp only
    split_ifs with hdepth
    · rfl
    · exact retryTransientIo_context _ _ _ _ ctx rfl
  · unfold coreReadDirCallback
    dsimp only
    split_ifs with hdepth
    · exact ⟨rfl, rfl⟩
    · exact silent_retryTransientIo _ _ (fun attempt => silent_readDirOn _ _ attempt _ rfl) _ _

theorem KeepsOrder.traceable (h : KeepsOrder os opts) :
    Traceable (coreReadDirCallback (E := E) os opts) := by
  by_cases hopts : opts.sort = true ∨ opts.processReadDir.isSome = true
  · exact (unstreamed_coreReadDirCallback hopts os).traceable
  obtain ⟨hsort, hprocess⟩ := not_or.mp hopts
  have hos := (h.resolve_left hsort).resolve_left hprocess
  rw [Bool.not_eq_true] at hsort
  rw [Bool.not_eq_true, Option.isSome_eq_false_iff, Option.isNone_iff_eq_none] at hprocess
  cases os with
  | linux calls => exact (plain_coreReadDirCallback hos.1 hsort hprocess hos.2).traceable
  | windows calls => exact hos.elim
  | unix calls => exact (unstreamed_unix calls opts).traceable

/-- The items of a walk are those of the serial walk. -/
theorem Completes.yields
    (hroots : (rootSpecs (rootEntryResults os opts root state)).length ≤ 1)
    (h : Completes os opts root state minDepth items) :
    (serialWalk (rootEntryResults os opts root state) minDepth).Yields
      (coreReadDirCallback os opts) items := by
  cases h with
  | serial hyields => exact hyields
  | parallel hN hcapacity w horder hreach hstop hfinished =>
    obtain ⟨n, hn⟩ := horder.traceable.exists_steps hN hroots hreach hstop
    exact ⟨n, by rw [hn, hfinished], by rw [hn]⟩

/-- **Every walk that comes to its end unfolds its forest.** -/
theorem Completes.unfolds
    (hroots : (rootSpecs (rootEntryResults os opts root state)).length ≤ 1)
    (h : Completes os opts root state minDepth items) :
    ∃ forest, Unfolds (coreReadDirCallback os opts).read
        (rootEntryResults os opts root state).1 (rootEntryResults os opts root state).2 forest ∧
      items = forest.labels.filterMap (Visit.emit minDepth) := by
  obtain ⟨n, hn, rfl⟩ := h.yields hroots
  exact depthFirst_iff_unfolds.mp ⟨_, (serialWalk_iff_depthFirst (reverse_rootSpecs hroots)
    minDepth _ _).mp ⟨n, hn, rfl, rfl⟩⟩

/-- **A walk whose forest is there comes to its end in one way only.** -/
theorem completesOnly_of_unfolds {forest : Forest (Visit E)}
    (hroots : (rootSpecs (rootEntryResults os opts root state)).length ≤ 1)
    (h : Unfolds (coreReadDirCallback os opts).read
      (rootEntryResults os opts root state).1 (rootEntryResults os opts root state).2 forest)
    (minDepth : ℕ) :
    CompletesOnly os opts root state minDepth (forest.labels.filterMap (Visit.emit minDepth)) := by
  constructor
  · obtain ⟨reads, hreads⟩ := h.exists_depthFirst minDepth
    obtain ⟨n, hn, hitems, -⟩ := hreads.finished (reverse_rootSpecs hroots)
    exact ⟨n, hn, hitems⟩
  · intro items hcompletes
    obtain ⟨forest', hforest', rfl⟩ := hcompletes.unfolds hroots
    rw [h.unique hforest']

/-- Without a client's callback a walk has one root entry. -/
theorem rootResults_of_none (os : OperatingSystem) (hprocess : opts.processReadDir = none)
    (root : Path) (state : B) : (rootEntryResults os opts root state).2 =
      [processDirEntryResult os.systemCalls opts.followLinks
        (rootEntry (E := E) os.systemCalls opts root)] := by
  simp only [rootEntryResults, hprocess]
  rfl

/-- Without a client's callback a walk starts with at most one read. -/
theorem length_rootSpecs_le (hprocess : opts.processReadDir = none) :
    (rootSpecs (rootEntryResults os opts root state)).length ≤ 1 := by
  obtain ⟨result, hresult⟩ := rootEntryResults_of_none (E := E) os hprocess root state
  rw [rootSpecs, hresult]
  exact List.length_filterMap_le _ _

end Walks

end JwalkMeta
