import JwalkMeta.Run.Ancestry
import JwalkMeta.WalkDir.Alignment
import JwalkMeta.WalkDir.FileSystem
import Mathlib.Algebra.Order.BigOperators.Group.List
import Mathlib.Algebra.Order.Group.Nat

/-!
# Reads on a file system

What the core callback does on a directory of a file system, under any answers to its requests: its
result holds one result for each visible entry, and the reads it leads to are those of the
subdirectories and of the links that lead to a directory which is not found among the ancestors.

## Main definitions

* `FileSystem.EntryResult`: the result for an entry of a directory.
* `FileSystem.asks`: whether an entry asks for a read.

## Main results

* `FileSystem.spawns_iff`: the reads that a read leads to.
* `FileSystem.frugal`: a read schedules no more than its entries ask for.
-/

namespace JwalkMeta

open Interaction

variable {B E α : Type}

/-! ### Reads under any answers -/

/-- Attempts that succeed are not repeated. -/
theorem retryTransientIo_eq (platform : Platform)
    (op : ℕ → Option StreamingContext →
      Interaction (StreamOp (ReadDirSpec B)) Bool (ReadDirResult B E))
    (retries attempt : ℕ) (ctx : Option StreamingContext)
    (h : ∀ result, MayReturn (op attempt ctx) result → ∃ readDir, result = .ok readDir) :
    retryTransientIo platform op retries attempt ctx = op attempt ctx := by
  cases retries with
  | zero => rfl
  | succ retries =>
    refine bind_eq_self fun result hresult => ?_
    obtain ⟨readDir, rfl⟩ := h result hresult
    rfl

section Streaming

variable {isSubdir skip : α → Bool} {name : α → OsString} {req : ReadRequest B}
  {ctx : StreamingContext}

/-- What one call of the closure schedules. -/
theorem mayAsk_onSubdir {count : ℕ} {info : α} {weighted : Weighted (ReadDirSpec B)}
    (h : MayAsk (onSubdir skip name req ctx count info) (.schedule weighted)) :
    skip info = false ∧ weighted.value = subdirSpec req (name info) := by
  simp only [onSubdir, request_bind, mayAsk_ask, reduceCtorEq, false_or] at h
  obtain ⟨stopped, h⟩ := h
  cases stopped with
  | true => simp at h
  | false =>
    by_cases hskip : skip info = true
    · simp [hskip] at h
    · simp only [Bool.false_eq_true, ↓reduceIte, hskip, mayAsk_ask] at h
      obtain h | ⟨answer, h⟩ := h
      · obtain rfl : weighted = subdirItem name req ctx count info := by simpa using h
        exact ⟨by simpa using hskip, rfl⟩
      · cases answer <;> simp at h

/-- What an enumeration schedules. -/
theorem mayAsk_enumerateStreaming {count : ℕ} {records : List α}
    {weighted : Weighted (ReadDirSpec B)}
    (h : MayAsk (enumerateStreaming isSubdir (onSubdir skip name req ctx) count records)
      (.schedule weighted)) :
    ∃ info ∈ subdirs isSubdir skip records, weighted.value = subdirSpec req (name info) := by
  induction records generalizing count with
  | nil => exact absurd h mayAsk_done
  | cons info rest ih =>
    have hsublist : (subdirs isSubdir skip rest).Sublist (subdirs isSubdir skip (info :: rest)) :=
      (List.sublist_cons_self info rest).filter _
    have hrest (count : ℕ) (h : MayAsk (enumerateStreaming isSubdir (onSubdir skip name req ctx)
        count rest) (.schedule weighted)) : ∃ info' ∈ subdirs isSubdir skip (info :: rest),
          weighted.value = subdirSpec req (name info') := by
      obtain ⟨info', hinfo', hvalue⟩ := ih h
      exact ⟨info', hsublist.mem hinfo', hvalue⟩
    rw [enumerateStreaming] at h
    by_cases hsub : isSubdir info = true
    · rw [if_pos hsub, mayAsk_bind] at h
      obtain h | ⟨count', -, h⟩ := h
      · obtain ⟨hskip, hvalue⟩ := mayAsk_onSubdir h
        exact ⟨info, List.mem_filter.mpr ⟨List.mem_cons_self, by simp [hsub, hskip]⟩, hvalue⟩
      · exact hrest count' h
    · rw [if_neg hsub] at h
      exact hrest count h

/-- What the subdirectories among the records weigh. -/
def subdirsWeight (weight : ReadDirSpec B → ℕ) (isSubdir skip : α → Bool) (name : α → OsString)
    (req : ReadRequest B) (records : List α) : ℕ :=
  totalWeight weight ((subdirs isSubdir skip records).map fun info => subdirSpec req (name info))

/-- What an enumeration schedules weighs no more than the subdirectories; if it schedules nothing,
`total` may be spent afterwards. -/
theorem outlay_enumerateStreaming_le (weight : ReadDirSpec B → ℕ) (total count : ℕ)
    (records : List α) :
    (enumerateStreaming isSubdir (onSubdir skip name req ctx) count records).outlay
        (scheduleCost weight) (fun count => if count = 0 then total else 0) ≤
      if count = 0 then max total (subdirsWeight weight isSubdir skip name req records)
      else subdirsWeight weight isSubdir skip name req records := by
  induction records generalizing count with
  | nil =>
    by_cases hcount : count = 0 <;> simp [enumerateStreaming, hcount]
  | cons info rest ih =>
    have hsame := ih count
    have hnext := ih (count + 1)
    rw [enumerateStreaming]
    simp only [subdirsWeight, subdirs_cons] at hsame hnext ⊢
    by_cases hsub : isSubdir info = true
    · rw [if_pos hsub, outlay_bind]
      by_cases hskip : skip info = true
      · simpa [hsub, hskip, onSubdir, scheduleCost] using hsame
      · simp only [hsub, hskip, onSubdir, ↓reduceIte, request_bind, outlay_ask, scheduleCost,
          Bool.false_eq_true, pure_eq, outlay_done, Bool.not_false, Bool.and_self, List.map_cons,
          totalWeight_cons, subdirItem, subdirSpec, Nat.zero_add, Nat.add_eq_zero_iff,
          one_ne_zero, and_false] at hsame hnext ⊢
        split_ifs at hsame ⊢ <;> omega
    · simpa [hsub] using hsame

variable {opts : WalkDirOptions B E} {enumeration : Enumeration α}
  {makeResults : List α → List (Except Error (DirEntry E))} {result : ReadDirResult B E}

/-- The results of a read. -/
theorem mayReturn_readDirWith
    (h : MayReturn (readDirWith opts req enumeration isSubdir skip name makeResults) result) :
    ∃ count, result = readDirOutcome opts req enumeration makeResults count := by
  obtain ⟨count, -, hresult⟩ := mayReturn_bind.mp h
  exact ⟨count, mayReturn_done.mp hresult⟩

/-- What a read schedules. -/
theorem mayAsk_readDirWith {weighted : Weighted (ReadDirSpec B)}
    (h : MayAsk (readDirWith opts req enumeration isSubdir skip name makeResults)
      (.schedule weighted)) :
    ∃ info ∈ subdirs isSubdir skip enumeration.records,
      weighted.value = subdirSpec req (name info) := by
  obtain h | ⟨count, -, h⟩ := mayAsk_bind.mp h
  · unfold streamSubdirs at h
    split at h
    · exact mayAsk_enumerateStreaming h
    · exact absurd h mayAsk_done
  · exact absurd h mayAsk_done

/-- What a read schedules, and what is scheduled for its result. -/
theorem outlay_readDirWith_le (weight : ReadDirSpec B → ℕ) {total : ℕ}
    (htotal : ∀ count, totalWeight weight
      (childSpecs (readDirOutcome opts req enumeration makeResults count)) ≤ total)
    (hsubdirs : subdirsWeight weight isSubdir skip name req enumeration.records ≤ total) :
    (readDirWith opts req enumeration isSubdir skip name makeResults).outlay (scheduleCost weight)
      (fun result =>
        if streamedCount result = 0 then totalWeight weight (childSpecs result) else 0) ≤
      total := by
  have hrest (count : ℕ) : (if streamedCount
      (readDirOutcome opts req enumeration makeResults count) = 0 then totalWeight weight
        (childSpecs (readDirOutcome opts req enumeration makeResults count)) else 0) ≤
      if count = 0 then total else 0 := by
    rw [streamedCount_readDirOutcome]
    split_ifs
    · exact htotal count
    · exact le_rfl
  rw [readDirWith, outlay_bind]
  refine (outlay_mono fun count _ => hrest count).trans ?_
  unfold streamSubdirs
  split
  · refine (outlay_enumerateStreaming_le weight total 0 _).trans ?_
    rw [if_pos rfl]
    exact max_le le_rfl hsubdirs
  · simp

end Streaming

/-! ### The entries of a directory -/

namespace FileSystem

variable {ι : Type} [Inhabited E] {fs : FileSystem ι} {opts : WalkDirOptions B E}
  {req : ReadRequest B} {d : ι} {e : OsString × ι}

/-- Whether an entry is not skipped as hidden. -/
def visible (opts : WalkDirOptions B E) (e : OsString × ι) : Bool :=
  !(opts.skipHidden && isHidden e.1)

/-- The result for an entry of a directory: it is made with the right file type, and links are
followed. -/
def EntryResult (fs : FileSystem ι) (opts : WalkDirOptions B E) (req : ReadRequest B)
    (e : OsString × ι) (result : Except Error (DirEntry E)) : Prop :=
  ∃ metadata metadataExt fileType, fileType.isDir = (fs.node e.2).isDir ∧
    fileType.isSymlink = (fs.node e.2).isLink ∧
    result = processDirEntryResult fs.systemCalls opts.followLinks (.ok (.fromRaw
      req.readDirContentsDepth req.path metadata metadataExt e.1 fileType req.followLinkAncestors))

theorem entryAt_of_mem (hd : fs.openDir req.path = .ok d) (he : e ∈ (fs.node d).entries) :
    fs.entryAt req.path e.1 = .ok e.2 := by
  simp [entryAt, hd, Bind.bind, Except.bind, lookup_of_mem he]

/-- The mode that Linux finds for an entry whose type byte is unknown. -/
theorem statOf_entry (hd : fs.openDir req.path = .ok d) (he : e ∈ (fs.node d).entries)
    {statx : Option Statx} (hstatx : statx = none ∨ statx = some (fs.statx e.2)) (dType : UInt8) :
    statOf fs.linux ⟨dType, e.1, statx⟩ req.path true =
      some ((fs.statx e.2).mode, (fs.statx e.2).metaData, (fs.statx e.2).metaDataExt) := by
  rcases hstatx with rfl | rfl
  · have hcall : fs.linux.statx req.path e.1 = .ok (fs.statx e.2) := by
      simp [linux, entryAt_of_mem hd he, Except.map]
    have hnul : hasNul e.1 = false := (fs.validName d e he).2.2.1
    simp [statOf, tryFillFromStatx_eq, statxMetadata, hnul, hcall]
  · rfl

/-- The entry that Linux makes has the right file type. -/
theorem makeDirEntryLinux_entry (opts : WalkDirOptions B E) (hd : fs.openDir req.path = .ok d)
    (he : e ∈ (fs.node d).entries) {statx : Option Statx}
    (hstatx : statx = none ∨ statx = some (fs.statx e.2)) :
    ∃ metadata metadataExt fileType, fileType.isDir = (fs.node e.2).isDir ∧
      fileType.isSymlink = (fs.node e.2).isLink ∧
      makeDirEntryLinux (E := E) fs.linux ⟨fs.dType e.2, e.1, statx⟩ req.readDirContentsDepth
          req.path opts.readMetadata opts.readMetadataExt req.followLinkAncestors =
        .fromRaw req.readDirContentsDepth req.path metadata metadataExt e.1 fileType
          req.followLinkAncestors := by
  by_cases hknown : fs.dType e.2 = DT_UNKNOWN
  · refine ⟨if opts.readMetadata then some (fs.statx e.2).metaData else none,
      if opts.readMetadataExt then some (fs.statx e.2).metaDataExt else none,
      fileTypeFromMode (fs.statx e.2).mode, fs.isDir_mode e.2, fs.isSymlink_mode e.2, ?_⟩
    simp only [makeDirEntryLinux, hknown, beq_self_eq_true, Bool.or_true,
      statOf_entry hd he hstatx, ↓reduceIte]
  · obtain ⟨hdir, hlink⟩ := isDir_fileTypeFromDtype (fs.dType e.2)
    obtain ⟨hdir', hlink'⟩ := fs.dType_known e.2 hknown
    obtain ⟨metadata, metadataExt, hraw⟩ := exists_fromRaw_of_known (E := E) fs.linux
      ⟨fs.dType e.2, e.1, statx⟩ hknown req.readDirContentsDepth req.path opts.readMetadata
      opts.readMetadataExt req.followLinkAncestors
    exact ⟨metadata, metadataExt, _, hdir.trans hdir', hlink.trans hlink', hraw⟩

/-- The result for an entry on Linux. -/
theorem entryResult_linux (opts : WalkDirOptions B E) (hd : fs.openDir req.path = .ok d)
    (he : e ∈ (fs.node d).entries) {statx : Option Statx}
    (hstatx : statx = none ∨ statx = some (fs.statx e.2)) :
    ∃ result, fs.EntryResult opts req e result ∧
      linuxResult (E := E) fs.linux opts req ⟨fs.dType e.2, e.1, statx⟩ =
        if visible opts e then some result else none := by
  obtain ⟨metadata, metadataExt, fileType, hdir, hlink, hraw⟩ :=
    makeDirEntryLinux_entry opts hd he hstatx
  refine ⟨_, ⟨metadata, metadataExt, fileType, hdir, hlink, rfl⟩, ?_⟩
  rw [linuxResult, hraw]
  cases hhidden : opts.skipHidden && isHidden e.1 <;> simp only [visible, hhidden] <;> rfl

/-- The result for an entry elsewhere. -/
theorem entryResult_unix (opts : WalkDirOptions B E) (req : ReadRequest B) (e : OsString × ι) :
    ∃ result, fs.EntryResult opts req e result ∧
      unixResult (E := E) fs.unix opts req (.ok ⟨e.1, .ok (fs.statx e.2).metadata.fileType,
          .ok (fs.statx e.2).metadata⟩) =
        if visible opts e then some result else none := by
  have hmetadata : ∃ metadata, legacyMetadata fs.unix req.readDirContentsDepth req.path
      ⟨e.1, .ok (fs.statx e.2).metadata.fileType, .ok (fs.statx e.2).metadata⟩ opts.readMetadata
        opts.readMetadataExt = .ok metadata := by
    unfold legacyMetadata
    dsimp only
    split_ifs
    · exact ⟨_, rfl⟩
    · exact ⟨_, rfl⟩
    · split
      · exact ⟨_, rfl⟩
      · exact ⟨_, rfl⟩
    · exact ⟨_, rfl⟩
  obtain ⟨⟨metadata, metadataExt⟩, hmetadata⟩ := hmetadata
  refine ⟨_, ⟨metadata, metadataExt, (fs.statx e.2).metadata.fileType, fs.isDir_mode e.2,
    fs.isSymlink_mode e.2, rfl⟩, ?_⟩
  simp only [unixResult, hmetadata, DirEntry.fromEntry]
  cases hhidden : opts.skipHidden && isHidden e.1
  · have hskip : (opts.skipHidden && isHidden (DirEntry.fromRaw (E := E) req.readDirContentsDepth
        req.path metadata metadataExt e.1 (fs.statx e.2).metadata.fileType
        req.followLinkAncestors).fileName) = false := hhidden
    rw [hskip]
    simp only [visible, hhidden]
    rfl
  · have hskip : (opts.skipHidden && isHidden (DirEntry.fromRaw (E := E) req.readDirContentsDepth
        req.path metadata metadataExt e.1 (fs.statx e.2).metadata.fileType
        req.followLinkAncestors).fileName) = true := hhidden
    rw [hskip]
    simp only [visible, hhidden]
    rfl

/-- A list of results that each come from an entry. -/
theorem filterMap_results (opts : WalkDirOptions B E) (req : ReadRequest B) {β : Type}
    {entries : List (OsString × ι)} {record : OsString × ι → β}
    {make : β → Option (Except Error (DirEntry E))}
    (h : ∀ e ∈ entries, ∃ result, fs.EntryResult opts req e result ∧
      make (record e) = if visible opts e then some result else none) :
    ∃ result : OsString × ι → Except Error (DirEntry E),
      (∀ e ∈ entries, fs.EntryResult opts req e (result e)) ∧
      (entries.map record).filterMap make = (entries.filter (visible opts)).map result := by
  have : Nonempty (Except Error (DirEntry E)) := ⟨.error Error.busy⟩
  choose! result hresult hmake using h
  refine ⟨result, hresult, ?_⟩
  rw [List.filterMap_map]
  exact Selection.filterMap_ite fun e he => hmake e he

/-- The record of an entry in an enumeration of Linux. -/
def linuxRecord (fs : FileSystem ι) (e : OsString × ι) : LinuxDirEntryOwned :=
  ⟨fs.dType e.2, e.1, none⟩

/-- The enumeration of a directory of Linux. -/
theorem linuxRecords_eq (hd : fs.openDir req.path = .ok d) (attempt : ℕ) :
    linuxRecords fs.linux req.path attempt = ⟨(fs.node d).entries.map fs.linuxRecord, none⟩ := by
  have hrecords : fs.linux.enumerate req.path attempt = ⟨(DT_DIR, [46]) :: (DT_DIR, [46, 46]) ::
      (fs.node d).entries.map fun e => (fs.dType e.2, e.1), none⟩ := by
    simp [linux, hd]
  have hdots : ((fs.node d).entries.map fun e => (fs.dType e.2, e.1)).filter
      (fun record => !isDot record.2) = (fs.node d).entries.map fun e => (fs.dType e.2, e.1) := by
    refine List.filter_eq_self.mpr fun record hrecord => ?_
    obtain ⟨e, he, rfl⟩ := List.mem_map.mp hrecord
    simp [(fs.validName d e he).2.2]
  rw [linuxRecords, hrecords, List.filter_cons_of_neg (by decide),
    List.filter_cons_of_neg (by decide), hdots, List.map_map]
  rfl

omit [Inhabited E] in
/-- The batch fills in what the calls on the entries would report. -/
theorem batchStatx_entries (opts : WalkDirOptions B E) (hd : fs.openDir req.path = .ok d) :
    ∃ statx : OsString × ι → Option Statx,
      (∀ e ∈ (fs.node d).entries, statx e = none ∨ statx e = some (fs.statx e.2)) ∧
      batchStatx fs.linux opts req.path ((fs.node d).entries.map fs.linuxRecord) =
        (fs.node d).entries.map fun e => ⟨fs.dType e.2, e.1, statx e⟩ := by
  have hnone : batchStatx fs.linux opts req.path ((fs.node d).entries.map fs.linuxRecord) =
      (fs.node d).entries.map fs.linuxRecord → ∃ statx : OsString × ι → Option Statx,
        (∀ e ∈ (fs.node d).entries, statx e = none ∨ statx e = some (fs.statx e.2)) ∧
        batchStatx fs.linux opts req.path ((fs.node d).entries.map fs.linuxRecord) =
          (fs.node d).entries.map fun e => ⟨fs.dType e.2, e.1, statx e⟩ :=
    fun h => ⟨fun _ => none, fun _ _ => Or.inl rfl, h⟩
  have hprefetch : fs.linux.prefetch req.path = if fs.batched d then
      some fun name => (fs.entryAt req.path name).toOption.map fs.statx else none := by
    simp [linux, hd]
  by_cases hbatched : fs.batched d = true
  · rw [if_pos hbatched] at hprefetch
    simp only [batchStatx, hprefetch] at hnone ⊢
    split_ifs at hnone ⊢
    · refine ⟨fun e => some (fs.statx e.2), fun _ _ => Or.inr rfl, ?_⟩
      rw [List.map_map]
      refine List.map_congr_left fun e he => ?_
      simp [linuxRecord, entryAt_of_mem hd he, Except.toOption]
    · exact hnone rfl
  · rw [if_neg hbatched] at hprefetch
    exact hnone (by simp [batchStatx, hprefetch])

omit [Inhabited E] in
/-- The subdirectories that Linux schedules while it enumerates are visible directories. -/
theorem subdirs_linux (opts : WalkDirOptions B E) (entries : List (OsString × ι)) :
    subdirs (fun info => info.dType == DT_DIR) (skipLinux opts) (entries.map fs.linuxRecord) =
      (entries.filter fun e => visible opts e && fs.dType e.2 == DT_DIR).map fs.linuxRecord := by
  rw [JwalkMeta.subdirs_linux, List.filter_map]
  rfl

theorem isDir_of_dType (h : (fs.dType e.2 == DT_DIR) = true) : (fs.node e.2).isDir = true := by
  have hdir := beq_iff_eq.mp h
  have hknown : fs.dType e.2 ≠ DT_UNKNOWN := by
    rw [hdir]
    decide
  rw [← (fs.dType_known e.2 hknown).1, h]

/-! ### The reads that a directory leads to -/

/-- Whether an entry asks for a read: it is visible, and a directory or a link that leads to one. -/
def asks (fs : FileSystem ι) (opts : WalkDirOptions B E) (req : ReadRequest B)
    (e : OsString × ι) : Bool :=
  visible opts e && ((fs.node e.2).isDir || opts.followLinks && (fs.node e.2).isLink &&
    leadsToDirectory fs.systemCalls req.followLinkAncestors req.path e.1)

/-- The reads that the entries of a directory ask for. -/
def subdirSpecs (fs : FileSystem ι) (opts : WalkDirOptions B E) (req : ReadRequest B) (d : ι) :
    List (ReadDirSpec B) :=
  ((fs.node d).entries.filter (fs.asks opts req)).map fun e => subdirSpec req e.1

/-- The reads that results for all entries ask for. -/
theorem childSpecs_results (hprocess : opts.processReadDir = none)
    (hdepth : req.readDirContentsDepth ≠ 0) {results : OsString × ι → Except Error (DirEntry E)}
    (hresults : ∀ e ∈ (fs.node d).entries, fs.EntryResult opts req e (results e)) (count : ℕ) :
    (childSpecs (.ok (finishReadDir opts req count
      (((fs.node d).entries.filter (visible opts)).map results)))).Perm
        (fs.subdirSpecs opts req d) := by
  have hspecs : (((fs.node d).entries.filter (visible opts)).map results).filterMap
      (ReadDir.childSpec req.clientReadState) = fs.subdirSpecs opts req d := by
    rw [List.filterMap_map, subdirSpecs]
    have hasks : (fs.node d).entries.filter (fs.asks opts req) =
        ((fs.node d).entries.filter (visible opts)).filter fun e => (fs.node e.2).isDir ||
          opts.followLinks && (fs.node e.2).isLink &&
            leadsToDirectory fs.systemCalls req.followLinkAncestors req.path e.1 := by
      rw [List.filter_filter]
      exact List.filter_congr fun e _ => Bool.and_comm _ _
    rw [hasks]
    refine Selection.filterMap_ite fun e he => ?_
    obtain ⟨metadata, metadataExt, fileType, hdir, hlink, hresult⟩ :=
      hresults e (List.mem_of_mem_filter he)
    rw [Function.comp_apply, hresult, childSpec_processDirEntryResult _ _ _ hdepth, hdir, hlink]
  rw [← hspecs]
  simp only [childSpecs, ReadDir.readChildrenSpecs, finishReadDir, hprocess]
  split_ifs
  · exact (List.mergeSort_perm _ _).filterMap _
  · exact List.Perm.refl _

/-- What the read of a directory can do. -/
structure ReadOf (fs : FileSystem ι) (opts : WalkDirOptions B E) (req : ReadRequest B) (d : ι)
    (p : Interaction (StreamOp (ReadDirSpec B)) Bool (ReadDirResult B E)) : Prop where
  /-- The result holds one result for each visible entry. -/
  returns : ∀ result, MayReturn p result → ∃ count, ∃ results : OsString × ι → _,
    (∀ e ∈ (fs.node d).entries, fs.EntryResult opts req e (results e)) ∧
    result = .ok (finishReadDir opts req count
      (((fs.node d).entries.filter (visible opts)).map results))
  /-- What is scheduled are reads that entries ask for. -/
  schedules : ∀ weighted, MayAsk p (.schedule weighted) →
    weighted.value ∈ fs.subdirSpecs opts req d
  /-- No more is scheduled than the entries ask for. -/
  outlay_le : ∀ weight : ReadDirSpec B → ℕ, p.outlay (scheduleCost weight) (fun result =>
    if streamedCount result = 0 then totalWeight weight (childSpecs result) else 0) ≤
      totalWeight weight (fs.subdirSpecs opts req d)

/-- The read of a directory of Linux. -/
theorem readOf_linux (hprocess : opts.processReadDir = none)
    (hdepth : req.readDirContentsDepth ≠ 0) (hd : fs.openDir req.path = .ok d) (attempt : ℕ) :
    fs.ReadOf opts req d (readDirOn (E := E) (.linux fs.linux) opts attempt req) := by
  rw [readDirOn_linux, linuxRecords_eq hd]
  obtain ⟨statx, hstatx, hbatch⟩ := batchStatx_entries opts hd
  obtain ⟨results, hresults, hmake⟩ := filterMap_results opts req
    fun e he => entryResult_linux opts hd he (hstatx e he)
  -- whatever was scheduled, the outcome holds the same results
  have houtcome (count : ℕ) : readDirOutcome opts req
      ⟨(fs.node d).entries.map fs.linuxRecord, none⟩ (fun entries =>
        (batchStatx fs.linux opts req.path entries).filterMap (linuxResult fs.linux opts req))
      count = .ok (finishReadDir opts req count
        (((fs.node d).entries.filter (visible opts)).map results)) := by
    simp only [readDirOutcome, hbatch, hmake]
  have hsubdirs : ((fs.node d).entries.filter fun e => visible opts e &&
      fs.dType e.2 == DT_DIR).Sublist ((fs.node d).entries.filter (fs.asks opts req)) := by
    refine List.monotone_filter_right _ fun e he => ?_
    rw [Bool.and_eq_true] at he
    simp [asks, he.1, isDir_of_dType he.2]
  refine ⟨fun result h => ?_, fun weighted h => ?_, fun weight => ?_⟩
  · obtain ⟨count, rfl⟩ := mayReturn_readDirWith h
    exact ⟨count, results, hresults, houtcome count⟩
  · obtain ⟨info, hinfo, hvalue⟩ := mayAsk_readDirWith h
    rw [subdirs_linux] at hinfo
    obtain ⟨e, he, rfl⟩ := List.mem_map.mp hinfo
    rw [hvalue]
    exact List.mem_map_of_mem (hsubdirs.mem he)
  · refine outlay_readDirWith_le weight (fun count => ?_) ?_
    · rw [houtcome]
      exact (totalWeight_perm (childSpecs_results hprocess hdepth hresults count)).le
    · rw [subdirsWeight, subdirs_linux, List.map_map]
      exact ((hsubdirs.map _).map weight).sum_le_sum fun _ _ => Nat.zero_le _

/-- The read of a directory elsewhere. -/
theorem readOf_unix (hprocess : opts.processReadDir = none)
    (hdepth : req.readDirContentsDepth ≠ 0) (hd : fs.openDir req.path = .ok d) (attempt : ℕ) :
    fs.ReadOf opts req d (readDirOn (E := E) (.unix fs.unix) opts attempt req) := by
  obtain ⟨results, hresults, hmake⟩ := filterMap_results opts req
    fun e (_ : e ∈ (fs.node d).entries) => entryResult_unix opts req e
  have hread : readDirOn (E := E) (.unix fs.unix) opts attempt req = .done (.ok
      (finishReadDir opts req 0 (((fs.node d).entries.filter (visible opts)).map results))) := by
    simp only [readDirOn, readDirUnixFsLegacy, unix, hd, Except.map]
    rw [← hmake]
    rfl
  rw [hread]
  refine ⟨fun result h => ?_, fun weighted h => absurd h mayAsk_done, fun weight => ?_⟩
  · exact ⟨0, results, hresults, mayReturn_done.mp h⟩
  · rw [outlay_done]
    split_ifs
    · exact (totalWeight_perm (childSpecs_results hprocess hdepth hresults 0)).le
    · exact Nat.zero_le _

/-! ### The core callback -/

variable {getdents : Bool} {spec child : ReadDirSpec B}

/-- A read of a directory at the maximal depth opens nothing. -/
theorem callback_of_maxDepth (hdepth : opts.maxDepth < saturatingAdd spec.depth 1)
    (ctx : Option StreamingContext) :
    coreReadDirCallback (E := E) (fs.host getdents) opts spec ctx =
      .done (.ok (.new spec.clientReadState [])) := by
  simp [coreReadDirCallback, hdepth]

/-- What the core callback can do for a directory. -/
theorem readOf_callback (getdents : Bool) (hprocess : opts.processReadDir = none)
    (hdepth : saturatingAdd spec.depth 1 ≤ opts.maxDepth) (hd : fs.openDir spec.path = .ok d)
    (ctx : Option StreamingContext) :
    fs.ReadOf opts (readRequest fs.systemCalls opts spec ctx) d
      (coreReadDirCallback (E := E) (fs.host getdents) opts spec ctx) := by
  have hread : fs.ReadOf opts (readRequest fs.systemCalls opts spec ctx) d
      (readDirOn (E := E) (fs.host getdents) opts 0
        (readRequest fs.systemCalls opts spec ctx)) := by
    cases getdents with
    | true => exact readOf_linux hprocess (saturatingAdd_one_ne_zero _) hd 0
    | false => exact readOf_unix hprocess (saturatingAdd_one_ne_zero _) hd 0
  have hcalls : (fs.host getdents).systemCalls = fs.systemCalls := by cases getdents <;> rfl
  have hcallback : coreReadDirCallback (E := E) (fs.host getdents) opts spec ctx =
      readDirOn (fs.host getdents) opts 0 (readRequest fs.systemCalls opts spec ctx) := by
    simp only [coreReadDirCallback, Nat.not_lt.mpr hdepth, ↓reduceIte, hcalls]
    refine retryTransientIo_eq _ (fun attempt ctx => readDirOn (fs.host getdents) opts attempt
      (readRequest fs.systemCalls opts spec ctx)) _ 0 ctx fun result hresult => ?_
    obtain ⟨count, results, -, rfl⟩ := hread.returns result hresult
    exact ⟨_, rfl⟩
  rwa [hcallback]

section Opened

variable (hprocess : opts.processReadDir = none)
  (hdepth : saturatingAdd spec.depth 1 ≤ opts.maxDepth) (hd : fs.openDir spec.path = .ok d)

include hprocess hdepth hd

/-- The reads that the entries of any result ask for. -/
theorem childSpecs_perm {ctx : Option StreamingContext} {result : ReadDirResult B E}
    (h : MayReturn (coreReadDirCallback (fs.host getdents) opts spec ctx) result) :
    (childSpecs result).Perm
      (fs.subdirSpecs opts (readRequest fs.systemCalls opts spec none) d) := by
  obtain ⟨count, results, hresults, rfl⟩ :=
    (readOf_callback getdents hprocess hdepth hd ctx).returns result h
  exact childSpecs_results hprocess (saturatingAdd_one_ne_zero _) hresults count

/-- The reads that the entries of a directory ask for. -/
theorem children_perm :
    ((coreReadDirCallback (E := E) (fs.host getdents) opts).children spec).Perm
      (fs.subdirSpecs opts (readRequest fs.systemCalls opts spec none) d) :=
  childSpecs_perm hprocess hdepth hd (mayReturn_value _ _)

/-- **The reads that a read leads to** are those that the entries of its directory ask for. -/
theorem spawns_iff :
    (coreReadDirCallback (E := E) (fs.host getdents) opts).Spawns spec child ↔
      child ∈ fs.subdirSpecs opts (readRequest fs.systemCalls opts spec none) d := by
  constructor
  · rintro ⟨ctx, ⟨weighted, hask, rfl⟩ | ⟨result, hreturn, hchild⟩⟩
    · exact (readOf_callback getdents hprocess hdepth hd ctx).schedules weighted hask
    · exact (childSpecs_perm hprocess hdepth hd hreturn).mem_iff.mp hchild
  · intro hchild
    exact ReadDirCallback.spawns_of_mem ((children_perm hprocess hdepth hd).mem_iff.mpr hchild)

end Opened

theorem not_spawns_of_maxDepth (hdepth : opts.maxDepth < saturatingAdd spec.depth 1) :
    ¬ (coreReadDirCallback (E := E) (fs.host getdents) opts).Spawns spec child := by
  rintro ⟨ctx, ⟨weighted, hask, -⟩ | ⟨result, hreturn, hchild⟩⟩
  · rw [callback_of_maxDepth hdepth] at hask
    exact mayAsk_done hask
  · rw [callback_of_maxDepth hdepth, mayReturn_done] at hreturn
    subst hreturn
    simp [childSpecs, ReadDir.readChildrenSpecs, ReadDir.new] at hchild

/-- A read schedules no more than its entries ask for. -/
theorem frugal (hprocess : opts.processReadDir = none) (hd : fs.openDir spec.path = .ok d) :
    (coreReadDirCallback (E := E) (fs.host getdents) opts).Frugal spec := by
  intro weight ctx
  rcases Nat.lt_or_ge opts.maxDepth (saturatingAdd spec.depth 1) with hdepth | hdepth
  · rw [callback_of_maxDepth hdepth]
    simp [childSpecs, ReadDir.readChildrenSpecs, ReadDir.new, totalWeight]
  · refine ((readOf_callback getdents hprocess hdepth hd ctx).outlay_le weight).trans ?_
    exact (totalWeight_perm (children_perm hprocess hdepth hd)).ge

end FileSystem

end JwalkMeta
