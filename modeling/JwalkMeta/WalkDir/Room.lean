import JwalkMeta.Run.Termination
import JwalkMeta.WalkDir.Ahead
import JwalkMeta.WalkDir.Reads

/-!
# How much room a parallel walk needs

A parallel walk can come to a halt when every worker waits for room in the work queue. This cannot
happen if the channels have room for the reads of the serial walk, less two for every worker: then
in every order of steps progress is made finitely often, and from every state the walk can be led to
its end.

## Main results

* `KeepsOrder.economical`: reads that lead to nothing but what their entries ask for.
* `DepthFirst.length_reads`: the number of reads of the serial walk.
* `terminates_of_room`: a parallel walk with enough room comes to its end.
-/

namespace JwalkMeta

open Interaction SerialWalk

variable {B E : Type} {N : ℕ}

/-! ### Reads that lead to no more than their entries ask for -/

section Economical

variable [Inhabited E] {os : OperatingSystem} {opts : WalkDirOptions B E} {spec : ReadDirSpec B}

/-- A program that asks for nothing is done. -/
theorem exists_done_of_asked {Q A α : Type} {ρ : Q → A} {p : Interaction Q A α}
    (h : asked ρ p = []) : ∃ a, p = .done a := by
  cases p with
  | done a => exact ⟨a, rfl⟩
  | ask q k => simp at h

/-- A read that makes no use of its context asks for nothing. -/
theorem done_coreReadDirCallback
    (hctx : ∀ ctx, coreReadDirCallback (E := E) os opts spec ctx =
      coreReadDirCallback os opts spec none) :
    ∃ result, ∀ ctx, coreReadDirCallback (E := E) os opts spec ctx = .done result := by
  have hsilent :
      asked StreamOp.unstopped (coreReadDirCallback (E := E) os opts spec none) = [] := by
    unfold coreReadDirCallback
    dsimp only
    split_ifs
    · rfl
    · exact (silent_retryTransientIo _ _ (fun attempt => silent_readDirOn _ _ attempt _ rfl) _ _).1
  obtain ⟨result, hdone⟩ := exists_done_of_asked hsilent
  exact ⟨result, fun ctx => (hctx ctx).trans hdone⟩

/-- A read whose first attempt makes no use of its context. -/
theorem coreReadDirCallback_of_readDirOn
    (h : ∀ (req : ReadRequest B) (ctx : Option StreamingContext),
      readDirOn (E := E) os opts 0 { req with streamingCtx := ctx } =
        readDirOn os opts 0 { req with streamingCtx := none }) (ctx : Option StreamingContext) :
    coreReadDirCallback (E := E) os opts spec ctx = coreReadDirCallback os opts spec none := by
  unfold coreReadDirCallback
  dsimp only
  split_ifs
  · rfl
  · exact retryTransientIo_context _ _ _ _ ctx
      (h (readRequest os.systemCalls opts spec none) ctx)

omit [Inhabited E] in
/-- The reads that a listing asks for, whether it is sorted or not. -/
theorem childSpecs_finishReadDir (hprocess : opts.processReadDir = none) (req : ReadRequest B)
    (count : ℕ) (results : List (Except Error (DirEntry E))) :
    (childSpecs (.ok (finishReadDir opts req count results))).Perm
      (results.filterMap (ReadDir.childSpec req.clientReadState)) := by
  simp only [childSpecs, ReadDir.readChildrenSpecs, finishReadDir, hprocess]
  split_ifs
  · exact (List.mergeSort_perm _ _).filterMap _
  · exact List.Perm.refl _

/-- The read of a directory of a plain tree that is enumerated to its end. -/
theorem economical_plain {calls : LinuxCalls} (hplain : PlainLinux calls)
    (hprocess : opts.processReadDir = none) (hfollow : opts.followLinks = false)
    (hdepth : saturatingAdd spec.depth 1 ≤ opts.maxDepth)
    (hok : (linuxRecords calls spec.path 0).error = none) :
    (coreReadDirCallback (E := E) (.linux calls) opts).Economical spec := by
  set req := readRequest calls.toSystemCalls opts spec with hreq
  set records := (linuxRecords calls spec.path 0).records with hrecords
  set subdirSpecs := (subdirs (fun info => info.dType == DT_DIR) (skipLinux opts) records).map
    fun info => subdirSpec (req none) info.name with hsubdirs
  -- whatever was scheduled, the entries ask for the visible directories
  have hasked (ctx : Option StreamingContext) (count : ℕ) : ∃ results,
      readDirOutcome opts (req ctx) (linuxRecords calls spec.path 0) (fun entries =>
        (batchStatx calls opts spec.path entries).filterMap
          (linuxResult (E := E) calls opts (req ctx))) count =
        .ok (finishReadDir opts (req ctx) count results) ∧
      (childSpecs (.ok (finishReadDir opts (req ctx) count results))).Perm subdirSpecs := by
    refine ⟨_, by rw [readDirOutcome, hok], ?_⟩
    refine (childSpecs_finishReadDir hprocess _ _ _).trans (.of_eq ?_)
    refine (filterMap_linuxResults calls opts (req ctx) (saturatingAdd_one_ne_zero _) records
      (hplain.known spec.path 0)).trans ?_
    rw [hsubdirs, subdirs_linux]
    simp only [asksLinux, hfollow, Bool.false_and, Bool.or_false]
    rfl
  have hread (ctx : Option StreamingContext) :
      coreReadDirCallback (E := E) (.linux calls) opts spec ctx =
        readDirWith opts (req ctx) (linuxRecords calls spec.path 0)
          (fun info => info.dType == DT_DIR) (skipLinux opts) LinuxDirEntryOwned.name
          fun entries => (batchStatx calls opts spec.path entries).filterMap
            (linuxResult calls opts (req ctx)) := by
    simp only [coreReadDirCallback, Nat.not_lt.mpr hdepth, ↓reduceIte]
    refine retryTransientIo_eq _ (fun attempt ctx => readDirOn (.linux calls) opts attempt
      (req ctx)) _ 0 ctx fun result hresult => ?_
    obtain ⟨count, rfl⟩ := mayReturn_readDirWith hresult
    obtain ⟨results, houtcome, -⟩ := hasked ctx count
    exact ⟨_, houtcome⟩
  have hreturns (ctx : Option StreamingContext) {result : ReadDirResult B E}
      (h : MayReturn (coreReadDirCallback (.linux calls) opts spec ctx) result) :
      (childSpecs result).Perm subdirSpecs := by
    rw [hread] at h
    obtain ⟨count, rfl⟩ := mayReturn_readDirWith h
    obtain ⟨results, houtcome, hperm⟩ := hasked ctx count
    rwa [houtcome]
  have hchildren : ((coreReadDirCallback (E := E) (.linux calls) opts).children spec).Perm
      subdirSpecs := hreturns none (mayReturn_value _ _)
  refine ⟨?_, fun weight ctx => ?_⟩
  · rintro child ⟨ctx, ⟨weighted, hask, rfl⟩ | ⟨result, hreturn, hchild⟩⟩
    · rw [hread] at hask
      obtain ⟨info, hinfo, hvalue⟩ := mayAsk_readDirWith hask
      rw [hchildren.mem_iff, hvalue]
      exact List.mem_map_of_mem hinfo
    · exact hchildren.symm.mem_iff.mp ((hreturns ctx hreturn).mem_iff.mp hchild)
  · have hscheduled : subdirsWeight weight (fun info => info.dType == DT_DIR) (skipLinux opts)
        LinuxDirEntryOwned.name (req ctx) records ≤ totalWeight weight subdirSpecs := le_rfl
    rw [hread]
    refine (outlay_readDirWith_le weight (fun count => ?_) hscheduled).trans
      (totalWeight_perm hchildren).ge
    obtain ⟨results, houtcome, hperm⟩ := hasked ctx count
    rw [houtcome]
    exact (totalWeight_perm hperm).le

/-- **Walks that keep to the order read no more than their entries ask for.** -/
theorem KeepsOrder.economical (h : KeepsOrder os opts) (spec : ReadDirSpec B) :
    (coreReadDirCallback (E := E) os opts).Economical spec := by
  by_cases hopts : opts.sort = true ∨ opts.processReadDir.isSome = true
  · exact economical_of_done (done_coreReadDirCallback
      (coreReadDirCallback_of_readDirOn fun req ctx => readDirOn_context hopts os 0 req ctx))
  obtain ⟨hsort, hprocess⟩ := not_or.mp hopts
  have hos := (h.resolve_left hsort).resolve_left hprocess
  rw [Bool.not_eq_true, Option.isSome_eq_false_iff, Option.isNone_iff_eq_none] at hprocess
  cases os with
  | linux calls =>
    obtain ⟨hplain, hfollow⟩ := hos
    have hcontext (hsilent : opts.maxDepth < saturatingAdd spec.depth 1 ∨
        (linuxRecords calls spec.path 0).records = []) :
        (coreReadDirCallback (E := E) (.linux calls) opts).Economical spec :=
      economical_of_done (done_coreReadDirCallback (coreReadDirCallback_context hsilent))
    rcases Nat.lt_or_ge opts.maxDepth (saturatingAdd spec.depth 1) with hdepth | hdepth
    · exact hcontext (Or.inl hdepth)
    · rcases hplain.complete spec.path 0 with hok | hnil
      · exact economical_plain hplain hprocess hfollow hdepth hok
      · exact hcontext (Or.inr hnil)
  | windows calls => exact hos.elim
  | unix calls =>
    exact economical_of_done (done_coreReadDirCallback
      (coreReadDirCallback_of_readDirOn fun _ _ => rfl))

end Economical

/-! ### The number of reads -/

section Reads

variable {callback : ReadDirCallback B E} {minDepth : ℕ} {state : B}
  {results items : List (Except Error (DirEntry E))} {reads : List (ReadDirSpec B)}

theorem children_of_ok {spec : ReadDirSpec B} {readDir : ReadDir B E}
    (h : callback.read spec = .ok readDir) :
    callback.children spec =
      readDir.resultsList.filterMap (ReadDir.childSpec readDir.readDirState) := by
  rw [ReadDirCallback.children, h]
  rfl

theorem children_of_error {spec : ReadDirSpec B} {err : Error}
    (h : callback.read spec = .error err) : callback.children spec = [] := by
  rw [ReadDirCallback.children, h]
  rfl

/-- The tree of the reads of a walk that ends is finite. -/
theorem DepthFirst.exists_shallow
    (h : DepthFirst callback.read minDepth state results items reads) :
    ∃ n, ∀ spec ∈ results.filterMap (ReadDir.childSpec state),
      Lineage.Shallow callback.children n spec := by
  induction h with
  | nil => exact ⟨0, fun spec hspec => absurd hspec List.not_mem_nil⟩
  | error hrest ih => exact ih
  | entry hspec hrest ih =>
    rwa [filterMap_childSpec_of_none hspec]
  | failed hspec hread hrest ih =>
    obtain ⟨n, hn⟩ := ih
    rw [filterMap_childSpec_of_some hspec]
    refine ⟨n + 1, List.forall_mem_cons.mpr ⟨fun child hchild => ?_, fun spec hmem =>
      (hn spec hmem).succ⟩⟩
    rw [children_of_error hread] at hchild
    exact absurd hchild List.not_mem_nil
  | listed hspec hread hdir hrest ihdir ihrest =>
    obtain ⟨m, hm⟩ := ihdir
    obtain ⟨n, hn⟩ := ihrest
    rw [filterMap_childSpec_of_some hspec]
    refine ⟨max m n + 1, List.forall_mem_cons.mpr ⟨fun child hchild => ?_, fun spec hmem =>
      (hn spec hmem).mono ((le_max_right m n).trans (Nat.le_succ _))⟩⟩
    rw [children_of_ok hread] at hchild
    exact (hm child hchild).mono (le_max_left m n)

/-- **The number of reads of a walk** is the weight of its tree of reads. -/
theorem DepthFirst.length_reads (h : DepthFirst callback.read minDepth state results items reads)
    {n : ℕ} (hshallow : ∀ spec ∈ results.filterMap (ReadDir.childSpec state),
      Lineage.Shallow callback.children n spec) :
    reads.length = totalWeight (Lineage.weight (fun _ => 1) callback.children n)
      (results.filterMap (ReadDir.childSpec state)) := by
  induction h with
  | nil => rfl
  | error hrest ih => exact ih hshallow
  | entry hspec hrest ih =>
    rw [filterMap_childSpec_of_none hspec] at hshallow ⊢
    exact ih hshallow
  | failed hspec hread hrest ih =>
    rw [filterMap_childSpec_of_some hspec] at hshallow ⊢
    obtain ⟨hspecShallow, hrestShallow⟩ := List.forall_mem_cons.mp hshallow
    rw [List.length_cons, totalWeight_cons, hspecShallow.weight_eq, children_of_error hread,
      ← ih hrestShallow]
    exact Nat.add_comm _ _
  | @listed _ _ spec readDir _ _ _ reads reads' hspec hread hdir hrest ihdir ihrest =>
    rw [filterMap_childSpec_of_some hspec] at hshallow ⊢
    obtain ⟨hspecShallow, hrestShallow⟩ := List.forall_mem_cons.mp hshallow
    have hchildren := children_of_ok hread
    have hbelow := ihdir fun child hchild => hspecShallow.child (hchildren ▸ hchild)
    have hweight : Lineage.weight (fun _ => 1) callback.children n spec = 1 + reads'.length := by
      rw [hspecShallow.weight_eq, hchildren, hbelow]
      rfl
    rw [totalWeight_cons, hweight, ← ihrest hrestShallow, List.length_cons, List.length_append]
    omega

end Reads

/-! ### Walks with enough room -/

/-- **A parallel walk with enough room comes to its end.** Let the serial walk end, and let there be
room in the work queue for its reads, less two for every worker. Then in a parallel walk that keeps
to the order, with any order of steps, progress is made finitely often, and from every state that is
not stopped the threads can lead the walk to its end. -/
theorem terminates_of_room [Inhabited E] (os : OperatingSystem) (opts : WalkDirOptions B E)
    (horder : KeepsOrder os opts) (root : Path) (state : B) (spec : ReadDirSpec B)
    (hroots : rootSpecs (rootEntryResults os opts root state) = [spec]) (minDepth n : ℕ)
    (hserial : ((serialWalk (rootEntryResults os opts root state) minDepth).steps
      (coreReadDirCallback os opts) n).iter.finished = true)
    (capacity : ℕ) (hcapacity : 0 < capacity) (hN : 0 < N)
    (hroom : ((serialWalk (rootEntryResults os opts root state) minDepth).reads
      (coreReadDirCallback os opts) n).length < capacity + 2 * N) (maxReceiveBufferSize : ℕ) :
    (∀ s : RunState (ReadDirSpec B) (ReadDirResult B E) N,
      RunState.Reaches (.walk (coreReadDirCallback os opts) capacity hcapacity false)
        (.init N (rootItems [spec]) maxReceiveBufferSize) s → s.stop = false →
      ∃ s', Relation.ReflTransGen (RunState.ThreadStep
        (.walk (coreReadDirCallback os opts) capacity hcapacity false)) s s' ∧ s'.Final) ∧
    ∀ (f : ℕ → RunState (ReadDirSpec B) (ReadDirResult B E) N) (action : ℕ → Action N),
      f 0 = .init N (rootItems [spec]) maxReceiveBufferSize →
      (∀ k, (action k).ofThread = true) →
      (∀ k, (f k).step (.walk (coreReadDirCallback os opts) capacity hcapacity false) (action k) =
        some (f (k + 1))) →
      { k | RunState.Progress (f k) (action k) (f (k + 1)) }.Finite := by
  set cfg := Config.walk (coreReadDirCallback (E := E) os opts) capacity hcapacity false with hcfg
  have hsound : cfg.Sound := horder.traceable.sound capacity hcapacity
  set reads := (serialWalk (rootEntryResults os opts root state) minDepth).reads
    (coreReadDirCallback os opts) n with hreads
  have hspecs : (rootEntryResults os opts root state).2.filterMap
      (ReadDir.childSpec (rootEntryResults os opts root state).1) = [spec] := hroots
  -- the tree of reads weighs as much as there are reads in the serial walk
  have hwalk : DepthFirst (coreReadDirCallback os opts).read minDepth
      (rootEntryResults os opts root state).1 (rootEntryResults os opts root state).2 _ reads :=
    (serialWalk_iff_depthFirst (reverse_rootSpecs (by rw [hroots]; exact le_rfl)) minDepth _ _).mp
      ⟨n, hserial, rfl, rfl⟩
  obtain ⟨m, hm⟩ := hwalk.exists_shallow
  have hlength := hwalk.length_reads hm
  rw [hspecs] at hm hlength
  have hshallow := hm spec List.mem_cons_self
  have hspending (t : RunState (ReadDirSpec B) (ReadDirResult B E) N)
      (ht : RunState.Reaches cfg (.init N (rootItems [spec]) maxReceiveBufferSize) t) :
      t.spending (Lineage.weight (fun _ => 1) (coreReadDirCallback os opts).children m) ≤
        reads.length := by
    rw [hlength, totalWeight_cons]
    exact (spending_le horder.economical hshallow ht).trans (Nat.le_add_right _ _)
  have hbound (t : RunState (ReadDirSpec B) (ReadDirResult B E) N)
      (ht : RunState.Reaches cfg (.init N (rootItems [spec]) maxReceiveBufferSize) t) :
      t.taken.length ≤ reads.length := (Nat.le_add_left _ _).trans (hspending t ht)
  refine ⟨fun s hreach hstop => ?_, fun f action hstart hthread hsteps => ?_⟩
  · refine RunState.exists_final hN hsound rfl hbound (fun t ht hwedged => ?_) ⟨hreach, hstop⟩
    have hweight (child : ReadDirSpec B) :
        1 ≤ Lineage.weight (fun _ => 1) (coreReadDirCallback (E := E) os opts).children m
          child := by
      cases m with
      | zero => exact hshallow.elim
      | succ m => exact Nat.le_add_right 1 _
    have hspent := hwedged.le_spending hweight
      (RunState.accounted_of_reaches hsound.disciplined ht.1)
    exact absurd (hspent.trans (hspending t ht.1)) (Nat.not_le.mpr hroom)
  · exact RunState.finite_progress hN hsound rfl hbound (hstart ▸ ⟨.refl, rfl⟩) hthread hsteps

/-- The read of the root `r`. -/
def plainSpec : ReadDirSpec Unit := ⟨0, ⟨[.normal [114]]⟩, (), none⟩

/-- The first statement above for the start of a walk of three directories by two workers, over a
channel for one item. -/
theorem terminates_of_room_plain :
    ∃ s', Relation.ReflTransGen (RunState.ThreadStep
        (.walk (coreReadDirCallback (E := Unit) (.linux ParWalk.plainLinux) .new) 1 Nat.one_pos
          false)) (.init 2 (rootItems [plainSpec]) 4 : RunState _ _ 2) s' ∧ s'.Final :=
  (terminates_of_room (N := 2) (.linux ParWalk.plainLinux) .new keepsOrder_plain
    ⟨[.normal [114]]⟩ () plainSpec (by decide +kernel) 0 12 (by decide +kernel) 1 Nat.one_pos
    Nat.two_pos (by decide +kernel) 4).1 _ .refl rfl

end JwalkMeta
