import JwalkMeta.Core.OrderedQueue

/-!
# The invariant of the consuming side

A result is *outstanding* until `next` returns it: it is in the channel, in the receive buffer, or
somewhere else on its way to the channel. The consumer is *on course* (`Consumer.OnCourse`) when
the frontier of its cursor covers the outstanding index paths, and every result at hand announces
exactly the outstanding child reads below it. Then the path looked for is the least outstanding
one, so the first element of the heap is the one looked for as soon as it has been received.

## Main definitions

* `Consumer.outstanding`: the index paths that have not been handed out.
* `Consumer.OnCourse`: the invariant.

## Main results

* `Consumer.OnCourse.step`: what a step of a consumer on course can do, and that it stays on
  course. In particular it never takes the fallback after a disconnect and never panics.
-/

namespace JwalkMeta

open Frontier

variable {T : Type}

/-- The address of a result. -/
def Ordered.address (o : Ordered T) : List ℕ := o.indexPath.indices

namespace Consumer

/-- The results that the consumer can reach: in the channel or in the receive buffer. -/
def atHand (channel : List (Ordered T)) (c : Consumer T) : List (Ordered T) :=
  channel ++ c.iter.receiveBuffer

/-- The outstanding addresses: `rest` is on its way to the channel. -/
def outstanding (rest : List (List ℕ)) (channel : List (Ordered T)) (c : Consumer T) :
    List (List ℕ) :=
  rest ++ (atHand channel c).map Ordered.address

/-- The subtrees that the consumer has not entered. -/
def frontier (c : Consumer T) : List (List ℕ) := c.iter.orderedMatcher.frontier

/-- The invariant of the consuming side. -/
structure OnCourse (rest : List (List ℕ)) (channel : List (Ordered T)) (c : Consumer T) :
    Prop where
  wf : c.iter.orderedMatcher.WF
  covers : Covers c.frontier (outstanding rest channel c)
  /-- The child reads that a result announces are the outstanding ones below it. -/
  announced : ∀ o ∈ atHand channel c,
    ChildrenIn (outstanding rest channel c) o.address o.childCount
  /-- The consumer waits only for an element that is not in the receive buffer. -/
  waiting : c.pc = .deadline ∨ c.pc = .recv →
    c.topMatches = false ∧ c.iter.orderedMatcher.isNone = false
  alive : c.pc ≠ .disconnected ∧ c.pc ≠ .panicked

/-- What a step of the consumer does: nothing but moving results towards it, handing out the one
looked for, or ending. -/
inductive Effect (channel channel' : List (Ordered T)) (c c' : Consumer T) : Prop
  | quiet (hnexts : c'.nexts = c.nexts) (hmatcher : c'.iter.orderedMatcher = c.iter.orderedMatcher)
      (hperm : (atHand channel c).Perm (atHand channel' c'))
  | handOut (o : Ordered T) (F : List (List ℕ)) (hnexts : c'.nexts = c.nexts ++ [some o])
      (hperm : (atHand channel c).Perm (o :: atHand channel' c'))
      (hbefore : c.frontier = o.address :: F)
      (hafter : c'.frontier = children o.address o.childCount ++ F)
  | finish (hnexts : c'.nexts = c.nexts ++ [none]) (hnone : c.iter.orderedMatcher.isNone = true)
      (hmatcher : c'.iter.orderedMatcher = c.iter.orderedMatcher)
      (hperm : (atHand channel c).Perm (atHand channel' c'))

theorem topMatches_eq_true {c : Consumer T} (h : c.topMatches = true) :
    ∃ o rest, BinaryHeap.pop c.iter.receiveBuffer = some (o, rest) ∧
      o.indexPath = c.iter.orderedMatcher.lookingFor := by
  unfold topMatches at h
  cases hp : BinaryHeap.peek c.iter.receiveBuffer with
  | none => simp [hp] at h
  | some o =>
    obtain ⟨rest, hrest⟩ := BinaryHeap.pop_of_peek hp
    exact ⟨o, rest, hrest, by simpa [hp] using h⟩

theorem outstanding_perm (rest : List (List ℕ)) {channel channel' : List (Ordered T)}
    {c c' : Consumer T} (h : (atHand channel c).Perm (atHand channel' c')) :
    (outstanding rest channel c).Perm (outstanding rest channel' c') :=
  (h.map _).append_left rest

namespace OnCourse

variable {rest : List (List ℕ)} {channel channel' : List (Ordered T)} {c c' : Consumer T}

/-- Results that only move towards the consumer, and a change of where it stands, keep it on
course. -/
theorem of_perm (h : OnCourse rest channel c) (hperm : (atHand channel c).Perm (atHand channel' c'))
    (hmatcher : c'.iter.orderedMatcher = c.iter.orderedMatcher)
    (hwait : c'.pc = .deadline ∨ c'.pc = .recv →
      c'.topMatches = false ∧ c'.iter.orderedMatcher.isNone = false)
    (halive : c'.pc ≠ .disconnected ∧ c'.pc ≠ .panicked) : OnCourse rest channel' c' := by
  have hO := outstanding_perm rest hperm
  refine ⟨hmatcher ▸ h.wf, ?_, fun o ho => ?_, hwait, halive⟩
  · rw [frontier, hmatcher]
    exact h.covers.perm hO
  · exact (h.announced o (hperm.mem_iff.mpr ho)).perm hO

/-- The head of the frontier is the path looked for. -/
theorem exists_frontier (h : OnCourse rest channel c)
    (hne : c.iter.orderedMatcher.isNone = false) :
    ∃ F, c.frontier = c.iter.orderedMatcher.lookingFor.indices :: F :=
  OrderedMatcher.frontier_eq_cons h.wf hne

/-- The path looked for is outstanding. -/
theorem lookingFor_mem (h : OnCourse rest channel c)
    (hne : c.iter.orderedMatcher.isNone = false) :
    c.iter.orderedMatcher.lookingFor.indices ∈ outstanding rest channel c := by
  obtain ⟨F, hF⟩ := h.exists_frontier hne
  have hcov := h.covers
  rw [hF] at hcov
  exact hcov.head_mem

/-- The path looked for is the least outstanding one. -/
theorem lookingFor_le (h : OnCourse rest channel c)
    (hne : c.iter.orderedMatcher.isNone = false) {q : List ℕ}
    (hq : q ∈ outstanding rest channel c) : c.iter.orderedMatcher.lookingFor.indices ≤ q := by
  obtain ⟨F, hF⟩ := h.exists_frontier hne
  have hcov := h.covers
  rw [hF] at hcov
  exact hcov.head_le hq

/-- Once the tree has been handed out nothing is outstanding. -/
theorem outstanding_eq_nil (h : OnCourse rest channel c)
    (hnone : c.iter.orderedMatcher.isNone = true) : outstanding rest channel c = [] :=
  h.covers.nil_iff.mp (OrderedMatcher.frontier_eq_nil hnone)

/-- The element looked for is the first one of the heap as soon as it has been received. -/
theorem topMatches_of_mem (h : OnCourse rest channel c) {o : Ordered T}
    (ho : o ∈ c.iter.receiveBuffer) (hpath : o.indexPath = c.iter.orderedMatcher.lookingFor) :
    c.topMatches = true := by
  obtain ⟨top, rest', hpop⟩ := BinaryHeap.exists_pop_of_ne_nil (List.ne_nil_of_mem ho)
  have htop := BinaryHeap.mem_of_pop hpop
  have hmem {x : Ordered T} (hx : x ∈ c.iter.receiveBuffer) :
      x.address ∈ outstanding rest channel c :=
    List.mem_append_right _ (List.mem_map_of_mem (List.mem_append_right _ hx))
  have hle : top.address ≤ o.address :=
    (Ordered.compare_isLE_iff o top).mp (BinaryHeap.pop_ge hpop o ho)
  have hne : c.iter.orderedMatcher.isNone = false := by
    by_contra hnone
    have hnil := h.outstanding_eq_nil (by simpa using hnone)
    simpa [hnil] using hmem ho
  have hge : o.address ≤ top.address := by
    rw [Ordered.address, hpath]
    exact h.lookingFor_le hne (hmem htop)
  have hpeek := BinaryHeap.peek_of_pop hpop
  have htopPath : top.indexPath = c.iter.orderedMatcher.lookingFor := by
    rw [← hpath]
    exact IndexPath.ext_indices (le_antisymm hle hge)
  simp [topMatches, hpeek, htopPath]

/-- When the first element does not match, the element looked for has not been received. -/
theorem lookingFor_mem_of_not_topMatches (h : OnCourse rest channel c)
    (hne : c.iter.orderedMatcher.isNone = false) (htop : c.topMatches = false) :
    c.iter.orderedMatcher.lookingFor.indices ∈ rest ++ channel.map Ordered.address := by
  have hmem := h.lookingFor_mem hne
  simp only [outstanding, atHand, List.map_append, ← List.append_assoc] at hmem
  rcases List.mem_append.mp hmem with hmem | hmem
  · exact hmem
  · obtain ⟨o, ho, hpath⟩ := List.mem_map.mp hmem
    have := h.topMatches_of_mem ho (IndexPath.ext_indices hpath)
    simp [this] at htop

/-- The first element is the one looked for, and the cursor advances past it. -/
theorem takeTop_eq (h : OnCourse rest channel c) (htop : c.topMatches = true) :
    ∃ o buffer m F, BinaryHeap.pop c.iter.receiveBuffer = some (o, buffer) ∧
      c.frontier = o.address :: F ∧ m.WF ∧ m.frontier = children o.address o.childCount ++ F ∧
      c.takeTop = ⟨{ c.iter with receiveBuffer := buffer, orderedMatcher := m }, .idle,
        c.nexts ++ [some o]⟩ := by
  obtain ⟨o, buffer, hpop, hpath⟩ := topMatches_eq_true htop
  have ho : o ∈ atHand channel c := List.mem_append_right _ (BinaryHeap.mem_of_pop hpop)
  have hne : c.iter.orderedMatcher.isNone = false := by
    by_contra hnone
    have hnil := h.outstanding_eq_nil (by simpa using hnone)
    simp only [outstanding, List.append_eq_nil_iff, List.map_eq_nil_iff] at hnil
    simp [hnil.2] at ho
  obtain ⟨F, hF⟩ := h.exists_frontier hne
  rw [← hpath] at hF
  obtain ⟨m, hm, hwf, hfr⟩ := OrderedMatcher.advancePast_frontier h.wf hF o.childCount
  refine ⟨o, buffer, m, F, hpop, hF, hwf, hfr, ?_⟩
  simp only [Consumer.takeTop, hpop, hm]

/-- Handing out the first element keeps the consumer on course. -/
theorem takeTop (h : OnCourse rest channel c) (htop : c.topMatches = true) :
    OnCourse rest channel c.takeTop ∧ Effect channel channel c c.takeTop := by
  obtain ⟨o, buffer, m, F, hpop, hF, hwf, hfr, htake⟩ := h.takeTop_eq htop
  have ho : o ∈ atHand channel c := List.mem_append_right _ (BinaryHeap.mem_of_pop hpop)
  have hperm : (atHand channel c).Perm (o :: atHand channel c.takeTop) := by
    rw [htake]
    exact ((BinaryHeap.pop_perm hpop).append_left channel).trans List.perm_middle
  have hO : (outstanding rest channel c).Perm (o.address :: outstanding rest channel c.takeTop) :=
    ((hperm.map _).append_left rest).trans List.perm_middle
  have hcov := h.covers
  rw [hF] at hcov
  have hfr' : c.takeTop.frontier = children o.address o.childCount ++ F := by
    rw [htake]
    exact hfr
  refine ⟨⟨by rw [htake]; exact hwf, ?_, fun o' ho' => ?_, by simp [htake], by simp [htake]⟩,
    .handOut o F (by rw [htake]) hperm hF hfr'⟩
  · rw [hfr']
    exact hcov.advance hO (h.announced o ho)
  · have hmem : o' ∈ atHand channel c := hperm.mem_iff.mpr (List.mem_cons_of_mem o ho')
    refine (h.announced o' hmem).erase hO (hcov.head_le ?_)
    exact List.mem_append_right _ (List.mem_map_of_mem hmem)

/-- Handing out the first element makes `next` return. -/
theorem takeTop_nexts_ne (h : OnCourse rest channel c) (htop : c.topMatches = true) :
    c.takeTop.nexts ≠ c.nexts := by
  obtain ⟨o, buffer, m, F, -, -, -, -, htake⟩ := h.takeTop_eq htop
  simp [htake]

/-- Ending with the tree. -/
theorem giveUp (h : OnCourse rest channel c) (hnone : c.iter.orderedMatcher.isNone = true) :
    OnCourse rest channel c.giveUp ∧ Effect channel channel c c.giveUp :=
  ⟨h.of_perm (List.Perm.refl _) rfl (by simp [Consumer.giveUp]) (by simp [Consumer.giveUp]),
    .finish rfl hnone rfl (List.Perm.refl _)⟩

/-- A change of where the consumer stands. -/
theorem setPc (h : OnCourse rest channel c) {pc : NextPc}
    (hwait : pc = .deadline ∨ pc = .recv →
      c.topMatches = false ∧ c.iter.orderedMatcher.isNone = false)
    (halive : pc ≠ .disconnected ∧ pc ≠ .panicked) :
    OnCourse rest channel { c with pc := pc } ∧ Effect channel channel c { c with pc := pc } :=
  ⟨h.of_perm (List.Perm.refl _) rfl hwait halive, .quiet rfl rfl (List.Perm.refl _)⟩

/-- Receiving the next result of the channel. -/
theorem receive {o : Ordered T} (h : OnCourse rest (o :: channel) c) {pc : NextPc}
    (hpc : pc = .top ∨ pc = .drain) :
    OnCourse rest channel (c.receive o pc) ∧ Effect (o :: channel) channel c (c.receive o pc) := by
  have hperm : (atHand (o :: channel) c).Perm (atHand channel (c.receive o pc)) :=
    List.perm_middle.symm
  refine ⟨h.of_perm hperm rfl ?_ ?_, .quiet rfl rfl hperm⟩ <;>
    rcases hpc with rfl | rfl <;> simp [Consumer.receive]

/-- What follows `drain_channel`. -/
theorem afterDrain (h : OnCourse rest channel c) :
    OnCourse rest channel c.afterDrain ∧ Effect channel channel c c.afterDrain := by
  unfold Consumer.afterDrain
  split_ifs with htop hnone
  · exact h.takeTop htop
  · exact h.giveUp hnone
  · exact h.setPc (fun _ => ⟨by simpa using htop, by simpa using hnone⟩) (by simp)

/-- **One step of a consumer on course.** It stays on course, provided that the senders are gone
only when nothing is on its way to the channel. -/
theorem step (h : OnCourse rest channel c) {gone expired : Bool} (hgone : gone = true → rest = [])
    (hs : c.step false gone expired channel = some (channel', c')) :
    OnCourse rest channel' c' ∧ Effect channel channel' c c' := by
  unfold Consumer.step at hs
  cases hpc : c.pc with
  | idle =>
    obtain ⟨rfl, rfl⟩ : channel = channel' ∧ { c with pc := .top } = c' := by simpa [hpc] using hs
    exact h.setPc (by simp) (by simp)
  | top =>
    simp only [hpc, Bool.false_eq_true, ↓reduceIte] at hs
    split_ifs at hs with htop
    · obtain ⟨rfl, rfl⟩ : channel = channel' ∧ c.takeTop = c' := by simpa using hs
      exact h.takeTop htop
    · obtain ⟨rfl, rfl⟩ : channel = channel' ∧ { c with pc := .drain } = c' := by simpa using hs
      exact h.setPc (by simp) (by simp)
  | drain =>
    simp only [hpc, drainChannel] at hs
    split_ifs at hs with hroom
    · cases channel with
      | nil =>
        obtain ⟨rfl, rfl⟩ : [] = channel' ∧ c.afterDrain = c' := by simpa using hs
        exact h.afterDrain
      | cons o channel =>
        obtain ⟨rfl, rfl⟩ : channel = channel' ∧ c.receive o .drain = c' := by simpa using hs
        exact h.receive (Or.inr rfl)
    · obtain ⟨rfl, rfl⟩ : channel = channel' ∧ c.afterDrain = c' := by simpa using hs
      exact h.afterDrain
  | deadline =>
    obtain ⟨rfl, rfl⟩ : channel = channel' ∧
        { c with pc := if expired then .top else .recv } = c' := by simpa [hpc] using hs
    refine h.setPc (fun _ => h.waiting (Or.inl hpc)) ?_
    split_ifs <;> simp
  | recv =>
    obtain ⟨htop, hne⟩ := h.waiting (Or.inr hpc)
    cases channel with
    | cons o channel =>
      obtain ⟨rfl, rfl⟩ : channel = channel' ∧ c.receive o .top = c' := by simpa [hpc] using hs
      exact h.receive (Or.inl rfl)
    | nil =>
      -- the element looked for is on its way, so a sender is alive
      have hmem := h.lookingFor_mem_of_not_topMatches hne htop
      have hg : gone = false := by
        by_contra hg
        simp [hgone (by simpa using hg)] at hmem
      obtain ⟨rfl, rfl⟩ : [] = channel' ∧ { c with pc := .top } = c' := by
        simpa [hpc, hg] using hs
      exact h.setPc (by simp) (by simp)
  | disconnected => exact absurd hpc h.alive.1
  | panicked => exact absurd hpc h.alive.2

end OnCourse

end Consumer

end JwalkMeta
