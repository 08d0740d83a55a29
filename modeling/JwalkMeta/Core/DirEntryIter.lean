import JwalkMeta.Core.ReadDirIter

/-!
# The iterator over entries

`DirEntryIter` yields the entries of a walk. It keeps a stack of the listings that it is inside of,
and takes the next directory read from its `ReadDirIter` whenever it comes to an entry that has
one. Since the next read may have to be waited for, one turn of the loop of `next` ends either with
a new state or by asking for a read (`Turn`).

`IterState` follows a caller that calls `next` until it returns `None`: it holds the items that
have been yielded.

Source: `src/core/dir_entry_iter.rs`.

## Main definitions

* `DirEntryIter`, `DirEntryIter.turn`, `DirEntryIter.resume`: the loop of `next`.
* `IterState`: the iterator with its yielded items.
* `SerialWalk`, `SerialWalk.step`: the iterator over the serial walk.
* `SerialWalk.Yields`: the items that it yields.

## Main results

* `SerialWalk.Settled.yields_iff`: the items of a serial walk are unique.
-/

namespace JwalkMeta

variable {B E : Type}

/-- `DirEntryIter`: the listings that the iterator is inside of, the innermost first. The directory
reads are kept outside; `readDirIter` says whether there are any. -/
structure DirEntryIter (E : Type) where
  minDepth : ℕ
  readDirIter : Bool
  readDirResultsStack : List (List (Except Error (DirEntry E)))

/-- How one turn of the loop of `next` ends. -/
inductive Turn (E : Type)
  /-- `next` returns `None`. -/
  | finished
  /-- `next` returns an item. -/
  | yields (item : Except Error (DirEntry E)) (iter : DirEntryIter E)
  /-- The loop goes on. -/
  | again (iter : DirEntryIter E)
  /-- The read for an entry is taken from the `ReadDirIter`. -/
  | awaits (dirEntry : DirEntry E) (iter : DirEntryIter E)

namespace DirEntryIter

/-- Return an entry that is deep enough. -/
def emit (iter : DirEntryIter E) (dirEntry : DirEntry E) : Turn E :=
  if iter.minDepth ≤ dirEntry.depth then .yields (.ok dirEntry) iter else .again iter

/-- One turn of the loop of `next`. -/
def turn (iter : DirEntryIter E) : Turn E :=
  match iter.readDirResultsStack with
  | [] => .finished
  | [] :: stack => .again { iter with readDirResultsStack := stack }
  | (.error err :: results) :: stack =>
    .yields (.error err) { iter with readDirResultsStack := results :: stack }
  | (.ok dirEntry :: results) :: stack =>
    let iter := { iter with readDirResultsStack := results :: stack }
    if dirEntry.readChildrenPath.isSome then
      if iter.readDirIter then .awaits dirEntry iter else .yields (.error Error.busy) iter
    else iter.emit dirEntry

/-- `push_next_read_dir_results` and the rest of the turn, once the read is there. -/
def resume (iter : DirEntryIter E) (dirEntry : DirEntry E)
    (readDirResult : Option (ReadDirResult B E)) : Turn E :=
  match readDirResult with
  | none => iter.emit { dirEntry with readChildrenError := some Error.busy }
  | some (.error err) => iter.emit { dirEntry with readChildrenError := some err }
  | some (.ok readDir) =>
    emit { iter with readDirResultsStack := readDir.resultsList :: iter.readDirResultsStack }
      dirEntry

end DirEntryIter

/-- A caller that calls `next` until it returns `None`. -/
structure IterState (E : Type) where
  iter : DirEntryIter E
  /-- The entry whose directory read is being waited for. -/
  awaiting : Option (DirEntry E)
  finished : Bool
  items : List (Except Error (DirEntry E))

namespace IterState

/-- The start of an iteration over the root entries (`DirEntryIter::new`). -/
def new (rootEntryResults : List (Except Error (DirEntry E))) (minDepth : ℕ) : IterState E :=
  ⟨⟨minDepth, true, [rootEntryResults]⟩, none, false, []⟩

/-- The state after a turn. -/
def apply (st : IterState E) : Turn E → IterState E
  | .finished => { st with finished := true }
  | .yields item iter => { st with iter := iter, awaiting := none, items := st.items ++ [item] }
  | .again iter => { st with iter := iter, awaiting := none }
  | .awaits dirEntry iter => { st with iter := iter, awaiting := some dirEntry }

/-- The state after a turn from which no read is waited for. -/
def turn (st : IterState E) : IterState E := st.apply st.iter.turn

/-- The state after the read that was waited for. -/
def resume (st : IterState E) (dirEntry : DirEntry E)
    (readDirResult : Option (ReadDirResult B E)) : IterState E :=
  st.apply (st.iter.resume dirEntry readDirResult)

end IterState

/-! ### The iterator over the serial walk -/

/-- The iterator together with `ReadDirIter::Walk`. -/
structure SerialWalk (B E : Type) where
  serial : SerialIter B
  iter : IterState E

namespace SerialWalk

/-- One turn of the iterator; a read that is waited for is made at once. -/
def step (callback : ReadDirCallback B E) (w : SerialWalk B E) : SerialWalk B E :=
  match w.iter.awaiting with
  | some dirEntry =>
    let (result, serial) := w.serial.next callback
    ⟨serial, w.iter.resume dirEntry result⟩
  | none => if w.iter.finished then w else { w with iter := w.iter.turn }

/-- A number of turns. -/
def steps (callback : ReadDirCallback B E) : ℕ → SerialWalk B E → SerialWalk B E
  | 0, w => w
  | n + 1, w => (w.steps callback n).step callback

/-- The items that a serial walk yields until `next` returns `None`. -/
def Yields (callback : ReadDirCallback B E) (w : SerialWalk B E)
    (items : List (Except Error (DirEntry E))) : Prop :=
  ∃ n, (w.steps callback n).iter.finished = true ∧ (w.steps callback n).iter.items = items

variable {callback : ReadDirCallback B E} {w : SerialWalk B E}

/-- A caller that has seen the end waits for no read. -/
def Settled (w : SerialWalk B E) : Prop := w.iter.finished = true → w.iter.awaiting = none

/-- The rest of a turn, once the read is there, does not end the iteration. -/
theorem finished_resume (st : IterState E) (dirEntry : DirEntry E)
    (result : Option (ReadDirResult B E)) : (st.resume dirEntry result).finished = st.finished := by
  simp only [IterState.resume, DirEntryIter.resume, DirEntryIter.emit]
  split <;> split_ifs <;> rfl

theorem Settled.step (h : w.Settled) : (w.step callback).Settled := by
  unfold SerialWalk.step
  cases hawaiting : w.iter.awaiting with
  | some dirEntry =>
    intro hfinished
    simp only [finished_resume] at hfinished
    simp [h hfinished] at hawaiting
  | none =>
    by_cases hfinished : w.iter.finished = true
    · simpa [hfinished] using h
    · intro hf
      simp only [hfinished, Bool.false_eq_true, ↓reduceIte, IterState.turn] at hf ⊢
      cases hturn : w.iter.iter.turn with
      | finished => simpa [IterState.apply] using hawaiting
      | _ => simp [hturn, IterState.apply, hfinished] at hf

theorem Settled.steps (h : w.Settled) (n : ℕ) : (w.steps callback n).Settled := by
  induction n with
  | zero => exact h
  | succ n ih => exact ih.step

/-- After the end nothing changes. -/
theorem Settled.steps_of_finished (h : w.Settled) {n : ℕ}
    (hfinished : (w.steps callback n).iter.finished = true) (k : ℕ) :
    w.steps callback (n + k) = w.steps callback n := by
  induction k with
  | zero => rfl
  | succ k ih =>
    rw [← Nat.add_assoc, SerialWalk.steps, ih, SerialWalk.step, h.steps n hfinished]
    simp [hfinished]

/-- The items of a serial walk are unique. -/
theorem Settled.yields_iff (h : w.Settled) {items : List (Except Error (DirEntry E))}
    (hitems : w.Yields callback items) (items' : List (Except Error (DirEntry E))) :
    w.Yields callback items' ↔ items' = items := by
  refine ⟨fun hitems' => ?_, fun he => he ▸ hitems⟩
  obtain ⟨n, hn, rfl⟩ := hitems
  obtain ⟨m, hm, rfl⟩ := hitems'
  rcases Nat.le_total n m with hle | hle
  · obtain ⟨k, rfl⟩ := Nat.exists_eq_add_of_le hle
    rw [h.steps_of_finished hn k]
  · obtain ⟨k, rfl⟩ := Nat.exists_eq_add_of_le hle
    rw [h.steps_of_finished hm k]

end SerialWalk

end JwalkMeta
