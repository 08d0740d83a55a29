import Mathlib.Data.List.Basic
import Mathlib.Data.List.Induction

/-!
# Rings of requests and completions

A program and a kernel share two queues. The program puts requests in the one; the kernel takes them
from there, works on several of them at a time, and puts one completion for each in the other, in
any order. No request is lost: what is queued, what is in flight and what is completed add up to
what was queued. So when there are as many completions as requests, nothing is in flight.

The program and the kernel together are a machine with a partial step function on events; a property
that every step preserves holds along every run.

## Main definitions

* `IoRing`, `IoRing.take`, `IoRing.complete`: the queues and what the kernel does with them.
* `IoRing.size`: the number of requests that have not been reaped.
* `runEvents`: the state of a machine after a list of events.

## Main results

* `IoRing.size_take`, `IoRing.size_complete`: no request is lost.
* `IoRing.inFlight_of_size_le`: with enough completions nothing is in flight.
* `runEvents_induction`: the induction rule along a run.
-/

/-! ### The queues -/

/-- A ring that a program shares with a kernel. -/
structure IoRing (Q C : Type) where
  /-- The requests that the kernel has not taken. -/
  submission : List Q
  /-- The requests that the kernel works on. -/
  inFlight : List Q
  /-- The completions that the program has not reaped. -/
  completion : List C

namespace IoRing

variable {Q C : Type} {ring ring' : IoRing Q C}

/-- A ring with nothing in it. -/
def empty : IoRing Q C := ⟨[], [], []⟩

/-- The kernel takes the first request. -/
def take (ring : IoRing Q C) : Option (IoRing Q C) :=
  match ring.submission with
  | [] => none
  | q :: rest => some ⟨rest, ring.inFlight ++ [q], ring.completion⟩

/-- The kernel completes one of the requests that it works on. -/
def complete (ring : IoRing Q C) (index : ℕ) (c : C) : IoRing Q C :=
  ⟨ring.submission, ring.inFlight.eraseIdx index, ring.completion ++ [c]⟩

/-- The number of requests that have not been reaped. -/
def size (ring : IoRing Q C) : ℕ :=
  ring.submission.length + ring.inFlight.length + ring.completion.length

theorem size_take (h : ring.take = some ring') : ring'.size = ring.size := by
  unfold take at h
  split at h
  · simp at h
  · next q rest hsubmission =>
    rw [← Option.some.inj h, size, size, hsubmission]
    simp only [List.length_append, List.length_cons, List.length_nil]
    omega

theorem size_complete {index : ℕ} (h : index < ring.inFlight.length) (c : C) :
    (ring.complete index c).size = ring.size := by
  simp only [size, complete, List.length_eraseIdx_of_lt h, List.length_append, List.length_cons,
    List.length_nil]
  omega

/-- What the kernel holds after it has taken a request. -/
theorem mem_take {q : Q} (h : ring.take = some ring')
    (hq : q ∈ ring'.submission ++ ring'.inFlight) : q ∈ ring.submission ++ ring.inFlight := by
  unfold take at h
  split at h
  · simp at h
  · next first rest hsubmission =>
    rw [← Option.some.inj h] at hq
    rw [hsubmission]
    simp only [List.mem_append, List.mem_cons, List.not_mem_nil, or_false] at hq ⊢
    tauto

theorem completion_take (h : ring.take = some ring') : ring'.completion = ring.completion := by
  unfold take at h
  split at h
  · simp at h
  · rw [← Option.some.inj h]

/-- **With enough completions nothing is in flight.** -/
theorem inFlight_of_size_le (h : ring.size ≤ ring.completion.length) :
    ring.submission = [] ∧ ring.inFlight = [] := by
  unfold size at h
  exact ⟨List.length_eq_zero_iff.mp (by omega), List.length_eq_zero_iff.mp (by omega)⟩

end IoRing

/-! ### Runs of a machine -/

section Runs

variable {S V : Type} {step : S → V → Option S} {s s' : S} {events : List V}

/-- The state of a machine after a list of events. -/
def runEvents (step : S → V → Option S) (s : S) (events : List V) : Option S :=
  events.foldlM step s

theorem runEvents_concat {v : V} :
    runEvents step s (events ++ [v]) = some s' ↔
      ∃ t, runEvents step s events = some t ∧ step t v = some s' := by
  simp [runEvents, List.foldlM_append, Option.bind_eq_some_iff]

/-- **Induction along a run**: what holds at the start and is preserved by every step of the run
holds at its end. -/
theorem runEvents_induction {p : S → Prop} (hstart : p s)
    (hstep : ∀ pre v t t', pre ++ [v] <+: events → runEvents step s pre = some t → p t →
      step t v = some t' → p t') (h : runEvents step s events = some s') : p s' := by
  have hfirst (pre : List V) : pre <+: events → ∀ t, runEvents step s pre = some t → p t := by
    induction pre using List.reverseRecOn with
    | nil =>
      intro _ t ht
      rw [← Option.some.inj ht]
      exact hstart
    | append_singleton pre v ih =>
      intro hpre t' ht'
      obtain ⟨t, ht, hv⟩ := runEvents_concat.mp ht'
      exact hstep pre v t t' hpre ht (ih ((List.prefix_append pre [v]).trans hpre) t ht) hv
  exact hfirst events (List.prefix_refl _) s' h

end Runs
