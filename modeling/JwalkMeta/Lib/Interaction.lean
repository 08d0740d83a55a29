import Mathlib.Control.Basic
import Mathlib.Data.Nat.Notation
import Mathlib.Order.MinMax

/-!
# Programs that put requests to an environment

A program either ends with a value or puts a request `q : Q` to its environment and continues
with the answer `a : A`. Sequential code that touches shared memory is written as such a program;
what the environment answers, and which other programs run between two requests, is decided
outside.

Under a fixed answering rule `ρ : Q → A` a program is deterministic: it puts the requests
`asked ρ p` and ends with `value ρ p`. Both commute with sequencing, so they are computed one
function at a time.

## Main definitions

* `Interaction`: programs, with their monad structure.
* `Interaction.asked`, `Interaction.value`: the requests and the value under an answering rule.
* `Interaction.interp`: every request carried out by a program over other requests.
* `Interaction.MayReturn`, `Interaction.MayAsk`: the values and requests under answers of any kind.
* `Interaction.Runs`: the courses of a program, request by request.
* `Interaction.outlay`: the most that the requests of a program can cost.

## Main results

* `Interaction.asked_bind`, `Interaction.value_bind`: the two observations of a sequence.
* `Interaction.asked_interp`: the requests of an interpreted program.
* `Interaction.mayReturn_bind`, `Interaction.mayAsk_bind`: what a sequence can do.
* `Interaction.runs_bind`: the courses of a sequence.
-/

/-- A program over requests `Q` answered in `A`, ending with a value of `α`. -/
inductive Interaction (Q A α : Type) : Type
  | done (a : α) : Interaction Q A α
  | ask (q : Q) (k : A → Interaction Q A α) : Interaction Q A α

namespace Interaction

variable {Q Q' A α β γ : Type}

/-- Run a program and continue with its value. -/
def bind : Interaction Q A α → (α → Interaction Q A β) → Interaction Q A β
  | done a, f => f a
  | ask q k, f => ask q fun a => (k a).bind f

instance : Monad (Interaction Q A) where
  pure := done
  bind := bind

/-- The program that puts one request and returns the answer. -/
def request (q : Q) : Interaction Q A A := ask q done

@[simp] theorem pure_eq (a : α) : (pure a : Interaction Q A α) = done a := rfl

@[simp] theorem done_bind (a : α) (f : α → Interaction Q A β) : (done a >>= f) = f a := rfl

@[simp] theorem ask_bind (q : Q) (k : A → Interaction Q A α) (f : α → Interaction Q A β) :
    (ask q k >>= f) = ask q fun a => k a >>= f := rfl

@[simp] theorem request_bind (q : Q) (f : A → Interaction Q A β) :
    (request q >>= f) = ask q f := rfl

theorem bind_done (p : Interaction Q A α) : (p >>= done) = p := by
  induction p with
  | done a => rfl
  | ask q k ih => exact congrArg (ask q) (funext ih)

theorem bind_assoc (p : Interaction Q A α) (f : α → Interaction Q A β)
    (g : β → Interaction Q A γ) : (p >>= f >>= g) = p >>= fun a => f a >>= g := by
  induction p with
  | done a => rfl
  | ask q k ih => exact congrArg (ask q) (funext ih)

instance : LawfulMonad (Interaction Q A) :=
  LawfulMonad.mk' _ (fun p => bind_done p) (fun _ _ => rfl) (fun p f g => bind_assoc p f g)

/-! ### Programs under a fixed answering rule -/

section Answers

variable (ρ : Q → A)

/-- The requests a program puts when `q` is always answered by `ρ q`. -/
def asked : Interaction Q A α → List Q
  | done _ => []
  | ask q k => q :: (k (ρ q)).asked

/-- The value a program ends with when `q` is always answered by `ρ q`. -/
def value : Interaction Q A α → α
  | done a => a
  | ask q k => (k (ρ q)).value

@[simp] theorem asked_done (a : α) : asked ρ (done a : Interaction Q A α) = [] := rfl

@[simp] theorem asked_ask (q : Q) (k : A → Interaction Q A α) :
    asked ρ (ask q k) = q :: asked ρ (k (ρ q)) := rfl

@[simp] theorem value_done (a : α) : value ρ (done a : Interaction Q A α) = a := rfl

@[simp] theorem value_ask (q : Q) (k : A → Interaction Q A α) :
    value ρ (ask q k) = value ρ (k (ρ q)) := rfl

@[simp] theorem asked_bind (p : Interaction Q A α) (f : α → Interaction Q A β) :
    asked ρ (p >>= f) = asked ρ p ++ asked ρ (f (value ρ p)) := by
  induction p with
  | done a => rfl
  | ask q k ih => exact congrArg (q :: ·) (ih (ρ q))

@[simp] theorem value_bind (p : Interaction Q A α) (f : α → Interaction Q A β) :
    value ρ (p >>= f) = value ρ (f (value ρ p)) := by
  induction p with
  | done a => rfl
  | ask q k ih => exact ih (ρ q)

end Answers

/-! ### Interpretation of requests by programs -/

/-- Carry out every request of a program by a program over other requests. -/
def interp (h : Q → Interaction Q' A A) : Interaction Q A α → Interaction Q' A α
  | done a => done a
  | ask q k => h q >>= fun a => (k a).interp h

@[simp] theorem interp_done (h : Q → Interaction Q' A A) (a : α) :
    interp h (done a : Interaction Q A α) = done a := rfl

@[simp] theorem interp_ask (h : Q → Interaction Q' A A) (q : Q) (k : A → Interaction Q A α) :
    interp h (ask q k) = h q >>= fun a => interp h (k a) := rfl

/-- If the interpretation answers as `ρ` does, the interpreted program ends with the same value. -/
theorem value_interp {ρ : Q → A} {ρ' : Q' → A} {h : Q → Interaction Q' A A}
    (hρ : ∀ q, value ρ' (h q) = ρ q) (p : Interaction Q A α) :
    value ρ' (interp h p) = value ρ p := by
  induction p with
  | done a => rfl
  | ask q k ih => rw [interp_ask, value_bind, hρ q, ih (ρ q), value_ask]

/-- If the interpretation answers as `ρ` does, the interpreted program puts, for each request,
the requests of its interpretation. -/
theorem asked_interp {ρ : Q → A} {ρ' : Q' → A} {h : Q → Interaction Q' A A}
    (hρ : ∀ q, value ρ' (h q) = ρ q) (p : Interaction Q A α) :
    asked ρ' (interp h p) = (asked ρ p).flatMap fun q => asked ρ' (h q) := by
  induction p with
  | done a => rfl
  | ask q k ih => rw [interp_ask, asked_bind, hρ q, ih (ρ q), asked_ask, List.flatMap_cons]

/-! ### Programs under any answers -/

/-- A program can end with a value. -/
inductive MayReturn : Interaction Q A α → α → Prop
  | done (a : α) : MayReturn (done a) a
  | ask {q : Q} {k : A → Interaction Q A α} {a : α} (answer : A) :
      MayReturn (k answer) a → MayReturn (ask q k) a

/-- A program can come to put a request. -/
inductive MayAsk : Interaction Q A α → Q → Prop
  | here (q : Q) (k : A → Interaction Q A α) : MayAsk (ask q k) q
  | later {q q' : Q} {k : A → Interaction Q A α} (answer : A) :
      MayAsk (k answer) q' → MayAsk (ask q k) q'

@[simp] theorem mayReturn_done {a b : α} :
    MayReturn (done a : Interaction Q A α) b ↔ b = a := by
  constructor
  · rintro ⟨⟩
    rfl
  · rintro rfl
    exact .done _

@[simp] theorem mayReturn_ask {q : Q} {k : A → Interaction Q A α} {b : α} :
    MayReturn (ask q k) b ↔ ∃ answer, MayReturn (k answer) b := by
  constructor
  · rintro ⟨⟩
    exact ⟨_, by assumption⟩
  · rintro ⟨answer, h⟩
    exact .ask answer h

@[simp] theorem mayAsk_done {a : α} {q : Q} : ¬ MayAsk (done a : Interaction Q A α) q := by
  rintro ⟨⟩

@[simp] theorem mayAsk_ask {q q' : Q} {k : A → Interaction Q A α} :
    MayAsk (ask q k) q' ↔ q' = q ∨ ∃ answer, MayAsk (k answer) q' := by
  constructor
  · rintro ⟨⟩
    · exact Or.inl rfl
    · exact Or.inr ⟨_, by assumption⟩
  · rintro (rfl | ⟨answer, h⟩)
    · exact .here _ _
    · exact .later answer h

theorem mayReturn_value (ρ : Q → A) (p : Interaction Q A α) : MayReturn p (value ρ p) := by
  induction p with
  | done a => exact .done a
  | ask q k ih => exact .ask (ρ q) (ih (ρ q))

theorem mayReturn_bind {p : Interaction Q A α} {f : α → Interaction Q A β} {b : β} :
    MayReturn (p >>= f) b ↔ ∃ a, MayReturn p a ∧ MayReturn (f a) b := by
  induction p with
  | done a => simp
  | ask q k ih =>
    simp only [ask_bind, mayReturn_ask, ih]
    exact ⟨fun ⟨answer, a, hk, hf⟩ => ⟨a, ⟨answer, hk⟩, hf⟩,
      fun ⟨a, ⟨answer, hk⟩, hf⟩ => ⟨answer, a, hk, hf⟩⟩

theorem mayAsk_bind {p : Interaction Q A α} {f : α → Interaction Q A β} {q : Q} :
    MayAsk (p >>= f) q ↔ MayAsk p q ∨ ∃ a, MayReturn p a ∧ MayAsk (f a) q := by
  induction p with
  | done a => simp
  | ask q' k ih =>
    simp only [ask_bind, mayAsk_ask, mayReturn_ask, ih]
    constructor
    · rintro (rfl | ⟨answer, hk | ⟨a, hk, hf⟩⟩)
      · exact Or.inl (Or.inl rfl)
      · exact Or.inl (Or.inr ⟨answer, hk⟩)
      · exact Or.inr ⟨a, ⟨answer, hk⟩, hf⟩
    · rintro ((rfl | ⟨answer, hk⟩) | ⟨a, ⟨answer, hk⟩, hf⟩)
      · exact Or.inl rfl
      · exact Or.inr ⟨answer, Or.inl hk⟩
      · exact Or.inr ⟨answer, Or.inr ⟨a, hk, hf⟩⟩

/-- What follows a program does nothing if it just returns the value. -/
theorem bind_eq_self {p : Interaction Q A α} {f : α → Interaction Q A α}
    (h : ∀ a, MayReturn p a → f a = done a) : (p >>= f) = p := by
  induction p with
  | done a => exact h a (.done a)
  | ask q k ih =>
    exact congrArg (ask q) (funext fun answer => ih answer fun a ha => h a (.ask answer ha))

/-- An interpreted program returns only what the program can return. -/
theorem mayReturn_of_interp {h : Q → Interaction Q' A A} {p : Interaction Q A α} {a : α}
    (hp : MayReturn (interp h p) a) : MayReturn p a := by
  induction p with
  | done b => simpa using hp
  | ask q k ih =>
    obtain ⟨answer, -, hk⟩ := mayReturn_bind.mp hp
    exact .ask answer (ih answer hk)

/-- The requests of an interpreted program belong to requests of the program. -/
theorem mayAsk_of_interp {h : Q → Interaction Q' A A} {p : Interaction Q A α} {q' : Q'}
    (hp : MayAsk (interp h p) q') : ∃ q, MayAsk p q ∧ MayAsk (h q) q' := by
  induction p with
  | done b => exact absurd hp mayAsk_done
  | ask q k ih =>
    rcases mayAsk_bind.mp hp with hq | ⟨answer, -, hk⟩
    · exact ⟨q, .here q k, hq⟩
    · obtain ⟨q₁, hq₁, hh⟩ := ih answer hk
      exact ⟨q₁, .later answer hq₁, hh⟩

/-! ### Courses of a program -/

/-- A course of a program: the requests that it puts with the answers they get, and the value that
it ends with. -/
inductive Runs : Interaction Q A α → List (Q × A) → α → Prop
  | done (a : α) : Runs (done a) [] a
  | ask {q : Q} {k : A → Interaction Q A α} {tr : List (Q × A)} {a : α} (answer : A) :
      Runs (k answer) tr a → Runs (ask q k) ((q, answer) :: tr) a

@[simp] theorem runs_done {a b : α} {tr : List (Q × A)} :
    Runs (done a : Interaction Q A α) tr b ↔ tr = [] ∧ b = a := by
  constructor
  · rintro ⟨⟩
    exact ⟨rfl, rfl⟩
  · rintro ⟨rfl, rfl⟩
    exact .done _

theorem runs_ask {q : Q} {k : A → Interaction Q A α} {tr : List (Q × A)} {b : α} :
    Runs (ask q k) tr b ↔ ∃ answer tr', tr = (q, answer) :: tr' ∧ Runs (k answer) tr' b := by
  constructor
  · rintro ⟨⟩
    exact ⟨_, _, rfl, by assumption⟩
  · rintro ⟨answer, tr', rfl, h⟩
    exact .ask answer h

/-- A course of a sequence is a course of its first part followed by one of its second part. -/
theorem runs_bind {p : Interaction Q A α} {f : α → Interaction Q A β} {tr : List (Q × A)} {b : β} :
    Runs (p >>= f) tr b ↔
      ∃ a tr₁ tr₂, Runs p tr₁ a ∧ Runs (f a) tr₂ b ∧ tr = tr₁ ++ tr₂ := by
  induction p generalizing tr with
  | done a =>
    simp only [done_bind, runs_done]
    constructor
    · exact fun h => ⟨a, [], tr, ⟨rfl, rfl⟩, h, rfl⟩
    · rintro ⟨_, _, _, ⟨rfl, rfl⟩, h, rfl⟩
      exact h
  | ask q k ih =>
    simp only [ask_bind, runs_ask, ih]
    constructor
    · rintro ⟨answer, tr', rfl, a, tr₁, tr₂, hk, hf, rfl⟩
      exact ⟨a, (q, answer) :: tr₁, tr₂, ⟨answer, tr₁, rfl, hk⟩, hf, rfl⟩
    · rintro ⟨a, tr₁, tr₂, ⟨answer, tr', rfl, hk⟩, hf, rfl⟩
      exact ⟨answer, tr' ++ tr₂, rfl, a, tr', tr₂, hk, hf, rfl⟩

theorem runs_map {p : Interaction Q A α} {f : α → β} {tr : List (Q × A)} {b : β} :
    Runs (f <$> p) tr b ↔ ∃ a, Runs p tr a ∧ f a = b := by
  rw [map_eq_pure_bind, runs_bind]
  constructor
  · rintro ⟨a, tr₁, tr₂, hp, hf, rfl⟩
    obtain ⟨rfl, rfl⟩ := runs_done.mp hf
    exact ⟨a, by simpa using hp, rfl⟩
  · rintro ⟨a, hp, rfl⟩
    exact ⟨a, tr, [], hp, .done _, by simp⟩

/-- The course under a fixed answering rule. -/
theorem runs_asked (ρ : Q → A) (p : Interaction Q A α) :
    Runs p ((asked ρ p).map fun q => (q, ρ q)) (value ρ p) := by
  induction p with
  | done a => exact .done a
  | ask q k ih => exact .ask (ρ q) (ih (ρ q))

/-- The answers of a run decide about its result. -/
theorem Runs.result_eq {p : Interaction Q A α} {tr : List (Q × A)} {a b : α} (h : Runs p tr a)
    (h' : Runs p tr b) : a = b := by
  induction h with
  | done a => exact (runs_done.mp h').2.symm
  | ask answer _ ih =>
    obtain ⟨answer', tr', heq, hrun⟩ := runs_ask.mp h'
    obtain ⟨hpair, rfl⟩ := List.cons.inj heq
    obtain ⟨-, rfl⟩ := Prod.mk.inj hpair
    exact ih hrun

theorem interp_map (h : Q → Interaction Q' A A) (f : α → β) (p : Interaction Q A α) :
    interp h (f <$> p) = f <$> interp h p := by
  induction p with
  | done a => rfl
  | ask q k ih =>
    have hmap : f <$> ask q k = ask q fun a => f <$> k a := rfl
    rw [hmap, interp_ask, interp_ask, map_bind]
    simp only [ih]

/-! ### Costs -/

section Costs

variable {cost : Q → Bool → ℕ} {cost' : Q' → Bool → ℕ} {g g' : α → ℕ}

/-- The most that the requests of a program can cost, when a request costs `cost q answer` and what
follows a value `a` costs `g a`. -/
def outlay (cost : Q → Bool → ℕ) (g : α → ℕ) : Interaction Q Bool α → ℕ
  | done a => g a
  | ask q k => max (cost q true + (k true).outlay cost g) (cost q false + (k false).outlay cost g)

@[simp] theorem outlay_done (a : α) : outlay cost g (done a) = g a := rfl

@[simp] theorem outlay_ask (q : Q) (k : Bool → Interaction Q Bool α) :
    outlay cost g (ask q k) =
      max (cost q true + outlay cost g (k true)) (cost q false + outlay cost g (k false)) := rfl

theorem outlay_bind (p : Interaction Q Bool α) (f : α → Interaction Q Bool β) (g : β → ℕ) :
    outlay cost g (p >>= f) = outlay cost (fun a => outlay cost g (f a)) p := by
  induction p with
  | done a => rfl
  | ask q k ih => rw [ask_bind, outlay_ask, outlay_ask, ih, ih]

theorem outlay_mono {p : Interaction Q Bool α} (h : ∀ a, MayReturn p a → g a ≤ g' a) :
    outlay cost g p ≤ outlay cost g' p := by
  induction p with
  | done a => exact h a (.done a)
  | ask q k ih =>
    rw [outlay_ask, outlay_ask]
    have htrue := ih true fun a ha => h a (.ask true ha)
    have hfalse := ih false fun a ha => h a (.ask false ha)
    omega

/-- The cost of one answer and of what follows it. -/
theorem outlay_answer (q : Q) (k : Bool → Interaction Q Bool α) (answer : Bool) :
    cost q answer + outlay cost g (k answer) ≤ outlay cost g (ask q k) := by
  rw [outlay_ask]
  cases answer with
  | true => exact le_max_left _ _
  | false => exact le_max_right _ _

/-- An interpreted program costs no more than the program if no interpreted request does. -/
theorem outlay_interp_le {h : Q → Interaction Q' Bool Bool}
    (hh : ∀ q (g : Bool → ℕ),
      outlay cost' g (h q) ≤ max (cost q true + g true) (cost q false + g false))
    (p : Interaction Q Bool α) (g : α → ℕ) :
    outlay cost' g (interp h p) ≤ outlay cost g p := by
  induction p with
  | done a => simp
  | ask q k ih =>
    rw [interp_ask, outlay_bind, outlay_ask]
    refine (hh q _).trans ?_
    have htrue := ih true
    have hfalse := ih false
    omega

end Costs

end Interaction
