import JwalkMeta.WalkDir.Callback
import Mathlib.Data.Nat.Find

/-!
# Transient errors

The documentation names the errors after which an operation is repeated: five kinds of I/O errors,
and the codes `EAGAIN`, `EBUSY` and `ESTALE`. An error that comes from the operating system has a
code and a kind, and the source looks at the code alone: it decides by a table in which four of the
five kinds have no code, and in which `ESTALE` has a number that Linux does not use for it.

Source: `retry_transient_io` (`src/lib.rs`) and `is_transient_io_error` (`src/core/error.rs`).

## Main definitions

* `IoError.kind`, `Error.IsTransient`: the errors that the documentation calls transient.
* `retryTransient`: `retry_transient_io` on any operation.
* `RetriesAsDocumented`: what the documentation says of a call.

## Main results

* `value_retryTransientIo`: the core callback's retries are those of `retryTransient`.
* `retriesAsDocumented_iff`: when an operation is repeated as documented.
-/

namespace JwalkMeta

open Interaction

variable {B E T : Type}

/-! ### What the documentation calls transient -/

/-- The kind of an error that carries a code of Linux, for the kinds that the source mentions. -/
def kindOfCode (code : Int) : ErrorKind :=
  if code = 4 then .interrupted
  else if code = 11 then .wouldBlock
  else if code = 22 then .invalidInput
  else if code = 103 then .connectionAborted
  else if code = 104 then .connectionReset
  else if code = 110 then .timedOut
  else .other

/-- `io::Error::kind`. -/
def IoError.kind : IoError → ErrorKind
  | .os code => kindOfCode code
  | .simple kind => kind

/-- `io::Error::raw_os_error`. -/
def IoError.rawOsError : IoError → Option Int
  | .os code => some code
  | .simple _ => none

/-- The errors that the documentation calls transient: by kind, or `EAGAIN`, `EBUSY` and `ESTALE`
as Linux numbers them. -/
def IoError.IsTransient (err : IoError) : Prop :=
  err.kind ∈ [.timedOut, .interrupted, .wouldBlock, .connectionReset, .connectionAborted] ∨
    ∃ code ∈ [11, 16, 116], err.rawOsError = some code

/-- The transient errors of a walk are its transient I/O errors. -/
def Error.IsTransient (err : Error) : Prop :=
  ∃ path ioErr, err.inner = .io path ioErr ∧ ioErr.IsTransient

/-- The code of the operating system that an error of the walk carries. -/
def Error.osCode (err : Error) : Option Int :=
  match err.inner with
  | .io _ ioErr => ioErr.rawOsError
  | .loop _ _ | .threadpoolBusy => none

/-- The codes of the transient errors that the source's table leaves out: `EINTR`, `ECONNABORTED`,
`ECONNRESET`, `ETIMEDOUT` and `ESTALE`. -/
def overlookedCodes : List Int := [4, 103, 104, 110, 116]

theorem IoError.isTransient_os_iff (code : Int) :
    (IoError.os code).IsTransient ↔ code ∈ [11, 16] ∨ code ∈ overlookedCodes := by
  simp only [IoError.IsTransient, IoError.kind, IoError.rawOsError, kindOfCode, overlookedCodes,
    List.mem_cons, List.not_mem_nil, or_false, Option.some.injEq]
  constructor
  · rintro (hkind | ⟨number, hnumber, rfl⟩)
    · split_ifs at hkind <;> simp_all
    · omega
  · rintro ((rfl | rfl) | (rfl | rfl | rfl | rfl | rfl)) <;> simp

theorem IoError.isTransient_simple_iff (kind : ErrorKind) :
    (IoError.simple kind).IsTransient ↔ isTransientIoError .unix (.simple kind) = true := by
  simp [IoError.IsTransient, IoError.kind, IoError.rawOsError, isTransientIoError]

/-- The source's table has every transient error but those with an overlooked code. -/
theorem isTransientError_of_isTransient {err : Error} (htransient : err.IsTransient)
    (hcode : ∀ code ∈ overlookedCodes, err.osCode ≠ some code) :
    isTransientError .unix err = true := by
  obtain ⟨path, ioErr, hinner, hioErr⟩ := htransient
  rw [isTransientError, hinner]
  cases ioErr with
  | simple kind => exact (IoError.isTransient_simple_iff kind).1 hioErr
  | os code =>
    have hnot : code ∉ overlookedCodes := fun hmem =>
      hcode code hmem (by rw [Error.osCode, hinner]; rfl)
    have hmem := ((IoError.isTransient_os_iff code).1 hioErr).resolve_right hnot
    simp only [List.mem_cons, List.not_mem_nil, or_false] at hmem
    rcases hmem with rfl | rfl <;> rfl

theorem osCode_not_overlooked {err : Error} (hretry : isTransientError .unix err = true) :
    ∀ code ∈ overlookedCodes, err.osCode ≠ some code := by
  rintro code hmem hcode
  rcases err with ⟨depth, ⟨path, number | kind⟩ | _ | _⟩ <;>
    simp only [Error.osCode, IoError.rawOsError, Option.some.injEq, reduceCtorEq] at hcode
  subst hcode
  simp only [overlookedCodes, List.mem_cons, List.not_mem_nil, or_false] at hmem
  rcases hmem with rfl | rfl | rfl | rfl | rfl <;> simp [isTransientError, isTransientIoError]
    at hretry

/-- Beyond the transient errors the table has the code 150 only. -/
theorem isTransient_or_osCode {err : Error} (hretry : isTransientError .unix err = true) :
    err.IsTransient ∨ err.osCode = some 150 := by
  rcases err with ⟨depth, ⟨path, number | kind⟩ | _ | _⟩
  · simp only [isTransientError, isTransientIoError, List.mem_cons, List.not_mem_nil, or_false,
      decide_eq_true_eq] at hretry
    rcases hretry with rfl | rfl | rfl
    · exact .inl ⟨path, _, rfl, (IoError.isTransient_os_iff 11).2 (by simp)⟩
    · exact .inl ⟨path, _, rfl, (IoError.isTransient_os_iff 16).2 (by simp)⟩
    · exact .inr rfl
  · exact .inl ⟨path, _, rfl, (IoError.isTransient_simple_iff kind).2 hretry⟩
  all_goals simp [isTransientError] at hretry

theorem not_isTransient_of_osCode {err : Error} (hcode : err.osCode = some 150) :
    ¬ err.IsTransient ∧ isTransientError .unix err = true := by
  rcases err with ⟨depth, ⟨path, number | kind⟩ | _ | _⟩ <;>
    simp only [Error.osCode, IoError.rawOsError, Option.some.injEq, reduceCtorEq] at hcode
  subst hcode
  refine ⟨?_, rfl⟩
  rintro ⟨path', ioErr, hinner, hioErr⟩
  simp only [ErrorInner.io.injEq] at hinner
  obtain ⟨-, rfl⟩ := hinner
  simp [IoError.isTransient_os_iff, overlookedCodes] at hioErr

/-! ### The loop over the attempts -/

/-- The loop of `retry_transient_io` over the attempts that are left, with the number of calls that
the closure has had; `op attempt` is what its call in `attempt` returns. The source has
`unreachable!` behind the loop. -/
def attemptLoop (platform : Platform) (maxRetries : ℕ) (op : ℕ → Except Error T) :
    List ℕ → Option (Except Error T × ℕ)
  | [] => none
  | attempt :: attempts =>
    match op attempt with
    | .ok result => some (.ok result, attempt + 1)
    | .error err =>
      if attempt < maxRetries && isTransientError platform err then
        attemptLoop platform maxRetries op attempts
      else some (.error err, attempt + 1)

/-- `retry_transient_io` on an operation. -/
def retryTransient (platform : Platform) (maxRetries : UInt8) (op : ℕ → Except Error T) :
    Option (Except Error T × ℕ) :=
  attemptLoop platform maxRetries.toNat op (List.range (maxRetries.toNat + 1))

/-- The loop goes on after an attempt. -/
def GoesOn (platform : Platform) (maxRetries : ℕ) (op : ℕ → Except Error T) (attempt : ℕ) : Prop :=
  attempt < maxRetries ∧ ∃ err, op attempt = .error err ∧ isTransientError platform err = true

section Loop

variable {platform : Platform} {maxRetries : ℕ} {op : ℕ → Except Error T}

theorem attemptLoop_cons_of_goesOn {attempt : ℕ} {attempts : List ℕ}
    (h : GoesOn platform maxRetries op attempt) :
    attemptLoop platform maxRetries op (attempt :: attempts) =
      attemptLoop platform maxRetries op attempts := by
  obtain ⟨hlt, err, hop, herr⟩ := h
  simp [attemptLoop, hop, hlt, herr]

theorem attemptLoop_cons_of_not_goesOn {attempt : ℕ} {attempts : List ℕ}
    (h : ¬ GoesOn platform maxRetries op attempt) :
    attemptLoop platform maxRetries op (attempt :: attempts) = some (op attempt, attempt + 1) := by
  cases hop : op attempt with
  | ok result => simp [attemptLoop, hop]
  | error err =>
    have hstop : ¬ (attempt < maxRetries ∧ isTransientError platform err = true) :=
      fun ⟨hlt, herr⟩ => h ⟨hlt, err, hop, herr⟩
    simp [attemptLoop, hop, hstop]

/-- The loop ends with the first attempt after which it does not go on. -/
theorem attemptLoop_range' {last : ℕ} (hlast : ¬ GoesOn platform maxRetries op last)
    (count : ℕ) :
    ∀ first, first ≤ last → last < first + count →
      (∀ attempt, first ≤ attempt → attempt < last → GoesOn platform maxRetries op attempt) →
      attemptLoop platform maxRetries op (List.range' first count) = some (op last, last + 1) := by
  induction count with
  | zero => omega
  | succ count ih =>
    intro first hfirst hcount hgoesOn
    rw [List.range'_succ]
    rcases hfirst.eq_or_lt with rfl | hlt
    · exact attemptLoop_cons_of_not_goesOn hlast
    · rw [attemptLoop_cons_of_goesOn (hgoesOn first le_rfl hlt)]
      exact ih (first + 1) hlt (by omega) fun attempt hle => hgoesOn attempt (by omega)

/-- The end of the loop is never reached: there is an attempt that ends it, and its outcome is that
of the call. -/
theorem exists_attemptLoop_range (platform : Platform) (maxRetries : ℕ)
    (op : ℕ → Except Error T) :
    ∃ last ≤ maxRetries, ¬ GoesOn platform maxRetries op last ∧
      (∀ attempt < last, GoesOn platform maxRetries op attempt) ∧
      attemptLoop platform maxRetries op (List.range (maxRetries + 1)) =
        some (op last, last + 1) := by
  classical
  have hend : ∃ attempt, ¬ GoesOn platform maxRetries op attempt :=
    ⟨maxRetries, fun h => lt_irrefl _ h.1⟩
  have hle : Nat.find hend ≤ maxRetries := Nat.find_min' hend fun h => lt_irrefl _ h.1
  have hgoesOn : ∀ attempt < Nat.find hend, GoesOn platform maxRetries op attempt :=
    fun attempt hlt => not_not.1 (Nat.find_min hend hlt)
  refine ⟨Nat.find hend, hle, Nat.find_spec hend, hgoesOn, ?_⟩
  rw [List.range_eq_range']
  exact attemptLoop_range' (Nat.find_spec hend) _ 0 (Nat.zero_le _) (by omega)
    fun attempt _ hlt => hgoesOn attempt hlt

end Loop

/-- The retries of the core callback from an attempt on, as a loop over the attempts. -/
theorem attemptLoop_eq_value (ρ : StreamOp (ReadDirSpec B) → Bool) (platform : Platform)
    (op : ℕ → Option StreamingContext →
      Interaction (StreamOp (ReadDirSpec B)) Bool (ReadDirResult B E))
    (ctx : Option StreamingContext) (outcome : ℕ → ReadDirResult B E)
    (retries : ℕ) :
    ∀ attempt, (op attempt ctx).value ρ = outcome attempt →
      (∀ later, attempt < later → (op later none).value ρ = outcome later) →
      (attemptLoop platform (attempt + retries) outcome (List.range' attempt (retries + 1))).map
          Prod.fst =
        some ((retryTransientIo platform op retries attempt ctx).value ρ) := by
  induction retries generalizing ctx with
  | zero =>
    intro attempt hop hlater
    have hlast : ¬ GoesOn platform (attempt + 0) outcome attempt := fun h => lt_irrefl _ h.1
    rw [List.range'_succ, attemptLoop_cons_of_not_goesOn hlast, retryTransientIo, hop]
    rfl
  | succ retries ih =>
    intro attempt hop hlater
    have hnext := ih none (attempt + 1) (hlater _ (Nat.lt_succ_self _))
      fun later hlt => hlater later (by omega)
    rw [List.range'_succ, retryTransientIo, value_bind, hop]
    by_cases hgoesOn : GoesOn platform (attempt + (retries + 1)) outcome attempt
    · rw [attemptLoop_cons_of_goesOn hgoesOn]
      obtain ⟨-, err, houtcome, herr⟩ := hgoesOn
      rw [Nat.add_right_comm, Nat.add_assoc] at hnext
      simpa [houtcome, herr] using hnext
    · rw [attemptLoop_cons_of_not_goesOn hgoesOn]
      cases houtcome : outcome attempt with
      | ok result => simp
      | error err =>
        have herr : isTransientError platform err = false := by
          by_contra htransient
          exact hgoesOn ⟨by omega, err, houtcome, by simpa using htransient⟩
        simp [herr]

/-- **The retries of the core callback are `retry_transient_io`** on the attempts to read the
directory, of which only the first one gets the streaming context. -/
theorem value_retryTransientIo (ρ : StreamOp (ReadDirSpec B) → Bool) (platform : Platform)
    (op : ℕ → Option StreamingContext →
      Interaction (StreamOp (ReadDirSpec B)) Bool (ReadDirResult B E))
    (maxRetries : UInt8) (ctx : Option StreamingContext) :
    (retryTransient platform maxRetries fun attempt =>
        (op attempt (if attempt = 0 then ctx else none)).value ρ).map Prod.fst =
      some ((retryTransientIo platform op maxRetries.toNat 0 ctx).value ρ) := by
  rw [retryTransient, List.range_eq_range']
  have h := attemptLoop_eq_value ρ platform op ctx
    (fun attempt => (op attempt (if attempt = 0 then ctx else none)).value ρ) maxRetries.toNat 0
    (by simp) fun later hlt => by simp [hlt.ne']
  simpa using h

/-! ### Retries as documented -/

/-- What the documentation says of a call that makes `calls` attempts and returns `result`. A
success that only transient errors precede is returned, if the retries reach it; an attempt that
fails with another error is the last one. -/
structure RetriesAsDocumented (maxRetries : ℕ) (op : ℕ → Except Error T) (result : Except Error T)
    (calls : ℕ) : Prop where
  success : ∀ attempt ≤ maxRetries,
    (∀ earlier < attempt, ∃ err, op earlier = .error err ∧ err.IsTransient) →
      ∀ value, op attempt = .ok value → result = .ok value ∧ calls = attempt + 1
  other : ∀ attempt < calls, ∀ err, op attempt = .error err → ¬ err.IsTransient →
    result = .error err ∧ calls = attempt + 1

/-- `retry_transient_io` returns, and does as documented. -/
def MeetsRetryDocumentation (maxRetries : UInt8) (op : ℕ → Except Error T) : Prop :=
  ∃ result calls, retryTransient .unix maxRetries op = some (result, calls) ∧
    RetriesAsDocumented maxRetries.toNat op result calls

section LastAttempt

variable {maxRetries last : ℕ} {op : ℕ → Except Error T}
  (hlast : ¬ GoesOn .unix maxRetries op last)
  (hgoesOn : ∀ attempt < last, GoesOn .unix maxRetries op attempt)

include hlast hgoesOn

/-- A success behind transient errors is the last attempt if none of them is overlooked. -/
theorem successes_iff :
    (∀ attempt ≤ maxRetries,
        (∀ earlier < attempt, ∃ err, op earlier = .error err ∧ err.IsTransient) →
        ∀ value, op attempt = .ok value → op last = .ok value ∧ last + 1 = attempt + 1) ↔
      ∀ attempt ≤ maxRetries,
        (∀ earlier < attempt, ∃ err, op earlier = .error err ∧ err.IsTransient) →
        (∃ value, op attempt = .ok value) →
        ∀ earlier < attempt, ∀ err, op earlier = .error err →
          ∀ code ∈ overlookedCodes, err.osCode ≠ some code := by
  constructor
  · rintro hdocumented attempt hattempt htransient ⟨value, hvalue⟩ earlier hearlier err herr
    have heq : last + 1 = attempt + 1 := (hdocumented attempt hattempt htransient value hvalue).2
    obtain ⟨-, err', herr', hretried⟩ := hgoesOn earlier (by omega)
    obtain rfl : err' = err := by simpa [herr] using herr'.symm
    exact osCode_not_overlooked hretried
  · rintro hoverlooked attempt hattempt htransient value hvalue
    obtain rfl : last = attempt := by
      rcases lt_trichotomy last attempt with hlt | heq | hgt
      · obtain ⟨err, herr, hdocumented⟩ := htransient last hlt
        exact absurd ⟨by omega, err, herr, isTransientError_of_isTransient hdocumented
          (hoverlooked attempt hattempt htransient ⟨value, hvalue⟩ last hlt err herr)⟩ hlast
      · exact heq
      · obtain ⟨-, err, herr, -⟩ := hgoesOn attempt hgt
        simp [hvalue] at herr
    exact ⟨hvalue, rfl⟩

/-- An attempt that fails with another error is the last one if the code 150 leads to no other
attempt. -/
theorem others_iff :
    (∀ attempt < last + 1, ∀ err, op attempt = .error err → ¬ err.IsTransient →
        op last = .error err ∧ last + 1 = attempt + 1) ↔
      ∀ attempt < maxRetries,
        (∀ earlier < attempt, ∃ err, op earlier = .error err ∧
          isTransientError .unix err = true) →
        ∀ err, op attempt = .error err → err.osCode ≠ some 150 := by
  constructor
  · rintro hdocumented attempt hattempt hearlier err herr hcode
    obtain ⟨hnot, hretried⟩ := not_isTransient_of_osCode hcode
    -- the attempt and all before it lead to another one, so it is not the last
    have hlt : attempt < last := by
      by_contra hge
      rcases (not_lt.1 hge).eq_or_lt with rfl | hlt
      · exact hlast ⟨hattempt, err, herr, hretried⟩
      · obtain ⟨err', herr', hretried'⟩ := hearlier last hlt
        exact hlast ⟨by omega, err', herr', hretried'⟩
    have heq := (hdocumented attempt (by omega) err herr hnot).2
    omega
  · rintro hundocumented attempt hattempt err herr hnot
    rcases (Nat.lt_succ_iff.1 hattempt).eq_or_lt with rfl | hlt
    · exact ⟨herr, rfl⟩
    · obtain ⟨hlt', err', herr', hretried⟩ := hgoesOn attempt hlt
      obtain rfl : err' = err := by simpa [herr] using herr'.symm
      refine absurd ((isTransient_or_osCode hretried).resolve_left hnot)
        (hundocumented attempt hlt' ?_ err' herr')
      exact fun earlier hearlier => (hgoesOn earlier (by omega)).2

end LastAttempt

/-- **When an operation is repeated as documented.** No transient error with an overlooked code
stands before a success that the retries should reach, and no error with the code 150 leads to
another attempt. -/
theorem retriesAsDocumented_iff (maxRetries : UInt8) (op : ℕ → Except Error T) :
    MeetsRetryDocumentation maxRetries op ↔
      (∀ attempt ≤ maxRetries.toNat,
        (∀ earlier < attempt, ∃ err, op earlier = .error err ∧ err.IsTransient) →
        (∃ value, op attempt = .ok value) →
        ∀ earlier < attempt, ∀ err, op earlier = .error err →
          ∀ code ∈ overlookedCodes, err.osCode ≠ some code) ∧
      (∀ attempt < maxRetries.toNat,
        (∀ earlier < attempt, ∃ err, op earlier = .error err ∧
          isTransientError .unix err = true) →
        ∀ err, op attempt = .error err → err.osCode ≠ some 150) := by
  obtain ⟨last, -, hlast, hgoesOn, hloop⟩ := exists_attemptLoop_range .unix maxRetries.toNat op
  have hsuccesses := successes_iff hlast hgoesOn
  have hothers := others_iff hlast hgoesOn
  constructor
  · rintro ⟨result, calls, hretry, hdocumented⟩
    obtain ⟨rfl, rfl⟩ : op last = result ∧ last + 1 = calls := by
      simpa [retryTransient, hloop] using hretry
    exact ⟨hsuccesses.mp hdocumented.success, hothers.mp hdocumented.other⟩
  · rintro ⟨hoverlooked, hundocumented⟩
    exact ⟨op last, last + 1, hloop, hsuccesses.mpr hoverlooked, hothers.mpr hundocumented⟩

/-- An operation that a signal interrupts once. -/
def interruptedOnce (attempt : ℕ) : Except Error Unit :=
  if attempt = 0 then .error (.fromIo 0 (.os 4)) else .ok ()

/-- With three retries the interrupted operation is tried once only. -/
theorem not_meetsRetryDocumentation_interruptedOnce :
    retryTransient .unix 3 interruptedOnce = some (.error (.fromIo 0 (.os 4)), 1) ∧
      ¬ MeetsRetryDocumentation 3 interruptedOnce := by
  have hretry : retryTransient .unix 3 interruptedOnce = some (.error (.fromIo 0 (.os 4)), 1) :=
    rfl
  refine ⟨hretry, ?_⟩
  rintro ⟨result, calls, hcalls, hdocumented⟩
  obtain ⟨rfl, rfl⟩ : Except.error (Error.fromIo 0 (.os 4)) = result ∧ 1 = calls := by
    simpa [hretry] using hcalls
  have htransient : ∀ earlier < 1, ∃ err, interruptedOnce earlier = .error err ∧
      err.IsTransient := by
    intro earlier hlt
    obtain rfl : earlier = 0 := by omega
    exact ⟨_, rfl, none, _, rfl, by simp [IoError.isTransient_os_iff, overlookedCodes]⟩
  have h := (hdocumented.success 1 (by decide) htransient () rfl).2
  omega

end JwalkMeta
