import Columnar.Fault

/-!
# Steps

A step works on a state.  It ends with an answer or a failure, and in both cases it leaves a
state: what a failed step has already consumed stays consumed.

* `Step σ ε α`        steps on `σ` that answer `α` or fail with `ε`;
* `Step.on`           a step on a part of the state;
* `Step.within`       a step whose failures get a context;
* `Step.times n x`    `n` runs of `x`, and their answers.

`bind_ok` and `bind_error` are the two equations from which the others follow.
-/

namespace Columnar

def Step (σ ε α : Type) : Type := σ → Except ε α × σ

namespace Step

variable {σ τ ε α β : Type}

protected def pure (a : α) : Step σ ε α := fun s => (.ok a, s)

/-- the second step runs on the state that the first one left, unless the first one failed -/
protected def bind (x : Step σ ε α) (f : α → Step σ ε β) : Step σ ε β := fun s =>
  match x s with
  | (.ok a, s') => f a s'
  | (.error e, s') => (.error e, s')

instance : Monad (Step σ ε) where
  pure := Step.pure
  bind := Step.bind

/-- the state -/
def state : Step σ ε σ := fun s => (.ok s, s)

/-- a part of the state -/
def look (f : σ → α) : Step σ ε α := fun s => (.ok (f s), s)

def put (s : σ) : Step σ ε Unit := fun _ => (.ok (), s)

def update (f : σ → σ) : Step σ ε Unit := fun s => (.ok (), f s)

def fail (e : ε) : Step σ ε α := fun s => (.error e, s)

/-- an answer or a failure that the state has no part in -/
def ofExcept (r : Except ε α) : Step σ ε α := fun s => (r, s)

def mapError {ε' : Type} (f : ε → ε') (x : Step σ ε α) : Step σ ε' α := fun s =>
  match x s with
  | (.ok a, s') => (.ok a, s')
  | (.error e, s') => (.error (f e), s')

/-- a step on a part of the state -/
def on (part : σ → τ) (set : σ → τ → σ) (x : Step τ ε α) : Step σ ε α := fun s =>
  let (r, t) := x (part s)
  (r, set s t)

/-- a step on the first of two states -/
def onFst (x : Step σ ε α) : Step (σ × τ) ε α := fun s =>
  let (r, s₁) := x s.1
  (r, (s₁, s.2))

/-- a step on the second of two states -/
def onSnd (x : Step τ ε α) : Step (σ × τ) ε α := fun s =>
  let (r, s₂) := x s.2
  (r, (s.1, s₂))

/-- the answer of a step or its failure, without the state -/
def answer (x : Step σ ε α) (s : σ) : Except ε α := (x s).1

instance : MonadLift (Except ε) (Step σ ε) := ⟨ofExcept⟩
instance : MonadLift (Step σ Error) (Step σ Failure) := ⟨mapError Failure.error⟩

/-- `n` runs of a step behind others, whose answers are given, the latest first -/
def timesFrom (x : Step σ ε α) : Nat → List α → Step σ ε (List α)
  | 0, as, s => (.ok as.reverse, s)
  | n + 1, as, s =>
    match x s with
    | (.ok a, s') => timesFrom x n (a :: as) s'
    | (.error e, s') => (.error e, s')

/-- `n` runs of a step, one after the other -/
def times (n : Nat) (x : Step σ ε α) : Step σ ε (List α) := timesFrom x n []

/-- `n` runs of a step for what they leave behind -/
def replicate : Nat → Step σ ε Unit → Step σ ε Unit
  | 0, _, s => (.ok (), s)
  | n + 1, x, s =>
    match x s with
    | (.ok _, s') => replicate n x s'
    | (.error e, s') => (.error e, s')

/-! ## equations -/

theorem pure_apply (a : α) (s : σ) : (pure a : Step σ ε α) s = (.ok a, s) := rfl

theorem bind_apply (x : Step σ ε α) (f : α → Step σ ε β) (s : σ) :
    (x >>= f) s = match x s with
      | (.ok a, s') => f a s'
      | (.error e, s') => (.error e, s') := rfl

theorem bind_ok {x : Step σ ε α} {s s' : σ} {a : α} (h : x s = (.ok a, s'))
    (f : α → Step σ ε β) : (x >>= f) s = f a s' := by
  rw [bind_apply, h]

theorem bind_error {x : Step σ ε α} {s s' : σ} {e : ε} (h : x s = (.error e, s'))
    (f : α → Step σ ε β) : (x >>= f) s = (.error e, s') := by
  rw [bind_apply, h]

theorem state_bind (f : σ → Step σ ε β) (s : σ) : (state >>= f) s = f s s := rfl

theorem put_bind (s s' : σ) (f : Unit → Step σ ε β) : (put s' >>= f) s = f () s' := rfl

theorem update_bind (f : σ → σ) (g : Unit → Step σ ε β) (s : σ) :
    (update f >>= g) s = g () (f s) := rfl

theorem look_apply (f : σ → α) (s : σ) : (look f : Step σ ε α) s = (.ok (f s), s) := rfl

theorem put_apply (s s' : σ) : (put s' : Step σ ε Unit) s = (.ok (), s') := rfl

theorem update_apply (f : σ → σ) (s : σ) : (update f : Step σ ε Unit) s = (.ok (), f s) := rfl

/-- a step that fails with errors, among steps that fail with failures -/
theorem lift_ok {x : Step σ Error α} {s s' : σ} {a : α} (h : x s = (.ok a, s')) :
    (liftM x : Step σ Failure α) s = (.ok a, s') := by
  show mapError Failure.error x s = _
  rw [mapError, h]

theorem lift_error {x : Step σ Error α} {s s' : σ} {e : Error} (h : x s = (.error e, s')) :
    (liftM x : Step σ Failure α) s = (.error (.error e), s') := by
  show mapError Failure.error x s = _
  rw [mapError, h]

theorem on_apply (part : σ → τ) (set : σ → τ → σ) (x : Step τ ε α) (s : σ) :
    on part set x s = ((x (part s)).1, set s (x (part s)).2) := rfl

theorem timesFrom_eq (x : Step σ ε α) (n : Nat) (as : List α) (s : σ) :
    timesFrom x n as s = match timesFrom x n [] s with
      | (.ok bs, s') => (.ok (as.reverse ++ bs), s')
      | (.error e, s') => (.error e, s') := by
  induction n generalizing as s with
  | zero => simp [timesFrom]
  | succ n ih =>
    simp only [timesFrom]
    match x s with
    | (.error e, s') => rfl
    | (.ok a, s') =>
      dsimp only
      rw [ih (a :: as) s', ih [a] s']
      match timesFrom x n [] s' with
      | (.error e, s'') => rfl
      | (.ok bs, s'') => simp

theorem times_zero (x : Step σ ε α) : times 0 x = pure [] := rfl

theorem times_succ (n : Nat) (x : Step σ ε α) : times (n + 1) x = (do
    let a ← x
    let as ← times n x
    pure (a :: as)) := by
  funext s
  simp only [times, timesFrom, bind_apply]
  match x s with
  | (.error e, s') => rfl
  | (.ok a, s') =>
    dsimp only
    rw [timesFrom_eq x n [a] s']
    match timesFrom x n [] s' with
    | (.error e, s'') => rfl
    | (.ok bs, s'') => rfl

theorem times_add (n m : Nat) (x : Step σ ε α) : times (n + m) x = (do
    let as ← times n x
    let bs ← times m x
    pure (as ++ bs)) := by
  induction n with
  | zero =>
    funext s
    rw [Nat.zero_add, times_zero, bind_apply, pure_apply]
    simp only [bind_apply]
    match times m x s with
    | (.error e, s') => rfl
    | (.ok bs, s') => rfl
  | succ n ih =>
    funext s
    rw [Nat.succ_add, times_succ, times_succ, ih]
    simp only [bind_apply]
    match x s with
    | (.error e, s₁) => rfl
    | (.ok a, s₁) =>
      dsimp only
      match times n x s₁ with
      | (.error e, s₂) => rfl
      | (.ok as, s₂) =>
        dsimp only [pure_apply]
        match times m x s₂ with
        | (.error e, s₃) => rfl
        | (.ok bs, s₃) => rfl

theorem replicate_succ (n : Nat) (x : Step σ ε Unit) : replicate (n + 1) x = (do
    x
    replicate n x) := by
  funext s
  simp only [replicate, bind_apply]
  match x s with
  | (.error e, s') => rfl
  | (.ok _, s') => rfl

/-- a sequence of two steps answers only when both do -/
theorem bind_eq_ok {x : Step σ ε α} {f : α → Step σ ε β} {s s'' : σ} {b : β} :
    (x >>= f) s = (.ok b, s'') ↔ ∃ a s', x s = (.ok a, s') ∧ f a s' = (.ok b, s'') := by
  rw [bind_apply]
  match x s with
  | (.ok a, s') =>
    constructor
    · exact fun h => ⟨a, s', rfl, h⟩
    · rintro ⟨a', s₁, h, h'⟩
      cases h
      exact h'
  | (.error e, s') => simp

end Step

/-- failures that can be given a context -/
class Contextual (ε : Type) where
  within : Context → ε → ε

instance : Contextual Error := ⟨Error.within⟩
instance : Contextual Failure := ⟨Failure.within⟩

/-- a step whose failures say what was being done -/
def Step.within {σ ε α : Type} [Contextual ε] (c : Context) (x : Step σ ε α) : Step σ ε α :=
  x.mapError (Contextual.within c)

end Columnar
