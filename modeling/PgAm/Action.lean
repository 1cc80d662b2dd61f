import Mathlib.Tactic

/-! Stateful computations that may fail and keep the state they reached when they
do, as code with in-place effects and early returns behaves. `Action.Run` states
what holds after a run, separately for the returning and the failing exit. -/
namespace PgAm

/-- A computation over the state `σ` that returns a value or an error. -/
def Action (σ ε α : Type*) := σ → Except ε α × σ

namespace Action

universe u
variable {σ ε : Type*} {α β : Type u}

instance : Monad (Action σ ε) where
  pure a := fun s => (.ok a,s)
  bind x f := fun s =>
    match x s with
    | (.ok a,t) => f a t
    | (.error e,t) => (.error e,t)

def fail (e : ε) : Action σ ε α := fun s => (.error e,s)

def get : Action σ ε σ := fun s => (.ok s,s)

def modify (f : σ → σ) : Action σ ε Unit := fun s => (.ok (),f s)

/-- After running `x` from `s` the returning exit satisfies `Q` and the failing exit `E`. -/
def Run (x : Action σ ε α) (s : σ) (Q : α → σ → Prop) (E : ε → σ → Prop) : Prop :=
  match x s with
  | (.ok a,t) => Q a t
  | (.error e,t) => E e t

variable {x : Action σ ε α} {f : α → Action σ ε β} {s : σ}

variable {E : ε → σ → Prop}

@[simp] theorem run_get {Q : σ → σ → Prop} : Run (get : Action σ ε σ) s Q E ↔ Q s s := Iff.rfl

@[simp] theorem run_modify {g : σ → σ} {Q : Unit → σ → Prop} :
    Run (modify g : Action σ ε Unit) s Q E ↔ Q () (g s) := Iff.rfl

@[simp] theorem run_bind {Q : β → σ → Prop} :
    Run (x >>= f) s Q E ↔ Run x s (fun a t => Run (f a) t Q E) E := by
  simp only [Run,bind]
  cases h : x s with
  | mk r t => cases r <;> rfl

variable {Q : α → σ → Prop}

@[simp] theorem run_ite {c : Prop} [Decidable c] {y : Action σ ε α} :
    Run (if c then x else y) s Q E ↔ if c then Run x s Q E else Run y s Q E := by
  by_cases h : c <;> simp only [if_pos,h,if_neg,not_false_iff]

theorem Run.mono {Q Q' : α → σ → Prop} {E E' : ε → σ → Prop} (h : Run x s Q E)
    (hQ : ∀ a t, Q a t → Q' a t) (hE : ∀ e t, E e t → E' e t) : Run x s Q' E' := by
  unfold Run at h ⊢
  split at h <;> simp_all

theorem Run.bind {R : α → σ → Prop} {Q : β → σ → Prop}
    (h : Run x s R E) (hf : ∀ a t, R a t → Run (f a) t Q E) : Run (x >>= f) s Q E :=
  run_bind.2 (h.mono hf fun _ _ he => he)

theorem Run.of_ok (h : Run x s Q E) {a : α} {t : σ} (hx : x s = (.ok a,t)) : Q a t := by
  simpa [Run,hx] using h

theorem Run.of_error (h : Run x s Q E) {e : ε} {t : σ} (hx : x s = (.error e,t)) : E e t := by
  simpa [Run,hx] using h

end Action
end PgAm
