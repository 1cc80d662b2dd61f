import Mathlib.Tactic

/-! Runs of a partial step function. A step that the system refuses is `none`;
`Reach` collects the states of every run whose steps all pass a side condition,
and `exec` replays one concrete schedule. -/
namespace PgAm

section Guards

variable {α β : Type*} {p : Prop} [Decidable p] {x y : α} {o : Option β} {f : β → α}

theorem of_guard (h : (if p then some x else none) = some y) : p ∧ x = y :=
  (Option.ite_none_right_eq_some.1 h).imp_right Option.some.inj

theorem of_unless (h : (if p then none else some x) = some y) : ¬p ∧ x = y :=
  (Option.ite_none_left_eq_some.1 h).imp_right Option.some.inj

theorem of_guard_map (h : (if p then o.map f else none) = some y) :
    p ∧ ∃ b, o = some b ∧ f b = y :=
  (Option.ite_none_right_eq_some.1 h).imp_right Option.map_eq_some_iff.1

end Guards

section Updates

variable {α β : Type*} [DecidableEq α] {a x : α}

theorem of_update_eq {f : α → β} {b y : β} (h : Function.update f a b x = y) :
    x = a ∧ b = y ∨ x ≠ a ∧ f x = y := by
  rw [Function.update_apply] at h
  split at h
  · exact .inl ⟨‹_›,h⟩
  · exact .inr ⟨‹_›,h⟩

theorem of_mem_update {f : α → List β} {l : List β} {z : β} (h : z ∈ Function.update f a l x) :
    x = a ∧ z ∈ l ∨ x ≠ a ∧ z ∈ f x := by
  rcases of_update_eq (y := Function.update f a l x) rfl with ⟨hx,he⟩ | ⟨hx,he⟩
  · exact .inl ⟨hx,he ▸ h⟩
  · exact .inr ⟨hx,he ▸ h⟩

end Updates

namespace Machine

variable {S A : Type*}

/-- States reached from `start` by steps that satisfy `ok` in the state they leave. -/
inductive Reach (step : S → A → Option S) (start : S → Prop) (ok : S → A → Prop) : S → Prop
  | start {s : S} : start s → Reach step start ok s
  | next {s t : S} {a : A} :
      Reach step start ok s → ok s a → step s a = some t → Reach step start ok t

def anyStep : S → A → Prop := fun _ _ => True

instance (s : S) (a : A) : Decidable (anyStep s a) := inferInstanceAs (Decidable True)

variable {step : S → A → Option S} {start : S → Prop} {ok : S → A → Prop}

/-- A predicate that holds at the start and is kept by admitted steps holds throughout. -/
theorem Reach.invariant {I : S → Prop} (h₀ : ∀ s, start s → I s)
    (h₁ : ∀ s a t, I s → ok s a → step s a = some t → I t) {s : S}
    (h : Reach step start ok s) : I s := by
  induction h with
  | start hs => exact h₀ _ hs
  | next _ hok hst ih => exact h₁ _ _ _ ih hok hst

theorem Reach.mono {ok' : S → A → Prop} (hok : ∀ s a, ok s a → ok' s a) {s : S}
    (h : Reach step start ok s) : Reach step start ok' s := by
  induction h with
  | start hs => exact .start hs
  | next _ ha hst ih => exact .next ih (hok _ _ ha) hst

theorem Reach.trans {s t : S} (h : Reach step start ok s) (h' : Reach step (· = s) ok t) :
    Reach step start ok t := by
  induction h' with
  | start hs => exact hs ▸ h
  | next _ ha hst ih => exact .next ih ha hst

theorem Reach.head {s u t : S} {a : A} (ha : ok s a) (hst : step s a = some u)
    (h : Reach step (· = u) ok t) : Reach step (· = s) ok t :=
  .trans (.next (.start rfl) ha hst) h

/-- Replay a schedule; `none` as soon as one of its steps is refused. -/
def exec (step : S → A → Option S) : S → List A → Option S
  | s, [] => some s
  | s, a :: as => (step s a).bind (exec step · as)

/-- `step` restricted to the steps that pass `ok`. -/
def guarded (step : S → A → Option S) (ok : S → A → Prop) [∀ s a, Decidable (ok s a)]
    (s : S) (a : A) : Option S := if ok s a then step s a else none

theorem reach_of_exec [∀ s a, Decidable (ok s a)] {s t : S} {as : List A}
    (hs : Reach step start ok s) (h : exec (guarded step ok) s as = some t) :
    Reach step start ok t := by
  induction as generalizing s with
  | nil =>
    simp only [exec,Option.some.injEq] at h
    exact h ▸ hs
  | cons a as ih =>
    simp only [exec,guarded,Option.bind_eq_some_iff,Option.ite_none_right_eq_some] at h
    obtain ⟨u,⟨hok,hu⟩,h⟩ := h
    exact ih (.next hs hok hu) h

/-- A schedule that runs from a start state and ends with `p` is a reachable case of `p`. -/
theorem exists_reach [∀ s a, Decidable (ok s a)] {s : S} (hs : start s) (as : List A)
    {p : S → Bool} (h : (exec (guarded step ok) s as).any p = true) :
    ∃ t, Reach step start ok t ∧ p t = true := by
  rw [Option.any_eq_true] at h
  obtain ⟨t,ht,hp⟩ := h
  exact ⟨t,reach_of_exec (.start hs) ht,hp⟩

end Machine
end PgAm
