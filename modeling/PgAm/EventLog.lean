import Mathlib.Tactic

/-! Logs of events that put a key into a set or take it out. The last event about a key decides
whether the key is in the set, and a replay that starts from the set as it was at some point of
the log gives the set at its end. -/
namespace PgAm
namespace EventLog

variable {R K S : Type*} [DecidableEq K] (event : R → Option (K × Bool))

/-- What a record says about a key: in or out. -/
def about (k : K) (r : R) : Option Bool :=
  (event r).bind fun e => if e.1 = k then some e.2 else none

def last (k : K) (l : List R) : Option Bool := l.reverse.findSome? (about event k)

variable {event} {k : K} {l l₁ l₂ : List R} {r : R}

@[simp] theorem last_append : last event k (l₁ ++ l₂) = (last event k l₂).or (last event k l₁) := by
  rw [last,List.reverse_append,List.findSome?_append]
  rfl

@[simp] theorem last_singleton : last event k [r] = about event k r := by
  simp [last]

theorem last_cons : last event k (r :: l) = (last event k l).or (about event k r) := by
  rw [← List.singleton_append,last_append,last_singleton]

theorem about_eq_some {b : Bool} (h : event r = some (k,b)) : about event k r = some b := by
  simp [about,h]

theorem about_eq_none (h : ∀ b, event r ≠ some (k,b)) : about event k r = none := by
  unfold about
  cases hr : event r with
  | none => rfl
  | some e =>
    obtain ⟨j,b⟩ := e
    rw [Option.bind_some,if_neg]
    rintro rfl
    exact h b hr

theorem about_self {b : Bool} (h : event r = some (k,b)) (j : K) :
    about event j r = if j = k then some b else none := by
  simp only [about,h,Option.bind_some]
  exact if_congr eq_comm rfl rfl

theorem exists_of_last {b : Bool} (h : last event k l = some b) :
    ∃ r ∈ l, event r = some (k,b) := by
  obtain ⟨r,hr,hb⟩ := List.exists_of_findSome?_eq_some h
  obtain ⟨⟨j,c⟩,he,hc⟩ := Option.bind_eq_some_iff.1 hb
  refine ⟨r,List.mem_reverse.1 hr,?_⟩
  rw [he]
  split at hc
  · rename_i hj
    cases hc
    cases hj
    rfl
  · cases hc

theorem last_eq_none : last event k l = none ↔ ∀ r ∈ l, about event k r = none := by
  rw [last,List.findSome?_eq_none_iff]
  simp only [List.mem_reverse]

/-- A replay whose steps follow the events ends with the last event, or with what it began with. -/
theorem foldl_iff {apply : S → R → S} (mem : S → Prop)
    (hstep : ∀ s r, r ∈ l → (mem (apply s r) ↔ (about event k r).elim (mem s) (· = true))) (s : S) :
    mem (l.foldl apply s) ↔ (last event k l).elim (mem s) (· = true) := by
  induction l generalizing s with
  | nil => rfl
  | cons r l ih =>
    rw [List.foldl_cons,ih (fun s r hr => hstep s r (List.mem_cons_of_mem _ hr)),last_cons]
    cases hl : last event k l with
    | some b => rfl
    | none => exact hstep s r (List.mem_cons_self ..)

end EventLog
end PgAm
