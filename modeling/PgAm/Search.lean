import Mathlib.Tactic

/-! Binary search for the point at which a predicate stops to hold, and what it
gives on a list that is partitioned by the predicate. -/
namespace PgAm
namespace Search

/-- The loop of a binary search between `lo` and `hi`; every round takes one unit of fuel. -/
def bisect (below : ℕ → Bool) : (fuel lo hi : ℕ) → ℕ
  | 0,lo,_ => lo
  | fuel + 1,lo,hi =>
    if lo < hi then
      let mid := (lo + hi) / 2
      if below mid then bisect below fuel (mid + 1) hi else bisect below fuel lo mid
    else lo

def partitionPoint {α : Type*} (p : α → Bool) (xs : List α) : ℕ :=
  bisect (fun i => xs[i]?.any p) xs.length 0 xs.length

theorem bisect_bounds (below : ℕ → Bool) {fuel lo hi : ℕ} (h : lo ≤ hi) :
    lo ≤ bisect below fuel lo hi ∧ bisect below fuel lo hi ≤ hi := by
  induction fuel generalizing lo hi with
  | zero => exact ⟨le_rfl,h⟩
  | succ fuel ih =>
    simp only [bisect]
    split
    · split
      · have := @ih ((lo + hi) / 2 + 1) hi (by omega)
        omega
      · have := @ih lo ((lo + hi) / 2) (by omega)
        omega
    · exact ⟨le_rfl,h⟩

/-- With enough fuel the search separates the indices at which `below` holds from the others. -/
theorem bisect_spec {below : ℕ → Bool} {n : ℕ}
    (hmono : ∀ i j, i ≤ j → j < n → below j = true → below i = true)
    {fuel lo hi : ℕ} (hfuel : hi - lo ≤ fuel) (hlo : lo ≤ hi) (hhi : hi ≤ n)
    (hbelow : ∀ i < lo, below i = true) (habove : ∀ i, hi ≤ i → i < n → below i = false) :
    (∀ i < bisect below fuel lo hi, below i = true) ∧
      ∀ i, bisect below fuel lo hi ≤ i → i < n → below i = false := by
  induction fuel generalizing lo hi with
  | zero =>
    have : lo = hi := by omega
    subst this
    exact ⟨hbelow,habove⟩
  | succ fuel ih =>
    simp only [bisect]
    split
    · split
      · rename_i hlt hmid
        refine ih (by omega) (by omega) hhi (fun i hi' => ?_) habove
        exact hmono i ((lo + hi) / 2) (by omega) (by omega) hmid
      · rename_i hlt hmid
        refine ih (by omega) (by omega) (by omega) hbelow fun i hi' hn => ?_
        by_contra hb
        exact hmid (hmono _ i hi' hn (by simpa using hb))
    · have : lo = hi := by omega
      subst this
      exact ⟨hbelow,habove⟩

section Lists

variable {α : Type*} {p : α → Bool} {xs : List α}

theorem partitionPoint_le (p : α → Bool) (xs : List α) : partitionPoint p xs ≤ xs.length :=
  (bisect_bounds _ (Nat.zero_le _)).2

theorem any_getElem? {i : ℕ} (hi : i < xs.length) : (xs[i]?.any p) = p xs[i] := by
  rw [List.getElem?_eq_getElem hi,Option.any_some]

theorem partitionPoint_spec (h : xs.Pairwise fun a b => p b = true → p a = true) :
    (∀ x ∈ xs.take (partitionPoint p xs), p x = true) ∧
      ∀ x ∈ xs.drop (partitionPoint p xs), p x = false := by
  have hmono : ∀ i j, i ≤ j → j < xs.length → (xs[j]?.any p) = true → (xs[i]?.any p) = true := by
    intro i j hij hj hp
    rw [any_getElem? hj] at hp
    rw [any_getElem? (by omega)]
    rcases hij.eq_or_lt with rfl | hlt
    · exact hp
    · exact List.pairwise_iff_getElem.1 h i j (by omega) hj hlt hp
  have hfuel : xs.length - 0 ≤ xs.length := Nat.sub_le ..
  obtain ⟨hb,ha⟩ := bisect_spec hmono hfuel (Nat.zero_le _) le_rfl
    (fun _ hi => absurd hi (Nat.not_lt_zero _)) (fun i h₁ h₂ => by omega)
  refine ⟨fun x hx => ?_,fun x hx => ?_⟩
  · obtain ⟨i,hi,rfl⟩ := List.mem_iff_getElem.1 hx
    rw [List.length_take] at hi
    rw [List.getElem_take,← any_getElem? (p := p) (by omega)]
    exact hb i (by unfold partitionPoint at hi; omega)
  · obtain ⟨i,hi,rfl⟩ := List.mem_iff_getElem.1 hx
    rw [List.length_drop] at hi
    rw [List.getElem_drop,← any_getElem? (p := p) (by omega)]
    exact ha _ (by unfold partitionPoint; omega) (by omega)

theorem takeWhile_eq_filter (h : xs.Pairwise fun a b => p b = true → p a = true) :
    xs.takeWhile p = xs.filter p := by
  induction xs with
  | nil => rfl
  | cons x xs ih =>
    obtain ⟨hx,hxs⟩ := List.pairwise_cons.1 h
    by_cases hp : p x
    · rw [List.takeWhile_cons_of_pos hp,List.filter_cons_of_pos hp,ih hxs]
    · rw [List.takeWhile_cons_of_neg hp,List.filter_cons_of_neg hp,
        List.filter_eq_nil_iff.2 fun y hy hpy => hp (hx y hy hpy)]

end Lists

section Ordered

variable {α : Type*} [LinearOrder α] {xs : List α}

/-- The first slot of a sorted list whose element is not below `e` parts the list at `e`. -/
theorem lowerBound_spec (h : xs.Pairwise (· < ·)) (e : α) :
    (∀ x ∈ xs.take (partitionPoint (· < e) xs), x < e) ∧
      ∀ x ∈ xs.drop (partitionPoint (· < e) xs), e ≤ x := by
  have hmono : xs.Pairwise fun a b => decide (b < e) = true → decide (a < e) = true :=
    h.imp fun hab hb => decide_eq_true (hab.trans (of_decide_eq_true hb))
  obtain ⟨hlow,hhigh⟩ := partitionPoint_spec hmono
  exact ⟨fun x hx => of_decide_eq_true (hlow x hx),
    fun x hx => not_lt.1 (of_decide_eq_false (hhigh x hx))⟩

theorem lowerBound_le_iff (h : xs.Pairwise (· < ·)) (e : α) {s : ℕ} (hs : s < xs.length) :
    partitionPoint (· < e) xs ≤ s ↔ e ≤ xs[s] := by
  obtain ⟨hlow,hhigh⟩ := lowerBound_spec h e
  refine ⟨fun hle => hhigh _ ?_,fun hle => ?_⟩
  · rw [List.mem_drop_iff_getElem]
    exact ⟨s - partitionPoint (· < e) xs,by omega,by simp only [Nat.add_sub_cancel' hle]⟩
  · by_contra hlt
    refine absurd (hlow _ ?_) (not_lt.2 hle)
    rw [List.mem_take_iff_getElem]
    exact ⟨s,by omega,rfl⟩

theorem pairwise_insert (h : xs.Pairwise (· < ·)) {e : α} (he : e ∉ xs) :
    (xs.take (partitionPoint (· < e) xs) ++ e :: xs.drop (partitionPoint (· < e) xs)).Pairwise
      (· < ·) := by
  obtain ⟨hlow,hhigh⟩ := lowerBound_spec h e
  have hall := h
  rw [← List.take_append_drop (partitionPoint (· < e) xs) xs,List.pairwise_append] at hall
  obtain ⟨htake,hdrop,hcross⟩ := hall
  refine List.pairwise_append.2
    ⟨htake,List.pairwise_cons.2 ⟨fun x hx => ?_,hdrop⟩,fun x hx y hy => ?_⟩
  · refine lt_of_le_of_ne (hhigh x hx) fun hne => he ?_
    rw [hne]
    exact List.mem_of_mem_drop hx
  · rcases List.mem_cons.1 hy with rfl | hy
    · exact hlow x hx
    · exact hcross x hx y hy

end Ordered

end Search
end PgAm
