import Mathlib.Tactic

/-! Families of threads of which one moves at a time: mutual exclusion, exclusion between
two roles and counting, each with the rule for a single move. -/
namespace PgAm
namespace Threads

open Function

instance two_threads : NeZero 2 := ⟨two_ne_zero⟩

instance three_threads : NeZero 3 := ⟨three_ne_zero⟩

variable {I A : Type*} [DecidableEq I]

/-- At most one thread is in a place that satisfies `P`. -/
def Exclusive (P : A → Prop) (th : I → A) : Prop := ∀ t u, P (th t) → P (th u) → t = u

/-- No thread is in `Q` while another one is in `P`. -/
def Apart (P Q : A → Prop) (th : I → A) : Prop := ∀ t u, P (th t) → ¬Q (th u)

variable {P Q : A → Prop} {th : I → A} {t : I} {c : A}

theorem forall_update (ht : P c) (h : ∀ u, u ≠ t → P (th u)) :
    ∀ u, P (update th t c u) := by
  intro u
  by_cases hu : u = t
  · subst hu
    rwa [update_self]
  · rw [update_of_ne hu]
    exact h u hu

theorem Exclusive.update (h : Exclusive P th) (hc : P c → P (th t) ∨ ∀ u, ¬P (th u)) :
    Exclusive P (update th t c) := by
  have hother : ∀ u, u ≠ t → P (th u) → ¬P c := by
    intro u hu hPu hPc
    rcases hc hPc with hPt | hnone
    · exact hu (h u t hPu hPt)
    · exact hnone u hPu
  intro u v hPu hPv
  by_cases hu : u = t
  · by_cases hv : v = t
    · rw [hu,hv]
    · rw [hu,update_self] at hPu
      rw [update_of_ne hv] at hPv
      exact absurd hPu (hother v hv hPv)
  · rw [update_of_ne hu] at hPu
    by_cases hv : v = t
    · rw [hv,update_self] at hPv
      exact absurd hPv (hother u hu hPu)
    · rw [update_of_ne hv] at hPv
      exact h u v hPu hPv

theorem Apart.update (h : Apart P Q th) (hP : P c → P (th t) ∨ ∀ u, ¬Q (th u))
    (hQ : Q c → Q (th t) ∨ ∀ u, ¬P (th u)) (hPQ : P c → ¬Q c) :
    Apart P Q (update th t c) := by
  intro u v hPu hQv
  by_cases hu : u = t
  · rw [hu,update_self] at hPu
    by_cases hv : v = t
    · rw [hv,update_self] at hQv
      exact hPQ hPu hQv
    · rw [update_of_ne hv] at hQv
      rcases hP hPu with hPt | hnone
      · exact h t v hPt hQv
      · exact hnone v hQv
  · rw [update_of_ne hu] at hPu
    by_cases hv : v = t
    · rw [hv,update_self] at hQv
      rcases hQ hQv with hQt | hnone
      · exact h u t hPu hQt
      · exact hnone u hPu
    · rw [update_of_ne hv] at hQv
      exact h u v hPu hQv

theorem sum_update [Fintype I] (g : A → ℕ) (th : I → A) (t : I) (c : A) :
    ∑ u, g (update th t c u) + g (th t) = ∑ u, g (th u) + g c := by
  have hrest : ∑ u ∈ Finset.univ.erase t, g (update th t c u) =
      ∑ u ∈ Finset.univ.erase t, g (th u) :=
    Finset.sum_congr rfl fun u hu => by rw [update_of_ne (Finset.ne_of_mem_erase hu)]
  rw [← Finset.sum_erase_add _ _ (Finset.mem_univ t),← Finset.sum_erase_add _ _ (Finset.mem_univ t),
    hrest,update_self]
  omega

end Threads
end PgAm
