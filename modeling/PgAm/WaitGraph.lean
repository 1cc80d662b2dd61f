import Mathlib.Tactic
import Mathlib.Logic.Relation
import Mathlib.Data.Set.Finite.Basic
import Mathlib.Order.WellFounded
import Mathlib.Data.Fintype.Order

/-! Directed cycles in finite graphs. -/
namespace PgAm
namespace WaitGraph

variable {α : Type*}

def Within (D : Set α) (r : α → α → Prop) (a b : α) : Prop := a ∈ D ∧ b ∈ D ∧ r a b

/-- The graph has a directed cycle inside `D`. -/
def HasCycle (D : Set α) (r : α → α → Prop) : Prop := ∃ x, Relation.TransGen (Within D r) x x

/-- If every node of a finite set has a successor in the set, the set holds a cycle. -/
theorem hasCycle_of_successors {D : Set α} {r : α → α → Prop} (hfin : D.Finite) (hne : D.Nonempty)
    (hsucc : ∀ x ∈ D, ∃ y ∈ D, r x y) : HasCycle D r := by
  by_contra hno
  have hirr : ∀ x, ¬Relation.TransGen (Within D r) x x := fun x hx => hno ⟨x,hx⟩
  have : Finite D := hfin
  let after : D → D → Prop := fun a b => Relation.TransGen (Within D r) b.1 a.1
  have : IsTrans D after := ⟨fun a b c hab hbc => hbc.trans hab⟩
  have : Std.Irrefl after := ⟨fun a => hirr a.1⟩
  have hwf : WellFounded after := Finite.wellFounded_of_trans_of_irrefl after
  obtain ⟨x,hx⟩ := hne
  obtain ⟨⟨last,hlast⟩,-,hmin⟩ := hwf.has_min Set.univ ⟨⟨x,hx⟩,Set.mem_univ _⟩
  obtain ⟨y,hy,hr⟩ := hsucc last hlast
  exact hmin ⟨y,hy⟩ (Set.mem_univ _) (.single ⟨hlast,hy,hr⟩)

theorem not_hasCycle_of_lt [Preorder α] {D : Set α} {r : α → α → Prop}
    (h : ∀ a b, r a b → a < b) : ¬HasCycle D r := by
  rintro ⟨x,hx⟩
  have hup : ∀ {y}, Relation.TransGen (Within D r) x y → x < y := by
    intro y hy
    induction hy with
    | single e => exact h _ _ e.2.2
    | tail _ e ih => exact ih.trans (h _ _ e.2.2)
  exact lt_irrefl x (hup hx)

end WaitGraph
end PgAm
