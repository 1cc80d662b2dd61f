import PgAm.DepthFirst

/-! The cycle search of the deadlock detector. `find_cycles` runs over the wait-for edges in
sorted order; the detector ends the youngest transaction of every cycle that it returns. -/
namespace PgAm
namespace Deadlock

open DepthFirst

def adjacency (edges : List (ℕ × ℕ)) (node : ℕ) : List ℕ :=
  (((edges.filter fun e => e.1 = node).map Prod.snd).insertionSort (· ≤ ·)).dedup

theorem mem_adjacency {edges : List (ℕ × ℕ)} {v w : ℕ} : w ∈ adjacency edges v ↔ (v,w) ∈ edges := by
  rw [adjacency,List.mem_dedup,List.mem_insertionSort,List.mem_map]
  constructor
  · rintro ⟨⟨a,b⟩,hmem,rfl⟩
    obtain ⟨he,hv⟩ := List.mem_filter.1 hmem
    obtain rfl : a = v := of_decide_eq_true hv
    exact he
  · exact fun he => ⟨(v,w),List.mem_filter.2 ⟨he,decide_eq_true rfl⟩,rfl⟩

def waitGraph (edges : List (ℕ × ℕ)) : Graph ℕ where
  succ := adjacency edges
  nodes := (edges.map Prod.snd).toFinset
  closed h := List.mem_toFinset.2 (List.mem_map_of_mem (mem_adjacency.1 h))

def findCycles (edges : List (ℕ × ℕ)) : List (List ℕ) :=
  let nodes := (edges.map Prod.fst).dedup.insertionSort (· ≤ ·)
  (search (waitGraph edges) nodes).cycles

/-- The youngest transaction of every cycle. -/
def victims (edges : List (ℕ × ℕ)) : List ℕ := (findCycles edges).filterMap List.max?

def removeVictims (edges : List (ℕ × ℕ)) : List (ℕ × ℕ) :=
  edges.filter fun e => e.1 ∉ victims edges ∧ e.2 ∉ victims edges

def Acyclic (edges : List (ℕ × ℕ)) : Prop :=
  ∀ x, ¬Relation.TransGen (fun a b => (a,b) ∈ edges) x x

theorem edge_waitGraph (edges : List (ℕ × ℕ)) :
    (waitGraph edges).Edge = fun a b => (a,b) ∈ edges := by
  funext a b
  exact propext mem_adjacency

theorem findCycles_spec (edges : List (ℕ × ℕ)) :
    (findCycles edges = [] ↔ Acyclic edges) ∧
      ∀ c ∈ findCycles edges, (waitGraph edges).IsCycle c := by
  have hstarts : ∀ v w, (waitGraph edges).Edge v w →
      v ∈ (edges.map Prod.fst).dedup.insertionSort (· ≤ ·) := fun v w hw => by
    rw [List.mem_insertionSort,List.mem_dedup]
    exact List.mem_map_of_mem (f := Prod.fst) (mem_adjacency.1 hw)
  have hacyclic : (waitGraph edges).Acyclic ↔ Acyclic edges := by
    rw [Graph.Acyclic,edge_waitGraph]
    rfl
  rw [← hacyclic]
  exact search_exact hstarts

/-- A round that finds a cycle removes an edge. -/
theorem removeVictims_lt {edges : List (ℕ × ℕ)} (h : findCycles edges ≠ []) :
    (removeVictims edges).length < edges.length := by
  obtain ⟨c,hc⟩ := List.exists_mem_of_ne_nil _ h
  have hcyc := (findCycles_spec edges).2 c hc
  obtain ⟨x,hx⟩ := Option.ne_none_iff_exists'.1 fun he => hcyc.ne (List.max?_eq_none_iff.1 he)
  obtain ⟨y,hy⟩ := hcyc.exists_succ (List.max?_mem hx)
  refine List.length_filter_lt_length_iff_exists.2 ⟨(x,y),mem_adjacency.1 hy,fun hp => ?_⟩
  exact (of_decide_eq_true hp).1 (List.mem_filterMap.2 ⟨c,hc,hx⟩)

/-- The search is exact, and ending the youngest of every cycle, again and again, ends them all. -/
theorem findCycles_exact (edges : List (ℕ × ℕ)) :
    (findCycles edges = [] ↔ Acyclic edges) ∧
    (∀ c ∈ findCycles edges, c ≠ [] ∧ c.Nodup ∧ c.IsChain (fun a b => (a,b) ∈ edges) ∧
      ∀ a ∈ c.getLast?, ∀ b ∈ c.head?, (a,b) ∈ edges) ∧
    ∃ rounds, findCycles (removeVictims^[rounds] edges) = [] ∧
      Acyclic (removeVictims^[rounds] edges) := by
  refine ⟨(findCycles_spec edges).1,fun c hc => ?_,?_⟩
  · have hcyc := (findCycles_spec edges).2 c hc
    refine ⟨hcyc.ne,hcyc.nodup,edge_waitGraph edges ▸ hcyc.chain,fun a ha b hb => ?_⟩
    exact mem_adjacency.1 (hcyc.closing a ha b hb)
  · induction hn : edges.length using Nat.strong_induction_on generalizing edges with
    | _ n ih =>
      by_cases h : findCycles edges = []
      · exact ⟨0,h,(findCycles_spec edges).1.1 h⟩
      · obtain ⟨rounds,hr⟩ := ih _ (hn ▸ removeVictims_lt h) (removeVictims edges) rfl
        exact ⟨rounds + 1,hr⟩

end Deadlock
end PgAm
