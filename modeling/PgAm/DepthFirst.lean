import Mathlib.Tactic
import Mathlib.Logic.Relation
import Mathlib.Data.List.Chain
import Mathlib.Algebra.Order.BigOperators.Group.Finset

/-! Depth-first search for directed cycles, with three colours and an explicit stack of nodes
and cursors into their successor lists. A gray successor closes a cycle along the stack. Until
a cycle is found, every successor in front of a cursor is black or lies above it on the stack, so
a node that turns black has black successors only. -/
namespace PgAm
namespace DepthFirst

open Function

variable {α : Type*}

/-- Successor lists whose members all belong to a finite set. -/
structure Graph (α : Type*) where
  succ : α → List α
  nodes : Finset α
  closed : ∀ {v w}, w ∈ succ v → w ∈ nodes

def Graph.Edge (g : Graph α) (v w : α) : Prop := w ∈ g.succ v

structure Graph.IsCycle (g : Graph α) (c : List α) : Prop where
  ne : c ≠ []
  nodup : c.Nodup
  chain : c.IsChain g.Edge
  closing : ∀ a ∈ c.getLast?, ∀ b ∈ c.head?, g.Edge a b

def Graph.Acyclic (g : Graph α) : Prop := ∀ v, ¬Relation.TransGen g.Edge v v

variable {g : Graph α} {c : List α}

theorem Graph.IsCycle.not_acyclic (hc : g.IsCycle c) : ¬g.Acyclic := by
  intro ha
  cases c with
  | nil => exact hc.ne rfl
  | cons a l =>
    have hr := List.relationReflTransGen_of_exists_isChain_cons l hc.chain rfl
    have hlast := hc.closing _ (List.getLast?_eq_some_getLast (List.cons_ne_nil a l)) a rfl
    exact ha _ (.head' hlast hr)

theorem Graph.IsCycle.exists_succ (hc : g.IsCycle c) {x : α} (hx : x ∈ c) : ∃ y, g.Edge x y := by
  obtain ⟨l,r,rfl⟩ := List.append_of_mem hx
  cases r with
  | nil =>
    obtain ⟨y,hy⟩ := Option.ne_none_iff_exists'.1 fun he => hc.ne (List.head?_eq_none_iff.1 he)
    exact ⟨y,hc.closing x (by simp) y hy⟩
  | cons y r => exact ⟨y,(List.isChain_append_cons_cons.1 hc.chain).2.1⟩

inductive Color
  | white
  | gray
  | black
  deriving DecidableEq

/-- The stack has its top first; it is the gray path read backwards. -/
structure State (α : Type*) where
  color : α → Color
  stack : List (α × ℕ)
  cycles : List (List α)

def State.onStack (s : State α) : List α := s.stack.map Prod.fst

def State.path (s : State α) : List α := s.onStack.reverse

/-- The gray nodes are those of the stack, and each has an edge to the one above it. -/
structure Path (g : Graph α) (color : α → Color) (nodes : List α) : Prop where
  gray : ∀ v, color v = .gray ↔ v ∈ nodes
  nodup : nodes.Nodup
  chain : nodes.IsChain fun w v => g.Edge v w

/-- Every successor in front of a cursor is black or lies above on the stack. -/
def Covered (g : Graph α) (color : α → Color) : List α → List (α × ℕ) → Prop
  | _,[] => True
  | above,(v,cursor) :: below =>
    (∀ w ∈ (g.succ v).take cursor, color w = .black ∨ w ∈ above) ∧
      Covered g color (v :: above) below

/-- The search has found nothing yet: black nodes lie on no cycle. -/
structure Clean (g : Graph α) (color : α → Color) (stack : List (α × ℕ)) : Prop where
  closed : ∀ v w, color v = .black → g.Edge v w → color w = .black
  acyclic : ∀ v, color v = .black → ¬Relation.TransGen g.Edge v v
  covered : Covered g color [] stack

structure Inv (g : Graph α) (s : State α) : Prop where
  path : Path g s.color s.onStack
  cycles : ∀ c ∈ s.cycles, g.IsCycle c
  clean : s.cycles = [] → Clean g s.color s.stack

section Stack

variable {g : Graph α} {s : State α} {color : α → Color} {node next : α} {cursor : ℕ}
  {rest : List (α × ℕ)}

theorem Covered.mono {color' : α → Color} {above above' : List α} {stack : List (α × ℕ)}
    (h : ∀ w, color w = .black ∨ w ∈ above → color' w = .black ∨ w ∈ above')
    (hc : Covered g color above stack) : Covered g color' above' stack := by
  induction stack generalizing above above' with
  | nil => trivial
  | cons e below ih =>
    refine ⟨fun w hw => h w (hc.1 w hw),ih (fun w hw => ?_) hc.2⟩
    rcases hw with hw | hw
    · exact (h w (.inl hw)).imp_right (List.mem_cons_of_mem _)
    · rcases List.mem_cons.1 hw with rfl | hw
      · exact .inr List.mem_cons_self
      · exact (h w (.inr hw)).imp_right (List.mem_cons_of_mem _)

theorem Covered.advance {above : List α} (hc : Covered g color [] ((node,cursor) :: rest))
    (hnext : (g.succ node)[cursor]? = some next) (h : color next = .black ∨ next ∈ above) :
    ∀ w ∈ (g.succ node).take (cursor + 1), color w = .black ∨ w ∈ above := by
  intro w hw
  rw [List.take_add_one,hnext,List.mem_append] at hw
  rcases hw with hw | hw
  · exact .inl ((hc.1 w hw).resolve_right List.not_mem_nil)
  · rw [Option.toList_some,List.mem_singleton] at hw
    exact hw ▸ h

theorem onStack_eq (hstack : s.stack = (node,cursor) :: rest) :
    s.onStack = node :: rest.map Prod.fst := by
  rw [State.onStack,hstack,List.map_cons]

theorem cursor_lt (h : (g.succ node)[cursor]? = some next) : cursor < (g.succ node).length :=
  (List.getElem?_eq_some_iff.1 h).1

end Stack

variable [DecidableEq α]

def visit (g : Graph α) (s : State α) : Option (State α) :=
  match s.stack with
  | [] => none
  | (node,cursor) :: rest =>
    match (g.succ node)[cursor]? with
    | none => some { s with color := update s.color node .black, stack := rest }
    | some next =>
      match s.color next with
      | .gray => some { s with
          stack := (node,cursor + 1) :: rest
          cycles := s.cycles ++ [s.path.drop (s.path.idxOf next)] }
      | .white => some { s with
          color := update s.color next .gray
          stack := (next,0) :: (node,cursor + 1) :: rest }
      | .black => some { s with stack := (node,cursor + 1) :: rest }

variable {s t : State α}

theorem visit_cases (h : visit g s = some t) : ∃ node cursor rest, s.stack = (node,cursor) :: rest ∧
    (((g.succ node)[cursor]? = none ∧
        t = { s with color := update s.color node .black, stack := rest }) ∨
      ∃ next, (g.succ node)[cursor]? = some next ∧
        ((s.color next = .gray ∧ t = { s with
            stack := (node,cursor + 1) :: rest
            cycles := s.cycles ++ [s.path.drop (s.path.idxOf next)] }) ∨
          (s.color next = .white ∧ t = { s with
            color := update s.color next .gray
            stack := (next,0) :: (node,cursor + 1) :: rest }) ∨
          (s.color next = .black ∧ t = { s with stack := (node,cursor + 1) :: rest }))) := by
  unfold visit at h
  split at h
  · cases h
  · rename_i node cursor rest hstack
    refine ⟨node,cursor,rest,hstack,?_⟩
    split at h
    · rename_i hnext
      exact .inl ⟨hnext,(Option.some.inj h).symm⟩
    · rename_i next hnext
      refine .inr ⟨next,hnext,?_⟩
      split at h
      · rename_i hc
        exact .inl ⟨hc,(Option.some.inj h).symm⟩
      · rename_i hc
        exact .inr (.inl ⟨hc,(Option.some.inj h).symm⟩)
      · rename_i hc
        exact .inr (.inr ⟨hc,(Option.some.inj h).symm⟩)

def weight (g : Graph α) (s : State α) : ℕ :=
  (g.nodes.filter (s.color · = .white)).sum (fun v => (g.succ v).length + 2) +
    (s.stack.map fun e => (g.succ e.1).length - e.2 + 1).sum

theorem visit_weight (h : visit g s = some t) : weight g t < weight g s := by
  obtain ⟨node,cursor,rest,hstack,⟨-,rfl⟩ | ⟨next,hnext,ht⟩⟩ := visit_cases h
  · have hwhite : (g.nodes.filter (update s.color node .black · = .white)) ⊆
        g.nodes.filter (s.color · = .white) := by
      intro v hv
      rw [Finset.mem_filter] at hv ⊢
      refine ⟨hv.1,?_⟩
      by_cases he : v = node
      · rw [he,update_self] at hv
        exact absurd hv.2 nofun
      · rw [update_of_ne he] at hv
        exact hv.2
    have hsum := Finset.sum_le_sum_of_subset (f := fun v => (g.succ v).length + 2) hwhite
    simp only [weight,hstack,List.map_cons,List.sum_cons]
    omega
  · have hlt := cursor_lt hnext
    obtain ⟨-,rfl⟩ | ⟨hc,rfl⟩ | ⟨-,rfl⟩ := ht
    · simp only [weight,hstack,List.map_cons,List.sum_cons]
      omega
    · have hmem : next ∈ g.nodes.filter (s.color · = .white) :=
        Finset.mem_filter.2 ⟨g.closed (List.mem_of_getElem? hnext),hc⟩
      have herase : g.nodes.filter (update s.color next .gray · = .white) =
          (g.nodes.filter (s.color · = .white)).erase next := by
        ext v
        rw [Finset.mem_erase,Finset.mem_filter,Finset.mem_filter]
        by_cases he : v = next
        · simp [he]
        · simp [he]
      have hsum := Finset.add_sum_erase (g.nodes.filter (s.color · = .white))
        (fun v => (g.succ v).length + 2) hmem
      simp only [weight,hstack,List.map_cons,List.sum_cons,herase]
      omega
    · simp only [weight,hstack,List.map_cons,List.sum_cons]
      omega

def explore (g : Graph α) (s : State α) : State α :=
  match _h : visit g s with
  | none => s
  | some t => explore g t
termination_by weight g s
decreasing_by exact visit_weight _h

def searchFrom (g : Graph α) (s : State α) (start : α) : State α :=
  if s.color start ≠ .white then s
  else explore g { s with
    color := update s.color start .gray
    stack := [(start,0)] }

def search (g : Graph α) (starts : List α) : State α :=
  starts.foldl (searchFrom g) ⟨fun _ => .white,[],[]⟩

/-- What every round keeps holds at the end, where the stack is empty. -/
theorem explore_invariant {I : State α → Prop}
    (hI : ∀ s t, I s → visit g s = some t → I t) (s : State α) (h : I s) :
    I (explore g s) ∧ (explore g s).stack = [] := by
  induction s using explore.induct g with
  | case1 s hnone =>
    have he : explore g s = s := by
      rw [explore]
      split
      · rfl
      · rename_i t ht
        rw [hnone] at ht
        cases ht
    rw [he]
    refine ⟨h,?_⟩
    cases hs : s.stack with
    | nil => rfl
    | cons e rest =>
      simp only [visit,hs] at hnone
      split at hnone
      · cases hnone
      · split at hnone <;> cases hnone
  | case2 s t ht ih =>
    have he : explore g s = explore g t := by
      rw [explore]
      split
      · rename_i hnone
        rw [hnone] at ht
        cases ht
      · rename_i t' ht'
        rw [ht] at ht'
        cases ht'
        rfl
    rw [he]
    exact ih (hI s t h ht)

section Rounds

variable {g : Graph α} {s : State α} {color : α → Color} {node next : α} {cursor : ℕ}
  {rest : List (α × ℕ)}

/-- A gray successor: the stack from it on is a cycle. -/
theorem Path.isCycle (hp : Path g s.color s.onStack) (hstack : s.stack = (node,cursor) :: rest)
    (hnext : (g.succ node)[cursor]? = some next) (hc : s.color next = .gray) :
    g.IsCycle (s.path.drop (s.path.idxOf next)) := by
  have hmem : next ∈ s.path := List.mem_reverse.2 ((hp.gray next).1 hc)
  have hlt := List.idxOf_lt_length_of_mem hmem
  have hlast : (s.path.drop (s.path.idxOf next)).getLast? = some node := by
    rw [List.getLast?_drop,if_neg (not_le.2 hlt),State.path,onStack_eq hstack,List.getLast?_reverse]
    rfl
  have hhead : (s.path.drop (s.path.idxOf next)).head? = some next := by
    rw [List.head?_drop,List.getElem?_idxOf hmem]
  refine ⟨fun he => ?_,?_,?_,?_⟩
  · rw [he] at hhead
    cases hhead
  · exact (List.nodup_reverse.2 hp.nodup).sublist (List.drop_sublist ..)
  · exact (List.isChain_reverse.2 hp.chain).drop _
  · rw [hlast,hhead]
    rintro _ ⟨⟩ _ ⟨⟩
    exact List.mem_of_getElem? hnext

variable {nodes : List α}

theorem Path.push (hp : Path g color nodes) (hc : color next = .white)
    (hedge : (next :: nodes).IsChain fun w v => g.Edge v w) :
    Path g (update color next .gray) (next :: nodes) := by
  refine ⟨fun v => ?_,List.nodup_cons.2 ⟨fun hm => ?_,hp.nodup⟩,hedge⟩
  · rw [List.mem_cons,← hp.gray v]
    by_cases he : v = next
    · simp [he]
    · simp [he]
  · rw [(hp.gray next).2 hm] at hc
    cases hc

theorem Path.pop (hp : Path g color (node :: nodes)) :
    Path g (update color node .black) nodes := by
  have hnd := List.nodup_cons.1 hp.nodup
  refine ⟨fun v => ?_,hnd.2,hp.chain.tail⟩
  by_cases he : v = node
  · subst he
    rw [update_self]
    exact ⟨nofun,fun hm => absurd hm hnd.1⟩
  · rw [update_of_ne he,hp.gray v,List.mem_cons]
    exact ⟨fun hm => hm.resolve_left he,.inr⟩

theorem black_push (hc : color next = .white) (w : α) :
    update color next .gray w = .black ↔ color w = .black := by
  by_cases he : w = next
  · rw [he,update_self,hc]
    exact ⟨nofun,nofun⟩
  · rw [update_of_ne he]

theorem Clean.push {stack : List (α × ℕ)} (hs : Clean g color rest) (hc : color next = .white)
    (hcov : Covered g (update color next .gray) [] stack) :
    Clean g (update color next .gray) stack := by
  refine ⟨fun v w hv hw => ?_,fun v hv => ?_,hcov⟩
  · exact (black_push hc w).2 (hs.closed v w ((black_push hc v).1 hv) hw)
  · exact hs.acyclic v ((black_push hc v).1 hv)

theorem Clean.pop (hs : Clean g color ((node,cursor) :: rest)) (hgray : color node = .gray)
    (hnext : (g.succ node)[cursor]? = none) :
    Clean g (update color node .black) rest := by
  have hsucc : ∀ w, g.Edge node w → color w = .black := fun w hw => by
    have hall := List.take_of_length_le (List.getElem?_eq_none_iff.1 hnext)
    exact (hs.covered.1 w (by rw [hall]; exact hw)).resolve_right List.not_mem_nil
  have hreach : ∀ {v w}, Relation.ReflTransGen g.Edge v w → color v = .black →
      color w = .black := by
    intro v w hr hv
    induction hr with
    | refl => exact hv
    | tail _ he ih => exact hs.closed _ _ ih he
  have hup : ∀ w, color w = .black → update color node .black w = .black := by
    intro w hw
    by_cases he : w = node
    · rw [he,update_self]
    · rwa [update_of_ne he]
  refine ⟨fun v w hv hw => hup w ?_,fun v hv => ?_,hs.covered.2.mono fun w hw => ?_⟩
  · by_cases he : v = node
    · exact hsucc w (he ▸ hw)
    · rw [update_of_ne he] at hv
      exact hs.closed v w hv hw
  · by_cases he : v = node
    · subst he
      intro hcyc
      obtain ⟨w,hw,hr⟩ := Relation.TransGen.head'_iff.1 hcyc
      rw [hreach hr (hsucc w hw)] at hgray
      cases hgray
    · rw [update_of_ne he] at hv
      exact hs.acyclic v hv
  · rcases hw with hw | hw
    · exact .inl (hup w hw)
    · exact .inl (by rw [List.mem_singleton.1 hw,update_self])

theorem Inv.visit (hi : Inv g s) {t : State α} (h : visit g s = some t) : Inv g t := by
  obtain ⟨node,cursor,rest,hstack,hround⟩ := visit_cases h
  have hpath : Path g s.color (node :: rest.map Prod.fst) := onStack_eq hstack ▸ hi.path
  have hclean : s.cycles = [] → Clean g s.color ((node,cursor) :: rest) := hstack ▸ hi.clean
  obtain ⟨hnext,rfl⟩ | ⟨next,hnext,⟨hc,rfl⟩ | ⟨hc,rfl⟩ | ⟨hc,rfl⟩⟩ := hround
  · have hgray := (hpath.gray node).2 List.mem_cons_self
    exact ⟨hpath.pop,hi.cycles,fun he => (hclean he).pop hgray hnext⟩
  · refine ⟨hpath,fun c hcm => ?_,fun he => absurd he (by simp)⟩
    rcases List.mem_append.1 hcm with hcm | hcm
    · exact hi.cycles c hcm
    · exact List.mem_singleton.1 hcm ▸ hi.path.isCycle hstack hnext hc
  · have hedge := List.isChain_cons_cons.2 ⟨List.mem_of_getElem? hnext,hpath.chain⟩
    refine ⟨hpath.push hc hedge,hi.cycles,fun he => (hclean he).push hc ?_⟩
    have hcov : Covered g (update s.color next .gray) [] ((node,cursor) :: rest) :=
      (hclean he).covered.mono fun w hw => hw.imp_left (black_push hc w).2
    refine ⟨fun w hw => absurd hw (by simp),hcov.advance hnext (.inr List.mem_cons_self),
      hcov.2.mono fun w hw => hw.imp_right fun hm => ?_⟩
    rw [List.mem_singleton.1 hm]
    exact List.mem_cons_self
  · refine ⟨hpath,hi.cycles,fun he => ?_⟩
    have hs := hclean he
    exact ⟨hs.closed,hs.acyclic,hs.covered.advance hnext (.inl hc),hs.covered.2⟩

theorem visit_color {t : State α} (h : visit g s = some t) {v : α} (hv : s.color v ≠ .white) :
    t.color v ≠ .white := by
  have hup : ∀ {w : α} {c : Color}, c ≠ .white → update s.color w c v ≠ .white := by
    intro w c hc
    by_cases he : v = w
    · rwa [he,update_self]
    · rwa [update_of_ne he]
  obtain ⟨node,cursor,rest,-,⟨-,rfl⟩ | ⟨next,-,⟨-,rfl⟩ | ⟨-,rfl⟩ | ⟨-,rfl⟩⟩⟩ := visit_cases h
  · exact hup nofun
  · exact hv
  · exact hup nofun
  · exact hv

theorem searchFrom_spec (hi : Inv g s) (hs : s.stack = []) (start : α) :
    Inv g (searchFrom g s start) ∧ (searchFrom g s start).stack = [] ∧
      (searchFrom g s start).color start ≠ .white ∧
      ∀ v, s.color v ≠ .white → (searchFrom g s start).color v ≠ .white := by
  unfold searchFrom
  split
  · rename_i hc
    exact ⟨hi,hs,hc,fun _ => id⟩
  · rename_i hc
    have hc := not_not.1 hc
    have hpath : Path g s.color [] := by
      have hp := hi.path
      rwa [State.onStack,hs] at hp
    have hstart : Inv g { s with
        color := update s.color start .gray, stack := [(start,0)] } :=
      ⟨hpath.push hc (.singleton _),hi.cycles,fun he => (hi.clean he).push hc
        ⟨fun w hw => absurd hw (by simp),trivial⟩⟩
    have hmet : ∀ v, update s.color start .gray v ≠ .white →
        (explore g { s with
          color := update s.color start .gray
          stack := [(start,0)] }).color v ≠ .white := fun v hv =>
      (explore_invariant (I := fun t => t.color v ≠ .white) (fun _ _ hw ht => visit_color ht hw)
        _ hv).1
    obtain ⟨hinv,hempty⟩ := explore_invariant (fun _ _ hw ht => Inv.visit hw ht) _ hstart
    refine ⟨hinv,hempty,hmet start (by rw [update_self]; exact nofun),fun v hv => ?_⟩
    refine hmet v ?_
    by_cases he : v = start
    · rw [he,update_self]
      exact nofun
    · rwa [update_of_ne he]

theorem search_spec (starts : List α) :
    Inv g (search g starts) ∧ (search g starts).stack = [] ∧
      ∀ v ∈ starts, (search g starts).color v ≠ .white := by
  have hfold : ∀ (l : List α) (s : State α), Inv g s → s.stack = [] →
      Inv g (l.foldl (searchFrom g) s) ∧ (l.foldl (searchFrom g) s).stack = [] ∧
        ∀ v, s.color v ≠ .white ∨ v ∈ l → (l.foldl (searchFrom g) s).color v ≠ .white := by
    intro l
    induction l with
    | nil => exact fun s hi hs => ⟨hi,hs,fun v hv => hv.resolve_right List.not_mem_nil⟩
    | cons a l ih =>
      intro s hi hs
      obtain ⟨hi',hs',ha,hmet⟩ := searchFrom_spec hi hs a
      obtain ⟨hinv,hempty,hcol⟩ := ih _ hi' hs'
      refine ⟨hinv,hempty,fun v hv => hcol v ?_⟩
      rcases hv with hv | hv
      · exact .inl (hmet v hv)
      · rcases List.mem_cons.1 hv with rfl | hv
        · exact .inl ha
        · exact .inr hv
  have hinit : Inv g (⟨fun _ => .white,[],[]⟩ : State α) :=
    ⟨⟨fun _ => ⟨nofun,nofun⟩,.nil,.nil⟩,nofun,fun _ => ⟨nofun,nofun,trivial⟩⟩
  obtain ⟨hinv,hempty,hcol⟩ := hfold starts _ hinit rfl
  exact ⟨hinv,hempty,fun v hv => hcol v (.inr hv)⟩

/-- The search finds cycles only, and it finds one if there is one. -/
theorem search_exact {starts : List α} (hstarts : ∀ v w, g.Edge v w → v ∈ starts) :
    ((search g starts).cycles = [] ↔ g.Acyclic) ∧ ∀ c ∈ (search g starts).cycles, g.IsCycle c := by
  obtain ⟨hinv,hempty,hmet⟩ := @search_spec _ _ g starts
  refine ⟨⟨fun he v hcyc => ?_,fun ha => ?_⟩,hinv.cycles⟩
  · obtain ⟨w,hw,-⟩ := Relation.TransGen.head'_iff.1 hcyc
    have hwhite := hmet v (hstarts v w hw)
    have hgray : (search g starts).color v ≠ .gray := fun hg => by
      have hm := (hinv.path.gray v).1 hg
      rw [State.onStack,hempty] at hm
      cases hm
    cases hc : (search g starts).color v with
    | white => exact hwhite hc
    | gray => exact hgray hc
    | black => exact (hinv.clean he).acyclic v hc hcyc
  · rw [List.eq_nil_iff_forall_not_mem]
    exact fun c hc => (hinv.cycles c hc).not_acyclic ha

end Rounds

end DepthFirst
end PgAm
