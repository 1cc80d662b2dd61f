import Mathlib.Tactic

/-! A set that transactions change in place, with a log of the changes in effect. A running
transaction takes its changes back from the last one on; what is in the set is then always
what the log says: an element that has been inserted and not deleted. -/
namespace PgAm
namespace UndoLog

variable {E X : Type*}

inductive Op (E : Type*)
  | inserted (e : E)
  | deleted (e : E)
  deriving DecidableEq

def Op.entry : Op E → E
  | .inserted e | .deleted e => e

def Op.inverse : Op E → Op E
  | .inserted e => .deleted e
  | .deleted e => .inserted e

theorem inverse_entry (op : Op E) : op.inverse.entry = op.entry := by
  cases op <;> rfl

section Set

variable [DecidableEq E]

def Op.run (s : List E) : Op E → List E
  | .inserted e => if e ∈ s then s else e :: s
  | .deleted e => s.filter (· ≠ e)

@[simp] theorem mem_run_inserted {s : List E} {e a : E} :
    a ∈ (Op.inserted e).run s ↔ a = e ∨ a ∈ s := by
  change a ∈ (if e ∈ s then s else e :: s) ↔ _
  split
  · rename_i h
    exact ⟨.inr,fun ha => ha.elim (fun he => he ▸ h) id⟩
  · exact List.mem_cons

@[simp] theorem mem_run_deleted {s : List E} {e a : E} :
    a ∈ (Op.deleted e).run s ↔ a ∈ s ∧ a ≠ e := by
  simp only [Op.run,List.mem_filter,decide_eq_true_eq]

end Set

/-- An element is inserted once, and deleted at most once at a time, after its insertion. -/
structure Inv (final : X → Prop) (s : List E) (log : List (X × Op E)) : Prop where
  mem : ∀ e, e ∈ s ↔ (∃ x, (x,.inserted e) ∈ log) ∧ ∀ x, (x,.deleted e) ∉ log
  once : log.Pairwise fun a b => ∀ e, a.2 = .inserted e → b.2 ≠ .inserted e
  after : ∀ l₁ x e l₂, log = l₁ ++ (x,.deleted e) :: l₂ →
    (∃ y, (y,.inserted e) ∈ l₁ ∧ (y = x ∨ final y)) ∧ ∀ y, (y,.deleted e) ∉ l₁

variable {final final' : X → Prop} {s : List E} {log : List (X × Op E)} {x : X} {e : E}

namespace Inv

theorem nil : Inv final ([] : List E) ([] : List (X × Op E)) where
  mem e := by simp
  once := List.Pairwise.nil
  after l₁ x e l₂ h := by simp at h

theorem mono (h : Inv final s log) (hf : ∀ x, final x → final' x) : Inv final' s log where
  __ := h
  after l₁ x e l₂ hl := by
    obtain ⟨⟨y,hy,hfin⟩,hdel⟩ := h.after l₁ x e l₂ hl
    exact ⟨⟨y,hy,hfin.imp id (hf y)⟩,hdel⟩

theorem inserted_of_deleted (h : Inv final s log) (hd : (x,.deleted e) ∈ log) :
    ∃ y, (y,.inserted e) ∈ log ∧ (y = x ∨ final y) := by
  obtain ⟨l₁,l₂,hl⟩ := List.append_of_mem hd
  obtain ⟨⟨y,hy,hf⟩,-⟩ := h.after l₁ x e l₂ hl
  exact ⟨y,by rw [hl]; exact List.mem_append_left _ hy,hf⟩

variable {l₁ l₂ : List (X × Op E)}

theorem inserted_once (h : Inv final s (l₁ ++ (x,.inserted e) :: l₂))
    (y : X) : (y,.inserted e) ∉ l₁ ++ l₂ := by
  have hp := List.pairwise_append.1 h.once
  intro hy
  rcases List.mem_append.1 hy with hy | hy
  · exact hp.2.2 _ hy _ List.mem_cons_self e rfl rfl
  · exact (List.pairwise_cons.1 hp.2.1).1 _ hy e rfl rfl

theorem deleted_once (h : Inv final s (l₁ ++ (x,.deleted e) :: l₂))
    (y : X) : (y,.deleted e) ∉ l₁ ++ l₂ := by
  intro hy
  rcases List.mem_append.1 hy with hy | hy
  · exact (h.after l₁ x e l₂ rfl).2 y hy
  · obtain ⟨m₁,m₂,rfl⟩ := List.append_of_mem hy
    have hsplit := h.after (l₁ ++ (x,.deleted e) :: m₁) y e m₂ (by simp)
    exact hsplit.2 x (by simp)

variable [DecidableEq E]

theorem insert (h : Inv final s log) (hfresh : ∀ y, (y,.inserted e) ∉ log) :
    Inv final ((Op.inserted e).run s) (log ++ [(x,.inserted e)]) where
  mem a := by
    rw [mem_run_inserted,h.mem]
    simp only [List.mem_append,List.mem_singleton,Prod.mk.injEq,Op.inserted.injEq,reduceCtorEq,
      and_false,or_false]
    constructor
    · rintro (rfl | ⟨⟨y,hy⟩,hdel⟩)
      · refine ⟨⟨x,.inr ⟨rfl,rfl⟩⟩,fun y hy => ?_⟩
        obtain ⟨z,hz,-⟩ := h.inserted_of_deleted hy
        exact hfresh z hz
      · exact ⟨⟨y,.inl hy⟩,hdel⟩
    · rintro ⟨⟨y,hy | ⟨-,rfl⟩⟩,hdel⟩
      · exact .inr ⟨⟨y,hy⟩,hdel⟩
      · exact .inl rfl
  once := by
    refine List.pairwise_append.2 ⟨h.once,List.pairwise_singleton _ _,fun a ha b hb e' he he' => ?_⟩
    rw [List.mem_singleton] at hb
    subst hb
    cases he'
    exact hfresh a.1 (he ▸ ha)
  after l₁ y e' l₂ hl := by
    rcases List.eq_nil_or_concat l₂ with rfl | ⟨l,b,rfl⟩
    · have hlast := (List.append_inj' hl rfl).2
      simp at hlast
    · rw [List.concat_eq_append,← List.cons_append,← List.append_assoc] at hl
      exact h.after l₁ y e' l (List.append_inj' hl rfl).1

theorem insertAll (h : Inv final s log) (owner : E → X) {es : List E} (hnd : es.Nodup)
    (hfresh : ∀ e ∈ es, ∀ y, (y,.inserted e) ∉ log) :
    Inv final (es.foldl (fun s e => (Op.inserted e).run s) s)
      (log ++ es.map fun e => (owner e,.inserted e)) := by
  induction es generalizing s log with
  | nil =>
    rw [List.map_nil,List.append_nil]
    exact h
  | cons e es ih =>
    obtain ⟨hne,hnd⟩ := List.nodup_cons.1 hnd
    have hrest := ih (h.insert (x := owner e) (hfresh e List.mem_cons_self)) hnd fun a ha y hy => by
      rcases List.mem_append.1 hy with hy | hy
      · exact hfresh a (List.mem_cons_of_mem _ ha) y hy
      · cases List.mem_singleton.1 hy
        exact hne ha
    rw [List.append_assoc] at hrest
    exact hrest

theorem delete (h : Inv final s log) (he : e ∈ s)
    (hown : ∀ y, (y,.inserted e) ∈ log → y = x ∨ final y) :
    Inv final ((Op.deleted e).run s) (log ++ [(x,.deleted e)]) where
  mem a := by
    rw [mem_run_deleted,h.mem]
    simp only [List.mem_append,List.mem_singleton,Prod.mk.injEq,Op.deleted.injEq,reduceCtorEq,
      and_false,or_false,not_or,not_and]
    constructor
    · rintro ⟨⟨hins,hdel⟩,hne⟩
      exact ⟨hins,fun y => ⟨hdel y,fun _ => hne⟩⟩
    · rintro ⟨hins,hdel⟩
      exact ⟨⟨hins,fun y => (hdel y).1⟩,(hdel x).2 rfl⟩
  once := by
    refine List.pairwise_append.2 ⟨h.once,List.pairwise_singleton _ _,fun a ha b hb e' _ he' => ?_⟩
    rw [List.mem_singleton] at hb
    subst hb
    cases he'
  after l₁ y e' l₂ hl := by
    rcases List.eq_nil_or_concat l₂ with rfl | ⟨l,b,rfl⟩
    · obtain ⟨rfl,hlast⟩ := List.append_inj' hl rfl
      simp only [List.cons.injEq,Prod.mk.injEq,Op.deleted.injEq,and_true] at hlast
      obtain ⟨rfl,rfl⟩ := hlast
      obtain ⟨⟨z,hz⟩,hdel⟩ := (h.mem e).1 he
      exact ⟨⟨z,hz,hown z hz⟩,hdel⟩
    · rw [List.concat_eq_append,← List.cons_append,← List.append_assoc] at hl
      exact h.after l₁ y e' l (List.append_inj' hl rfl).1

/-- A transaction that is not final takes back its last change. -/
theorem undo {op : Op E} (h : Inv final s (l₁ ++ (x,op) :: l₂))
    (hx : ¬final x) (hlast : ∀ a ∈ l₂, a.1 ≠ x) : Inv final (op.inverse.run s) (l₁ ++ l₂) := by
  have hsub : (l₁ ++ l₂).Sublist (l₁ ++ (x,op) :: l₂) :=
    List.Sublist.append_left (List.sublist_cons_self _ _) l₁
  have hmem : ∀ a, a ∈ l₁ ++ (x,op) :: l₂ ↔ a = (x,op) ∨ a ∈ l₁ ++ l₂ := fun a => by
    simp only [List.mem_append,List.mem_cons]
    tauto
  refine ⟨fun a => ?_,h.once.sublist hsub,fun k₁ y e' k₂ hk => ?_⟩
  · cases op with
    | inserted e =>
      have hnone := h.inserted_once
      change a ∈ (Op.deleted e).run s ↔ _
      rw [mem_run_deleted,h.mem]
      simp only [hmem,Prod.mk.injEq,Op.inserted.injEq,reduceCtorEq,and_false,false_or]
      constructor
      · rintro ⟨⟨⟨y,⟨-,rfl⟩ | hy⟩,hdel⟩,hne⟩
        · exact absurd rfl hne
        · exact ⟨⟨y,hy⟩,hdel⟩
      · rintro ⟨⟨y,hy⟩,hdel⟩
        refine ⟨⟨⟨y,.inr hy⟩,hdel⟩,?_⟩
        rintro rfl
        exact hnone y hy
    | deleted e =>
      obtain ⟨⟨z,hz,-⟩,-⟩ := h.after l₁ x e l₂ rfl
      have hnone := h.deleted_once
      change a ∈ (Op.inserted e).run s ↔ _
      rw [mem_run_inserted,h.mem]
      simp only [hmem,Prod.mk.injEq,Op.deleted.injEq,reduceCtorEq,and_false,false_or,not_or,not_and]
      constructor
      · rintro (rfl | ⟨hins,hd⟩)
        · exact ⟨⟨z,List.mem_append_left _ hz⟩,hnone⟩
        · exact ⟨hins,fun y => (hd y).2⟩
      · rintro ⟨hins,hd⟩
        by_cases ha : a = e
        · exact .inl ha
        · exact .inr ⟨hins,fun y => ⟨fun _ => ha,hd y⟩⟩
  · rcases List.append_eq_append_iff.1 hk with ⟨m,rfl,hm⟩ | ⟨m,rfl,hm⟩
    · obtain ⟨⟨z,hz,hown⟩,hdel⟩ := h.after (l₁ ++ (x,op) :: m) y e' k₂ (by rw [hm]; simp)
      have hy : y ≠ x := hlast (y,.deleted e') (by rw [hm]; simp)
      refine ⟨⟨z,?_,hown⟩,fun a ha => hdel a ?_⟩
      · simp only [List.mem_append,List.mem_cons] at hz ⊢
        rcases hz with hz | hz | hz
        · exact .inl hz
        · obtain rfl : z = x := congrArg Prod.fst hz
          exact (hown.elim (fun he => hy he.symm) hx).elim
        · exact .inr hz
      · simp only [List.mem_append,List.mem_cons] at ha ⊢
        exact ha.imp id .inr
    · cases m with
      | nil =>
        simp only [List.nil_append] at hm
        obtain ⟨⟨z,hz,hown⟩,hdel⟩ := h.after (k₁ ++ [] ++ [(x,op)]) y e' k₂ (by simp [← hm])
        have hy : y ≠ x := hlast (y,.deleted e') (by rw [← hm]; exact List.mem_cons_self)
        refine ⟨⟨z,?_,hown⟩,fun a ha => hdel a (by simp [ha])⟩
        simp only [List.append_nil,List.mem_append,List.mem_singleton] at hz
        rcases hz with hz | hz
        · exact hz
        · obtain rfl : z = x := congrArg Prod.fst hz
          exact (hown.elim (fun he => hy he.symm) hx).elim
      | cons b m =>
        rw [List.cons_append] at hm
        obtain ⟨rfl,hm⟩ := List.cons.inj hm
        exact h.after k₁ y e' (m ++ (x,op) :: l₂) (by simp)

end Inv

section Changes

variable [DecidableEq X] {l₁ l₂ : List (X × Op E)}

def ofTxn (x : X) (log : List (X × Op E)) : List (Op E) := (log.filter (·.1 = x)).map (·.2)

theorem mem_ofTxn {op : Op E} : op ∈ ofTxn x log ↔ (x,op) ∈ log := by
  simp only [ofTxn,List.mem_map,List.mem_filter,decide_eq_true_eq]
  constructor
  · rintro ⟨⟨y,o⟩,⟨hm,rfl⟩,rfl⟩
    exact hm
  · exact fun hm => ⟨(x,op),⟨hm,rfl⟩,rfl⟩

theorem ofTxn_append (l₁ l₂ : List (X × Op E)) :
    ofTxn x (l₁ ++ l₂) = ofTxn x l₁ ++ ofTxn x l₂ := by
  simp [ofTxn]

theorem ofTxn_concat_self (op : Op E) : ofTxn x (log ++ [(x,op)]) = ofTxn x log ++ [op] := by
  simp [ofTxn]

theorem ofTxn_concat_of_ne {y : X} (h : y ≠ x) (op : Op E) :
    ofTxn x (log ++ [(y,op)]) = ofTxn x log := by
  simp [ofTxn,h]

theorem ofTxn_last {op : Op E} (hlast : ∀ a ∈ l₂, a.1 ≠ x) :
    ofTxn x (l₁ ++ (x,op) :: l₂) = ofTxn x (l₁ ++ l₂) ++ [op] := by
  have hnil : l₂.filter (·.1 = x) = [] := by
    rw [List.filter_eq_nil_iff]
    exact fun a ha h => hlast a ha (of_decide_eq_true h)
  simp [ofTxn,hnil]

theorem ofTxn_drop_of_ne {y : X} (h : y ≠ x) (op : Op E) :
    ofTxn x (l₁ ++ (y,op) :: l₂) = ofTxn x (l₁ ++ l₂) := by
  simp [ofTxn,h]

end Changes

section Trace

variable [DecidableEq E]

def replay (trace : List (X × Op E)) : List E := trace.foldl (fun s a => a.2.run s) []

theorem replay_concat (trace : List (X × Op E)) (a : X × Op E) :
    replay (trace ++ [a]) = a.2.run (replay trace) := by
  rw [replay,List.foldl_concat]
  rfl

theorem exists_of_mem_replay {trace : List (X × Op E)} (he : e ∈ replay trace) :
    ∃ p ∈ trace, p.2.entry = e := by
  induction trace using List.reverseRecOn with
  | nil => cases he
  | append_singleton l p ih =>
    rw [replay_concat] at he
    have hcases : p.2.entry = e ∨ e ∈ replay l := by
      cases hp : p.2 with
      | inserted a =>
        rw [hp,mem_run_inserted] at he
        exact he.imp (fun h => h.symm) id
      | deleted a =>
        rw [hp,mem_run_deleted] at he
        exact .inr he.1
    rcases hcases with h | h
    · exact ⟨p,by simp,h⟩
    · obtain ⟨q,hq,heq⟩ := ih h
      exact ⟨q,List.mem_append_left _ hq,heq⟩

def back (ops : List (Op E)) (s : List E) : List E := ops.foldr (fun op s => op.inverse.run s) s

theorem back_concat (ops : List (Op E)) (op : Op E) (s : List E) :
    back (ops ++ [op]) s = back ops (op.inverse.run s) := List.foldr_append

variable {t : List E}

theorem run_congr (h : ∀ e, e ∈ s ↔ e ∈ t) (op : Op E) (e : E) : e ∈ op.run s ↔ e ∈ op.run t := by
  cases op with
  | inserted a => rw [mem_run_inserted,mem_run_inserted,h]
  | deleted a => rw [mem_run_deleted,mem_run_deleted,h]

theorem back_congr (h : ∀ e, e ∈ s ↔ e ∈ t) (ops : List (Op E)) (e : E) :
    e ∈ back ops s ↔ e ∈ back ops t := by
  induction ops generalizing e with
  | nil => exact h e
  | cons op ops ih => exact run_congr ih op.inverse e

def Op.Effective (s : List E) : Op E → Prop
  | .inserted e => e ∉ s
  | .deleted e => e ∈ s

theorem inverse_run {op : Op E} (h : op.Effective s) (e : E) :
    e ∈ op.inverse.run (op.run s) ↔ e ∈ s := by
  cases op with
  | inserted a =>
    change e ∈ (Op.deleted a).run _ ↔ _
    rw [mem_run_deleted,mem_run_inserted]
    constructor
    · rintro ⟨rfl | he,hne⟩
      · exact absurd rfl hne
      · exact he
    · intro he
      refine ⟨.inr he,?_⟩
      rintro rfl
      exact h he
  | deleted a =>
    change e ∈ (Op.inserted a).run _ ↔ _
    rw [mem_run_inserted,mem_run_deleted]
    constructor
    · rintro (rfl | ⟨he,-⟩)
      · exact h
      · exact he
    · intro he
      by_cases ha : e = a
      · exact .inl ha
      · exact .inr ⟨he,ha⟩

theorem run_comm {u v : Op E} (h : u.entry ≠ v.entry) (e : E) :
    e ∈ u.run (v.run s) ↔ e ∈ v.run (u.run s) := by
  cases u with
  | inserted a =>
    cases v with
    | inserted b => simp only [mem_run_inserted,or_left_comm]
    | deleted b =>
      simp only [mem_run_inserted,mem_run_deleted]
      constructor
      · rintro (rfl | ⟨he,hb⟩)
        · exact ⟨.inl rfl,h⟩
        · exact ⟨.inr he,hb⟩
      · rintro ⟨rfl | he,hb⟩
        · exact .inl rfl
        · exact .inr ⟨he,hb⟩
  | deleted a =>
    cases v with
    | inserted b =>
      simp only [mem_run_inserted,mem_run_deleted]
      constructor
      · rintro ⟨rfl | he,ha⟩
        · exact .inl rfl
        · exact .inr ⟨he,ha⟩
      · rintro (rfl | ⟨he,ha⟩)
        · exact ⟨.inl rfl,fun heq => h heq.symm⟩
        · exact ⟨.inr he,ha⟩
    | deleted b => simp only [mem_run_deleted,and_right_comm]

theorem back_run {ops : List (Op E)} {v : Op E} (h : ∀ op ∈ ops, op.entry ≠ v.entry) (e : E) :
    e ∈ back ops (v.run s) ↔ e ∈ v.run (back ops s) := by
  induction ops generalizing e with
  | nil => exact Iff.rfl
  | cons op ops ih =>
    have hrest := ih fun o ho => h o (List.mem_cons_of_mem _ ho)
    have hne : op.inverse.entry ≠ v.entry := inverse_entry op ▸ h op List.mem_cons_self
    exact (run_congr hrest op.inverse e).trans (run_comm hne e)

variable [DecidableEq X] {l₁ l₂ : List (X × Op E)}

/-- Taking back what is in effect of a transaction leaves what the others have done. -/
def Restores (x : X) (s : List E) (log trace : List (X × Op E)) : Prop :=
  ∀ e, e ∈ back (ofTxn x log) s ↔ e ∈ replay (trace.filter (·.1 ≠ x))

namespace Restores

variable {trace : List (X × Op E)} {op : Op E}

theorem mem_iff (h : Restores x s log trace) (hno : ∀ op, (x,op) ∉ log) (e : E) :
    e ∈ s ↔ e ∈ replay (trace.filter (·.1 ≠ x)) := by
  have hnil : ofTxn x log = [] := List.eq_nil_iff_forall_not_mem.2 fun op hop =>
    hno op (mem_ofTxn.1 hop)
  rw [← h e,hnil]
  rfl

theorem change (h : Restores x s log trace) (heff : op.Effective s) :
    Restores x (op.run s) (log ++ [(x,op)]) (trace ++ [(x,op)]) := by
  intro e
  have hfilter : (trace ++ [(x,op)]).filter (·.1 ≠ x) = trace.filter (·.1 ≠ x) := by simp
  rw [ofTxn_concat_self,back_concat,hfilter,← h e]
  exact back_congr (inverse_run heff) _ e

theorem takeBack (h : Restores x s (l₁ ++ (x,op) :: l₂) trace) (hlast : ∀ a ∈ l₂, a.1 ≠ x) :
    Restores x (op.inverse.run s) (l₁ ++ l₂) (trace ++ [(x,op.inverse)]) := by
  intro e
  have hfilter : (trace ++ [(x,op.inverse)]).filter (·.1 ≠ x) = trace.filter (·.1 ≠ x) := by simp
  rw [hfilter,← h e,ofTxn_last hlast,back_concat]

theorem other (h : Restores x s log trace) {y : X} (hy : y ≠ x) {log' : List (X × Op E)}
    (hlog : ofTxn x log' = ofTxn x log) (hne : ∀ o, (x,o) ∈ log → o.entry ≠ op.entry) :
    Restores x (op.run s) log' (trace ++ [(y,op)]) := by
  intro e
  have hfilter : (trace ++ [(y,op)]).filter (·.1 ≠ x) = trace.filter (·.1 ≠ x) ++ [(y,op)] := by
    simp [hy]
  rw [hlog,hfilter,replay_concat,back_run fun o ho => hne o (mem_ofTxn.1 ho)]
  exact run_congr h op e

end Restores

end Trace

end UndoLog
end PgAm
