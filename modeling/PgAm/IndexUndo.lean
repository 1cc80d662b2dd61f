import PgAm.EngineRuns
import PgAm.HeapRows

/-! Rollback and the indexes. A session of the engine here has everything that can go wrong with
the index changes of a transaction: a B-tree call returns an error and has no effect, a statement
names tuples that it has not scanned, a commit fails. The trace records every change that a B-tree
call has made, with the transaction it was made for; leaving a transaction out of the trace gives
the indexes as they were without it. -/
namespace PgAm
namespace IndexUndo

open Machine Heap Function
open HeapHistory (History Write Rows Grown Keeps)
open Engine (Table Entry Schema Start)
open Engine.Table
open UndoLog (Op replay ofTxn Restores)

/-- `lost` are the transactions whose commit returned an error: their undo log is gone. -/
structure Session (K : Type) where
  table : Table K
  trace : List (ℕ × Op (Entry K))
  lost : List ℕ

inductive Step (K : Type)
  | engine (a : Engine.Step K)
  | statement (xid : ℕ) (tids : List Tid)
  | maintainErr (xid : ℕ)
  | undoErr (xid : ℕ)
  | commitErr (xid : ℕ)
  deriving DecidableEq

section System

variable {K : Type} [DecidableEq K] (schema : Schema K)

def treeCall (e : Table K) : Engine.Step K → List (ℕ × Op (Entry K))
  | .maintain xid =>
    match e.pending xid with
    | [] => []
    | op :: _ =>
      if schema.fits op.entry.key ∧ (op = .deleted op.entry → op.entry ∈ e.index) then [(xid,op)]
      else []
  | .undo xid =>
    match lastOf xid e.applied with
    | some (_,op,_) => [(xid,op.inverse)]
    | none => []
  | _ => []

def step (s : Session K) : Step K → Option (Session K)
  | .engine a =>
    if ∃ xid ∈ a.actor, xid ∈ s.lost then none
    else (Engine.step schema s.table a).map fun e =>
      { s with table := e, trace := s.trace ++ treeCall schema s.table a }
  | .statement xid tids =>
    if s.table.Idle xid ∧ s.table.history.heap.Live xid ∧ xid ∉ s.lost then
      some { s with table := { s.table with history := s.table.history.statement xid tids } }
    else none
  | .maintainErr xid =>
    if s.table.pending xid ≠ [] ∧ s.table.history.heap.Live xid then
      some { s with table := s.table.fail xid }
    else none
  | .undoErr xid =>
    if xid ∈ s.table.ending ∧ s.table.history.heap.Live xid then
      match lastOf xid s.table.applied with
      | some (l₁,_,l₂) => some { s with table := { s.table with applied := l₁ ++ l₂ } }
      | none => none
    else none
  | .commitErr xid =>
    if s.table.Idle xid ∧ s.table.history.heap.Live xid then
      some { s with lost := xid :: s.lost }
    else none

end System

variable {K : Type}

/-- A table with rows and index entries of earlier transactions and none at work. -/
def Opened [DecidableEq K] (s : Session K) : Prop :=
  s.table.history.heap.manager.Opened ∧ Rows s.table.history ∧ s.table.history.writes = [] ∧
    s.table.applied = [] ∧ (∀ x, s.table.pending x = []) ∧
    (∀ p ∈ s.trace, p.1 = TxnId.invalid ∧
      ∃ hd, s.table.history.heap.tuple p.2.entry.tid = some hd) ∧
    ∀ a, a ∈ s.table.index ↔ a ∈ replay s.trace

def Finished (h : History) (x : ℕ) : Prop :=
  h.heap.manager.getState x = .committed ∨ h.heap.manager.getState x = .aborted

instance (h : History) (x : ℕ) : Decidable (Finished h x) := inferInstanceAs (Decidable (_ ∨ _))

/-- The transaction `x` and the others that are at work at the same time touch different rows. -/
def OtherRow (x : ℕ) (h : History) (y : ℕ) (row : Tid) : Prop :=
  ∀ w ∈ h.writes, w.row = row → w.xid ≠ y → y = x ∨ w.xid = x → Finished h w.xid

instance (x : ℕ) (h : History) (y : ℕ) (row : Tid) : Decidable (OtherRow x h y row) :=
  inferInstanceAs (Decidable (∀ w ∈ h.writes, _))

def Apart (x : ℕ) (s : Session K) : Step K → Prop
  | .engine (.update y tid ..) | .engine (.delete y tid ..) =>
    OtherRow x s.table.history y (s.table.history.row tid)
  | _ => True

instance (x : ℕ) (s : Session K) : (a : Step K) → Decidable (Apart x s a)
  | .engine (.update y tid ..) | .engine (.delete y tid ..) =>
    inferInstanceAs (Decidable (OtherRow x s.table.history y (s.table.history.row tid)))
  | .engine (.act _) | .engine (.insert ..) | .engine (.maintain _) | .engine (.commit _)
  | .engine (.beginAbort _) | .engine (.undo _) | .engine (.abort _) | .statement ..
  | .maintainErr _ | .undoErr _ | .commitErr _ => .isTrue trivial

/-- No B-tree call of the transaction's own rollback returns an error. -/
def Undone (x : ℕ) (s : Session K) (a : Step K) : Prop := Apart x s a ∧ a ≠ .undoErr x

instance [DecidableEq K] (x : ℕ) (s : Session K) (a : Step K) : Decidable (Undone x s a) :=
  inferInstanceAs (Decidable (_ ∧ _))

structure Inv [DecidableEq K] (x : ℕ) (s : Session K) : Prop where
  manager : s.table.history.heap.manager.Inv
  rows : Rows s.table.history
  apart : ∀ w ∈ s.table.history.writes, ∀ w' ∈ s.table.history.writes, w.row = w'.row →
    w.xid = x → w'.xid ≠ x → Finished s.table.history x ∨ Finished s.table.history w'.xid
  touched : ∀ y op, op ∈ s.table.pending y ∨ (y,op) ∈ s.table.applied →
    (∃ hd, s.table.history.heap.tuple op.entry.tid = some hd) ∧
      ∃ w ∈ s.table.history.writes, w.xid = y ∧ w.row = s.table.history.row op.entry.tid
  fresh : ∀ y a, .inserted a ∈ s.table.pending y →
    (∃ hd, s.table.history.heap.tuple a.tid = some hd ∧ hd.tXmin = y) ∧
      ∀ p ∈ s.trace, p.2.entry ≠ a
  nodup : ∀ y, (s.table.pending y).Nodup
  traced : ∀ p ∈ s.trace, ∃ hd, s.table.history.heap.tuple p.2.entry.tid = some hd
  logged : ∀ p ∈ s.table.applied, ∃ q ∈ s.trace, q.2.entry = p.2.entry
  whole : ∀ a, a ∈ s.table.index ↔ a ∈ replay s.trace
  aborted : s.table.history.heap.manager.getState x = .aborted → ∀ op, (x,op) ∉ s.table.applied
  restores : s.table.history.heap.manager.getState x ≠ .committed →
    Restores x s.table.index s.table.applied s.trace

theorem sublist_of_split {l l₁ l₂ : List (ℕ × Op (Entry K))} {y : ℕ}
    {op : Op (Entry K)} (hl : l = l₁ ++ (y,op) :: l₂) :
    (l₁ ++ l₂).Sublist l ∧ (y,op) ∈ l := by
  subst hl
  exact ⟨List.Sublist.append_left (List.sublist_cons_self _ _) l₁,
    List.mem_append_right _ List.mem_cons_self⟩

theorem finished_of_keeps {h t : History} {y : ℕ} (hk : Keeps h.heap.manager t.heap.manager)
    (hf : Finished h y) : Finished t y :=
  hf.imp (hk y _ nofun) (hk y _ nofun)

section Steps

variable [DecidableEq K] {x y : ℕ} {s s' : Session K} {op : Op (Entry K)}

theorem not_finished_of_live {h : History} (hl : h.heap.Live y) : ¬Finished h y := by
  rintro (hc | hc)
  · exact absurd (hl.2.symm.trans hc) nofun
  · exact absurd (hl.2.symm.trans hc) nofun

theorem Inv.quiet (hi : Inv x s) (hg : Grown s.table.history s'.table.history none)
    (hm : s'.table.history.heap.manager.Inv)
    (hk : Keeps s.table.history.heap.manager s'.table.history.heap.manager)
    (hab : s'.table.history.heap.manager.getState x = .aborted →
      s.table.history.heap.manager.getState x = .aborted ∨ ∀ op, (x,op) ∉ s.table.applied)
    (hp : ∀ y, (s'.table.pending y).Sublist (s.table.pending y))
    (happ : s'.table.applied.Sublist s.table.applied)
    (hof : ofTxn x s'.table.applied = ofTxn x s.table.applied)
    (hindex : s'.table.index = s.table.index) (htrace : s'.trace = s.trace) : Inv x s' where
  manager := hm
  rows := hg.rows hi.rows
  apart w hw w' hw' hrow hwx hne := by
    rcases hg.mem_writes.1 hw with hw | hw
    · rcases hg.mem_writes.1 hw' with hw' | hw'
      · exact (hi.apart w hw w' hw' hrow hwx hne).imp (finished_of_keeps hk) (finished_of_keeps hk)
      · cases hw'
    · cases hw
  touched y op hop := by
    obtain ⟨⟨hd,hh⟩,w,hw,hwx,hrow⟩ := hi.touched y op
      (hop.imp (fun h => (hp y).subset h) fun h => happ.subset h)
    obtain ⟨hrow',hd',hh',-⟩ := hg.forward _ hd hh
    exact ⟨⟨hd',hh'⟩,w,hg.mem_writes.2 (.inl hw),hwx,hrow.trans hrow'.symm⟩
  fresh y a ha := by
    obtain ⟨⟨hd,hh,hmin⟩,hno⟩ := hi.fresh y a ((hp y).subset ha)
    obtain ⟨-,hd',hh',hmin'⟩ := hg.forward _ hd hh
    rw [htrace]
    exact ⟨⟨hd',hh',hmin'.trans hmin⟩,hno⟩
  nodup y := (hi.nodup y).sublist (hp y)
  traced p hp := by
    rw [htrace] at hp
    obtain ⟨hd,hh⟩ := hi.traced p hp
    obtain ⟨-,hd',hh',-⟩ := hg.forward _ hd hh
    exact ⟨hd',hh'⟩
  logged p hp := by
    rw [htrace]
    exact hi.logged p (happ.subset hp)
  whole a := by
    rw [htrace,hindex]
    exact hi.whole a
  aborted h op hop := by
    rcases hab h with h | h
    · exact hi.aborted h op (happ.subset hop)
    · exact h op (happ.subset hop)
  restores h e := by
    rw [hof,hindex,htrace]
    exact hi.restores (fun hc => h (hk x _ nofun hc)) e

theorem Inv.wrote (hi : Inv x s) {a : Write} {ops : List (Op (Entry K))}
    (hg : Grown s.table.history s'.table.history (some a))
    (hm : s'.table.history.heap.manager = s.table.history.heap.manager)
    (hother : OtherRow x s.table.history a.xid a.row)
    (hp : s'.table.pending = update s.table.pending a.xid ops)
    (hops : ∀ op ∈ ops, (∃ hd, s'.table.history.heap.tuple op.entry.tid = some hd) ∧
      s'.table.history.row op.entry.tid = a.row)
    (hnew : ∀ b, .inserted b ∈ ops → a.new = some b.tid) (hnd : ops.Nodup)
    (happ : s'.table.applied = s.table.applied) (hindex : s'.table.index = s.table.index)
    (htrace : s'.trace = s.trace) : Inv x s' := by
  have hfin : ∀ y, Finished s'.table.history y ↔ Finished s.table.history y := fun y => by
    rw [Finished,Finished,hm]
  have hkept : ∀ tid, (∃ hd, s.table.history.heap.tuple tid = some hd) →
      (∃ hd, s'.table.history.heap.tuple tid = some hd) ∧
        s'.table.history.row tid = s.table.history.row tid := fun tid ⟨hd,hh⟩ => by
    obtain ⟨hrow,hd',hh',-⟩ := hg.forward tid hd hh
    exact ⟨⟨hd',hh'⟩,hrow⟩
  refine ⟨hm ▸ hi.manager,hg.rows hi.rows,?_,?_,?_,?_,?_,?_,?_,?_,?_⟩
  · intro w hw w' hw' hrow hwx hne
    rw [hfin,hfin]
    rcases hg.mem_writes.1 hw with hw | hw
    · rcases hg.mem_writes.1 hw' with hw' | hw'
      · exact hi.apart w hw w' hw' hrow hwx hne
      · cases hw'
        exact .inl (hwx ▸ hother w hw hrow (hwx.trans_ne hne.symm) (.inr hwx))
    · cases hw
      rcases hg.mem_writes.1 hw' with hw' | hw'
      · exact .inr (hother w' hw' hrow.symm (fun h => hne (h.trans hwx)) (.inl hwx))
      · cases hw'
        exact absurd hwx hne
  · intro y op hop
    rw [hp,happ] at hop
    have hcase : (op ∈ ops ∧ y = a.xid) ∨ op ∈ s.table.pending y ∨ (y,op) ∈ s.table.applied := by
      by_cases hy : y = a.xid
      · subst hy
        rw [update_self] at hop
        exact hop.imp (fun h => ⟨h,rfl⟩) .inr
      · rw [update_of_ne hy] at hop
        exact .inr hop
    rcases hcase with ⟨hin,rfl⟩ | hop
    · obtain ⟨hex,hrow⟩ := hops op hin
      exact ⟨hex,a,hg.mem_writes.2 (.inr rfl),rfl,hrow.symm⟩
    · obtain ⟨hex,w,hw,hwx,hrow⟩ := hi.touched y op hop
      obtain ⟨hex',hrow'⟩ := hkept _ hex
      exact ⟨hex',w,hg.mem_writes.2 (.inl hw),hwx,hrow.trans hrow'.symm⟩
  · intro y b hb
    rw [hp] at hb
    rw [htrace]
    by_cases hy : y = a.xid
    · subst hy
      rw [update_self] at hb
      obtain ⟨hnone,-,hd,hh,hmin⟩ := hg.new a rfl b.tid (hnew b hb)
      refine ⟨⟨hd,hh,hmin⟩,fun p hp he => ?_⟩
      obtain ⟨hd',hh'⟩ := hi.traced p hp
      rw [he,hnone] at hh'
      cases hh'
    · rw [update_of_ne hy] at hb
      obtain ⟨⟨hd,hh,hmin⟩,hno⟩ := hi.fresh y b hb
      obtain ⟨-,hd',hh',hmin'⟩ := hg.forward _ hd hh
      exact ⟨⟨hd',hh',hmin'.trans hmin⟩,hno⟩
  · intro y
    rw [hp]
    by_cases hy : y = a.xid
    · rw [hy,update_self]
      exact hnd
    · rw [update_of_ne hy]
      exact hi.nodup y
  · intro p hp
    rw [htrace] at hp
    exact (hkept _ (hi.traced p hp)).1
  · rw [happ,htrace]
    exact hi.logged
  · rw [hindex,htrace]
    exact hi.whole
  · rw [hm,happ]
    exact hi.aborted
  · rw [hm,happ,hindex,htrace]
    exact hi.restores

/-- Transactions at work have touched different entries. -/
theorem Inv.entry_ne (hi : Inv x s) (hne : y ≠ x) (hlive : s.table.history.heap.Live y)
    (hx : s.table.history.heap.manager.getState x ≠ .committed)
    (hop : op ∈ s.table.pending y ∨ (y,op) ∈ s.table.applied) (o : Op (Entry K))
    (ho : (x,o) ∈ s.table.applied) : o.entry ≠ op.entry := by
  intro he
  obtain ⟨-,w,hw,hwx,hrow⟩ := hi.touched x o (.inr ho)
  obtain ⟨-,w',hw',rfl,hrow'⟩ := hi.touched y op hop
  have hfin := hi.apart w hw w' hw' (hrow.trans (by rw [he,hrow'])) hwx hne
  rcases hfin with (hc | hc) | hf
  · exact hx hc
  · exact hi.aborted hc o ho
  · exact not_finished_of_live hlive hf

theorem whole_concat (hi : Inv x s) (y : ℕ) (op : Op (Entry K)) (a : Entry K) :
    a ∈ op.run s.table.index ↔ a ∈ replay (s.trace ++ [(y,op)]) := by
  rw [UndoLog.replay_concat]
  exact UndoLog.run_congr hi.whole op a

theorem Inv.changed (hi : Inv x s) {rest : List (Op (Entry K))}
    (hlive : s.table.history.heap.Live y) (hp : s.table.pending y = op :: rest)
    (hdel : op = .deleted op.entry → op.entry ∈ s.table.index) :
    Inv x { s with
      table := { s.table with
        index := op.run s.table.index
        applied := s.table.applied ++ [(y,op)]
        pending := update s.table.pending y rest }
      trace := s.trace ++ [(y,op)] } := by
  have hop : op ∈ s.table.pending y := hp ▸ List.mem_cons_self
  have hnd := hi.nodup y
  rw [hp,List.nodup_cons] at hnd
  have hrest : ∀ z o, o ∈ update s.table.pending y rest z → o ∈ s.table.pending z := by
    intro z o ho
    rcases of_mem_update ho with ⟨hz,ho⟩ | ⟨-,ho⟩
    · rw [hz,hp]
      exact List.mem_cons_of_mem _ ho
    · exact ho
  have heff : op.Effective s.table.index := by
    cases op with
    | inserted a =>
      intro ha
      obtain ⟨p,hp,he⟩ := UndoLog.exists_of_mem_replay ((hi.whole a).1 ha)
      exact (hi.fresh y a hop).2 p hp he
    | deleted a => exact hdel rfl
  refine ⟨hi.manager,hi.rows,hi.apart,?_,?_,?_,?_,?_,whole_concat hi y op,?_,?_⟩
  · intro z o ho
    rcases ho with ho | ho
    · exact hi.touched z o (.inl (hrest z o ho))
    · rcases List.mem_append.1 ho with ho | ho
      · exact hi.touched z o (.inr ho)
      · cases List.mem_singleton.1 ho
        exact hi.touched y op (.inl hop)
  · intro z a ha
    obtain ⟨htuple,hno⟩ := hi.fresh z a (hrest z _ ha)
    refine ⟨htuple,fun p hp he => ?_⟩
    rcases List.mem_append.1 hp with hp | hp
    · exact hno p hp he
    · cases List.mem_singleton.1 hp
      cases op with
      | deleted b =>
        obtain ⟨p,hp,hpe⟩ := UndoLog.exists_of_mem_replay ((hi.whole b).1 (hdel rfl))
        exact hno p hp (hpe.trans he)
      | inserted b =>
        obtain rfl : b = a := he
        obtain ⟨⟨hd,hh,hmin⟩,-⟩ := hi.fresh y b hop
        obtain ⟨hd',hh',hmin'⟩ := htuple
        rw [hh] at hh'
        cases hh'
        obtain rfl := hmin.symm.trans hmin'
        change Op.inserted b ∈ update s.table.pending y rest y at ha
        rw [update_self] at ha
        exact hnd.1 ha
  · intro z
    change (update s.table.pending y rest z).Nodup
    by_cases hz : z = y
    · rw [hz,update_self]
      exact hnd.2
    · rw [update_of_ne hz]
      exact hi.nodup z
  · intro p hp
    rcases List.mem_append.1 hp with hp | hp
    · exact hi.traced p hp
    · cases List.mem_singleton.1 hp
      exact (hi.touched y op (.inl hop)).1
  · intro p hp
    rcases List.mem_append.1 hp with hp | hp
    · obtain ⟨q,hq,he⟩ := hi.logged p hp
      exact ⟨q,List.mem_append_left _ hq,he⟩
    · cases List.mem_singleton.1 hp
      exact ⟨_,List.mem_append_right _ List.mem_cons_self,rfl⟩
  · intro hab o ho
    rcases List.mem_append.1 ho with ho | ho
    · exact hi.aborted hab o ho
    · cases List.mem_singleton.1 ho
      exact not_finished_of_live hlive (.inr hab)
  · intro hx
    by_cases hy : y = x
    · subst hy
      exact (hi.restores hx).change heff
    · exact (hi.restores hx).other hy (UndoLog.ofTxn_concat_of_ne hy op)
        (hi.entry_ne hy hlive hx (.inl hop))

/-- A rollback takes back the last change of its transaction. -/
theorem Inv.takenBack (hi : Inv x s) {l₁ l₂ : List (ℕ × Op (Entry K))}
    (hlive : s.table.history.heap.Live y) (hl : s.table.applied = l₁ ++ (y,op) :: l₂)
    (hlast : ∀ a ∈ l₂, a.1 ≠ y) :
    Inv x { s with
      table := { s.table with index := op.inverse.run s.table.index, applied := l₁ ++ l₂ }
      trace := s.trace ++ [(y,op.inverse)] } := by
  obtain ⟨hsub,hop⟩ := sublist_of_split hl
  obtain ⟨q₀,hq₀,he₀⟩ := hi.logged _ hop
  refine ⟨hi.manager,hi.rows,hi.apart,?_,?_,hi.nodup,?_,?_,whole_concat hi y op.inverse,?_,?_⟩
  · exact fun z o ho => hi.touched z o (ho.imp id fun h => hsub.subset h)
  · intro z a ha
    obtain ⟨htuple,hno⟩ := hi.fresh z a ha
    refine ⟨htuple,fun p hp he => ?_⟩
    rcases List.mem_append.1 hp with hp | hp
    · exact hno p hp he
    · cases List.mem_singleton.1 hp
      exact hno q₀ hq₀ (he₀.trans ((UndoLog.inverse_entry op).symm.trans he))
  · intro p hp
    rcases List.mem_append.1 hp with hp | hp
    · exact hi.traced p hp
    · cases List.mem_singleton.1 hp
      rw [UndoLog.inverse_entry]
      exact (hi.touched y op (.inr hop)).1
  · intro p hp
    obtain ⟨q,hq,he⟩ := hi.logged p (hsub.subset hp)
    exact ⟨q,List.mem_append_left _ hq,he⟩
  · exact fun hab o ho => hi.aborted hab o (hsub.subset ho)
  · intro hx
    have hr := hi.restores hx
    by_cases hy : y = x
    · subst hy
      rw [hl] at hr
      exact hr.takeBack hlast
    · refine hr.other hy ?_ fun o ho => ?_
      · rw [hl,UndoLog.ofTxn_drop_of_ne hy]
      · rw [UndoLog.inverse_entry]
        exact hi.entry_ne hy hlive hx (.inr hop) o ho

end Steps

end IndexUndo
end PgAm
