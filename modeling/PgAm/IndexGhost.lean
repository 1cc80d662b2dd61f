import PgAm.EngineRuns

/-! A table as if an index had been there from the start. Versions that nobody can write to any
more may have other values, and transactions that have committed may have other entries in the log
of changes: the table takes the same steps. -/
namespace PgAm
namespace Engine

open Machine Heap Function
open HeapHistory (History Write Grown Keeps)
open UndoLog (Op ofTxn)
open Table

variable {K : Type} {schema : Schema K} {e e' : Table K} {xid : ℕ} {tid : Tid}
  {width : ℕ} {values : Tid → List (Option K)} {applied : List (ℕ × Op (Entry K))}

/-- The version has been ended by a commit, or the transaction that created it is rolled back. -/
def Dead (h : History) (tid : Tid) : Prop :=
  (∃ w ∈ h.writes, w.old = some tid ∧ h.heap.manager.getState w.xid = .committed) ∨
    ∃ w ∈ h.writes, w.new = some tid ∧ h.heap.manager.getState w.xid = .aborted

theorem Dead.mono {h t : History} (hd : Dead h tid) (hw : ∀ w ∈ h.writes, w ∈ t.writes)
    (hk : Keeps h.heap.manager t.heap.manager) : Dead t tid := by
  rcases hd with ⟨w,hmem,hold,hst⟩ | ⟨w,hmem,hnew,hst⟩
  · exact .inl ⟨w,hw w hmem,hold,hk _ _ nofun hst⟩
  · exact .inr ⟨w,hw w hmem,hnew,hk _ _ nofun hst⟩

variable {stale : List ℕ} {stamps : Bool} {h : History}

/-- No statement writes to a dead version. -/
theorem Dead.not_wrote {op : Heap.Op}
    (hd : Dead h tid) (hi : HeapHistory.Inv h) (hlive : h.heap.Live xid)
    (hok : HeapHistory.Disciplined h (.pass xid tid op stale stamps)) :
    ¬h.Wrote xid tid op stale stamps := by
  intro hwrote
  rcases hd with ⟨w,hw,hold,hst⟩ | ⟨w,hw,hnew,hst⟩
  · refine hi.free hlive hok hwrote.1 hw hold ?_
    rw [HeapHistory.History.Alive,hst]
    rintro ⟨⟩
  · obtain ⟨hdr,hh,p,hp,-,hknown⟩ := hi.calls.scanned xid tid hok.1
    obtain ⟨c,hc,hcnew,hcx⟩ := hi.versions.creator tid hdr hh
    obtain rfl := hi.versions.unique w hw c hc tid hnew hcnew
    rw [← hcx] at hknown
    rcases hknown with hx | hx
    · rw [hx,hlive.2] at hst
      cases hst
    · have hsees := ((hi.snapshots.view.taken p.1 p.2 hp).done_iff w.xid).1 hx
      exact absurd (hst.symm.trans hsees.2.2) (by rintro ⟨⟩)

theorem pass_unwritten {page : ℕ} {hot : Bool}
    (hw : ¬h.Wrote xid tid (.update page hot) stale stamps) (hot' : Bool) :
    HeapHistory.step h (.pass xid tid (.update page hot') stale stamps) =
      HeapHistory.step h (.pass xid tid (.update page hot) stale stamps) := by
  have hw' : ¬h.Wrote xid tid (.update page hot') stale stamps := hw
  have hheap : ∀ hot'', ¬h.Wrote xid tid (.update page hot'') stale stamps →
      Heap.step h.heap (.pass xid (h.command xid) tid (.update page hot'') stale stamps) =
        Heap.step h.heap (.pass xid (h.command xid) tid (.update page hot) stale stamps) := by
    intro hot'' hw''
    simp only [Heap.step]
    have hcan : h.heap.CanPass xid (.update page hot'') stale stamps ↔
        h.heap.CanPass xid (.update page hot) stale stamps := Iff.rfl
    have hgate : h.heap.gate xid tid (.update page hot'') stale =
        h.heap.gate xid tid (.update page hot) stale := rfl
    simp only [hcan,hgate]
    congr 2
    cases hv : (h.heap.gate xid tid (.update page hot) stale).1 with
    | error err => rfl
    | ok v =>
      cases v with
      | wait b | proceedNoStamp => rfl
      | proceed =>
        cases stamps with
        | false => rfl
        | true => exact absurd ⟨hgate ▸ hv,rfl,rfl⟩ hw''
  simp only [HeapHistory.step,hheap hot' hw',if_neg hw,if_neg hw']

def Table.ghost (e : Table K) (values : Tid → List (Option K))
    (applied : List (ℕ × Op (Entry K))) : Table K :=
  { e with values := values, applied := applied }

/-- The table goes on in the same way with these values and this log. -/
structure Ghost (width : ℕ) (e : Table K) (values : Tid → List (Option K))
    (applied : List (ℕ × Op (Entry K))) : Prop where
  length : ∀ tid hd, e.history.heap.tuple tid = some hd → (values tid).length = width
  values : ∀ tid hd, e.history.heap.tuple tid = some hd →
    values tid = e.values tid ∨ Dead e.history tid
  applied : ∀ x, ¬e.Committed x → ofTxn x applied = ofTxn x e.applied

namespace Ghost

theorem kept (hg : Ghost width e values applied) {t : History} (hw : Grown e.history t none)
    (hk : Keeps e.history.heap.manager t.heap.manager) :
    Ghost width { e with history := t } values applied where
  length tid hd hh := by
    rcases hw.cases tid hd hh with ⟨hd₀,h₀⟩ | ⟨a,ha,-⟩
    · exact hg.length tid hd₀ h₀
    · cases ha
  values tid hd hh := by
    rcases hw.cases tid hd hh with ⟨hd₀,h₀⟩ | ⟨a,ha,-⟩
    · exact (hg.values tid hd₀ h₀).imp id fun hdead =>
        hdead.mono (fun w hw' => hw.mem_writes.2 (.inl hw')) hk
    · cases ha
  applied x hx := hg.applied x fun hc => hx (hk x _ nofun hc)

theorem wrote (hg : Ghost width e values applied) {w : Write} {values' : Tid → List (Option K)}
    (hw : Grown e.history e'.history (some w))
    (hm : e'.history.heap.manager = e.history.heap.manager)
    (hkept : ∀ tid, w.new ≠ some tid → e'.values tid = e.values tid ∧ values' tid = values tid)
    (hnew : ∀ v, w.new = some v → values' v = e'.values v ∧ (e'.values v).length = width)
    (happlied : e'.applied = e.applied) : Ghost width e' values' applied where
  length tid hd hh := by
    by_cases hn : w.new = some tid
    · rw [(hnew tid hn).1]
      exact (hnew tid hn).2
    · rw [(hkept tid hn).2]
      rcases hw.cases tid hd hh with ⟨hd₀,h₀⟩ | ⟨a,ha,hn'⟩
      · exact hg.length tid hd₀ h₀
      · cases ha
        exact absurd hn' hn
  values tid hd hh := by
    by_cases hn : w.new = some tid
    · exact .inl (hnew tid hn).1
    · rw [(hkept tid hn).1,(hkept tid hn).2]
      rcases hw.cases tid hd hh with ⟨hd₀,h₀⟩ | ⟨a,ha,hn'⟩
      · exact (hg.values tid hd₀ h₀).imp id fun hdead =>
          hdead.mono (fun a ha => hw.mem_writes.2 (.inl ha)) (hm ▸ Keeps.refl _)
      · cases ha
        exact absurd hn' hn
  applied x hx := by
    rw [happlied]
    exact hg.applied x (by rwa [Table.Committed,hm] at hx)

theorem lastOf_none_iff {l : List (ℕ × Op (Entry K))} : lastOf xid l = none ↔ ofTxn xid l = [] := by
  cases hl : lastOf xid l with
  | none =>
    refine ⟨fun _ => List.eq_nil_iff_forall_not_mem.2 fun op hop => ?_,fun _ => rfl⟩
    exact lastOf_none hl _ (UndoLog.mem_ofTxn.1 hop) rfl
  | some r =>
    obtain ⟨l₁,op,l₂⟩ := r
    obtain ⟨rfl,hlast⟩ := lastOf_some hl
    rw [UndoLog.ofTxn_last hlast]
    simp

theorem lastOf_of_eq {l k l₁ l₂ : List (ℕ × Op (Entry K))} {op : Op (Entry K)}
    (h : ofTxn xid k = ofTxn xid l) (hl : lastOf xid l = some (l₁,op,l₂)) :
    ∃ k₁ k₂, lastOf xid k = some (k₁,op,k₂) ∧ k = k₁ ++ (xid,op) :: k₂ ∧
      ofTxn xid (k₁ ++ k₂) = ofTxn xid (l₁ ++ l₂) := by
  obtain ⟨rfl,hlast⟩ := lastOf_some hl
  rw [UndoLog.ofTxn_last hlast] at h
  cases hk : lastOf xid k with
  | none =>
    rw [lastOf_none_iff.1 hk] at h
    simp at h
  | some r =>
    obtain ⟨k₁,op',k₂⟩ := r
    obtain ⟨rfl,hlast'⟩ := lastOf_some hk
    rw [UndoLog.ofTxn_last hlast'] at h
    obtain ⟨hrest,hop⟩ := List.append_inj' h rfl
    cases hop
    exact ⟨k₁,k₂,rfl,rfl,hrest⟩

section Steps

variable [DecidableEq K]

/-- The table with its ghost and the next state of both. -/
def Follows (schema : Schema K) (width : ℕ) (e : Table K) (values : Tid → List (Option K))
    (applied : List (ℕ × Op (Entry K))) (a : Step K) (e' : Table K) : Prop :=
  ∃ values' applied', step schema (e.ghost values applied) a = some (e'.ghost values' applied') ∧
    Ghost width e' values' applied'

theorem manager_keeps {h t : History} {b : Manager.Step}
    (hs : HeapHistory.step h (.manager b) = some t) :
    Grown h t none ∧ Keeps h.heap.manager t.heap.manager := by
  obtain ⟨m,hm,rfl⟩ := HeapHistory.step_manager hs
  exact ⟨.of_eq rfl (fun _ => rfl) rfl,fun x st hne h => HeapHistory.getState_of_step hm h hne⟩

variable {row : List (Option K)}

theorem follows_insert (hg : Ghost width e values applied) {page : ℕ}
    (hrow : row.length = width) (hs : step schema e (.insert xid page row) = some e') :
    Follows schema width e values applied (.insert xid page row) e' := by
  obtain ⟨hidle,t,hstep,rfl⟩ := of_guard_map hs
  obtain ⟨-,hm,hgrown⟩ := HeapHistory.grown_insert hstep
  have hidle' : (e.ghost values applied).Idle xid := hidle
  refine ⟨update values (e.history.heap.newTid page) row,applied,?_,?_⟩
  · simp only [step,if_pos hidle']
    change Option.map _ (HeapHistory.step e.history (.insert xid page)) = _
    rw [hstep]
    rfl
  · refine hg.wrote hgrown hm (fun tid hne => ?_) (fun v hv => ?_) rfl
    · have hne' : tid ≠ e.history.heap.newTid page := fun h => hne (congrArg some h.symm)
      exact ⟨update_of_ne hne' ..,update_of_ne hne' ..⟩
    · cases hv
      change update values (e.history.heap.newTid page) row _ =
        update e.values (e.history.heap.newTid page) row _ ∧
        (update e.values (e.history.heap.newTid page) row _).length = width
      rw [update_self,update_self]
      exact ⟨rfl,hrow⟩

variable {stale : List ℕ} {stamps : Bool}

theorem follows_update (hg : Ghost width e values applied) (hi : HeapHistory.Inv e.history)
    {page : ℕ} (hrow : row.length = width)
    (hs : step schema e (.update xid tid page row stale stamps) = some e') :
    Follows schema width e values applied (.update xid tid page row stale stamps) e' := by
  obtain ⟨haddr,t,hstep,he⟩ := of_guard_map hs
  have haddr' : Addressed (e.ghost values applied) xid tid := haddr
  have hok : ∀ hot, HeapHistory.Disciplined e.history (.pass xid tid
    (.update page hot) stale stamps) :=
    fun _ => ⟨haddr.2.1,fun _ => haddr.2.2⟩
  obtain ⟨hlive,hm,hcases⟩ := HeapHistory.grown_pass hi.snapshots.view.manager hstep
  rcases hcases with ⟨hw,hgrown⟩ | ⟨hw,hgrown⟩
  · have hv : values tid = e.values tid := by
      obtain ⟨hdr,hh,-⟩ := hi.calls.scanned xid tid haddr.2.1
      exact (hg.values tid hdr hh).resolve_right fun hdead => hdead.not_wrote hi hlive (hok _) hw
    have hghost : ∀ e'', e''.history = t →
        e''.values = update e.values (e.history.heap.newTid page) row →
        e''.applied = e.applied →
        Ghost width e'' (update values (e.history.heap.newTid page) row) applied := by
      rintro e'' rfl hvalues happlied
      refine hg.wrote hgrown hm (fun u hne => ?_) (fun v hv => ?_) happlied
      · have hne' : u ≠ e.history.heap.newTid page := fun h => hne (congrArg some h.symm)
        rw [hvalues]
        exact ⟨update_of_ne hne' ..,update_of_ne hne' ..⟩
      · cases hv
        rw [hvalues,update_self,update_self]
        exact ⟨rfl,hrow⟩
    have hghoststep : step schema (e.ghost values applied) (.update xid tid page row stale stamps) =
        some (e'.ghost (update values (e.history.heap.newTid page) row) applied) := by
      simp only [step,if_pos haddr']
      change Option.map _ (HeapHistory.step e.history
        (.pass xid tid (.update page (hotEligible schema (values tid) row)) stale stamps)) = _
      simp only [Table.ghost,hv,hstep,Option.map_some,if_pos hw]
      rw [if_pos hw] at he
      subst he
      split
      · rfl
      · split <;> rfl
    refine ⟨_,applied,hghoststep,?_⟩
    rw [if_pos hw] at he
    subst he
    split
    · exact hghost _ rfl rfl rfl
    · split
      · exact hghost _ rfl rfl rfl
      · exact hghost _ rfl rfl rfl
  · rw [if_neg hw] at he
    subst he
    refine ⟨values,applied,?_,hg.kept hgrown (hm ▸ Keeps.refl _)⟩
    simp only [step,if_pos haddr']
    change Option.map _ (HeapHistory.step e.history
      (.pass xid tid (.update page (hotEligible schema (values tid) row)) stale stamps)) = _
    have hw' : ¬e.history.Wrote xid tid
        (.update page (hotEligible schema (values tid) row)) stale stamps := hw
    rw [pass_unwritten hw,hstep]
    exact congrArg some (if_neg hw')

theorem follows_delete (hg : Ghost width e values applied) (hi : HeapHistory.Inv e.history)
    (hs : step schema e (.delete xid tid stale stamps) = some e') :
    Follows schema width e values applied (.delete xid tid stale stamps) e' := by
  obtain ⟨haddr,hs⟩ := Option.ite_none_right_eq_some.1 hs
  have haddr' : Addressed (e.ghost values applied) xid tid := haddr
  split at hs
  · rename_i indexTid hroot
    obtain ⟨t,hstep,he⟩ := Option.map_eq_some_iff.1 hs
    have hroot' : (if schema.columns = [] then .ok tid
        else (e.ghost values applied).history.heap.hotChainRoot tid) = .ok indexTid := hroot
    obtain ⟨hlive,hm,hcases⟩ := HeapHistory.grown_pass hi.snapshots.view.manager hstep
    refine ⟨values,applied,?_,?_⟩
    · simp only [step,if_pos haddr',hroot']
      change Option.map _ (HeapHistory.step e.history (.pass xid tid .delete stale stamps)) = _
      rw [hstep]
      rcases hcases with ⟨hw,-⟩ | ⟨hw,-⟩
      · have hv : values tid = e.values tid := by
          obtain ⟨hdr,hh,-⟩ := hi.calls.scanned xid tid haddr.2.1
          exact (hg.values tid hdr hh).resolve_right fun hdead =>
            hdead.not_wrote hi hlive ⟨haddr.2.1,fun _ => haddr.2.2⟩ hw
        rw [if_pos hw] at he
        subst he
        simp only [Table.ghost,Option.map_some,if_pos hw,hv]
        rfl
      · rw [if_neg hw] at he
        subst he
        exact congrArg some (if_neg hw)
    · rcases hcases with ⟨hw,hgrown⟩ | ⟨hw,hgrown⟩
      · rw [if_pos hw] at he
        subst he
        exact hg.wrote hgrown hm (fun _ _ => ⟨rfl,rfl⟩) (by rintro _ ⟨⟩) rfl
      · rw [if_neg hw] at he
        subst he
        exact hg.kept hgrown (hm ▸ Keeps.refl _)
  · cases hs

theorem follows_maintain (hg : Ghost width e values applied)
    (hs : step schema e (.maintain xid) = some e') :
    Follows schema width e values applied (.maintain xid) e' := by
  obtain ⟨op,rest,hp,hlive,rfl⟩ := step_maintain hs
  have hp' : (e.ghost values applied).pending xid = op :: rest := hp
  have hlive' : (e.ghost values applied).history.heap.Live xid := hlive
  simp only [Follows,step,hp',if_pos hlive']
  by_cases hfit : schema.fits op.entry.key ∧ (op = .deleted op.entry → op.entry ∈ e.index)
  · have hfit' : schema.fits op.entry.key ∧
        (op = .deleted op.entry → op.entry ∈ (e.ghost values applied).index) := hfit
    refine ⟨values,applied ++ [(xid,op)],?_,?_⟩
    · rw [Table.maintain,Table.maintain,if_pos hfit,if_pos hfit']
      rfl
    · rw [Table.maintain,if_pos hfit]
      refine ⟨hg.length,hg.values,fun x hx => ?_⟩
      change ofTxn x (applied ++ [(xid,op)]) = ofTxn x (e.applied ++ [(xid,op)])
      by_cases hxid : xid = x
      · subst hxid
        rw [UndoLog.ofTxn_concat_self,UndoLog.ofTxn_concat_self,hg.applied xid hx]
      · rw [UndoLog.ofTxn_concat_of_ne hxid,UndoLog.ofTxn_concat_of_ne hxid,hg.applied x hx]
  · have hfit' : ¬(schema.fits op.entry.key ∧
        (op = .deleted op.entry → op.entry ∈ (e.ghost values applied).index)) := hfit
    refine ⟨values,applied,?_,?_⟩
    · rw [Table.maintain,Table.maintain,if_neg hfit,if_neg hfit']
      rfl
    · rw [Table.maintain,if_neg hfit]
      exact { hg with }

theorem follows_undo (hg : Ghost width e values applied)
    (hs : step schema e (.undo xid) = some e') :
    Follows schema width e values applied (.undo xid) e' := by
  obtain ⟨l₁,op,l₂,hl,hcan,rfl⟩ := step_undo hs
  have hcan' : xid ∈ (e.ghost values applied).ending ∧
      (e.ghost values applied).history.heap.Live xid := hcan
  have hnot : ¬e.Committed xid := by
    rw [Table.Committed,hcan.2.2]
    rintro ⟨⟩
  obtain ⟨hsplit,-⟩ := lastOf_some hl
  obtain ⟨k₁,k₂,hk,hksplit,hrest⟩ := lastOf_of_eq (hg.applied xid hnot) hl
  have hk' : lastOf xid (e.ghost values applied).applied = some (k₁,op,k₂) := hk
  refine ⟨values,k₁ ++ k₂,?_,hg.length,hg.values,fun x hx => ?_⟩
  · simp only [step,if_pos hcan',hk']
    rfl
  · by_cases hxid : xid = x
    · subst hxid
      exact hrest
    · have hsame := hg.applied x hx
      rw [hksplit,hsplit,UndoLog.ofTxn_drop_of_ne hxid,UndoLog.ofTxn_drop_of_ne hxid] at hsame
      exact hsame

/-- The ghost takes every step of the table. -/
theorem follows (hg : Ghost width e values applied) (hi : HeapHistory.Inv e.history) {a : Step K}
    (hwidth : ∀ row ∈ a.values, row.length = width) (hs : step schema e a = some e') :
    Follows schema width e values applied a e' := by
  cases a with
  | act b =>
    obtain ⟨hplain,t,hstep,rfl⟩ := of_guard_map hs
    have hplain' : Plain (e.ghost values applied) b := hplain
    obtain ⟨hgrown,-,hst⟩ := grown_plain hi.snapshots.view.manager hplain hstep
    refine ⟨values,applied,?_,hg.kept hgrown fun x st _ h => (hst x).trans h⟩
    simp only [step,if_pos hplain']
    change Option.map _ (HeapHistory.step e.history b) = _
    rw [hstep]
    rfl
  | insert x page row => exact follows_insert hg (hwidth row rfl) hs
  | update x u page row stale stamps => exact follows_update hg hi (hwidth row rfl) hs
  | delete x u stale stamps => exact follows_delete hg hi hs
  | maintain x => exact follows_maintain hg hs
  | commit x =>
    obtain ⟨hidle,t,hstep,rfl⟩ := of_guard_map hs
    have hidle' : (e.ghost values applied).Idle x := hidle
    obtain ⟨hgrown,hk⟩ := manager_keeps hstep
    refine ⟨values,applied,?_,hg.kept hgrown hk⟩
    simp only [step,if_pos hidle']
    change Option.map _ (HeapHistory.step e.history (.manager (.setState x .commit))) = _
    rw [hstep]
    rfl
  | beginAbort x =>
    obtain ⟨hcan,rfl⟩ := of_guard hs
    have hcan' : (e.ghost values applied).Idle x ∧
        (e.ghost values applied).history.heap.Live x := hcan
    refine ⟨values,applied,?_,hg.length,hg.values,hg.applied⟩
    simp only [step,if_pos hcan']
    rfl
  | undo x => exact follows_undo hg hs
  | abort x =>
    obtain ⟨⟨hend,hlast⟩,t,hstep,rfl⟩ := of_guard_map hs
    have hnot : ¬e.Committed x := by
      obtain ⟨s,hheap,-⟩ := Option.map_eq_some_iff.1 hstep
      obtain ⟨m,hm,-⟩ := Option.map_eq_some_iff.1 hheap
      simp only [Manager.step,Option.ite_none_right_eq_some] at hm
      rw [Table.Committed,Manager.getState,hm.1.2,ite_self]
      rintro ⟨⟩
    have hcan' : x ∈ (e.ghost values applied).ending ∧
        lastOf x (e.ghost values applied).applied = none := by
      refine ⟨hend,lastOf_none_iff.2 ?_⟩
      change ofTxn x applied = []
      rw [hg.applied x hnot]
      exact lastOf_none_iff.1 hlast
    obtain ⟨hgrown,hk⟩ := manager_keeps hstep
    refine ⟨values,applied,?_,hg.kept hgrown hk⟩
    simp only [step,if_pos hcan']
    change Option.map _ (HeapHistory.step e.history (.manager (.setState x .abort))) = _
    rw [hstep]
    rfl

end Steps

end Ghost

end Engine
end PgAm
