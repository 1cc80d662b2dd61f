import PgAm.EngineInvariant
import PgAm.HeapRows

/-! Every step of the engine keeps the invariant of rows and indexes, as long as no transaction
commits after a row operation that stopped half way. -/
namespace PgAm
namespace Engine

open Machine Heap Function
open HeapHistory (History Write Call)
open UndoLog (Op)
open Table

variable {K : Type} {schema : Schema K} {e e' : Table K} {xid : ℕ}

/-- A commit after a failed row operation is not made: the only safe thing is a rollback. -/
def NoFailedCommit (e : Table K) : Step K → Prop
  | .commit xid => xid ∉ e.failed
  | _ => True

instance (e : Table K) : (a : Step K) → Decidable (NoFailedCommit e a)
  | .commit xid => inferInstanceAs (Decidable (xid ∉ e.failed))
  | .act _ | .insert .. | .update .. | .delete .. | .maintain _ | .beginAbort _ | .undo _
  | .abort _ => .isTrue trivial

section Undo

theorem lastOf_none {l : List (ℕ × Op (Entry K))} (h : lastOf xid l = none) :
    ∀ a ∈ l, a.1 ≠ xid := by
  induction l with
  | nil => nofun
  | cons a l ih =>
    simp only [lastOf] at h
    split at h
    · cases h
    · rename_i hl
      rw [ite_eq_right_iff] at h
      have ha : a.1 ≠ xid := fun ha => Option.some_ne_none _ (h ha)
      exact List.forall_mem_cons.2 ⟨ha,ih hl⟩

theorem lastOf_some {l l₁ l₂ : List (ℕ × Op (Entry K))} {op : Op (Entry K)}
    (h : lastOf xid l = some (l₁,op,l₂)) : l = l₁ ++ (xid,op) :: l₂ ∧ ∀ a ∈ l₂, a.1 ≠ xid := by
  induction l generalizing l₁ with
  | nil => cases h
  | cons a l ih =>
    simp only [lastOf] at h
    split at h
    · rename_i k₁ op' k₂ hl
      cases h
      obtain ⟨rfl,hno⟩ := ih hl
      exact ⟨rfl,hno⟩
    · rename_i hl
      rw [Option.ite_none_right_eq_some] at h
      obtain ⟨ha,he⟩ := h
      cases he
      exact ⟨by rw [← ha]; rfl,lastOf_none hl⟩

end Undo

/-- The root of a version that a transaction can build on is its own or committed. -/
theorem Inv.root_known (hi : Inv schema e) {b : Write} {u : Tid}
    (hb : b ∈ e.history.rowWrites (e.history.row u)) (hbu : b.new = some u)
    (hknown : b.xid = xid ∨ e.Committed b.xid) :
    ∃ c ∈ e.history.writes, c.new = some (e.root u) ∧ (c.xid = xid ∨ e.Committed c.xid) := by
  let known : Write → Bool := fun b => b.xid = xid ∨ e.Committed b.xid
  have hchain : (e.history.rowWrites (e.history.row u)).IsChain
      fun b c => known c = true → known b = true := by
    refine (hi.history.chains.ordered _).imp fun b c hbc hc => ?_
    rcases hbc with hx | ⟨p,hp,-,hx⟩
    · exact decide_eq_true (by rw [hx]; exact of_decide_eq_true hc)
    · exact decide_eq_true (.inr
        (((hi.history.snapshots.view.taken p.1 p.2 hp).done_iff b.xid).1 hx).2.2)
  have hprefix := VersionChain.filter_isPrefix hchain
  have hlinked := (hi.history.chains.linked (e.history.row u)).of_isPrefix hprefix
  have hroot : ∀ b ∈ (e.history.rowWrites (e.history.row u)).filter known,
      VersionChain.Rooted Write.old Write.new e.root b := fun b hb =>
    hi.roots.rooted hi.history (List.mem_filter.1 (List.mem_filter.1 hb).1).1
  obtain ⟨c,hc,hcroot⟩ :=
    hlinked.root_created hroot (List.mem_filter.2 ⟨hb,decide_eq_true hknown⟩) hbu
  obtain ⟨hcw,hck⟩ := List.mem_filter.1 hc
  exact ⟨c,(List.mem_filter.1 hcw).1,hcroot,of_decide_eq_true hck⟩

theorem created_of_ended {h : History} (hi : HeapHistory.Inv h) {w : Write} {u : Tid}
    (hw : w ∈ h.writes) (halive : h.Alive w.xid) (hold : w.old = some u) :
    w ∈ h.rowWrites (h.row u) ∧ ∃ b ∈ h.rowWrites (h.row u), b.new = some u ∧
      (b.xid = w.xid ∨ h.heap.manager.getState b.xid = .committed) := by
  have hmem : w ∈ h.rowWrites (h.row u) := List.mem_filter.2
    ⟨hw,decide_eq_true ⟨(hi.versions.ended w hw u hold).1.symm,halive⟩⟩
  refine ⟨hmem,?_⟩
  obtain ⟨l₁,l₂,hsplit⟩ := List.append_of_mem hmem
  obtain ⟨k,b,rfl,hbu⟩ := (hsplit ▸ hi.chains.linked _).eq_before hold
  refine ⟨b,by rw [hsplit]; simp,hbu,?_⟩
  have hordered := hi.chains.ordered (h.row u)
  rw [hsplit,List.append_assoc] at hordered
  rcases (List.isChain_append_cons_cons.1 hordered).2.1 with hx | ⟨p,hp,-,hx⟩
  · exact .inl hx
  · exact .inr (((hi.snapshots.view.taken p.1 p.2 hp).done_iff b.xid).1 hx).2.2

/-- An entry that a transaction removes was its own or is a committed one. -/
theorem Inv.inserter_known (hi : Inv schema e) {a : Entry K} {y : ℕ}
    (hj : e.Justified schema xid (.deleted a)) (hlive : e.history.heap.Live xid)
    (hy : (y,.inserted a) ∈ e.applied) : y = xid ∨ e.Committed y := by
  obtain ⟨w,hw,rfl,u,hcl,-,hentry⟩ := hj
  obtain ⟨⟨-,-,hd,hh,-,hmin⟩,-⟩ := hi.applied y _ hy
  have htid : a.tid = e.root u := by
    obtain ⟨k,-,ha⟩ := Option.map_eq_some_iff.1 hentry
    rw [← ha]
  rw [htid] at hh
  have halive : e.history.Alive w.xid := by
    rw [HeapHistory.History.Alive,hlive.2]
    rintro ⟨⟩
  obtain ⟨-,b,hb,hbu,hknown⟩ := created_of_ended hi.history hw halive hcl.1
  obtain ⟨c,hc,hcroot,hck⟩ := hi.root_known hb hbu hknown
  obtain ⟨d,hd',hdnew,hdx⟩ := hi.history.versions.creator _ hd hh
  obtain rfl := hi.history.versions.unique c hc d hd' _ hcroot hdnew
  rw [← hmin,← hdx]
  exact hck

theorem Inv.of_log (hi : Inv schema e) {index : List (Entry K)} {applied : List (ℕ × Op (Entry K))}
    {pending : ℕ → List (Op (Entry K))} {failed ending : List ℕ}
    (hlog : UndoLog.Inv e.Committed index applied)
    (happlied : ∀ x op, (x,op) ∈ applied →
      e.Justified schema x op ∧ (e.history.heap.Live x ∨ e.Committed x))
    (hfits : ∀ x op, (x,op) ∈ applied → schema.fits op.entry.key = true)
    (hpending : ∀ x, ∀ op ∈ pending x, op ∈ e.pending x)
    (hfresh : ∀ x a, .inserted a ∈ pending x → ∀ y, (y,.inserted a) ∉ applied)
    (hnodup : ∀ x, (pending x).Nodup) (hending : ∀ x, pending x ≠ [] → x ∉ ending)
    (hdone : ∀ x a, (e.Committed x ∨ (e.history.heap.Live x ∧ x ∉ failed ∧ x ∉ ending)) →
      e.Sound x ∧ ((x,.inserted a) ∈ e.applied ∨ .inserted a ∈ e.pending x →
        (x,.inserted a) ∈ applied ∨ .inserted a ∈ pending x)) :
    Inv schema { e with
      index := index, applied := applied, pending := pending, failed := failed
      ending := ending } where
  history := hi.history
  roots := { hi.roots with }
  log := hlog
  applied x op hmem := happlied x op hmem
  fits := hfits
  pending x op hmem := hi.pending x op (hpending x op hmem)
  fresh := hfresh
  nodup := hnodup
  ending := hending
  complete w hw hs v hd hnew hh honly c hc a ha := by
    obtain ⟨hsound,hkeep⟩ := hdone w.xid a hs
    exact hkeep (hi.complete w hw hsound v hd hnew hh honly c hc a ha)

theorem Inv.fail (hi : Inv schema e) (hlive : e.history.heap.Live xid) :
    Inv schema (e.fail xid) := by
  have hnotcomm : ¬e.Committed xid := by
    rw [Table.Committed,hlive.2]
    rintro ⟨⟩
  refine hi.of_log hi.log hi.applied hi.fits (fun x op hmem => ?_) (fun x a hmem => ?_)
    (fun x => ?_)
    (fun x hp => ?_) fun x a hs => ⟨?_,fun hdone => ?_⟩
  · obtain ⟨-,⟨⟩⟩ | ⟨-,hmem⟩ := of_mem_update hmem
    exact hmem
  · obtain ⟨-,⟨⟩⟩ | ⟨-,hmem⟩ := of_mem_update hmem
    exact hi.fresh x a hmem
  · by_cases hx : x = xid
    · rw [hx,update_self]
      exact List.nodup_nil
    · rw [update_of_ne hx]
      exact hi.nodup x
  · by_cases hx : x = xid
    · rw [hx,update_self] at hp
      exact absurd rfl hp
    · rw [update_of_ne hx] at hp
      exact hi.ending x hp
  · exact hs.imp id fun h => ⟨h.1,fun hm => h.2.1 (List.mem_cons_of_mem _ hm),h.2.2⟩
  · have hx : x ≠ xid := by
      rintro rfl
      rcases hs with hs | ⟨-,hf,-⟩
      · exact hnotcomm hs
      · exact hf List.mem_cons_self
    rw [update_of_ne hx]
    exact hdone

theorem Inv.beginAbort (hi : Inv schema e) (hidle : e.Idle xid) :
    Inv schema { e with ending := xid :: e.ending } := by
  refine hi.of_log hi.log hi.applied hi.fits (fun _ _ => id) hi.fresh hi.nodup (fun x hp hx => ?_)
    fun x a hs => ⟨?_,id⟩
  · rcases List.mem_cons.1 hx with rfl | hx
    · exact hp hidle.1
    · exact hi.ending x hp hx
  · exact hs.imp id fun ⟨hl,hf,hend⟩ => ⟨hl,hf,fun h => hend (List.mem_cons_of_mem _ h)⟩

section Changes

variable [DecidableEq K]

variable {op : Op (Entry K)}

theorem Inv.maintain (hi : Inv schema e) {rest : List (Op (Entry K))}
    (hlive : e.history.heap.Live xid) (hp : e.pending xid = op :: rest) :
    Inv schema (e.maintain schema xid op rest) := by
  have hop : op ∈ e.pending xid := by
    rw [hp]
    exact List.mem_cons_self
  have hj := (hi.pending xid op hop).1
  have hnd := hi.nodup xid
  rw [hp,List.nodup_cons] at hnd
  unfold Table.maintain
  split
  · rename_i hok
    have hlog : UndoLog.Inv e.Committed (op.run e.index) (e.applied ++ [(xid,op)]) := by
      cases op with
      | inserted a => exact hi.log.insert (hi.fresh xid a hop)
      | deleted a =>
        exact hi.log.delete (hok.2 rfl) fun y hy => hi.inserter_known hj hlive hy
    refine hi.of_log hlog (fun x op' hmem => ?_) (fun x op' hmem => ?_) (fun x op' hmem => ?_)
      (fun x a hmem y hy => ?_) (fun x => ?_) (fun x hne => ?_) fun x a hs => ⟨hs,fun hdone => ?_⟩
    · rcases List.mem_append.1 hmem with hmem | hmem
      · exact hi.applied x op' hmem
      · cases List.mem_singleton.1 hmem
        exact ⟨hj,.inl hlive⟩
    · rcases List.mem_append.1 hmem with hmem | hmem
      · exact hi.fits x op' hmem
      · cases List.mem_singleton.1 hmem
        exact hok.1
    · rcases of_mem_update hmem with ⟨hx,hmem⟩ | ⟨-,hmem⟩
      · rw [hx,hp]
        exact List.mem_cons_of_mem _ hmem
      · exact hmem
    · rcases of_mem_update hmem with ⟨-,hmem⟩ | ⟨hx,hmem⟩
      · rcases List.mem_append.1 hy with hy | hy
        · exact hi.fresh xid a (by rw [hp]; exact List.mem_cons_of_mem _ hmem) y hy
        · cases List.mem_singleton.1 hy
          exact hnd.1 hmem
      · rcases List.mem_append.1 hy with hy | hy
        · exact hi.fresh x a hmem y hy
        · cases List.mem_singleton.1 hy
          obtain ⟨-,-,hd,hh,-,hmin⟩ := hj
          obtain ⟨⟨-,-,hd',hh',-,hmin'⟩,-⟩ := hi.pending x _ hmem
          rw [hh] at hh'
          cases hh'
          exact hx (hmin'.symm.trans hmin)
    · by_cases hx : x = xid
      · rw [hx,update_self]
        exact hnd.2
      · rw [update_of_ne hx]
        exact hi.nodup x
    · by_cases hx : x = xid
      · rw [hx]
        exact hi.ending xid (by rw [hp]; nofun)
      · rw [update_of_ne hx] at hne
        exact hi.ending x hne
    · rcases hdone with hdone | hdone
      · exact .inl (List.mem_append_left _ hdone)
      · by_cases hx : x = xid
        · rw [hx,hp] at hdone
          rw [hx,update_self]
          rcases List.mem_cons.1 hdone with rfl | hdone
          · exact .inl (List.mem_append_right _ List.mem_cons_self)
          · exact .inr hdone
        · rw [update_of_ne hx]
          exact .inr hdone
  · exact hi.fail hlive

theorem Inv.undo (hi : Inv schema e) (hend : xid ∈ e.ending) (hlive : e.history.heap.Live xid)
    {l₁ l₂ : List (ℕ × Op (Entry K))}
    (hlast : lastOf xid e.applied = some (l₁,op,l₂)) :
    Inv schema { e with index := op.inverse.run e.index, applied := l₁ ++ l₂ } := by
  obtain ⟨hl,hno⟩ := lastOf_some hlast
  have hnotcomm : ¬e.Committed xid := by
    rw [Table.Committed,hlive.2]
    rintro ⟨⟩
  have hlog := hi.log
  rw [hl] at hlog
  have hsub : ∀ a, a ∈ l₁ ++ l₂ → a ∈ e.applied := fun a ha => by
    rw [hl]
    rcases List.mem_append.1 ha with ha | ha
    · exact List.mem_append_left _ ha
    · exact List.mem_append_right _ (List.mem_cons_of_mem _ ha)
  refine hi.of_log (hlog.undo hnotcomm hno) (fun x op' hmem => hi.applied x op' (hsub _ hmem))
    (fun x op' hmem => hi.fits x op' (hsub _ hmem)) (fun _ _ => id)
    (fun x a hmem y hy => hi.fresh x a hmem y (hsub _ hy)) hi.nodup hi.ending
    fun x a hs => ⟨hs,fun hdone => hdone.imp (fun hmem => ?_) id⟩
  have hx : x ≠ xid := by
    rintro rfl
    rcases hs with hs | ⟨-,-,hnend⟩
    · exact hnotcomm hs
    · exact hnend hend
  rw [hl] at hmem
  rcases List.mem_append.1 hmem with hmem | hmem
  · exact List.mem_append_left _ hmem
  · rcases List.mem_cons.1 hmem with he | hmem
    · exact absurd (congrArg Prod.fst he) hx
    · exact List.mem_append_right _ hmem

end Changes

section Ends

/-- Beginning or ending a transaction, which has no index change left to make. -/
theorem Inv.managed (hi : Inv schema e) {a : Manager.Step} {t : History}
    (hs : HeapHistory.step e.history (.manager a) = some t)
    (hcommit : ∀ x, e.history.heap.Live x → t.heap.manager.getState x = .committed →
      e.pending x = [] ∧ x ∉ e.failed ∧ x ∉ e.ending)
    (habort : ∀ x, e.history.heap.Live x → t.heap.manager.getState x = .aborted →
      e.pending x = [] ∧ ∀ op, (x,op) ∉ e.applied) :
    Inv schema { e with history := t } := by
  have ht : HeapHistory.Inv t := HeapHistory.step_inv (a := .manager a) hi.history trivial hs
  obtain ⟨m,hm,rfl⟩ := HeapHistory.step_manager hs
  refine hi.unwritten ht (.of_eq rfl fun _ => rfl)
    (fun x hc => HeapHistory.getState_of_step hm hc nofun) (fun x hl => ?_) fun w hw hsound => ?_
  · rcases HeapHistory.live_step hm (live_pos hi.history.snapshots.view.manager hl) hl with
      hl' | hc | hab
    · exact .inl hl'
    · exact .inr (.inl ⟨(hcommit x hl hc).1,hc⟩)
    · exact .inr (.inr (habort x hl hab))
  · obtain ⟨-,hlt,-,hst⟩ := hi.history.versions.writer w hw
    rcases hsound with hc | ⟨hl,hf,hend⟩
    · rcases hst with hl | hc' | hab
      · exact .inr ⟨hl,(hcommit _ hl hc).2⟩
      · exact .inl hc'
      · have hab' : m.getState w.xid = .aborted := HeapHistory.getState_of_step hm hab nofun
        exact absurd (hc.symm.trans hab') nofun
    · exact .inr ⟨live_of_step hm hlt hl,hf,hend⟩

theorem getState_of_manager {h t : History} {a : Manager.Step}
    (hs : HeapHistory.step h (.manager a) = some t) {x : ℕ} (hx : ∀ o, a ≠ .setState x o) :
    t.heap.manager.getState x = h.heap.manager.getState x := by
  obtain ⟨m,hm,rfl⟩ := HeapHistory.step_manager hs
  obtain ⟨-,rfl⟩ | ⟨y,o,rfl,-,-,rfl⟩ | ⟨y,-,-,-,rfl⟩ := Manager.step_cases hm
  · rfl
  · refine SnapshotIsolation.getState_update ?_
    rintro rfl
    exact hx o rfl
  · rfl

theorem getState_of_end {h t : History} {o : TxnSystem.Outcome} (hi : h.heap.manager.Inv)
    (hs : HeapHistory.step h (.manager (.setState xid o)) = some t) :
    t.heap.manager.getState xid = o.state := by
  obtain ⟨m,hm,rfl⟩ := HeapHistory.step_manager hs
  obtain ⟨⟨hact,-⟩,rfl⟩ := of_guard hm
  have hpos : xid ≠ TxnId.invalid :=
    Nat.one_le_iff_ne_zero.1 (hi.active_pos xid hact)
  simp only [Manager.getState,if_neg hpos,update_self]

theorem Inv.quiet_manager (hi : Inv schema e) {a : Manager.Step} {t : History}
    (hs : HeapHistory.step e.history (.manager a) = some t) (ha : ∀ x o, a ≠ .setState x o) :
    Inv schema { e with history := t } := by
  refine hi.managed hs (fun x hl hst => ?_) fun x hl hst => ?_
  · rw [getState_of_manager hs (ha x),hl.2] at hst
    cases hst
  · rw [getState_of_manager hs (ha x),hl.2] at hst
    cases hst

theorem Inv.commit (hi : Inv schema e) {t : History} (hidle : e.Idle xid) (hf : xid ∉ e.failed)
    (hs : HeapHistory.step e.history (.manager (.setState xid .commit)) = some t) :
    Inv schema { e with history := t } := by
  refine hi.managed hs (fun x hl hst => ?_) fun x hl hst => ?_
  · by_cases hx : x = xid
    · rw [hx]
      exact ⟨hidle.1,hf,hidle.2⟩
    · rw [getState_of_manager hs fun o h => hx (Manager.Step.setState.inj h).1.symm,hl.2] at hst
      cases hst
  · by_cases hx : x = xid
    · rw [hx,getState_of_end hi.history.snapshots.view.manager hs] at hst
      cases hst
    · rw [getState_of_manager hs fun o h => hx (Manager.Step.setState.inj h).1.symm,hl.2] at hst
      cases hst

theorem Inv.abort (hi : Inv schema e) {t : History} (hend : xid ∈ e.ending)
    (hundone : lastOf xid e.applied = none)
    (hs : HeapHistory.step e.history (.manager (.setState xid .abort)) = some t) :
    Inv schema { e with history := t } := by
  refine hi.managed hs (fun x hl hst => ?_) fun x hl hst => ?_
  · by_cases hx : x = xid
    · rw [hx,getState_of_end hi.history.snapshots.view.manager hs] at hst
      cases hst
    · rw [getState_of_manager hs fun o h => hx (Manager.Step.setState.inj h).1.symm,hl.2] at hst
      cases hst
  · by_cases hx : x = xid
    · subst hx
      refine ⟨?_,fun op hop => lastOf_none hundone _ hop rfl⟩
      by_contra hp
      exact hi.ending x hp hend
    · rw [getState_of_manager hs fun o h => hx (Manager.Step.setState.inj h).1.symm,hl.2] at hst
      cases hst

end Ends

variable {t : History}

theorem Inv.idle_step (hi : Inv schema e) (ht : HeapHistory.Inv t)
    (hg : Grew e.history t none) (hm : t.heap.manager = e.history.heap.manager) :
    Inv schema { e with history := t } := by
  refine hi.unwritten ht hg (fun x hc => ?_) (fun x hl => .inl ?_) fun w _ hs => ?_
  · rw [hm]
    exact hc
  · rw [Sys.Live,hm]
    exact hl
  · rcases hs with hs | ⟨hl,hf,hend⟩
    · refine .inl ?_
      rw [Table.Committed,hm] at hs
      exact hs
    · refine .inr ⟨?_,hf,hend⟩
      rw [Sys.Live,hm] at hl
      exact hl

theorem Inv.unwritten_pass (hi : Inv schema e) {tid : Tid} {op : Heap.Op} {stale : List ℕ}
    {stamps : Bool}
    (hok : HeapHistory.Disciplined e.history (.pass xid tid op stale stamps))
    (hs : HeapHistory.step e.history (.pass xid tid op stale stamps) = some t)
    (hw : ¬e.history.Wrote xid tid op stale stamps) : Inv schema { e with history := t } := by
  have ht : HeapHistory.Inv t := hi.history.pass hok hs
  obtain ⟨hw',-⟩ | ⟨-,hc | ⟨locks,grants,rfl⟩⟩ := hi.history.pass_cases hok hs
  · exact absurd hw' hw
  · exact hi.idle_step ht (.of_call hc) hc.effect.manager
  · exact hi.idle_step ht (.of_eq rfl fun _ => rfl) rfl

variable {a : HeapHistory.Act}

theorem grown_plain (hm : e.history.heap.manager.Inv) (ha : Plain e a)
    (hs : HeapHistory.step e.history a = some t) :
    HeapHistory.Grown e.history t none ∧ t.heap.manager.Inv ∧
      ∀ z, t.heap.manager.getState z = e.history.heap.manager.getState z := by
  have hmanager : ∀ b : Manager.Step, (∀ z o, b ≠ .setState z o) →
      HeapHistory.step e.history (.manager b) = some t →
      HeapHistory.Grown e.history t none ∧ t.heap.manager.Inv ∧
        ∀ z, t.heap.manager.getState z = e.history.heap.manager.getState z := by
    intro b hb hs
    have hst := fun z => getState_of_manager hs (hb z)
    obtain ⟨m,hstep,rfl⟩ := HeapHistory.step_manager hs
    exact ⟨.of_eq rfl (fun _ => rfl) rfl,Manager.step_inv hm hstep,hst⟩
  cases a with
  | manager b =>
    cases b with
    | beginTxn => exact hmanager .beginTxn nofun hs
    | leaveActive z => exact hmanager (.leaveActive z) nofun hs
    | setState z o => exact ha.elim
  | extend | take | statement =>
    obtain ⟨hw,ht,hr,hman⟩ := HeapHistory.step_aside hs trivial
    exact ⟨.of_eq hw ht hr,hman ▸ hm,fun z => by rw [hman]⟩
  | insert z page => exact ha.elim
  | pass z tid op stale stamps =>
    obtain ⟨-,hman,⟨hw,-⟩ | ⟨-,hg⟩⟩ := HeapHistory.grown_pass hm hs
    · exact absurd hw.2.2 ha.2.1
    · exact ⟨hg,hman ▸ hm,fun z => by rw [hman]⟩

theorem Inv.plain (hi : Inv schema e) (ha : Plain e a)
    (hs : HeapHistory.step e.history a = some t) : Inv schema { e with history := t } := by
  cases a with
  | manager a =>
    cases a with
    | beginTxn | leaveActive y => exact hi.quiet_manager hs nofun
    | setState y o => exact ha.elim
  | extend | take | statement =>
    obtain ⟨hw,ht,-,hman⟩ := HeapHistory.step_aside hs trivial
    exact hi.idle_step (HeapHistory.step_inv hi.history (by trivial) hs) (.of_eq hw ht) hman
  | insert y page => exact ha.elim
  | pass y tid op stale stamps =>
    obtain ⟨-,hreq,hscan⟩ := ha
    exact hi.unwritten_pass ⟨hscan,fun h => absurd h hreq⟩ hs fun hw => hreq hw.2.2

section Ops

variable {values old : List (Option K)} {u v : Tid} {op : Op (Entry K)} {c : ℕ} {a : Entry K}

theorem entryOf_eq (h : entryOf values v c = some a) : a.column = c ∧ a.tid = v := by
  obtain ⟨k,-,ha⟩ := Option.map_eq_some_iff.1 h
  rw [← ha]
  exact ⟨rfl,rfl⟩

theorem mem_insertOps : op ∈ insertOps schema values v ↔
    ∃ c ∈ schema.columns, ∃ a, entryOf values v c = some a ∧ .inserted a = op := by
  simp only [insertOps,List.mem_filterMap,Option.map_eq_some_iff]

theorem mem_deleteOps : op ∈ deleteOps schema old u ↔
    ∃ c ∈ schema.columns, ∃ a, entryOf old u c = some a ∧ .deleted a = op := by
  simp only [deleteOps,List.mem_filterMap,Option.map_eq_some_iff]

theorem mem_updateOps : op ∈ updateOps schema old values u v ↔
    op ∈ deleteOps schema old u ∨ op ∈ insertOps schema values v := by
  simp only [mem_insertOps,mem_deleteOps,updateOps,List.mem_flatMap,List.mem_append,
    Option.mem_toList,Option.map_eq_some_iff,and_or_left,exists_or]

theorem nodup_insertOps : (insertOps schema values v).Nodup := by
  refine schema.nodup.filterMap fun c c' op h h' => ?_
  obtain ⟨a,ha,rfl⟩ := Option.map_eq_some_iff.1 h
  obtain ⟨a',ha',he⟩ := Option.map_eq_some_iff.1 h'
  cases he
  exact (entryOf_eq ha).1.symm.trans (entryOf_eq ha').1

theorem nodup_deleteOps : (deleteOps schema old u).Nodup := by
  refine schema.nodup.filterMap fun c c' op h h' => ?_
  obtain ⟨a,ha,rfl⟩ := Option.map_eq_some_iff.1 h
  obtain ⟨a',ha',he⟩ := Option.map_eq_some_iff.1 h'
  cases he
  exact (entryOf_eq ha).1.symm.trans (entryOf_eq ha').1

theorem nodup_updateOps : (updateOps schema old values u v).Nodup := by
  have hcol : ∀ {c op}, op ∈ ((entryOf old u c).map Op.deleted).toList ++
      ((entryOf values v c).map Op.inserted).toList → op.entry.column = c := by
    intro c op h
    rcases List.mem_append.1 h with h | h
    · obtain ⟨a,ha,rfl⟩ := Option.map_eq_some_iff.1 (Option.mem_toList.1 h)
      exact (entryOf_eq ha).1
    · obtain ⟨a,ha,rfl⟩ := Option.map_eq_some_iff.1 (Option.mem_toList.1 h)
      exact (entryOf_eq ha).1
  refine List.nodup_flatMap.2 ⟨fun c _ => ?_,schema.nodup.imp fun hne op h h' => ?_⟩
  · cases entryOf old u c with
    | none | some a => cases entryOf values v c <;> simp
  · exact hne ((hcol h).symm.trans (hcol h'))

end Ops

section Rows

variable {t : History} {hot : Bool} {target new : Option Tid} {w : Write} {u v : Tid}
  {values : List (Option K)} {ops : List (Op (Entry K))}

theorem RowOp.pending (hr : RowOp schema e e' xid hot target new) {pending : ℕ → List (Op
    (Entry K))}
    {failed : List ℕ} (hothers : ∀ x, x ≠ xid → pending x = e'.pending x)
    (hfailed : ∀ x, x ∉ failed → x ∉ e'.failed) :
    RowOp schema e { e' with pending := pending, failed := failed } xid hot target new where
  __ := hr
  failed x hx := hr.failed x (hfailed x hx)
  others x hx := (hothers x hx).trans (hr.others x hx)

theorem rowOp_own : RowOp schema e ((e.wrote t xid ops).addVersion v values v) xid false target
    (some v) where
  index := ⟨rfl,rfl,rfl⟩
  failed _ := id
  others x hx := update_of_ne hx ..
  kept tid hne :=
    have hne' : tid ≠ v := fun h => hne (congrArg some h.symm)
    ⟨update_of_ne hne' ..,update_of_ne hne' ..⟩
  own v' hv _ := by
    cases hv
    exact update_self ..
  linked _ _ h := nomatch h

theorem rowOp_linked (hvals : ∀ c ∈ schema.columns, values[c]? = (e.values u)[c]?) :
    RowOp schema e ((e.wrote t xid ops).addVersion v values (e.root u)) xid true (some u)
      (some v) where
  index := ⟨rfl,rfl,rfl⟩
  failed _ := id
  others x hx := update_of_ne hx ..
  kept tid hne :=
    have hne' : tid ≠ v := fun h => hne (congrArg some h.symm)
    ⟨update_of_ne hne' ..,update_of_ne hne' ..⟩
  own _ _ h := nomatch h
  linked v' hv _ := by
    cases hv
    refine ⟨u,rfl,update_self ..,fun c hc => ?_⟩
    change (update e.values v values v)[c]? = _
    rw [update_self]
    exact hvals c hc

theorem rowOp_delete : RowOp schema e (e.wrote t xid ops) xid false target none where
  index := ⟨rfl,rfl,rfl⟩
  failed _ := id
  others _ hx := update_of_ne hx ..
  kept _ _ := ⟨rfl,rfl⟩
  own _ h := nomatch h
  linked _ h := nomatch h

variable {indexTid : Tid} {op : Op (Entry K)}

theorem RowOp.deletes (hr : RowOp schema e e' xid hot target new)
    (hc : Call e.history e'.history xid hot target new (some w)) (htarget : target = some u)
    (hown : ∀ v, new = some v → e'.root v = v)
    (hroot : schema.columns ≠ [] → indexTid = e.root u)
    (hop : op ∈ deleteOps schema (e.values u) indexTid) : e'.Justified schema xid op := by
  obtain ⟨c,hcol,a,ha,rfl⟩ := mem_deleteOps.1 hop
  obtain ⟨hwx,-,hwold,hwnew⟩ := hc.write w rfl
  obtain ⟨hd,-,hh,-⟩ := hc.effect.stamped u htarget
  obtain ⟨hv,hru⟩ := hr.kept_of_tuple hc hh
  rw [hroot (List.ne_nil_of_mem hcol)] at ha
  have hac := (entryOf_eq ha).1
  refine ⟨w,hc.mem_writes.2 (.inr rfl),hwx,u,⟨hwold.trans htarget,fun v hn => ?_⟩,
    by rw [hac]; exact hcol,by rw [hac,hv,hru]; exact ha⟩
  exact hown v (hwnew.symm.trans hn)

theorem inserts_justified (hc : Call e.history e'.history xid false target (some v) (some w))
    (hop : op ∈ insertOps schema (e'.values v) v) :
    e'.Justified schema xid op := by
  obtain ⟨c,hcol,a,ha,rfl⟩ := mem_insertOps.1 hop
  obtain ⟨hac,hat⟩ := entryOf_eq ha
  refine ⟨by rw [hac]; exact hcol,by rw [hac,hat]; exact ha,.new xid (e.history.command xid) false,
    ?_,rfl,rfl⟩
  rw [hat]
  exact hc.effect.created v rfl

theorem created_of_scanned (hi : HeapHistory.Inv t) (hlive : t.heap.Live xid)
    (hscan : u ∈ t.scanned xid) : ∃ a ∈ t.rowWrites (t.row u), a.new = some u ∧
      (a.xid = xid ∨ t.heap.manager.getState a.xid = .committed) := by
  obtain ⟨hd,hh,p,hp,hpx,hx⟩ := hi.calls.scanned xid u hscan
  obtain ⟨a,ha,hanew,hax⟩ := hi.versions.creator u hd hh
  have hknown : a.xid = xid ∨ t.heap.manager.getState a.xid = .committed := by
    rw [hax]
    exact hx.imp id fun hx => (((hi.snapshots.view.taken p.1 p.2 hp).done_iff hd.tXmin).1 hx).2.2
  refine ⟨a,List.mem_filter.2 ⟨ha,decide_eq_true
    ⟨(hi.versions.creates a ha u hanew).1.symm,?_⟩⟩,hanew,hknown⟩
  rw [HeapHistory.History.Alive]
  rcases hknown with hx | hst
  · rw [hx,hlive.2]
    rintro ⟨⟩
  · rw [hst]
    rintro ⟨⟩

theorem Inv.insert (hi : Inv schema e) {page : ℕ} (hidle : e.Idle xid)
    (hs : HeapHistory.step e.history (.insert xid page) = some t) :
    Inv schema ((e.wrote t xid (insertOps schema values (e.history.heap.newTid page))).addVersion
      (e.history.heap.newTid page) values (e.history.heap.newTid page)) := by
  simp only [HeapHistory.step,Option.ite_none_right_eq_some] at hs
  obtain ⟨s,hheap,rfl⟩ := Option.map_eq_some_iff.1 hs.2
  obtain ⟨⟨hlive,hpage⟩,rfl⟩ := of_guard hheap
  have hc := HeapHistory.call_insert hlive hpage
  set v := e.history.heap.newTid page
  refine rowOp_own.inv hc hi hidle ⟨fun op hop => ?_,fun a ha => ?_,?_,
    fun _ v' hv _ c hcol a ha => ?_⟩
  · change op ∈ update e.pending xid _ xid at hop
    rw [update_self] at hop
    refine inserts_justified hc ?_
    change op ∈ insertOps schema (update e.values v values v) v
    rw [update_self]
    exact hop
  · change _ ∈ update e.pending xid _ xid at ha
    rw [update_self] at ha
    obtain ⟨c,-,b,hb,he⟩ := mem_insertOps.1 ha
    cases he
    rw [(entryOf_eq hb).2]
  · change (update e.pending xid _ xid).Nodup
    rw [update_self]
    exact nodup_insertOps
  · cases hv
    change entryOf (update e.values v values v) v c = some a at ha
    change _ ∈ update e.pending xid _ xid
    rw [update_self] at ha ⊢
    exact mem_insertOps.2 ⟨c,hcol,a,ha,rfl⟩

theorem root_eq (hi : HeapHistory.Inv e.history) (hr : Roots schema e)
    (hlive : e.history.heap.Live xid) (hscan : u ∈ e.history.scanned xid)
    (hroot : (if schema.columns = [] then .ok u else e.history.heap.hotChainRoot u) =
      .ok indexTid) (hcols : schema.columns ≠ []) : indexTid = e.root u := by
  obtain ⟨a,ha,hanew,-⟩ := created_of_scanned hi hlive hscan
  rw [if_neg hcols,hr.hotChainRoot_eq hi ha hanew] at hroot
  exact (Except.ok.inj hroot).symm

theorem Inv.delete (hi : Inv schema e) {stale : List ℕ} {stamps : Bool} (haddr : Addressed e xid u)
    (hroot : (if schema.columns = [] then .ok u else e.history.heap.hotChainRoot u) =
      .ok indexTid)
    (hs : HeapHistory.step e.history (.pass xid u .delete stale stamps) = some t)
    (hw : e.history.Wrote xid u .delete stale stamps) :
    Inv schema (e.wrote t xid (deleteOps schema (e.values u) indexTid)) := by
  obtain ⟨hidle,hscan,hfresh⟩ := haddr
  obtain ⟨-,hc⟩ | ⟨hnot,-⟩ := hi.history.pass_cases ⟨hscan,fun _ => hfresh⟩ hs
  · have hr : RowOp schema e (e.wrote t xid (deleteOps schema (e.values u) indexTid)) xid false
        (some u) none := rowOp_delete
    refine hr.inv hc hi hidle ⟨fun op hop => ?_,fun a ha => ?_,?_,fun _ _ hv => nomatch hv⟩
    · change op ∈ update e.pending xid _ xid at hop
      rw [update_self] at hop
      exact hr.deletes hc rfl nofun (root_eq hi.history hi.roots hc.live hscan hroot) hop
    · change _ ∈ update e.pending xid _ xid at ha
      rw [update_self] at ha
      obtain ⟨c,-,b,-,he⟩ := mem_deleteOps.1 ha
      cases he
    · change (update e.pending xid _ xid).Nodup
      rw [update_self]
      exact nodup_deleteOps
  · exact absurd hw hnot

theorem Inv.update_linked (hi : Inv schema e) (hidle : e.Idle xid)
    (hc : Call e.history t xid true (some u) (some v) (some w))
    (hvals : ∀ c ∈ schema.columns, values[c]? = (e.values u)[c]?) :
    Inv schema ((e.wrote t xid []).addVersion v values (e.root u)) := by
  have hnil : ((e.wrote t xid []).addVersion v values (e.root u)).pending xid = [] :=
    update_self ..
  refine (rowOp_linked hvals).inv hc hi hidle ⟨fun op hop => ?_,fun a ha => ?_,?_,
    fun _ _ _ h => nomatch h⟩
  · rw [hnil] at hop
    cases hop
  · rw [hnil] at ha
    cases ha
  · rw [hnil]
    exact List.nodup_nil

theorem Inv.update_own [DecidableEq K] (hi : Inv schema e) (hidle : e.Idle xid)
    (hscan : u ∈ e.history.scanned xid)
    (hc : Call e.history t xid false (some u) (some v) (some w)) :
    Inv schema (match (if schema.columns = [] then .ok u else t.heap.hotChainRoot u) with
      | .ok indexTid => ((e.wrote t xid []).addVersion v values v).wrote t xid
          (updateOps schema (e.values u) values indexTid v)
      | .error _ => ((e.wrote t xid []).addVersion v values v).fail xid) := by
  have hown : RowOp schema e ((e.wrote t xid []).addVersion v values v) xid false (some u)
      (some v) := rowOp_own
  have hroots := hown.roots hc hi
  have ht : HeapHistory.Inv t := hc.inv hi.history
  have hlive : t.heap.Live xid := (hc.live_iff xid).2 hc.live
  have hscan' : u ∈ t.scanned xid := by
    rw [hc.frame.2.2.2]
    exact hscan
  obtain ⟨a,ha,hanew,-⟩ := created_of_scanned ht hlive hscan'
  have hfound : ∃ indexTid, (if schema.columns = [] then .ok u else t.heap.hotChainRoot u) =
      Except.ok indexTid ∧ (schema.columns ≠ [] → indexTid = e.root u) := by
    by_cases hcols : schema.columns = []
    · exact ⟨u,if_pos hcols,fun h => absurd hcols h⟩
    · refine ⟨_,(if_neg hcols).trans (hroots.hotChainRoot_eq ht ha hanew),fun _ => ?_⟩
      obtain ⟨hd,-,hh,-⟩ := hc.effect.stamped u rfl
      exact (hown.kept_of_tuple hc hh).2
  obtain ⟨indexTid,hfound,hroot⟩ := hfound
  rw [hfound]
  set e' := ((e.wrote t xid []).addVersion v values v).wrote t xid
    (updateOps schema (e.values u) values indexTid v)
  have hr : RowOp schema e e' xid false (some u) (some v) :=
    hown.pending (fun x hx => update_of_ne hx ..) fun _ => id
  have hpending : e'.pending xid = updateOps schema (e.values u) values indexTid v :=
    update_self ..
  have hvalues : e'.values v = values := update_self ..
  refine hr.inv hc hi hidle ⟨fun op hop => ?_,fun a ha => ?_,?_,fun _ v' hv _ c hcol a ha => ?_⟩
  · rw [hpending] at hop
    rcases mem_updateOps.1 hop with hop | hop
    · refine hr.deletes hc rfl (fun v' hv => ?_) hroot hop
      exact hr.own v' hv rfl
    · exact inserts_justified hc (by rw [hvalues]; exact hop)
  · rw [hpending] at ha
    rcases mem_updateOps.1 ha with ha | ha
    · obtain ⟨c,-,b,-,he⟩ := mem_deleteOps.1 ha
      cases he
    · obtain ⟨c,-,b,hb,he⟩ := mem_insertOps.1 ha
      cases he
      rw [(entryOf_eq hb).2]
  · rw [hpending]
    exact nodup_updateOps
  · cases hv
    rw [hvalues] at ha
    rw [hpending]
    exact mem_updateOps.2 (.inr (mem_insertOps.2 ⟨c,hcol,a,ha,rfl⟩))

end Rows

theorem start_inv (hs : Start e) : Inv schema e := by
  obtain ⟨hstart,hindex,happlied,hpending,-,-⟩ := hs
  have hi := HeapHistory.start_inv hstart
  have htuple : ∀ {tid : Tid} {hd : TupleHeader}, e.history.heap.tuple tid ≠ some hd := by
    intro tid hd hh
    rw [Sys.tuple,hstart.2.2.1] at hh
    cases hh
  have hnowrite : ∀ {w : Write}, w ∉ e.history.writes := by
    intro w hw
    rw [hstart.2.2.2.2.2] at hw
    cases hw
  refine ⟨hi,⟨fun _ _ hh => absurd hh htuple,fun _ hw => absurd hw hnowrite⟩,?_,fun x op hmem => ?_,
    fun x op hmem => ?_,fun x op hmem => ?_,fun x a hmem => ?_,fun x => ?_,fun x hp => absurd
      (hpending x) hp,
    fun _ hw => absurd hw hnowrite⟩
  · rw [hindex,happlied]
    exact .nil
  · rw [happlied] at hmem
    cases hmem
  · rw [happlied] at hmem
    cases hmem
  · rw [hpending] at hmem
    cases hmem
  · rw [hpending] at hmem
    cases hmem
  · rw [hpending]
    exact List.nodup_nil

section Runs

variable [DecidableEq K] {a : Step K}

theorem step_inv (hi : Inv schema e) (hok : NoFailedCommit e a) (hs : step schema e a = some e') :
    Inv schema e' := by
  cases a with
  | act a =>
    obtain ⟨hplain,t,ht,rfl⟩ := of_guard_map hs
    exact hi.plain hplain ht
  | insert xid page values =>
    obtain ⟨hidle,t,ht,rfl⟩ := of_guard_map hs
    exact hi.insert hidle ht
  | update xid tid page values stale stamps =>
    obtain ⟨⟨hidle,hscan,hfresh⟩,t,ht,rfl⟩ := of_guard_map hs
    have hok : HeapHistory.Disciplined e.history
        (.pass xid tid (.update page (hotEligible schema (e.values tid) values)) stale stamps) :=
      ⟨hscan,fun _ => hfresh⟩
    obtain ⟨hw,hc⟩ | ⟨hw,hquiet⟩ := hi.history.pass_cases hok ht
    · rw [if_pos hw]
      split
      · rename_i hhot
        rw [hhot] at hc
        refine hi.update_linked hidle hc fun c hcol => ?_
        have hvals := of_decide_eq_true (of_decide_eq_true hhot).2
        exact (hvals.2 c hcol).symm
      · rename_i hhot
        rw [Bool.not_eq_true] at hhot
        rw [hhot] at hc
        exact hi.update_own hidle hscan hc
    · rw [if_neg hw]
      exact hi.unwritten_pass hok ht hw
  | delete xid tid stale stamps =>
    obtain ⟨haddr,hs⟩ := Option.ite_none_right_eq_some.1 hs
    split at hs
    · rename_i indexTid hroot
      obtain ⟨t,ht,rfl⟩ := Option.map_eq_some_iff.1 hs
      split
      · rename_i hw
        exact hi.delete haddr hroot ht hw
      · rename_i hw
        exact hi.unwritten_pass ⟨haddr.2.1,fun _ => haddr.2.2⟩ ht hw
    · cases hs
  | maintain xid =>
    obtain ⟨op,rest,hp,hlive,rfl⟩ := step_maintain hs
    exact hi.maintain hlive hp
  | commit xid =>
    obtain ⟨hidle,t,ht,rfl⟩ := of_guard_map hs
    exact hi.commit hidle hok ht
  | beginAbort xid =>
    obtain ⟨⟨hidle,-⟩,rfl⟩ := of_guard hs
    exact hi.beginAbort hidle
  | undo xid =>
    obtain ⟨l₁,op,l₂,hlast,⟨hend,hlive⟩,rfl⟩ := step_undo hs
    exact hi.undo hend hlive hlast
  | abort xid =>
    obtain ⟨⟨hend,hundone⟩,t,ht,rfl⟩ := of_guard_map hs
    exact hi.abort hend hundone ht

theorem reach_inv (hr : Reach (step schema) Start NoFailedCommit e) : Inv schema e :=
  hr.invariant (fun _ => start_inv) fun _ _ _ hi hok hs => step_inv hi hok hs

end Runs

end Engine
end PgAm
