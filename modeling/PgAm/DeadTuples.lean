import PgAm.HeapOnce

/-! The report of dead tuples. A reported version is one that no snapshot in use sees, but it can
still be the way to versions that are seen: a scan reaches the heap-only versions of a row through
the links of the older ones. So a set of reported tuples may go only together with what their
links lead to. -/
namespace PgAm
namespace Heap

open Machine
open HeapHistory (step_effect getState_of_step)

/-- The inserter was rolled back, or a deleter in front of the horizon has committed. -/
def TupleHeader.dead (h : TupleHeader) (oldestXmin : ℕ) (getState : ℕ → TxnState) : Bool :=
  if getState h.tXmin = .aborted then true
  else ¬h.xmaxLockOnly ∧ h.tXmax ≠ TxnId.invalid ∧ h.tXmax < oldestXmin ∧
    getState h.tXmax = .committed

def Sys.scanDeadTuples (s : Sys) (oldestXmin : ℕ) : List Tid :=
  s.tids.filter fun tid => (s.tuple tid).any (·.dead oldestXmin s.manager.getState)

def Sys.without (s : Sys) (removed : List Tid) (tid : Tid) : Option TupleHeader :=
  if tid ∈ removed then none else s.tuple tid

/-- A scan of the heap in which the slots of `removed` are absent. -/
def Sys.scanWithout (s : Sys) (removed : List Tid) (snap : Snapshot) :
    Except HeapError (List Tid) := s.scanBy (s.without removed) snap

/-- A heap of which no table has a page yet. -/
def Created (s : Sys) : Prop := s.manager.Opened ∧ ∀ page, s.pages page = []

/-- Calls on a removed slot find no tuple. -/
def Spares (removed : List Tid) (_ : Sys) : Step → Prop
  | .pass _ _ tid _ _ _ => tid ∉ removed
  | _ => True

instance (removed : List Tid) (s : Sys) : (a : Step) → Decidable (Spares removed s a)
  | .pass .. => inferInstanceAs (Decidable (¬_))
  | .manager _ | .extend _ | .insert .. => .isTrue trivial

/-- The snapshot of a transaction that still runs, or of a reader outside of all transactions. -/
def InUse (s : Sys) (snap : Snapshot) : Prop :=
  (snap.currentXid = TxnId.invalid ∨ s.Live snap.currentXid) ∧
    ∃ s₀ curcid, Reach step Created anyStep s₀ ∧ Reach step (· = s₀) anyStep s ∧
      snap = { s₀.manager.snapshot snap.currentXid with curcid := curcid }

section Steps

variable {s t : Sys} {a : Step} {tid : Tid} {h : TupleHeader}

theorem tuple_of_pages (hp : t.pages = s.pages) (tid : Tid) : t.tuple tid = s.tuple tid := by
  rw [Sys.tuple,hp]
  rfl

structure Grown (s : Sys) : Prop where
  manager : s.manager.Inv
  chained : s.Chained

theorem Created.grown (h : Created s) : Grown s := by
  have hno : ∀ u v, ¬s.Next u v := by
    rintro u v ⟨hd,hh,-⟩
    rw [Sys.tuple,h.2] at hh
    cases hh
  exact ⟨h.1.inv,fun u v hn => absurd hn (hno u v),fun u v hn => absurd hn (hno u v),
    fun u v hn => absurd hn (hno u v)⟩

theorem Sys.Chained.of_tuple (hc : s.Chained) (ht : ∀ tid, t.tuple tid = s.tuple tid) :
    t.Chained := by
  have hnext : ∀ u v, t.Next u v → s.Next u v := by
    rintro u v ⟨hd,hh,hlink⟩
    exact ⟨hd,(ht u).symm.trans hh,hlink⟩
  refine ⟨fun u v hn => hc.page u v (hnext u v hn),fun u v hn => hc.slot u v (hnext u v hn),
    fun u v hn => ?_⟩
  obtain ⟨hd,hh,honly⟩ := hc.target u v (hnext u v hn)
  exact ⟨hd,(ht v).trans hh,honly⟩

theorem Grown.step (hg : Grown s) (hs : step s a = some t) : Grown t := by
  obtain ⟨b,hb,hp⟩ | ⟨hm,hp⟩ | ⟨xid,cid,writes,hot,target,new,he,-⟩ := step_effect hg.manager hs
  · exact ⟨Manager.step_inv hg.manager hb,hg.chained.of_tuple (tuple_of_pages hp)⟩
  · exact ⟨by rw [hm]; exact hg.manager,hg.chained.of_tuple (tuple_of_pages hp)⟩
  · exact ⟨by rw [he.manager]; exact hg.manager,he.chained hg.chained⟩

theorem grown_of_reach {ok : Sys → Step → Prop} (h : Reach step Created ok s) : Grown s :=
  h.invariant (fun _ hs => hs.grown) fun _ _ _ hi _ hs => hi.step hs

structure Kept (s : Sys) (removed : List Tid) (t : Sys) : Prop where
  grown : Grown t
  tuple : ∀ tid ∈ removed, t.tuple tid = s.tuple tid
  outcome : ∀ x, s.manager.getState x ≠ .inProgress → t.manager.getState x = s.manager.getState x

theorem Kept.step {s₀ : Sys} {removed : List Tid} (hk : Kept s₀ removed s)
    (hold : ∀ tid ∈ removed, ∃ h, s₀.tuple tid = some h) (hok : Spares removed s a)
    (hs : Heap.step s a = some t) : Kept s₀ removed t := by
  have hg := hk.grown.step hs
  obtain ⟨b,hb,hp⟩ | ⟨hm,hp⟩ | ⟨xid,cid,writes,hot,target,new,he,hcall⟩ :=
    step_effect hk.grown.manager hs
  · refine ⟨hg,fun tid h => (tuple_of_pages hp tid).trans (hk.tuple tid h),fun x hx => ?_⟩
    exact getState_of_step hb (hk.outcome x hx) hx
  · exact ⟨hg,fun tid h => (tuple_of_pages hp tid).trans (hk.tuple tid h),
      fun x hx => by rw [hm]; exact hk.outcome x hx⟩
  · refine ⟨hg,fun tid hmem => ?_,fun x hx => by rw [he.manager]; exact hk.outcome x hx⟩
    obtain ⟨h,hh⟩ := hold tid hmem
    have hsh := (hk.tuple tid hmem).trans hh
    have hspared : target ≠ some tid := fun e => by
      obtain ⟨x,c,op,stale,stamps,rfl⟩ := hcall tid e
      exact hok hmem
    rw [he.kept tid hspared (he.ne_new hsh)]
    exact hk.tuple tid hmem

theorem reported {oldestXmin : ℕ} (h : tid ∈ s.scanDeadTuples oldestXmin) :
    ∃ hd, s.tuple tid = some hd ∧ hd.dead oldestXmin s.manager.getState = true := by
  obtain ⟨-,hany⟩ := List.mem_filter.1 h
  obtain ⟨hd,hh,hdead⟩ := (Option.any_eq_true _ _).1 hany
  exact ⟨hd,hh,hdead⟩

end Steps

theorem settled_of_lt_xmin {m : Manager} (hm : m.Inv) {xid x : ℕ} (hx : x < (m.snapshot xid).xmin) :
    x < (m.snapshot xid).xmax ∧ x ∉ (m.snapshot xid).xip := by
  have hsort := List.pairwise_insertionSort (· ≤ ·) m.active
  simp only [Manager.snapshot] at hx ⊢
  cases hl : m.active.insertionSort (· ≤ ·) with
  | nil =>
    rw [hl] at hx
    exact ⟨hx,List.not_mem_nil⟩
  | cons y l =>
    rw [hl] at hx hsort
    have hy : y ∈ m.active := (List.mem_insertionSort (· ≤ ·)).1 (hl ▸ List.mem_cons_self)
    refine ⟨lt_trans hx (hm.active_lt y hy),fun hmem => ?_⟩
    rcases List.mem_cons.1 hmem with rfl | hmem
    · exact lt_irrefl _ hx
    · exact absurd ((List.pairwise_cons.1 hsort).1 x hmem) (not_le.2 hx)

/-- A reported version is seen by no snapshot in use. -/
theorem not_visible_of_dead {s t : Sys} {h : TupleHeader} {oldestXmin : ℕ} {snap : Snapshot}
    (hdead : h.dead oldestXmin s.manager.getState = true)
    (hout : ∀ x, s.manager.getState x ≠ .inProgress → t.manager.getState x = s.manager.getState x)
    (huse : InUse t snap) (hxmin : oldestXmin ≤ snap.xmin) :
    h.visible snap t.manager.getState = false := by
  obtain ⟨howner,s₀,curcid,hs₀,-,hsnap⟩ := huse
  have hopen : t.manager.getState snap.currentXid = .inProgress := by
    rcases howner with h₀ | hlive
    · exact if_pos h₀
    · exact hlive.2
  have hown : ∀ x, s.manager.getState x ≠ .inProgress → x ≠ snap.currentXid := by
    rintro x hx rfl
    exact hx ((hout _ hx).symm.trans hopen)
  simp only [TupleHeader.visible,isVisible,Bool.and_eq_false_iff,Bool.not_eq_false']
  rw [TupleHeader.dead] at hdead
  split at hdead
  · rename_i habort
    have hne : s.manager.getState h.tXmin ≠ .inProgress := by rw [habort]; rintro ⟨⟩
    refine .inl (Bool.eq_false_iff.2 fun hv => ?_)
    have hst := ((xminVisible_of_ne (hown _ hne)).1 hv).2.2
    rw [hout _ hne,habort] at hst
    cases hst
  · obtain ⟨hreal,hpos,hlt,hcommit⟩ := of_decide_eq_true hdead
    have hne : s.manager.getState h.tXmax ≠ .inProgress := by rw [hcommit]; rintro ⟨⟩
    have hvis : h.visibilityXmax = h.tXmax := if_neg hreal
    refine .inr ?_
    rw [hvis]
    have hset := @settled_of_lt_xmin s₀.manager (grown_of_reach hs₀).manager snap.currentXid h.tXmax
      (lt_of_lt_of_le hlt (by rw [hsnap] at hxmin; exact hxmin))
    refine (xmaxHides_of_ne (hown _ hne)).2 ⟨hpos,?_⟩
    rw [Snapshot.Sees,hsnap]
    exact ⟨hset.1,hset.2,(hout _ hne).trans hcommit⟩

section Scan

variable {t : Sys} {snap : Snapshot} {removed : List Tid}

/-- What the removed slots have to be: unseen, and the links among them lead to removed slots. -/
structure Removable (t : Sys) (snap : Snapshot) (removed : List Tid) : Prop where
  unseen : ∀ tid ∈ removed, ¬t.Shows snap tid
  closed : ∀ tid ∈ removed, ∀ tid', t.Next tid tid' → tid' ∈ removed

/-- A walk that comes to a removed version finds nothing any more. -/
theorem Removable.follow (hr : Removable t snap removed) (hc : t.Chained) {hops : ℕ} {tid : Tid}
    (hmem : tid ∈ removed) (hhops : t.slotCount tid.pageId ≤ hops + 1 + tid.slotId) :
    t.follow snap tid.pageId (hops + 1) tid = .ok none := by
  cases hh : t.tuple tid with
  | none => simp only [Sys.follow,followHotChain,ne_eq,not_true_eq_false,if_false,hh]
  | some h =>
    obtain ⟨r,hr',hsome,-⟩ := @followHotChain_spec t snap hc (hops + 1) tid h hh hhops
    cases r with
    | none => exact hr'
    | some v =>
      obtain ⟨hshow,hreach⟩ := hsome v rfl
      have hv : v ∈ removed := by
        clear hshow hsome hr'
        induction hreach with
        | refl => exact hmem
        | tail _ hn ih => exact hr.closed _ ih _ hn
      exact absurd hshow (hr.unseen v hv)

theorem Removable.follow_eq (hr : Removable t snap removed) (hc : t.Chained) {hops : ℕ}
    {page : ℕ} {tid : Tid} (hhops : t.slotCount page ≤ hops + tid.slotId) :
    followHotChain (fun i => t.without removed ⟨page,i⟩) (t.slotCount page) page snap
      t.manager.getState hops tid = t.follow snap page hops tid := by
  induction hops generalizing tid with
  | zero => rfl
  | succ hops ih =>
    by_cases hpage : tid.pageId = page
    swap
    · simp only [Sys.follow,followHotChain,if_pos hpage]
    subst hpage
    by_cases hmem : tid ∈ removed
    · rw [hr.follow hc hmem hhops]
      simp only [followHotChain,ne_eq,not_true_eq_false,if_false,Sys.without,if_pos hmem]
    · simp only [Sys.follow,followHotChain,ne_eq,not_true_eq_false,if_false,Sys.without,
        if_neg hmem]
      cases hget : t.tuple tid with
      | none => rfl
      | some h =>
        dsimp only
        split
        · rfl
        · split
          · rename_i hlink
            have hslot := hc.slot tid h.tCtid ⟨h,hget,hlink.1,rfl⟩
            exact ih (by omega)
          · rfl

theorem Removable.scanSlot_eq (hr : Removable t snap removed) (hc : t.Chained) (page slot : ℕ) :
    scanSlot (fun i => t.without removed ⟨page,i⟩) (t.slotCount page) page snap
      t.manager.getState slot =
    scanSlot (fun i => t.tuple ⟨page,i⟩) (t.slotCount page) page snap t.manager.getState slot := by
  cases hget : t.tuple ⟨page,slot⟩ with
  | none =>
    have hnone : t.without removed ⟨page,slot⟩ = none := by
      rw [Sys.without]
      split
      · rfl
      · exact hget
    simp only [scanSlot,hnone,hget]
  | some h =>
    by_cases hmem : (⟨page,slot⟩ : Tid) ∈ removed
    · have hnone : t.without removed ⟨page,slot⟩ = none := if_pos hmem
      cases honly : h.heapOnly with
      | true => simp only [scanSlot,hnone,hget,honly,if_true]
      | false =>
        have hscan : t.scanTid snap ⟨page,slot⟩ = .ok none :=
          (Heap.scanSlot_eq hget honly).trans (hr.follow hc hmem (by dsimp only; omega))
        refine Eq.trans ?_ hscan.symm
        simp only [scanSlot,hnone]
    · have hsome : t.without removed ⟨page,slot⟩ = some h := (if_neg hmem).trans hget
      have hfollow := @Removable.follow_eq t snap removed hr hc (t.slotCount page) page h.tCtid
        (by omega)
      simp only [scanSlot,hsome,hget,hfollow]
      rfl

theorem Removable.scan_eq (hr : Removable t snap removed) (hc : t.Chained) :
    t.scanWithout removed snap = t.scan snap := by
  have hpage : ∀ page, scanPage (fun i => t.without removed ⟨page,i⟩) (t.slotCount page) page snap
      t.manager.getState =
      scanPage (fun i => t.tuple ⟨page,i⟩) (t.slotCount page) page snap t.manager.getState :=
    fun page => by simp only [scanPage,funext (hr.scanSlot_eq hc page)]
  simp only [Sys.scanWithout,Sys.scan,Sys.scanBy,hpage]

end Scan

/-- Removing reported tuples changes no scan under a snapshot in use, then or later, provided that
what their links lead to is removed with them. -/
theorem scan_without_dead {s t : Sys} {oldestXmin : ℕ} {removed : List Tid} {snap : Snapshot}
    (hs : Reach step Created anyStep s)
    (hdead : ∀ tid ∈ removed, tid ∈ s.scanDeadTuples oldestXmin)
    (hlinks : ∀ tid ∈ removed, ∀ tid', s.Next tid tid' → tid' ∈ removed)
    (hlater : Reach step (· = s) (Spares removed) t) (huse : InUse t snap)
    (hxmin : oldestXmin ≤ snap.xmin) :
    t.scanWithout removed snap = t.scan snap ∧ ∀ tid ∈ removed, ¬t.Shows snap tid := by
  have hold : ∀ tid ∈ removed, ∃ h, s.tuple tid = some h := fun tid hmem => by
    obtain ⟨h,hh,-⟩ := reported (hdead tid hmem)
    exact ⟨h,hh⟩
  have hk : Kept s removed t := hlater.invariant
    (fun _ he => by subst he; exact ⟨grown_of_reach hs,fun _ _ => rfl,fun _ _ => rfl⟩)
    fun _ _ _ hk hok hst => hk.step hold hok hst
  have hunseen : ∀ tid ∈ removed, ¬t.Shows snap tid := by
    rintro tid hmem ⟨h,hh,hv⟩
    obtain ⟨h',hh',hd⟩ := reported (hdead tid hmem)
    obtain rfl : h = h' := by
      rw [hk.tuple tid hmem,hh'] at hh
      exact (Option.some.inj hh).symm
    rw [not_visible_of_dead hd hk.outcome huse hxmin] at hv
    cases hv
  have hr : Removable t snap removed := by
    refine ⟨hunseen,fun tid hmem tid' hn => hlinks tid hmem tid' ?_⟩
    obtain ⟨h,hh,hlink⟩ := hn
    exact ⟨h,(hk.tuple tid hmem).symm.trans hh,hlink⟩
  exact ⟨hr.scan_eq hk.grown.chained,hunseen⟩

def Sys.firstSnapshot (s : Sys) (xid : ℕ) : Snapshot := { s.manager.snapshot xid with curcid := 1 }

theorem fresh_created : Created fresh := ⟨fresh_start.1,fun _ => rfl⟩

/-- Transaction 1 inserts two rows; 2 updates the first one in place. -/
def updatedInPlace : List Step :=
  [.manager .beginTxn,.extend 1,.insert 1 1 1,.insert 1 1 1,.manager (.setState 1 .commit),
    .manager (.leaveActive 1),.manager .beginTxn,.pass 2 1 ⟨1,0⟩ (.update 1 true) [] true,
    .manager (.setState 2 .commit),.manager (.leaveActive 2),.manager .beginTxn]

/-- The first version of the updated row is reported, and with it the row is gone. -/
theorem updated_row_lost : ∃ s snap, Reach step Created anyStep s ∧ InUse s snap ∧
    s.manager.active = [snap.currentXid] ∧ snap.xmin = snap.currentXid ∧
    s.scan snap = .ok [⟨1,2⟩,⟨1,1⟩] ∧
    s.scanWithout (s.scanDeadTuples snap.xmin) snap = .ok [⟨1,1⟩] := by
  have hrun : ∃ s, Reach step Created anyStep s ∧
      decide (s.manager.active = [3] ∧ s.manager.getState 3 = .inProgress ∧
        (s.firstSnapshot 3).xmin = 3 ∧
        (s.scan (s.firstSnapshot 3)).toOption = some [⟨1,2⟩,⟨1,1⟩] ∧
        (s.scanWithout (s.scanDeadTuples 3) (s.firstSnapshot 3)).toOption = some [⟨1,1⟩]) = true :=
    @exists_reach _ _ step Created anyStep _ fresh fresh_created updatedInPlace _
    (by decide +kernel)
  obtain ⟨s,hs,hp⟩ := hrun
  obtain ⟨hact,hst,hxmin,hscan,hwithout⟩ := of_decide_eq_true hp
  have hmem : 3 ∈ s.manager.active := hact ▸ List.mem_singleton_self 3
  have huse : InUse s (s.firstSnapshot 3) := ⟨.inr ⟨hmem,hst⟩,s,1,hs,.start rfl,rfl⟩
  refine ⟨s,_,hs,huse,hact,hxmin,HeapHistory.eq_ok_of_toOption hscan,?_⟩
  rw [hxmin]
  exact HeapHistory.eq_ok_of_toOption hwithout

def deletedInPlace : List Step :=
  updatedInPlace ++ [.pass 3 1 ⟨1,2⟩ .delete [] true,.manager (.setState 3 .commit),
    .manager (.leaveActive 3),.manager .beginTxn]

def deletedRow : List Tid := [⟨1,0⟩,⟨1,2⟩]

theorem scan_without_deleted_row : ∃ s snap, InUse s snap ∧
    s.scanDeadTuples snap.xmin = deletedRow ∧
    s.scanWithout deletedRow snap = s.scan snap ∧ s.scan snap = .ok [⟨1,1⟩] := by
  have hrun : ∃ s, Reach step Created anyStep s ∧
      decide (s.Live 4 ∧ s.scanDeadTuples (s.firstSnapshot 4).xmin = deletedRow ∧
        (∀ tid ∈ deletedRow, ((s.tuple tid).all fun h =>
          !h.hotUpdated || deletedRow.contains h.tCtid) = true) ∧
        (s.scan (s.firstSnapshot 4)).toOption = some [⟨1,1⟩]) = true :=
    @exists_reach _ _ step Created anyStep _ fresh fresh_created deletedInPlace _
    (by decide +kernel)
  obtain ⟨s,hs,hp⟩ := hrun
  obtain ⟨hlive,hdead,hlinks,hscan⟩ := of_decide_eq_true hp
  have huse : InUse s (s.firstSnapshot 4) := ⟨.inr hlive,s,1,hs,.start rfl,rfl⟩
  have hsame := scan_without_dead hs (fun tid hmem => hdead ▸ hmem) (fun tid hmem tid' hn => by
    obtain ⟨h,hh,hup,rfl⟩ := hn
    have hall := hlinks tid hmem
    simpa [hh,hup] using hall) (.start rfl) huse le_rfl
  exact ⟨s,_,huse,hdead,hsame.1,HeapHistory.eq_ok_of_toOption hscan⟩

end Heap
end PgAm
