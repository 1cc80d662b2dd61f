import PgAm.HeapSystem

/-! Row locks exclude each other. A completed delete, update or exclusive lock of a live
transaction is the stamp on the version, and a completed shared lock is the stamp or an entry
of the registry. The registry entry is lost if its owner's update is let through the gate and
leaves the page without a stamp. -/
namespace PgAm
namespace Heap

open Machine Function

/-- Two completed calls of live transactions on one version are both shared locks. -/
def Excludes (s : Sys) : Prop :=
  ∀ g ∈ s.grants, ∀ g' ∈ s.grants, g.tid = g'.tid → g.xid ≠ g'.xid → s.Live g.xid →
    s.Live g'.xid → g.shared = true ∧ g'.shared = true

/-- The version has been deleted or updated by a transaction that committed. -/
def Dead (s : Sys) (h : TupleHeader) : Prop :=
  h.tXmax ≠ TxnId.invalid ∧ h.xmaxLockOnly = false ∧ s.manager.getState h.tXmax = .committed

/-- A writer whose own shared lock is only registered does not leave the gate without its
stamp. -/
def KeepsRegistered (s : Sys) : Step → Prop
  | .pass xid _ tid _ _ false =>
    ∀ h, s.tuple tid = some h → h.xmaxIsShare = true → h.tXmax ≠ xid → xid ∉ s.shareLocks tid
  | _ => True

instance (s : Sys) : (a : Step) → Decidable (KeepsRegistered s a)
  | .pass xid _ tid _ _ false =>
    match hh : s.tuple tid with
    | none => isTrue fun _ hd => absurd (hh.symm.trans hd) (nofun)
    | some h =>
      decidable_of_iff (h.xmaxIsShare = true → h.tXmax ≠ xid → xid ∉ s.shareLocks tid)
        ⟨fun hk _ hd => Option.some.inj (hh.symm.trans hd) ▸ hk,fun hk => hk h hh⟩
  | .pass _ _ _ _ _ true | .manager _ | .extend _ | .insert .. => .isTrue trivial

def Held (s : Sys) (g : Grant) : Prop :=
  ∃ h, s.tuple g.tid = some h ∧ HoldsShared h (s.shareLocks g.tid) g.xid ∧
    (g.shared = false → HoldsExclusive h g.xid)

structure Inv (s : Sys) : Prop where
  manager : s.manager.Inv
  wellFormed : ∀ tid h, s.tuple tid = some h → h.WellFormed
  begun : ∀ g ∈ s.grants, g.xid < s.manager.txnIdClock
  held : ∀ g ∈ s.grants, s.Live g.xid → Held s g

variable {s : Sys}

theorem Inv.excludes (h : Inv s) : Excludes s := by
  intro g hg g' hg' htid hne hlive hlive'
  obtain ⟨hd,ht,hsh,hex⟩ := h.held g hg hlive
  obtain ⟨hd',ht',hsh',hex'⟩ := h.held g' hg' hlive'
  obtain rfl : hd = hd' := Option.some.inj (ht.symm.trans (htid ▸ ht'))
  have key : ∀ {x y : ℕ} {l : List ℕ}, x ≠ y → HoldsExclusive hd x → ¬HoldsShared hd l y := by
    rintro x y l hxy ⟨hx,hs⟩ (⟨hs',-⟩ | ⟨hy,-⟩)
    · exact absurd (hs.symm.trans hs') Bool.false_ne_true
    · exact hxy (hx.symm.trans hy)
  constructor
  · cases hs : g.shared with
    | true => rfl
    | false => exact absurd hsh' (key hne (hex hs))
  · cases hs : g'.shared with
    | true => rfl
    | false => exact absurd hsh (key hne.symm (hex' hs))

theorem live_pos (h : s.manager.Inv) {x : ℕ} (hx : s.Live x) : x ≠ TxnId.invalid :=
  Nat.one_le_iff_ne_zero.1 (h.active_pos x hx.1)

variable {a : Manager.Step} {m : Manager}

theorem live_of_step {x : ℕ} (hs : s.manager.step a = some m) (hx : x < s.manager.txnIdClock)
    (hlive : ({ s with manager := m } : Sys).Live x) : s.Live x := by
  obtain ⟨hact,hst⟩ := hlive
  obtain ⟨-,rfl⟩ | ⟨y,o,-,hy,hin,rfl⟩ | ⟨y,-,-,-,rfl⟩ := Manager.step_cases hs
  · refine ⟨(List.mem_cons.1 hact).resolve_left ?_,hst⟩
    rintro rfl
    exact absurd hx (lt_irrefl _)
  · refine ⟨hact,?_⟩
    by_cases hxy : x = y
    · simp only [Manager.getState,hxy,hin,ite_self]
    · simpa only [Manager.getState,update_of_ne hxy] using hst
  · exact ⟨(List.mem_filter.1 hact).1,hst⟩

theorem Held.of_tuple {s t : Sys} {g : Grant} (h : Held s g)
    (ht : ∀ hd, s.tuple g.tid = some hd → t.tuple g.tid = some hd)
    (hl : t.shareLocks g.tid = s.shareLocks g.tid) : Held t g := by
  obtain ⟨hd,hh,hsh,hex⟩ := h
  exact ⟨hd,ht hd hh,by rw [hl]; exact hsh,hex⟩

theorem Inv.manager_step (h : Inv s)
    (hs : s.manager.step a = some m) : Inv { s with manager := m } where
  manager := Manager.step_inv h.manager hs
  wellFormed := h.wellFormed
  begun g hg := by
    have hlt := h.begun g hg
    obtain ⟨-,rfl⟩ | ⟨x,o,-,-,-,rfl⟩ | ⟨x,-,-,-,rfl⟩ := Manager.step_cases hs
    · exact Nat.lt_succ_of_lt hlt
    · exact hlt
    · exact hlt
  held g hg hlive := h.held g hg (live_of_step hs (h.begun g hg) hlive)

theorem wellFormed_new (xid curcid : ℕ) (heapOnly : Bool) :
    (TupleHeader.new xid curcid heapOnly).WellFormed := nofun

theorem Inv.insert (h : Inv s) (xid curcid page : ℕ) :
    Inv (s.addTuple page (.new xid curcid false)) where
  __ := h
  wellFormed tid hd ht := by
    by_cases hnew : tid = s.newTid page
    · rw [hnew,tuple_addTuple_newTid] at ht
      cases ht
      exact wellFormed_new _ _ _
    · rw [tuple_addTuple_of_ne hnew] at ht
      exact h.wellFormed tid hd ht
  held g hg hlive := by
    refine (h.held g hg hlive).of_tuple (fun hd hh => ?_) rfl
    have hnew : g.tid ≠ s.newTid page := fun e => by
      rw [e,tuple_newTid] at hh
      cases hh
    rw [tuple_addTuple_of_ne hnew,hh]

section Pass

variable {s : Sys} {xid curcid : ℕ} {tid : Tid} {op : Op} {stale : List ℕ} {stamps : Bool}

theorem reads_of_live {x : ℕ} (h : s.Live x) : s.reads stale x = true :=
  decide_eq_true (.inr ⟨h.1,.inl h.2⟩)

def Sys.gated (s : Sys) (xid : ℕ) (tid : Tid) (op : Op) (stale : List ℕ) : Sys :=
  { s with shareLocks := update s.shareLocks tid (s.gate xid tid op stale).2 }

theorem gate_eq {hd : TupleHeader} (hh : s.tuple tid = some hd) :
    rowLockGate (s.reads stale) s.manager.getState tid (some hd) (s.shareLocks tid) xid op.request =
      ((s.gate xid tid op stale).1,(s.gate xid tid op stale).2) := by
  rw [← hh]
  rfl

theorem exists_of_gate (hv : (s.gate xid tid op stale).1 = .ok .proceed ∨
    (s.gate xid tid op stale).1 = .ok .proceedNoStamp) : ∃ hd, s.tuple tid = some hd := by
  cases hh : s.tuple tid with
  | none => simp [Sys.gate,rowLockGate,hh] at hv
  | some hd => exact ⟨hd,rfl⟩

def Sys.stampedBy (s : Sys) (xid curcid : ℕ) (tid : Tid) (op : Op) (stale : List ℕ) : Sys :=
  ((s.gated xid tid op stale).apply xid curcid tid op).granted xid tid op

theorem pass_cases {t : Sys} (hs : step s (.pass xid curcid tid op stale stamps) = some t) :
    s.CanPass xid op stale stamps ∧
    (((s.gate xid tid op stale).1 = .ok .proceed ∧ stamps = true ∧
        t = s.stampedBy xid curcid tid op stale) ∨
      (¬((s.gate xid tid op stale).1 = .ok .proceed ∧ stamps = true) ∧
        ∃ locks grants, t = { s with shareLocks := locks, grants := grants })) := by
  obtain ⟨hcan,rfl⟩ := of_guard hs
  refine ⟨hcan,?_⟩
  by_cases hstamp : (s.gate xid tid op stale).1 = .ok .proceed ∧ stamps = true
  · obtain ⟨hv,rfl⟩ := hstamp
    rw [hv]
    exact .inl ⟨rfl,rfl,rfl⟩
  · refine .inr ⟨hstamp,?_⟩
    cases hv : (s.gate xid tid op stale).1 with
    | error e => exact ⟨_,_,rfl⟩
    | ok v =>
      cases v with
      | wait b | proceedNoStamp => exact ⟨_,_,rfl⟩
      | proceed =>
        cases stamps with
        | true => exact absurd ⟨hv,rfl⟩ hstamp
        | false => exact ⟨_,_,rfl⟩

/-- The gate keeps the locks of live transactions, except a registered lock of the caller. -/
theorem Inv.gate_held (h : Inv s) (hx : s.Live xid) {g : Grant} (hg : g ∈ s.grants)
    (hlive : s.Live g.xid) :
    Held (s.gated xid tid op stale) g ∨
      (g.tid = tid ∧ g.xid = xid ∧ (s.gate xid tid op stale).1 = .ok .proceed ∧
        ∃ hd, s.tuple tid = some hd ∧ hd.xmaxIsShare = true ∧ hd.tXmax ≠ xid ∧
          xid ∈ s.shareLocks tid) := by
  have hheld := h.held g hg hlive
  by_cases htid : g.tid = tid
  · obtain ⟨hd,hh,hsh,hex⟩ := hheld
    rw [htid] at hh hsh
    have hwf := h.wellFormed tid hd hh
    have hg' := @gate_eq s xid tid op stale hd hh
    have hkept : HoldsShared hd (s.gate xid tid op stale).2 g.xid → Held
      (s.gated xid tid op stale) g := by
      intro hs
      refine ⟨hd,by rw [htid]; exact hh,?_,hex⟩
      simp only [Sys.gated,htid,update_self]
      exact hs
    by_cases hself : g.xid = xid
    · rw [hself] at hsh
      rcases rowLockGate_self hg' hwf hsh (reads_of_live hx) with hs | ⟨hv,hs,hne,hmem⟩
      · exact .inl (hkept (hself ▸ hs))
      · exact .inr ⟨htid,hself,hv,hd,hh,hs,hne,hmem⟩
    · exact .inl (hkept (rowLockGate_other hg' hwf hsh (reads_of_live hlive) hself
        (live_pos h.manager hlive)).2.1)
  · exact .inl (hheld.of_tuple (fun _ hh => hh) (update_of_ne htid ..))

theorem Inv.gate_proceed (h : Inv s) (hv : (s.gate xid tid op stale).1 = .ok .proceed) {g : Grant}
    (hg : g ∈ s.grants) (hlive : s.Live g.xid) (htid : g.tid = tid) : g.xid = xid := by
  by_contra hne
  obtain ⟨hd,hh,hsh,-⟩ := h.held g hg hlive
  rw [htid] at hh hsh
  have hg' := @gate_eq s xid tid op stale hd hh
  exact (rowLockGate_other hg' (h.wellFormed tid hd hh) hsh (reads_of_live hlive) hne
    (live_pos h.manager hlive)).1 hv

theorem Inv.granted (h : Inv s) (hx : s.Live xid)
    (hheld : Held s ⟨xid,tid,op.request = .shared⟩) : Inv (s.granted xid tid op) where
  __ := h
  begun g hg := by
    rcases List.mem_cons.1 hg with rfl | hg
    · exact h.manager.active_lt xid hx.1
    · exact h.begun g hg
  held g hg hlive := by
    rcases List.mem_cons.1 hg with rfl | hg
    · exact hheld
    · exact h.held g hg hlive

theorem wellFormed_apply {hd₀ : TupleHeader} (hwf : ∀ tid h, s.tuple tid = some h → h.WellFormed)
    (hh : s.tuple tid = some hd₀) (hpos : xid ≠ TxnId.invalid) (tid' : Tid) (hd : TupleHeader)
    (ht : (s.apply xid curcid tid op).tuple tid' = some hd) : hd.WellFormed := by
  by_cases htid : tid' = tid
  · rw [htid,tuple_apply_self hh] at ht
    cases ht
    exact stamp_wellFormed _ hpos
  · rcases @tuple_apply_of_ne s tid tid' xid curcid op htid with he | ⟨page,-,-,he⟩
    · exact hwf tid' hd (he ▸ ht)
    · rw [he] at ht
      cases ht
      exact wellFormed_new _ _ _

/-- After the stamp the lock is the caller's, and no other transaction has one. -/
theorem Inv.stamped (h : Inv s) (hx : s.Live xid)
    (hv : (s.gate xid tid op stale).1 = .ok .proceed) :
    Inv (((s.gated xid tid op stale).apply xid curcid tid op).granted xid tid op) := by
  have hpos := live_pos h.manager hx
  obtain ⟨hd,hh⟩ := exists_of_gate (.inl hv)
  have hself := @tuple_apply_self (s.gated xid tid op stale) tid hd xid curcid op hh
  generalize hstamp : op.stamp tid _ xid curcid hd = hd' at hself
  have hxmax : hd'.tXmax = xid := by rw [← hstamp,stamp_tXmax]
  have hshare : hd'.xmaxIsShare = decide (op.request = .shared) := by rw [← hstamp,stamp_isShare]
  have hmine : ∀ l, HoldsShared hd' l xid := fun l => by
    cases hs : hd'.xmaxIsShare with
    | true => exact .inl ⟨hs,.inl hxmax⟩
    | false => exact .inr ⟨hxmax,hs⟩
  have hwf := @wellFormed_apply (s.gated xid tid op stale) xid curcid tid op hd h.wellFormed hh hpos
  obtain ⟨pages,he⟩ := @apply_frame (s.gated xid tid op stale) tid xid curcid op
  have hinv : Inv ((s.gated xid tid op stale).apply xid curcid tid op) := by
    refine ⟨by rw [he]; exact h.manager,hwf,by rw [he]; exact h.begun,fun g hg hlive => ?_⟩
    have hg' : g ∈ s.grants := by rwa [he] at hg
    have hlive' : s.Live g.xid := by rwa [he] at hlive
    have hheld := h.held g hg' hlive'
    by_cases htid : g.tid = tid
    · obtain ⟨hd₀,hh₀,hsh,hex⟩ := hheld
      have hgx := h.gate_proceed hv hg' hlive' htid
      refine ⟨hd',htid ▸ hself,by rw [hgx]; exact hmine _,fun hs => ?_⟩
      rw [hgx]
      refine ⟨hxmax,?_⟩
      rw [hshare,decide_eq_false_iff_not]
      intro hreq
      rw [htid,hh] at hh₀
      cases hh₀
      have hg'' := @gate_eq s xid tid op stale hd hh
      rw [hv,hreq] at hg''
      exact rowLockGate_shared hg'' hpos (hgx ▸ hex hs)
    · refine hheld.of_tuple (fun hd₁ hh₁ => ?_) ?_
      · exact tuple_apply_kept htid hh₁
      · rw [he]
        exact update_of_ne htid ..
  refine hinv.granted (by rw [he]; exact hx) ⟨hd',hself,hmine _,fun hs => ⟨hxmax,?_⟩⟩
  rw [hshare]
  exact hs

theorem Inv.pass (h : Inv s) (hx : s.Live xid)
    (hok : KeepsRegistered s (.pass xid curcid tid op stale stamps)) :
    Inv ((s.gated xid tid op stale).settle xid curcid tid op stamps
      (s.gate xid tid op stale).1) := by
  by_cases hstamp : (s.gate xid tid op stale).1 = .ok .proceed ∧ stamps = true
  · obtain ⟨hv,rfl⟩ := hstamp
    rw [hv]
    exact h.stamped hx hv
  · have hgated : Inv (s.gated xid tid op stale) := by
      refine { h with held := fun g hg hlive => ?_ }
      rcases h.gate_held hx hg hlive with hheld | ⟨-,-,hv,hd,hh,hs,hne,hmem⟩
      · exact hheld
      · cases stamps with
        | true => exact absurd ⟨hv,rfl⟩ hstamp
        | false => exact absurd hmem (hok hd hh hs hne)
    cases hv : (s.gate xid tid op stale).1 with
    | error e => exact hgated
    | ok v =>
      cases v with
      | wait b => exact hgated
      | proceed =>
        cases stamps with
        | true => exact absurd ⟨hv,rfl⟩ hstamp
        | false => exact hgated
      | proceedNoStamp =>
        obtain ⟨hd,hh⟩ := exists_of_gate (.inr hv)
        have hg := @gate_eq s xid tid op stale hd hh
        rw [hv] at hg
        obtain ⟨hreq,hsh⟩ := rowLockGate_noStamp hg
        refine hgated.granted hx ⟨hd,hh,?_,fun hf => ?_⟩
        · simp only [Sys.gated,update_self]
          exact hsh
        · simp [hreq] at hf

end Pass

theorem start_inv (hs : Start s) : Inv s where
  manager := hs.1.inv
  wellFormed := hs.2.1
  begun g hg := by
    rw [hs.2.2.2] at hg
    cases hg
  held g hg := by
    rw [hs.2.2.2] at hg
    cases hg

theorem step_inv {s t : Sys} {a : Step} (h : Inv s) (hok : KeepsRegistered s a)
    (hs : step s a = some t) : Inv t := by
  cases a with
  | manager a =>
    obtain ⟨m,hm,rfl⟩ := Option.map_eq_some_iff.1 hs
    exact h.manager_step hm
  | extend page =>
    obtain ⟨-,rfl⟩ := of_guard hs
    exact { h with }
  | insert xid curcid page =>
    obtain ⟨-,rfl⟩ := of_guard hs
    exact h.insert xid curcid page
  | pass xid curcid tid op stale stamps =>
    obtain ⟨hcan,rfl⟩ := of_guard hs
    exact h.pass hcan.1 hok

theorem reach_inv (h : Reach step Start KeepsRegistered s) : Inv s :=
  h.invariant (fun _ => start_inv) fun _ _ _ hi hok hs => step_inv hi hok hs

/-- A dead version keeps its stamp in every step. -/
theorem Inv.dead_kept {s t : Sys} {a : Step} {tid : Tid} {hd : TupleHeader} (h : Inv s)
    (hs : step s a = some t) (hh : s.tuple tid = some hd) (hdead : Dead s hd) :
    t.tuple tid = some hd := by
  cases a with
  | manager a =>
    obtain ⟨m,-,rfl⟩ := Option.map_eq_some_iff.1 hs
    exact hh
  | extend page =>
    obtain ⟨-,rfl⟩ := of_guard hs
    exact hh
  | insert xid curcid page =>
    obtain ⟨-,rfl⟩ := of_guard hs
    have hnew : tid ≠ s.newTid page := fun e => by
      rw [e,tuple_newTid] at hh
      cases hh
    rw [tuple_addTuple_of_ne hnew,hh]
  | pass xid curcid tid' op stale stamps =>
    obtain ⟨hcan,⟨hv,-,rfl⟩ | ⟨-,locks,grants,rfl⟩⟩ := pass_cases hs
    · by_cases htid : tid = tid'
      · subst htid
        have hself : hd.tXmax ≠ xid := fun e => by
          have hst := hdead.2.2
          rw [e,hcan.1.2] at hst
          cases hst
        exact absurd hv (rowLockGate_dead (gate_eq hh) (h.wellFormed tid hd hh) hdead.1 hself
          hdead.2.1 hdead.2.2)
      · exact tuple_apply_kept (s := s.gated xid tid' op stale) htid hh
    · exact hh

/-- Row locks exclude each other in every run in which no writer drops its own registered lock
without a stamp, and a deleted version is never stamped again. -/
theorem row_locks_exclude {s : Sys} (h : Reach step Start KeepsRegistered s) :
    Excludes s ∧ ∀ a t tid hd, step s a = some t → s.tuple tid = some hd → Dead s hd →
      t.tuple tid = some hd :=
  ⟨(reach_inv h).excludes,fun _ _ _ _ hs hh hdead => (reach_inv h).dead_kept hs hh hdead⟩

def fresh : Sys := ⟨⟨TxnId.first,[],fun _ => .inProgress⟩,[],fun _ => [],fun _ => [],[]⟩

theorem fresh_start : Start fresh :=
  ⟨⟨rfl,le_rfl,fun _ _ => rfl⟩,fun _ _ h => by simp [Sys.tuple,fresh] at h,fun _ => rfl,rfl⟩

/-- Transaction 1 inserts a row; 2 and 3 lock it shared, 2 with its stamp; 2 ends. -/
def sharedByTwo : List Step :=
  [.manager .beginTxn,.extend 1,.extend 2,.insert 1 1 1,.manager (.setState 1 .commit),
    .manager (.leaveActive 1),.manager .beginTxn,.manager .beginTxn,.manager .beginTxn,
    .pass 2 1 ⟨1,0⟩ .lockTupleShared [] true,.pass 3 1 ⟨1,0⟩ .lockTupleShared [] true]

/-- Then 3 finds no room for its update and leaves the page; 4 locks the row for itself. -/
def lockLost : List Step :=
  sharedByTwo ++ [.manager (.setState 2 .commit),.manager (.leaveActive 2),
    .pass 3 2 ⟨1,0⟩ (.update 2 false) [] false,.pass 4 1 ⟨1,0⟩ .lockTuple [] true]

theorem shared_lock_lost_between_passes :
    ∃ s, Reach step Start anyStep s ∧ ¬Excludes s := by
  have hrun : ∃ s, Reach step Start anyStep s ∧
      decide (⟨3,⟨1,0⟩,true⟩ ∈ s.grants ∧ ⟨4,⟨1,0⟩,false⟩ ∈ s.grants ∧
        s.Live 3 ∧ s.Live 4) = true :=
    @exists_reach _ _ step Start anyStep _ fresh fresh_start lockLost _ (by decide +kernel)
  obtain ⟨s,hs,hp⟩ := hrun
  obtain ⟨h₃,h₄,hl₃,hl₄⟩ := of_decide_eq_true hp
  exact ⟨s,hs,fun hex => absurd (hex _ h₃ _ h₄ rfl (by decide) hl₃ hl₄).2 Bool.false_ne_true⟩

theorem row_locks_exclude_of_shared :
    ∃ s, Reach step Start KeepsRegistered s ∧ s.Live 2 ∧ s.Live 3 ∧
      ⟨2,⟨1,0⟩,true⟩ ∈ s.grants ∧ ⟨3,⟨1,0⟩,true⟩ ∈ s.grants ∧ Excludes s := by
  have hrun : ∃ s, Reach step Start KeepsRegistered s ∧
      decide (s.Live 2 ∧ s.Live 3 ∧ ⟨2,⟨1,0⟩,true⟩ ∈ s.grants ∧ ⟨3,⟨1,0⟩,true⟩ ∈ s.grants) = true :=
    @exists_reach _ _ step Start KeepsRegistered _ fresh fresh_start sharedByTwo _
    (by decide +kernel)
  obtain ⟨s,hs,hp⟩ := hrun
  obtain ⟨hl₂,hl₃,h₂,h₃⟩ := of_decide_eq_true hp
  exact ⟨s,hs,hl₂,hl₃,h₂,h₃,(row_locks_exclude hs).1⟩

end Heap
end PgAm
