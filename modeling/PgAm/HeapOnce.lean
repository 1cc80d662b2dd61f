import PgAm.HeapReader

/-! Every scan returns each row once. The invariant holds in every run in which statements
address what they have scanned and write each tuple once, so the next command of a transaction
is a reader that gets the newest counted version of every row. -/
namespace PgAm
namespace HeapHistory

open Machine Heap Function

variable {h t : History} {xid : ℕ} {tid : Tid} {op : Op} {stale : List ℕ} {stamps : Bool}

section Steps

theorem Inv.registry (hi : Inv h) (locks : Tid → List ℕ) (grants : List Grant) :
    Inv { h with heap := { h.heap with shareLocks := locks, grants := grants } } :=
  ⟨{ hi.snapshots with },{ hi.versions with },
    { hi.links with chained := { hi.links.chained with } },{ hi.calls with },{ hi.chains with }⟩

theorem Inv.extend (hi : Inv h) {page : ℕ} (hpage : page ∉ h.heap.relation) :
    Inv { h with heap := { h.heap with relation := h.heap.relation ++ [page] } } :=
  ⟨{ hi.snapshots with },
    { hi.versions with
      relation := List.nodup_append.2 ⟨hi.versions.relation,List.nodup_singleton page,
        fun a ha b hb e => by
          rw [List.mem_singleton] at hb
          exact hpage (hb ▸ e ▸ ha)⟩
      placed := fun tid hd ht => List.mem_append_left _ (hi.versions.placed tid hd ht) },
    { hi.links with chained := { hi.links.chained with } },{ hi.calls with },{ hi.chains with }⟩

theorem call_insert (hlive : h.heap.Live xid) {page : ℕ} (hpage : page ∈ h.heap.relation) :
    Call h (h.wrote (h.heap.addTuple page (.new xid (h.command xid) false))
        ⟨xid,h.command xid,h.heap.newTid page,none,some (h.heap.newTid page)⟩)
      xid false none (some (h.heap.newTid page))
      (some ⟨xid,h.command xid,h.heap.newTid page,none,some (h.heap.newTid page)⟩) where
  effect := effect_insert hpage
  live := hlive
  scanned := nofun
  free := nofun
  frame := ⟨rfl,rfl,rfl,rfl⟩
  log := rfl
  row tid hne := update_of_ne (fun e => hne (congrArg some e.symm)) ..
  newRow a ha tid he := by
    cases ha
    cases he
    exact update_self ..
  write a ha := by
    cases ha
    exact ⟨rfl,rfl,rfl,rfl⟩
  oldRow _ _ := nofun
  first a ha _ := by
    cases ha
    rfl
  lock := nofun
  kept _ _ := id
  written _ _ := nofun

/-- A version that a disciplined caller may stamp has not been ended by a write that counts. -/
theorem Inv.free (hi : Inv h) (hlive : h.heap.Live xid) (hok : Disciplined h
    (.pass xid tid op stale stamps))
    (hv : (h.heap.gate xid tid op stale).1 = .ok .proceed) {a : Write} (ha : a ∈ h.writes)
    (hold : a.old = some tid) : ¬h.Alive a.xid := by
  intro halive
  obtain ⟨-,hd,hh,hx⟩ := hi.versions.ended a ha tid hold
  obtain ⟨hpos,-,-,hstate⟩ := hi.versions.writer a ha
  have hreal := TupleHeader.real_of_visibilityXmax (hx halive) hpos
  have hg := @gate_eq h.heap xid tid op stale hd hh
  rw [hv] at hg
  rcases rowLockGate_real hg (hi.versions.wellFormed tid hd hh) (by rw [hreal.2]; exact hpos)
    hreal.1 with ⟨hself,hreq⟩ | ⟨hread,hst⟩
  · obtain rfl : a.xid = xid := hreal.2.symm.trans hself
    exact hok.2 hreq (hi.calls.written a ha tid hold hlive hok.1)
  · rw [hreal.2] at hread hst
    rcases hstate with hl | hc | hab
    · rw [reads_of_live hl] at hread
      cases hread
    · exact hst hc
    · exact halive hab

def History.stampedBy (h : History) (xid : ℕ) (tid : Tid) (op : Op) (stale : List ℕ) : Sys :=
  ((h.heap.gated xid tid op stale).apply xid (h.command xid) tid op).granted xid tid op

theorem effect_stampedBy (hm : h.heap.manager.Inv) (hcan : h.heap.CanPass xid op stale stamps)
    (hv : (h.heap.gate xid tid op stale).1 = .ok .proceed) :
    Effect h.heap (h.stampedBy xid tid op stale) xid (h.command xid)
      (decide (op.request = .writer)) (op.isHot tid) (some tid) (h.newVersion op) :=
  effect_stamped hm hcan hv

theorem pass_cases (hs : step h (.pass xid tid op stale stamps) = some t) :
    h.heap.CanPass xid op stale stamps ∧
    ((h.Wrote xid tid op stale stamps ∧ t = h.wrote (h.stampedBy xid tid op stale)
        ⟨xid,h.command xid,h.row tid,some tid,h.newVersion op⟩) ∨
      (¬h.Wrote xid tid op stale stamps ∧
        (((h.heap.gate xid tid op stale).1 = .ok .proceed ∧ op.request ≠ .writer ∧
            t = { h with heap := h.stampedBy xid tid op stale }) ∨
          ∃ locks grants,
            t = { h with heap := { h.heap with shareLocks := locks, grants := grants } }))) := by
  obtain ⟨s,hheap,rfl⟩ := Option.map_eq_some_iff.1 hs
  obtain ⟨hcan,⟨hv,rfl,rfl⟩ | ⟨hno,locks,grants,rfl⟩⟩ := Heap.pass_cases hheap
  · refine ⟨hcan,?_⟩
    by_cases hw : h.Wrote xid tid op stale true
    · rw [if_pos hw]
      exact .inl ⟨hw,rfl⟩
    · rw [if_neg hw]
      exact .inr ⟨hw,.inl ⟨hv,fun hreq => hw ⟨hv,rfl,hreq⟩,rfl⟩⟩
  · have hw : ¬h.Wrote xid tid op stale stamps := fun hw => hno ⟨hw.1,hw.2.1⟩
    rw [if_neg hw]
    exact ⟨hcan,.inr ⟨hw,.inr ⟨locks,grants,rfl⟩⟩⟩

theorem Inv.call_write (hi : Inv h) (hcan : h.heap.CanPass xid op stale stamps)
    (hok : Disciplined h (.pass xid tid op stale stamps)) (hw : h.Wrote xid tid op stale stamps) :
    Call h (h.wrote (h.stampedBy xid tid op stale)
        ⟨xid,h.command xid,h.row tid,some tid,h.newVersion op⟩)
      xid (op.isHot tid) (some tid) (h.newVersion op)
      (some ⟨xid,h.command xid,h.row tid,some tid,h.newVersion op⟩) := by
  have he := effect_stampedBy hi.snapshots.view.manager hcan hw.1
  rw [decide_eq_true hw.2.2] at he
  constructor
  · exact he
  · exact hcan.1
  · rintro _ ⟨⟩
    exact hok.1
  · rintro _ ⟨⟩ a ha hold
    exact hi.free hcan.1 hok hw.1 ha hold
  · exact ⟨rfl,rfl,rfl,rfl⟩
  · rfl
  · intro tid' hne
    change (h.newVersion op).elim h.row _ tid' = _
    cases hn : h.newVersion op with
    | none => rfl
    | some v =>
      rw [hn] at hne
      exact update_of_ne (fun e => hne (congrArg some e.symm)) ..
  · rintro _ ⟨⟩ tid' hn
    change (h.newVersion op).elim h.row _ tid' = _
    rw [hn]
    exact update_self ..
  · rintro _ ⟨⟩
    exact ⟨rfl,rfl,rfl,rfl⟩
  · rintro _ ⟨⟩ _ ⟨⟩
    rfl
  · rintro _ - ⟨⟩
  · rintro ⟨⟩
  · intro x tid' hmem
    change tid' ∈ update h.written xid (tid :: h.written xid) x
    by_cases hx : x = xid
    · rw [hx,update_self]
      exact List.mem_cons_of_mem _ (hx ▸ hmem)
    · rw [update_of_ne hx]
      exact hmem
  · rintro _ - _ ⟨⟩
    change tid ∈ update h.written xid (tid :: h.written xid) xid
    rw [update_self]
    exact List.mem_cons_self

theorem newPage_of_lock (hreq : op.request ≠ .writer) : op.newPage = none := by
  cases op with
  | update page hot => exact absurd rfl hreq
  | delete | lockTuple | lockTupleShared => rfl

theorem Inv.call_lock (hi : Inv h) (hcan : h.heap.CanPass xid op stale stamps)
    (hok : Disciplined h (.pass xid tid op stale stamps))
    (hv : (h.heap.gate xid tid op stale).1 = .ok .proceed) (hreq : op.request ≠ .writer) :
    Call h { h with heap := h.stampedBy xid tid op stale } xid (op.isHot tid) (some tid) none
      none := by
  have he := effect_stampedBy hi.snapshots.view.manager hcan hv
  rw [decide_eq_false hreq,History.newVersion,newPage_of_lock hreq] at he
  constructor
  · exact he
  · exact hcan.1
  · rintro _ ⟨⟩
    exact hok.1
  · rintro _ ⟨⟩ a ha hold
    exact hi.free hcan.1 hok hv ha hold
  · exact ⟨rfl,rfl,rfl,rfl⟩
  · exact (List.append_nil _).symm
  · exact fun _ _ => rfl
  · exact nofun
  · exact nofun
  · exact nofun
  · exact nofun
  · exact fun _ => rfl
  · exact fun _ _ => id
  · exact nofun

theorem Inv.pass_cases (hi : Inv h) (hok : Disciplined h (.pass xid tid op stale stamps))
    (hs : step h (.pass xid tid op stale stamps) = some t) :
    (h.Wrote xid tid op stale stamps ∧ Call h t xid (op.isHot tid) (some tid) (h.newVersion op)
      (some ⟨xid,h.command xid,h.row tid,some tid,h.newVersion op⟩)) ∨
    (¬h.Wrote xid tid op stale stamps ∧ (Call h t xid (op.isHot tid) (some tid) none none ∨
      ∃ locks grants,
        t = { h with heap := { h.heap with shareLocks := locks, grants := grants } })) := by
  obtain ⟨hcan,⟨hw,rfl⟩ | ⟨hw,⟨hv,hreq,rfl⟩ | hreg⟩⟩ := HeapHistory.pass_cases hs
  · exact .inl ⟨hw,hi.call_write hcan hok hw⟩
  · exact .inr ⟨hw,.inl (hi.call_lock hcan hok hv hreq)⟩
  · exact .inr ⟨hw,.inr hreg⟩

theorem Inv.pass (hi : Inv h) (hok : Disciplined h (.pass xid tid op stale stamps))
    (hs : step h (.pass xid tid op stale stamps) = some t) : Inv t := by
  rcases hi.pass_cases hok hs with ⟨-,hc⟩ | ⟨-,hc | ⟨locks,grants,rfl⟩⟩
  · exact hc.inv hi
  · exact hc.inv hi
  · exact hi.registry locks grants

theorem Inv.take (hi : Inv h) (hlive : h.heap.Live xid) (hnone : h.snapshotOf xid = none) :
    Inv { h with taken := (h.heap.manager.snapshot xid,h.completed) :: h.taken } := by
  have hfirst : ∀ p ∈ h.taken, p.1.currentXid ≠ xid := fun p hp e =>
    absurd (decide_eq_true e) (List.find?_eq_none.1 hnone p hp)
  have hnot : ∀ p ∈ h.taken, xid ∉ p.2 := fun p hp hx => by
    obtain ⟨hlt,hxip,-⟩ := ((hi.snapshots.view.taken p.1 p.2 hp).done_iff xid).1 hx
    exact ((hi.snapshots.view.taken p.1 p.2 hp).settled xid hlt hxip).2 hlive.1
  refine ⟨⟨?_,fun p hp => ?_,fun p hp q hq he => ?_,fun p hp => ?_,fun p hp q hq hx => ?_⟩,
    { hi.versions with },{ hi.links with },
    ⟨fun x tid hmem => ?_,hi.calls.written⟩,⟨hi.chains.linked,fun r => ?_⟩⟩
  · exact SnapshotIsolation.step_inv (e := .take xid) hi.snapshots.view (if_pos hlive.1)
  · rcases List.mem_cons.1 hp with rfl | hp
    · exact hi.snapshots.view.manager.active_lt xid hlive.1
    · exact hi.snapshots.begun p hp
  · rcases List.mem_cons.1 hp with rfl | hp
    · rcases List.mem_cons.1 hq with rfl | hq
      · rfl
      · exact absurd he.symm (hfirst q hq)
    · rcases List.mem_cons.1 hq with rfl | hq
      · exact absurd he (hfirst p hp)
      · exact hi.snapshots.single p hp q hq he
  · rcases List.mem_cons.1 hp with rfl | hp
    · exact fun x hx => hx
    · exact hi.snapshots.done p hp
  · rcases List.mem_cons.1 hq with rfl | hq
    · rcases List.mem_cons.1 hp with rfl | hp
      · exact fun x hx => hx
      · exact hi.snapshots.done p hp
    · rcases List.mem_cons.1 hp with rfl | hp
      · exact absurd hx (hnot q hq)
      · exact hi.snapshots.later p hp q hq hx
  · obtain ⟨hd,hh,p,hp,hpx,hx⟩ := hi.calls.scanned x tid hmem
    exact ⟨hd,hh,p,List.mem_cons_of_mem _ hp,hpx,hx⟩
  · exact (hi.chains.ordered r).imp fun a b hab =>
      hab.imp id fun ⟨p,hp,hpx,hx⟩ => ⟨p,List.mem_cons_of_mem _ hp,hpx,hx⟩

variable {p : Snapshot × List ℕ}

/-- What a scan returns was created by the transaction itself or before its snapshot. -/
theorem Inv.statement (hi : Inv h) (hp : p ∈ h.taken)
    (hlive : h.heap.Live p.1.currentXid) {out : List Tid}
    (hout : h.heap.scan (h.reader p.1) = .ok out) : Inv (h.statement p.1.currentXid out) := by
  have hshows : ∀ tid ∈ out, h.heap.Shows (h.reader p.1) tid := by
    rw [scan_eq hi.links.chained] at hout
    cases hout
    intro tid hmem
    exact ((hi.reads_own hp hlive).shows_iff hi tid).2
      (((hi.reads_own hp hlive).mem_scan_iff hi).1 hmem)
  have hcmd : ∀ x, h.command x ≤ (h.statement p.1.currentXid out).command x := fun x => by
    change _ ≤ update h.command p.1.currentXid _ x
    rw [update_apply]
    split
    · rename_i hx
      rw [hx]
      exact Nat.le_succ _
    · exact le_rfl
  refine ⟨{ hi.snapshots with },
    { hi.versions with writer := fun w hw => ?_, command := fun tid hd ht x hl hx => ?_ },
    { hi.links with },⟨fun x tid hmem => ?_,fun w hw tid hold hl hmem => ?_⟩,{ hi.chains with }⟩
  · obtain ⟨hpos,hlt,hcid,hst⟩ := hi.versions.writer w hw
    exact ⟨hpos,hlt,hcid.trans (hcmd _),hst⟩
  · exact (hi.versions.command tid hd ht x hl hx).trans (hcmd x)
  · change tid ∈ update h.scanned p.1.currentXid out x at hmem
    rcases of_mem_update hmem with ⟨hx,hmem⟩ | ⟨-,hmem⟩
    · obtain ⟨hd,hh,hvis⟩ := hshows tid hmem
      exact ⟨hd,hh,p,hp,hx.symm,hx ▸ ((hi.visible_iff hp hlive hh).1 hvis).1⟩
    · exact hi.calls.scanned x tid hmem
  · change tid ∈ update h.scanned p.1.currentXid out w.xid at hmem
    change tid ∈ update h.written p.1.currentXid [] w.xid
    by_cases hx : w.xid = p.1.currentXid
    · rw [hx,update_self] at hmem
      obtain ⟨hd,hh,hvis⟩ := hshows tid hmem
      obtain ⟨-,hd',hh',hend⟩ := hi.versions.ended w hw tid hold
      rw [hh] at hh'
      cases hh'
      have hxmax := hend (by
        rw [History.Alive,hx,hlive.2]
        rintro ⟨⟩)
      have hnot := ((hi.visible_iff hp hlive hh).1 hvis).2
        (by rw [hxmax]; exact (hi.versions.writer w hw).1)
      exact absurd (hxmax.trans hx) hnot.1
    · rw [update_of_ne hx] at hmem ⊢
      exact hi.calls.written w hw tid hold hl hmem

variable {a : Manager.Step} {m m' : Manager}

theorem getState_of_step {x : ℕ} {st : TxnState}
    (hs : m.step a = some m') (hst : m.getState x = st) (hne : st ≠ .inProgress) :
    m'.getState x = st := by
  obtain ⟨-,rfl⟩ | ⟨y,o,-,-,hin,rfl⟩ | ⟨y,-,-,-,rfl⟩ := Manager.step_cases hs
  · exact hst
  · have hxy : x ≠ y := by
      rintro rfl
      rw [Manager.getState,hin,ite_self] at hst
      exact hne hst.symm
    rw [SnapshotIsolation.getState_update hxy,hst]
  · exact hst

theorem live_step {s : Sys} {m : Manager} {x : ℕ}
    (hs : s.manager.step a = some m) (hpos : x ≠ TxnId.invalid) (hlive : s.Live x) :
    ({ s with manager := m } : Sys).Live x ∨ m.getState x = .committed ∨
      m.getState x = .aborted := by
  obtain ⟨hact,hst⟩ := hlive
  obtain ⟨-,rfl⟩ | ⟨y,o,-,-,-,rfl⟩ | ⟨y,-,-,hout,rfl⟩ := Manager.step_cases hs
  · exact .inl ⟨List.mem_cons_of_mem _ hact,hst⟩
  · by_cases hxy : x = y
    · subst hxy
      right
      simp only [Manager.getState,if_neg hpos,update_self]
      cases o with
      | commit => exact .inl rfl
      | abort => exact .inr rfl
    · exact .inl ⟨hact,(SnapshotIsolation.getState_update hxy).trans hst⟩
  · have hxy : x ≠ y := by
      rintro rfl
      rw [Manager.getState,if_neg hpos] at hst
      exact hout hst
    exact .inl ⟨List.mem_filter.2 ⟨hact,decide_eq_true hxy⟩,hst⟩

theorem clock_le (hs : m.step a = some m') : m.txnIdClock ≤ m'.txnIdClock := by
  obtain ⟨-,rfl⟩ | ⟨y,o,-,-,-,rfl⟩ | ⟨y,-,-,-,rfl⟩ := Manager.step_cases hs
  · exact Nat.le_succ _
  · exact le_rfl
  · exact le_rfl

/-- Beginning or ending a transaction. An abort takes the last writes of a row away. -/
theorem Inv.manager (hi : Inv h) {m : Manager} (hm : h.heap.manager.step a = some m) :
    Inv { h with
      heap := { h.heap with manager := m }
      completed := SnapshotIsolation.nextCompleted h.view a } := by
  set t : History := { h with
    heap := { h.heap with manager := m }
    completed := SnapshotIsolation.nextCompleted h.view a } with ht
  have hview : SnapshotIsolation.Inv t.view :=
    SnapshotIsolation.step_inv (e := .step a) hi.snapshots.view (by
      change (h.heap.manager.step a).map _ = _
      rw [hm]
      rfl)
  have hclock := clock_le hm
  have halive : ∀ x, t.Alive x → h.Alive x := fun x hx hab =>
    hx (getState_of_step hm hab (by rintro ⟨⟩))
  have hlive : ∀ x, x < h.heap.manager.txnIdClock → t.heap.Live x → h.heap.Live x :=
    fun x hx hl => live_of_step hm hx hl
  have hrow : ∀ r, t.rowWrites r <+: h.rowWrites r := by
    intro r
    have heq : t.rowWrites r = (h.rowWrites r).filter fun w => t.Alive w.xid := by
      unfold History.rowWrites
      rw [List.filter_filter]
      refine List.filter_congr fun w _ => ?_
      by_cases hw : t.Alive w.xid
      · simp [hw,halive _ hw]
      · simp [hw]
    rw [heq]
    refine VersionChain.filter_isPrefix ((hi.chains.ordered r).imp fun b c hbc hc => ?_)
    rcases hbc with hx | ⟨p,hp,-,hx⟩
    · rwa [hx]
    · have hst : h.heap.manager.getState b.xid = .committed :=
        (((hi.snapshots.view.taken p.1 p.2 hp).done_iff b.xid).1 hx).2.2
      refine decide_eq_true ?_
      rw [History.Alive]
      have hst' : t.heap.manager.getState b.xid = .committed :=
        getState_of_step hm hst (by rintro ⟨⟩)
      rw [hst']
      rintro ⟨⟩
  refine ⟨⟨hview,fun p hp => (hi.snapshots.begun p hp).trans_le hclock,hi.snapshots.single,
      fun p hp x hx => ?_,hi.snapshots.later⟩,
    { hi.versions with
      writer := fun w hw => ?_, ended := fun w hw tid hold => ?_
      command := fun tid hd hh x hl hx => ?_ },
    ⟨{ hi.links.chained with },hi.links.write,
      fun w hw v hd hnew hh honly hw' => hi.links.next w hw v hd hnew hh honly (halive _ hw')⟩,
    ⟨hi.calls.scanned,fun w hw tid hold hl hmem => ?_⟩,
    ⟨fun r => (hi.chains.linked r).of_isPrefix (hrow r),fun r => ?_⟩⟩
  · have hc := (hi.snapshots.view.completed x).1 (hi.snapshots.done p hp x hx)
    exact (hview.completed x).2 ⟨(hc.1.kept hm).1,getState_of_step hm hc.2 (by rintro ⟨⟩)⟩
  · obtain ⟨hpos,hlt,hcid,hst⟩ := hi.versions.writer w hw
    refine ⟨hpos,hlt.trans_le hclock,hcid,?_⟩
    rcases hst with hl | hc | hab
    · exact live_step hm hpos hl
    · exact .inr (.inl (getState_of_step hm hc (by rintro ⟨⟩)))
    · exact .inr (.inr (getState_of_step hm hab (by rintro ⟨⟩)))
  · obtain ⟨hr,hd,hh,hx⟩ := hi.versions.ended w hw tid hold
    exact ⟨hr,hd,hh,fun hw' => hx (halive _ hw')⟩
  · have hlt : x < h.heap.manager.txnIdClock := by
      rcases hx with rfl | hx
      · obtain ⟨w,hw,-,hwx⟩ := hi.versions.creator tid hd hh
        rw [← hwx]
        exact (hi.versions.writer w hw).2.1
      · have hpos := live_pos hview.manager hl
        obtain ⟨w,hw,-,hwx⟩ := hi.versions.stamped tid hd hh (by rw [hx]; exact hpos)
        rw [← hx,← hwx]
        exact (hi.versions.writer w hw).2.1
    exact hi.versions.command tid hd hh x (hlive x hlt hl) hx
  · exact hi.calls.written w hw tid hold (hlive _ (hi.versions.writer w hw).2.1 hl) hmem
  · obtain ⟨k,hk⟩ := hrow r
    exact (hk.symm ▸ hi.chains.ordered r).left_of_append

theorem start_inv (hs : Start h) : Inv h := by
  obtain ⟨hview,hrel,hpages,hcmd,hscan,hwrites⟩ := hs
  have htuple : ∀ {tid : Tid} {hd : TupleHeader}, h.heap.tuple tid ≠ some hd := by
    intro tid hd hh
    rw [Sys.tuple,hpages] at hh
    cases hh
  have htaken : h.taken = [] := hview.2.1
  have hnowrite : ∀ {w : Write}, w ∉ h.writes := by
    intro w hw
    rw [hwrites] at hw
    cases hw
  have hrow : ∀ r, h.rowWrites r = [] := fun r => by
    rw [History.rowWrites,hwrites]
    rfl
  have hnotaken : ∀ {p : Snapshot × List ℕ}, p ∉ h.taken := by
    intro p hp
    rw [htaken] at hp
    cases hp
  refine ⟨⟨SnapshotIsolation.start_inv hview,fun _ hp => absurd hp hnotaken,
      fun _ hp => absurd hp hnotaken,fun _ hp => absurd hp hnotaken,fun _ hp => absurd hp hnotaken⟩,
    ⟨by rw [hrel]; exact List.nodup_nil,fun _ _ hh => absurd hh htuple,
      fun _ _ hh => absurd hh htuple,fun _ hw => absurd hw hnowrite,
      fun _ hw => absurd hw hnowrite,fun _ _ hh => absurd hh htuple,fun _ hw => absurd hw hnowrite,
      fun _ hw => absurd hw hnowrite,fun _ hw => absurd hw hnowrite,fun _ _ hh => absurd hh htuple,
      fun _ _ hh => absurd hh htuple⟩,
    ⟨⟨fun _ _ hl => absurd hl.choose_spec.1 htuple,fun _ _ hl => absurd hl.choose_spec.1 htuple,
      fun _ _ hl => absurd hl.choose_spec.1 htuple⟩,
      fun _ _ hl => absurd hl.choose_spec.1 htuple,fun _ hw => absurd hw hnowrite⟩,
    ⟨fun x tid hmem => ?_,fun _ hw => absurd hw hnowrite⟩,⟨fun r => ?_,fun r => ?_⟩⟩
  · rw [hscan] at hmem
    cases hmem
  · rw [hrow]
    exact .nil
  · rw [hrow]
    exact List.isChain_nil

theorem snapshotOf_eq (hp : h.snapshotOf xid = some p) : p ∈ h.taken ∧ p.1.currentXid = xid := by
  rw [History.snapshotOf] at hp
  have hx := List.find?_some hp
  exact ⟨List.mem_of_find?_eq_some hp,of_decide_eq_true hx⟩

theorem step_inv {a : Act} (hi : Inv h) (hok : Disciplined h a)
    (hs : step h a = some t) : Inv t := by
  cases a with
  | manager a =>
    obtain ⟨m,hm,rfl⟩ := step_manager hs
    exact hi.manager hm
  | extend page =>
    obtain ⟨s,hheap,rfl⟩ := Option.map_eq_some_iff.1 hs
    obtain ⟨⟨hpage,-⟩,rfl⟩ := of_guard hheap
    exact hi.extend hpage
  | take xid =>
    obtain ⟨⟨hlive,hnone⟩,rfl⟩ := of_guard hs
    exact hi.take hlive hnone
  | statement xid =>
    obtain ⟨p,out,hp,hlive,hout,rfl⟩ := step_statement hs
    obtain ⟨hmem,rfl⟩ := snapshotOf_eq hp
    exact hi.statement hmem hlive hout
  | insert xid page =>
    simp only [step,Option.ite_none_right_eq_some] at hs
    obtain ⟨s,hheap,rfl⟩ := Option.map_eq_some_iff.1 hs.2
    obtain ⟨⟨hlive,hpage⟩,rfl⟩ := of_guard hheap
    exact (call_insert hlive hpage).inv hi
  | pass xid tid op stale stamps => exact hi.pass hok hs

theorem reach_inv (hr : Reach step Start Disciplined h) : Inv h :=
  hr.invariant (fun _ => start_inv) fun _ _ _ hi hok hs => step_inv hi hok hs

end Steps

/-- In every run in which statements address what they have scanned and write each tuple once, the
next scan of a transaction returns for every row its newest version among the commits completed
before the snapshot and the transaction's own earlier commands, once. -/
theorem scan_returns_each_row_once (hr : Reach step Start Disciplined h) {snap : Snapshot}
    {done : List ℕ} (htaken : (snap,done) ∈ h.taken) (hlive : h.heap.Live snap.currentXid) :
    ∃ out, h.heap.scan { snap with curcid := h.command snap.currentXid + 1 } = .ok out ∧
      ∀ r, out.filter (fun v => h.row v = r) =
        (h.rowVersion { snap with curcid := h.command snap.currentXid + 1 } done r).toList := by
  have hi := reach_inv hr
  obtain ⟨out,hout,hrows⟩ := (hi.reads_own htaken hlive).scan hi
  refine ⟨out,hout,fun r => (hrows r).trans ?_⟩
  rw [← hi.rowVersion_eq htaken hlive r]
  rfl

instance (h : History) : (a : Act) → Decidable (WritesScanned h a)
  | .pass xid tid op _ _ =>
    inferInstanceAs (Decidable (op.request = .writer → tid ∈ h.scanned xid))
  | .manager _ | .extend _ | .take _ | .statement _ | .insert .. => .isTrue trivial

instance (h : History) : (a : Act) → Decidable (WritesOnce h a)
  | .pass _ _ op _ _ => inferInstanceAs (Decidable (op.request = .writer → _ ∧ _))
  | .manager _ | .extend _ | .take _ | .statement _ | .insert .. => .isTrue trivial

instance (h : History) : (a : Act) → Decidable (Disciplined h a)
  | .pass xid tid op _ _ => inferInstanceAs
      (Decidable (tid ∈ h.scanned xid ∧ (op.request = .writer → tid ∉ h.written xid)))
  | .manager _ | .extend _ | .take _ | .statement _ | .insert .. => .isTrue trivial

def fresh : History :=
  ⟨Heap.fresh,[],[],fun _ => 0,fun _ => [],fun _ => [],[],id⟩

theorem fresh_start : Start fresh := by
  refine ⟨⟨⟨rfl,le_rfl,fun _ _ => rfl⟩,rfl,fun x => ?_⟩,rfl,fun _ => rfl,fun _ => rfl,fun _ => rfl,
    rfl⟩
  simp [fresh,Heap.fresh,History.view,Manager.getState]

/-- Transaction 1 inserts a row and commits; transaction 2 scans the table. -/
def oneRow : List Act :=
  [.manager .beginTxn,.extend 1,.take 1,.statement 1,.insert 1 1,.manager (.setState 1 .commit),
    .manager (.leaveActive 1),.manager .beginTxn,.take 2,.statement 2]

def updatedTwice : List Act :=
  oneRow ++ [.pass 2 ⟨1,0⟩ (.update 1 false) [] true,.pass 2 ⟨1,0⟩ (.update 1 false) [] true]

/-- Transaction 2 locks a row whose inserter is still open, at its second command. -/
def lockedEarly : List Act :=
  [.manager .beginTxn,.extend 1,.take 1,.statement 1,.insert 1 1,.manager .beginTxn,.take 2,
    .statement 2,.statement 2,.pass 2 ⟨1,0⟩ .lockTuple [] true]

theorem eq_ok_of_toOption {ε α : Type*} {r : Except ε α} {a : α} (h : r.toOption = some a) :
    r = .ok a := by
  cases r with
  | error err => cases h
  | ok b =>
    cases h
    rfl

/-- A row that a statement updates twice is returned twice. A lock on a row of an open transaction
hides the row from its inserter. -/
theorem row_returned_twice :
    (∃ h snap done out, Reach step Start WritesScanned h ∧ (snap,done) ∈ h.taken ∧
      h.heap.Live snap.currentXid ∧
      h.heap.scan { snap with curcid := h.command snap.currentXid + 1 } = .ok out ∧
      out.filter (fun v => h.row v = ⟨1,0⟩) = [⟨1,1⟩,⟨1,2⟩]) ∧
    ∃ h snap done, Reach step Start WritesOnce h ∧ (snap,done) ∈ h.taken ∧
      h.heap.Live snap.currentXid ∧
      h.heap.scan { snap with curcid := h.command snap.currentXid + 1 } = .ok [] ∧
      h.rowVersion { snap with curcid := h.command snap.currentXid + 1 } done ⟨1,0⟩ =
        some ⟨1,0⟩ := by
  have htwice : ∃ h, Reach step Start WritesScanned h ∧
      decide (∃ p ∈ h.taken, h.heap.Live p.1.currentXid ∧
        (h.heap.scan (h.reader p.1)).toOption = some [⟨1,1⟩,⟨1,2⟩] ∧
        h.row ⟨1,1⟩ = ⟨1,0⟩ ∧ h.row ⟨1,2⟩ = ⟨1,0⟩) = true :=
    @exists_reach _ _ step Start WritesScanned _ fresh fresh_start updatedTwice _
    (by decide +kernel)
  have hlost : ∃ h, Reach step Start WritesOnce h ∧
      decide (∃ p ∈ h.taken, h.heap.Live p.1.currentXid ∧
        (h.heap.scan (h.reader p.1)).toOption = some [] ∧
        h.rowVersion (h.reader p.1) p.2 ⟨1,0⟩ = some ⟨1,0⟩) = true :=
    @exists_reach _ _ step Start WritesOnce _ fresh fresh_start lockedEarly _ (by decide +kernel)
  constructor
  · obtain ⟨h,hr,hp⟩ := htwice
    obtain ⟨p,hp,hlive,hscan,h₁,h₂⟩ := of_decide_eq_true hp
    exact ⟨h,p.1,p.2,[⟨1,1⟩,⟨1,2⟩],hr,hp,hlive,eq_ok_of_toOption hscan,by simp [h₁,h₂]⟩
  · obtain ⟨h,hr,hp⟩ := hlost
    obtain ⟨p,hp,hlive,hscan,hrow⟩ := of_decide_eq_true hp
    exact ⟨h,p.1,p.2,hr,hp,hlive,eq_ok_of_toOption hscan,hrow⟩

/-- Transaction 2 updates the row and rolls back; 3 locks it and moves it to another page. -/
def rolledBackThenMoved : List Act :=
  oneRow ++ [.extend 2,.pass 2 ⟨1,0⟩ (.update 1 true) [] true,.manager (.setState 2 .abort),
    .manager (.leaveActive 2),.manager .beginTxn,.take 3,.statement 3,
    .pass 3 ⟨1,0⟩ .lockTuple [] true,.pass 3 ⟨1,0⟩ (.update 2 true) [] true]

theorem scan_returns_moved_row_once :
    ∃ h snap done, Reach step Start Disciplined h ∧ (snap,done) ∈ h.taken ∧
      h.heap.Live snap.currentXid ∧ h.heap.tuple ⟨2,0⟩ ≠ none ∧
      ∃ out, h.heap.scan { snap with curcid := h.command snap.currentXid + 1 } = .ok out ∧
        ∀ r, out.filter (fun v => h.row v = r) =
          (h.rowVersion { snap with curcid := h.command snap.currentXid + 1 } done r).toList := by
  have hrun : ∃ h, Reach step Start Disciplined h ∧
      decide (∃ p ∈ h.taken, h.heap.Live p.1.currentXid ∧ h.heap.tuple ⟨2,0⟩ ≠ none) = true :=
    @exists_reach _ _ step Start Disciplined _ fresh fresh_start rolledBackThenMoved _
      (by decide +kernel)
  obtain ⟨h,hr,hp⟩ := hrun
  obtain ⟨p,hp,hlive,htuple⟩ := of_decide_eq_true hp
  exact ⟨h,p.1,p.2,hr,hp,hlive,htuple,scan_returns_each_row_once hr hp hlive⟩

end HeapHistory
end PgAm
