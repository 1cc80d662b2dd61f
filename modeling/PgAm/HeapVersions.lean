import PgAm.HeapHistory

/-! What the heap and the history of its writes have to do with each other. Every version has
the write that created it, a version that was ended by a write which has not been rolled back
carries that write's stamp, and the writes of one row that have not been rolled back form a
chain of versions. -/
namespace PgAm
namespace HeapHistory

open Machine Heap

structure Stamped (xid cid : ℕ) (writes hot : Bool) (new : Option Tid)
    (h h' : TupleHeader) : Prop where
  tXmin : h'.tXmin = h.tXmin
  heapOnly : h'.heapOnly = h.heapOnly
  tXmax : h'.tXmax = xid
  tCid : h'.tCid = cid
  lockOnly : h'.xmaxLockOnly = !writes
  wellFormed : h'.WellFormed
  chain : if hot = true then h'.hotUpdated = true ∧ new = some h'.tCtid
    else h'.hotUpdated = h.hotUpdated ∧ h'.tCtid = h.tCtid

/-- What a call does to the tuples: it stamps its target and appends a new version. -/
structure Effect (s t : Sys) (xid cid : ℕ) (writes hot : Bool) (target new : Option Tid) :
    Prop where
  manager : t.manager = s.manager
  relation : t.relation = s.relation
  kept : ∀ tid, target ≠ some tid → new ≠ some tid → t.tuple tid = s.tuple tid
  stamped : ∀ tid, target = some tid → ∃ h h', s.tuple tid = some h ∧ t.tuple tid = some h' ∧
    Stamped xid cid writes hot new h h'
  fresh : ∀ tid, new = some tid → tid = s.newTid tid.pageId ∧ tid.pageId ∈ s.relation
  created : ∀ tid, new = some tid → t.tuple tid = some (.new xid cid hot)
  linked : hot = true → ∃ u v, target = some u ∧ new = some v ∧ v.pageId = u.pageId ∧ t.Next u v

theorem Stamped.link {xid cid : ℕ} {writes hot : Bool} {new : Option Tid} {h h' : TupleHeader}
    (hs : Stamped xid cid writes hot new h h') (hup : h'.hotUpdated = true) :
    (h.hotUpdated = true ∧ h'.tCtid = h.tCtid) ∨ (hot = true ∧ new = some h'.tCtid) := by
  have hchain := hs.chain
  split at hchain
  · rename_i hhot
    exact .inr ⟨hhot,hchain.2⟩
  · exact .inl ⟨hchain.1.symm.trans hup,hchain.2⟩

section Effects

variable {s t : Sys} {xid cid page : ℕ} {tid : Tid} {op : Op} {hd : TupleHeader}

theorem effect_insert (hpage : page ∈ s.relation) :
    Effect s (s.addTuple page (.new xid cid false)) xid cid true false none
      (some (s.newTid page)) where
  manager := rfl
  relation := rfl
  kept tid _ hne := tuple_addTuple_of_ne fun e => hne (congrArg some e.symm)
  stamped _ h := by cases h
  fresh tid h := by
    cases h
    exact ⟨rfl,hpage⟩
  created tid h := by
    cases h
    exact tuple_addTuple_newTid
  linked h := by cases h

theorem stamp_stamped (hpos : xid ≠ TxnId.invalid) :
    Stamped xid cid (decide (op.request = .writer)) (op.isHot tid) (op.newPage.map s.newTid) hd
      (op.stamp tid ((op.newPage.map s.newTid).getD tid) xid cid hd) where
  tXmin := by
    cases op with
    | update page hot =>
      simp only [Op.stamp]
      split <;> rfl
    | delete | lockTuple | lockTupleShared => rfl
  heapOnly := by
    cases op with
    | update page hot =>
      simp only [Op.stamp]
      split <;> rfl
    | delete | lockTuple | lockTupleShared => rfl
  tXmax := stamp_tXmax _
  tCid := by
    cases op with
    | update page hot =>
      simp only [Op.stamp]
      split <;> rfl
    | delete | lockTuple | lockTupleShared => rfl
  lockOnly := by rw [stamp_lockOnly,decide_not]
  wellFormed := stamp_wellFormed _ hpos
  chain := by
    cases op with
    | update page hot =>
      by_cases hhot : page = tid.pageId ∧ hot = true
      · rw [Op.isHot,if_pos (decide_eq_true hhot)]
        simp [Op.stamp,if_pos hhot,TupleHeader.stampHotUpdate,Op.newPage]
      · rw [Op.isHot,if_neg (by rw [decide_eq_true_eq]; exact hhot)]
        simp only [Op.stamp,if_neg hhot]
        exact ⟨rfl,rfl⟩
    | delete | lockTuple | lockTupleShared => exact ⟨rfl,rfl⟩

theorem effect_apply (hh : s.tuple tid = some hd) (hpos : xid ≠ TxnId.invalid)
    (hw : s.Writable op) :
    Effect s (s.apply xid cid tid op) xid cid (decide (op.request = .writer)) (op.isHot tid)
      (some tid) (op.newPage.map s.newTid) where
  manager := by
    obtain ⟨pages,he⟩ := @apply_frame s tid xid cid op
    rw [he]
  relation := by
    obtain ⟨pages,he⟩ := @apply_frame s tid xid cid op
    rw [he]
  kept tid' htarget hnew := by
    rcases @tuple_apply_of_ne s tid tid' xid cid op fun e => htarget (congrArg some e.symm) with
      he | ⟨page,hop,rfl,-⟩
    · exact he
    · rw [hop] at hnew
      exact absurd rfl hnew
  stamped tid' he := by
    cases he
    exact ⟨hd,_,hh,tuple_apply_self hh,stamp_stamped hpos⟩
  fresh tid' hnew := by
    obtain ⟨page,hop,rfl⟩ := Option.map_eq_some_iff.1 hnew
    refine ⟨rfl,?_⟩
    cases op with
    | update page' hot =>
      cases hop
      exact hw
    | delete | lockTuple | lockTupleShared => cases hop
  created tid' hnew := by
    obtain ⟨page,hop,rfl⟩ := Option.map_eq_some_iff.1 hnew
    exact tuple_apply_new hop
  linked hhot := by
    cases op with
    | update page hot =>
      have hhot' := of_decide_eq_true hhot
      refine ⟨tid,s.newTid page,rfl,rfl,hhot'.1,_,tuple_apply_self hh,?_⟩
      simp only [Op.stamp,if_pos hhot']
      exact ⟨rfl,rfl⟩
    | delete | lockTuple | lockTupleShared => cases hhot

variable {writes hot : Bool} {target new : Option Tid} {hd' : TupleHeader}

theorem Effect.cases (he : Effect s t xid cid writes hot target new) (ht : t.tuple tid = some hd) :
    (new = some tid ∧ hd = .new xid cid hot) ∨
    (target = some tid ∧ ∃ hd₀, s.tuple tid = some hd₀ ∧ Stamped xid cid writes hot new hd₀ hd) ∨
    (target ≠ some tid ∧ new ≠ some tid ∧ s.tuple tid = some hd) := by
  by_cases hnew : new = some tid
  · rw [he.created tid hnew] at ht
    exact .inl ⟨hnew,(Option.some.inj ht).symm⟩
  · by_cases htarget : target = some tid
    · obtain ⟨hd₀,hd₁,h₀,h₁,hst⟩ := he.stamped tid htarget
      rw [h₁] at ht
      cases ht
      exact .inr (.inl ⟨htarget,hd₀,h₀,hst⟩)
    · rw [he.kept tid htarget hnew] at ht
      exact .inr (.inr ⟨htarget,hnew,ht⟩)

theorem Effect.ne_new (he : Effect s t xid cid writes hot target new) (hs : s.tuple tid = some hd) :
    new ≠ some tid := by
  intro hnew
  rw [(he.fresh tid hnew).1,tuple_newTid] at hs
  cases hs

theorem Effect.forward (he : Effect s t xid cid writes hot target new)
    (hs : s.tuple tid = some hd) : ∃ hd', t.tuple tid = some hd' ∧ hd'.tXmin = hd.tXmin ∧
      hd'.heapOnly = hd.heapOnly ∧ (target ≠ some tid → hd' = hd) := by
  by_cases htarget : target = some tid
  · obtain ⟨hd₀,hd₁,h₀,h₁,hst⟩ := he.stamped tid htarget
    rw [hs] at h₀
    cases h₀
    exact ⟨hd₁,h₁,hst.tXmin,hst.heapOnly,fun h => absurd htarget h⟩
  · exact ⟨hd,by rw [he.kept tid htarget (he.ne_new hs),hs],rfl,rfl,fun _ => rfl⟩

theorem effect_stamped {stale : List ℕ} {stamps : Bool} (hm : s.manager.Inv)
    (hcan : s.CanPass xid op stale stamps) (hv : (s.gate xid tid op stale).1 = .ok .proceed) :
    Effect s (s.stampedBy xid cid tid op stale) xid cid (decide (op.request = .writer))
      (op.isHot tid) (some tid) (op.newPage.map s.newTid) := by
  obtain ⟨hd,hh⟩ := exists_of_gate (.inl hv)
  have he := @effect_apply (s.gated xid tid op stale) xid cid tid op hd hh
    (live_pos hm hcan.1) hcan.2.2.1
  exact { he with }

/-- One step: the manager moves, no tuple changes, or a call has its effect. -/
theorem step_effect {a : Heap.Step} (hm : s.manager.Inv) (hs : Heap.step s a = some t) :
    (∃ b, s.manager.step b = some t.manager ∧ t.pages = s.pages) ∨
    (t.manager = s.manager ∧ t.pages = s.pages) ∨
    ∃ xid cid writes hot target new, Effect s t xid cid writes hot target new ∧
      ∀ tid, target = some tid → ∃ x c op stale stamps, a = .pass x c tid op stale stamps := by
  cases a with
  | manager b =>
    obtain ⟨m,hb,rfl⟩ := Option.map_eq_some_iff.1 hs
    exact .inl ⟨b,hb,rfl⟩
  | extend page =>
    obtain ⟨-,rfl⟩ := of_guard hs
    exact .inr (.inl ⟨rfl,rfl⟩)
  | insert xid cid page =>
    obtain ⟨⟨-,hpage⟩,rfl⟩ := of_guard hs
    exact .inr (.inr ⟨xid,cid,true,false,none,_,effect_insert hpage,by rintro _ ⟨⟩⟩)
  | pass xid cid tid op stale stamps =>
    obtain ⟨hcan,⟨hv,-,rfl⟩ | ⟨-,locks,grants,rfl⟩⟩ := Heap.pass_cases hs
    · refine .inr (.inr ⟨xid,cid,_,_,some tid,_,effect_stamped hm hcan hv,fun tid' he => ?_⟩)
      cases he
      exact ⟨xid,cid,op,stale,stamps,rfl⟩
    · exact .inr (.inl ⟨rfl,rfl⟩)

theorem Effect.next_cases (he : Effect s t xid cid writes hot target new) {u v : Tid}
    (hn : t.Next u v) : s.Next u v ∨ (hot = true ∧ target = some u ∧ new = some v) := by
  obtain ⟨hd,hh,hup,rfl⟩ := hn
  obtain ⟨-,rfl⟩ | ⟨htarget,hd₀,h₀,hst⟩ | ⟨-,-,h₀⟩ := he.cases hh
  · exact absurd hup Bool.false_ne_true
  · rcases hst.link hup with ⟨hup₀,htid⟩ | ⟨hhot,hnew⟩
    · exact .inl ⟨hd₀,h₀,hup₀,htid.symm⟩
    · exact .inr ⟨hhot,htarget,hnew⟩
  · exact .inl ⟨hd,h₀,hup,rfl⟩

theorem Effect.new_last (he : Effect s t xid cid writes hot target new) (hhot : hot = true)
    {u v : Tid} (hu : target = some u) (hv : new = some v) :
    v.pageId = u.pageId ∧ u.slotId < v.slotId := by
  obtain ⟨u',v',hu',hv',hpage,-⟩ := he.linked hhot
  obtain rfl : u = u' := Option.some.inj (hu.symm.trans hu')
  obtain rfl : v = v' := Option.some.inj (hv.symm.trans hv')
  obtain ⟨hd,-,hh,-⟩ := he.stamped u hu
  have hslot := slot_lt hh
  rw [(he.fresh v hv).1,hpage]
  exact ⟨rfl,hslot⟩

theorem Effect.chained (he : Effect s t xid cid writes hot target new) (hi : s.Chained) :
    t.Chained := by
  refine ⟨fun u v hn => ?_,fun u v hn => ?_,fun u v hn => ?_⟩
  · rcases he.next_cases hn with hn | ⟨hhot,hu,hv⟩
    · exact hi.page u v hn
    · exact (he.new_last hhot hu hv).1
  · rcases he.next_cases hn with hn | ⟨hhot,hu,hv⟩
    · exact hi.slot u v hn
    · exact (he.new_last hhot hu hv).2
  · rcases he.next_cases hn with hn | ⟨hhot,-,hv⟩
    · obtain ⟨hd,hh,honly⟩ := hi.target u v hn
      obtain ⟨hd',hh',-,hsame,-⟩ := he.forward hh
      exact ⟨hd',hh',hsame.trans honly⟩
    · exact ⟨_,he.created v hv,hhot⟩

end Effects

def History.Alive (h : History) (x : ℕ) : Prop := h.heap.manager.getState x ≠ .aborted

instance (h : History) (x : ℕ) : Decidable (h.Alive x) := inferInstanceAs (Decidable (_ ≠ _))

def History.rowWrites (h : History) (r : Tid) : List Write :=
  h.writes.filter fun w => w.row = r ∧ h.Alive w.xid

/-- Each transaction has one snapshot, and a later snapshot has at least as much behind it. -/
structure Snapshots (h : History) : Prop where
  view : SnapshotIsolation.Inv h.view
  begun : ∀ p ∈ h.taken, p.1.currentXid < h.heap.manager.txnIdClock
  single : ∀ p ∈ h.taken, ∀ q ∈ h.taken, p.1.currentXid = q.1.currentXid → p = q
  done : ∀ p ∈ h.taken, ∀ x ∈ p.2, x ∈ h.completed
  later : ∀ p ∈ h.taken, ∀ q ∈ h.taken, p.1.currentXid ∈ q.2 → ∀ x ∈ p.2, x ∈ q.2

/-- Tuples, their headers and the writes behind them. -/
structure Versions (h : History) : Prop where
  relation : h.heap.relation.Nodup
  placed : ∀ tid hd, h.heap.tuple tid = some hd → tid.pageId ∈ h.heap.relation
  wellFormed : ∀ tid hd, h.heap.tuple tid = some hd → hd.WellFormed
  writer : ∀ w ∈ h.writes, w.xid ≠ TxnId.invalid ∧ w.xid < h.heap.manager.txnIdClock ∧
    w.cid ≤ h.command w.xid ∧ (h.heap.Live w.xid ∨
      h.heap.manager.getState w.xid = .committed ∨ h.heap.manager.getState w.xid = .aborted)
  rowExists : ∀ w ∈ h.writes, ∃ hd, h.heap.tuple w.row = some hd
  creator : ∀ tid hd, h.heap.tuple tid = some hd →
    ∃ w ∈ h.writes, w.new = some tid ∧ w.xid = hd.tXmin
  creates : ∀ w ∈ h.writes, ∀ tid, w.new = some tid →
    h.row tid = w.row ∧ ∃ hd, h.heap.tuple tid = some hd
  unique : ∀ w ∈ h.writes, ∀ w' ∈ h.writes, ∀ tid, w.new = some tid → w'.new = some tid → w = w'
  ended : ∀ w ∈ h.writes, ∀ tid, w.old = some tid → h.row tid = w.row ∧
    ∃ hd, h.heap.tuple tid = some hd ∧ (h.Alive w.xid → hd.visibilityXmax = w.xid)
  stamped : ∀ tid hd, h.heap.tuple tid = some hd → hd.visibilityXmax ≠ TxnId.invalid →
    ∃ w ∈ h.writes, w.old = some tid ∧ w.xid = hd.visibilityXmax
  command : ∀ tid hd, h.heap.tuple tid = some hd → ∀ x, h.heap.Live x →
    hd.tXmin = x ∨ hd.visibilityXmax = x → hd.tCid ≤ h.command x

/-- Links lead from the version that an update ended to the one it created. -/
structure Links (h : History) : Prop where
  chained : h.heap.Chained
  write : ∀ u v, h.heap.Next u v → ∃ w ∈ h.writes, w.old = some u ∧ w.new = some v
  next : ∀ w ∈ h.writes, ∀ v hd, w.new = some v → h.heap.tuple v = some hd → hd.heapOnly = true →
    h.Alive w.xid → ∃ u, w.old = some u ∧ h.heap.Next u v

/-- What a statement has scanned was there for its transaction, and its writes are recorded. -/
structure Calls (h : History) : Prop where
  scanned : ∀ x, ∀ tid ∈ h.scanned x, ∃ hd, h.heap.tuple tid = some hd ∧
    ∃ p ∈ h.taken, p.1.currentXid = x ∧ (hd.tXmin = x ∨ hd.tXmin ∈ p.2)
  written : ∀ w ∈ h.writes, ∀ tid, w.old = some tid → h.heap.Live w.xid →
    tid ∈ h.scanned w.xid → tid ∈ h.written w.xid

/-- The writes of a row follow each other, each one knowing the one before. -/
structure Chains (h : History) : Prop where
  linked : ∀ r, VersionChain.Linked Write.old Write.new (h.rowWrites r)
  ordered : ∀ r, (h.rowWrites r).IsChain fun a b =>
    a.xid = b.xid ∨ ∃ p ∈ h.taken, p.1.currentXid = b.xid ∧ a.xid ∈ p.2

structure Inv (h : History) : Prop where
  snapshots : Snapshots h
  versions : Versions h
  links : Links h
  calls : Calls h
  chains : Chains h

/-- A call that stamps or creates a version: its effect on the heap and what is recorded. -/
structure Call (h t : History) (xid : ℕ) (hot : Bool) (target new : Option Tid)
    (w : Option Write) : Prop where
  effect : Effect h.heap t.heap xid (h.command xid) w.isSome hot target new
  live : h.heap.Live xid
  scanned : ∀ tid, target = some tid → tid ∈ h.scanned xid
  free : ∀ tid, target = some tid → ∀ a ∈ h.writes, a.old = some tid → ¬h.Alive a.xid
  frame : t.completed = h.completed ∧ t.taken = h.taken ∧ t.command = h.command ∧
    t.scanned = h.scanned
  log : t.writes = h.writes ++ w.toList
  row : ∀ tid, new ≠ some tid → t.row tid = h.row tid
  newRow : ∀ a ∈ w, ∀ tid, new = some tid → t.row tid = a.row
  write : ∀ a ∈ w, a.xid = xid ∧ a.cid = h.command xid ∧ a.old = target ∧ a.new = new
  oldRow : ∀ a ∈ w, ∀ tid, target = some tid → a.row = h.row tid
  first : ∀ a ∈ w, target = none → new = some a.row
  lock : w = none → new = none
  kept : ∀ x, ∀ tid ∈ h.written x, tid ∈ t.written x
  written : ∀ a ∈ w, ∀ tid, target = some tid → tid ∈ t.written xid

namespace Call

variable {h t : History} {xid : ℕ} {hot : Bool} {target new : Option Tid} {w : Option Write}
  {tid : Tid} {hd : TupleHeader}

theorem live_iff (hc : Call h t xid hot target new w) (x : ℕ) : t.heap.Live x ↔ h.heap.Live x := by
  rw [Sys.Live,Sys.Live,hc.effect.manager]

theorem alive_iff (hc : Call h t xid hot target new w) (x : ℕ) : t.Alive x ↔ h.Alive x := by
  rw [History.Alive,History.Alive,hc.effect.manager]

theorem alive_xid (hc : Call h t xid hot target new w) : h.Alive xid := by
  rw [History.Alive,hc.live.2]
  nofun

theorem mem_writes (hc : Call h t xid hot target new w) {a : Write} :
    a ∈ t.writes ↔ a ∈ h.writes ∨ a ∈ w := by
  rw [hc.log,List.mem_append,Option.mem_toList,Option.mem_def]

theorem row_eq (hc : Call h t xid hot target new w) (ht : h.heap.tuple tid = some hd) :
    t.row tid = h.row tid := hc.row tid (hc.effect.ne_new ht)

theorem snapshots (hc : Call h t xid hot target new w) (hi : Snapshots h) : Snapshots t := by
  obtain ⟨hcomp,htaken,-,-⟩ := hc.frame
  have hview : t.view = h.view := by rw [History.view,History.view,hc.effect.manager,hcomp,htaken]
  refine ⟨hview ▸ hi.view,?_,?_,?_,?_⟩
  · rw [htaken,hc.effect.manager]
    exact hi.begun
  · rw [htaken]
    exact hi.single
  · rw [htaken,hcomp]
    exact hi.done
  · rw [htaken]
    exact hi.later

theorem target_xmin (hc : Call h t xid hot target new w) (hi : Calls h)
    (ht : target = some tid) (hh : h.heap.tuple tid = some hd) :
    ∃ p ∈ h.taken, p.1.currentXid = xid ∧ (hd.tXmin = xid ∨ hd.tXmin ∈ p.2) := by
  obtain ⟨hd',hh',hp⟩ := hi.scanned xid tid (hc.scanned tid ht)
  rw [hh] at hh'
  cases hh'
  exact hp

theorem target_live (hc : Call h t xid hot target new w) (hi : Calls h) (hs : Snapshots h)
    (ht : target = some tid) (hh : h.heap.tuple tid = some hd) (hlive : h.heap.Live hd.tXmin) :
    hd.tXmin = xid := by
  obtain ⟨p,hp,-,hx | hx⟩ := hc.target_xmin hi ht hh
  · exact hx
  · have hsee := ((hs.view.taken p.1 p.2 hp).done_iff hd.tXmin).1 hx
    have hst : h.heap.manager.getState hd.tXmin = .committed := hsee.2.2
    rw [hlive.2] at hst
    cases hst

variable {a b : Write}

theorem rowExists (hc : Call h t xid hot target new w) (hi : Versions h) (ha : a ∈ t.writes) :
    ∃ hd, t.heap.tuple a.row = some hd := by
  have hold : ∀ {r : Tid}, (∃ hd, h.heap.tuple r = some hd) → ∃ hd, t.heap.tuple r = some hd := by
    rintro r ⟨hd,hh⟩
    obtain ⟨hd',hh',-⟩ := hc.effect.forward hh
    exact ⟨hd',hh'⟩
  rcases hc.mem_writes.1 ha with ha | ha
  · exact hold (hi.rowExists a ha)
  · cases htarget : target with
    | none => exact ⟨_,hc.effect.created _ (hc.first a ha htarget)⟩
    | some tid =>
      obtain ⟨hd,-,hh,-⟩ := hc.effect.stamped tid htarget
      obtain ⟨b,hb,hbnew,-⟩ := hi.creator tid hd hh
      rw [hc.oldRow a ha tid htarget,(hi.creates b hb tid hbnew).1]
      exact hold (hi.rowExists b hb)

theorem creator (hc : Call h t xid hot target new w) (hi : Versions h)
    (ht : t.heap.tuple tid = some hd) :
    ∃ a ∈ t.writes, a.new = some tid ∧ a.xid = hd.tXmin := by
  obtain ⟨hnew,rfl⟩ | ⟨-,hd₀,h₀,hst⟩ | ⟨-,-,h₀⟩ := hc.effect.cases ht
  · cases hw : w with
    | none =>
      rw [hc.lock hw] at hnew
      cases hnew
    | some a =>
      obtain ⟨hx,-,-,hn⟩ := hc.write a hw
      exact ⟨a,hc.mem_writes.2 (.inr hw),hn.trans hnew,hx⟩
  · obtain ⟨b,hb,hbnew,hbx⟩ := hi.creator tid hd₀ h₀
    exact ⟨b,hc.mem_writes.2 (.inl hb),hbnew,hbx.trans hst.tXmin.symm⟩
  · obtain ⟨b,hb,hbnew,hbx⟩ := hi.creator tid hd h₀
    exact ⟨b,hc.mem_writes.2 (.inl hb),hbnew,hbx⟩

theorem creates (hc : Call h t xid hot target new w) (hi : Versions h) (ha : a ∈ t.writes)
    (hnew : a.new = some tid) :
    t.row tid = a.row ∧ ∃ hd, t.heap.tuple tid = some hd := by
  rcases hc.mem_writes.1 ha with ha | ha
  · obtain ⟨hrow,hd,hh⟩ := hi.creates a ha tid hnew
    obtain ⟨hd',hh',-⟩ := hc.effect.forward hh
    exact ⟨(hc.row_eq hh).trans hrow,hd',hh'⟩
  · have hn := (hc.write a ha).2.2.2.symm.trans hnew
    exact ⟨hc.newRow a ha tid hn,_,hc.effect.created tid hn⟩

theorem unique (hc : Call h t xid hot target new w) (hi : Versions h) (ha : a ∈ t.writes)
    (hb : b ∈ t.writes) (hanew : a.new = some tid) (hbnew : b.new = some tid) :
    a = b := by
  have hfresh : ∀ c ∈ h.writes, c.new = some tid → new ≠ some tid := fun c hc' hcnew => by
    obtain ⟨-,hd,hh⟩ := hi.creates c hc' tid hcnew
    exact hc.effect.ne_new hh
  rcases hc.mem_writes.1 ha with ha | ha
  · rcases hc.mem_writes.1 hb with hb | hb
    · exact hi.unique a ha b hb tid hanew hbnew
    · exact absurd ((hc.write b hb).2.2.2.symm.trans hbnew) (hfresh a ha hanew)
  · rcases hc.mem_writes.1 hb with hb | hb
    · exact absurd ((hc.write a ha).2.2.2.symm.trans hanew) (hfresh b hb hbnew)
    · exact Option.some.inj ((Option.mem_def.1 ha).symm.trans hb)

theorem ended (hc : Call h t xid hot target new w) (hi : Versions h) (ha : a ∈ t.writes)
    (hold : a.old = some tid) :
    t.row tid = a.row ∧
      ∃ hd, t.heap.tuple tid = some hd ∧ (t.Alive a.xid → hd.visibilityXmax = a.xid) := by
  rw [hc.alive_iff]
  rcases hc.mem_writes.1 ha with ha | ha
  · obtain ⟨hrow,hd,hh,hx⟩ := hi.ended a ha tid hold
    obtain ⟨hd',hh',-,-,hkept⟩ := hc.effect.forward hh
    refine ⟨(hc.row_eq hh).trans hrow,hd',hh',fun halive => ?_⟩
    by_cases htarget : target = some tid
    · exact absurd halive (hc.free tid htarget a ha hold)
    · rw [hkept htarget]
      exact hx halive
  · obtain ⟨hax,-,haold,-⟩ := hc.write a ha
    have htarget := haold.symm.trans hold
    obtain ⟨hd,hd',hh,hh',hst⟩ := hc.effect.stamped tid htarget
    refine ⟨(hc.row_eq hh).trans (hc.oldRow a ha tid htarget).symm,hd',hh',fun _ => ?_⟩
    have hlock : hd'.xmaxLockOnly = false := by
      rw [hst.lockOnly,Option.mem_def.1 ha]
      rfl
    rw [TupleHeader.visibilityXmax,hlock,hst.tXmax,hax]
    rfl

theorem stamped (hc : Call h t xid hot target new w) (hi : Versions h)
    (ht : t.heap.tuple tid = some hd) (hx : hd.visibilityXmax ≠ TxnId.invalid) :
    ∃ a ∈ t.writes, a.old = some tid ∧ a.xid = hd.visibilityXmax := by
  obtain ⟨-,rfl⟩ | ⟨htarget,hd₀,h₀,hst⟩ | ⟨-,-,h₀⟩ := hc.effect.cases ht
  · exact absurd rfl hx
  · cases hw : w with
    | none =>
      refine absurd ?_ hx
      rw [TupleHeader.visibilityXmax,hst.lockOnly,hw]
      rfl
    | some a =>
      obtain ⟨hax,-,haold,-⟩ := hc.write a hw
      refine ⟨a,hc.mem_writes.2 (.inr hw),haold.trans htarget,?_⟩
      rw [TupleHeader.visibilityXmax,hst.lockOnly,hw,hst.tXmax,hax]
      rfl
  · obtain ⟨b,hb,hbold,hbx⟩ := hi.stamped tid hd h₀ hx
    exact ⟨b,hc.mem_writes.2 (.inl hb),hbold,hbx⟩

theorem command (hc : Call h t xid hot target new w) (hi : Versions h) (hs : Snapshots h)
    (hcalls : Calls h) (ht : t.heap.tuple tid = some hd) {x : ℕ} (hlive : t.heap.Live x)
    (hx : hd.tXmin = x ∨ hd.visibilityXmax = x) :
    hd.tCid ≤ t.command x := by
  rw [hc.frame.2.2.1]
  rw [hc.live_iff] at hlive
  obtain ⟨-,rfl⟩ | ⟨htarget,hd₀,h₀,hst⟩ | ⟨-,-,h₀⟩ := hc.effect.cases ht
  · rcases hx with hx | hx
    · exact le_of_eq (congrArg h.command hx)
    · exact absurd hx.symm (live_pos hs.view.manager hlive)
  · have hx' : xid = x := by
      rcases hx with hx | hx
      · rw [hst.tXmin] at hx
        exact (hc.target_live hcalls hs htarget h₀ (hx.symm ▸ hlive)).symm.trans hx
      · have hreal := TupleHeader.real_of_visibilityXmax hx (live_pos hs.view.manager hlive)
        exact hst.tXmax.symm.trans hreal.2
    rw [hst.tCid,hx']
  · exact hi.command tid hd h₀ x hlive hx

theorem versions (hc : Call h t xid hot target new w) (hi : Versions h) (hs : Snapshots h)
    (hcalls : Calls h) : Versions t where
  relation := by
    rw [hc.effect.relation]
    exact hi.relation
  placed tid hd ht := by
    rw [hc.effect.relation]
    obtain ⟨hnew,-⟩ | ⟨-,hd₀,h₀,-⟩ | ⟨-,-,h₀⟩ := hc.effect.cases ht
    · exact (hc.effect.fresh tid hnew).2
    · exact hi.placed tid hd₀ h₀
    · exact hi.placed tid hd h₀
  wellFormed tid hd ht := by
    obtain ⟨-,rfl⟩ | ⟨-,_,-,hst⟩ | ⟨-,-,h₀⟩ := hc.effect.cases ht
    · exact wellFormed_new _ _ _
    · exact hst.wellFormed
    · exact hi.wellFormed tid hd h₀
  writer a ha := by
    rw [hc.frame.2.2.1,hc.effect.manager,hc.live_iff]
    rcases hc.mem_writes.1 ha with ha | ha
    · exact hi.writer a ha
    · obtain ⟨hx,hcid,-,-⟩ := hc.write a ha
      rw [hx,hcid]
      exact ⟨live_pos hs.view.manager hc.live,hs.view.manager.active_lt xid hc.live.1,le_rfl,
        .inl hc.live⟩
  rowExists _ := hc.rowExists hi
  creator _ _ := hc.creator hi
  creates _ ha _ := hc.creates hi ha
  unique _ ha _ hb _ := hc.unique hi ha hb
  ended _ ha _ := hc.ended hi ha
  stamped _ _ := hc.stamped hi
  command _ _ ht _ := hc.command hi hs hcalls ht

theorem links (hc : Call h t xid hot target new w) (hi : Links h) (hv : Versions h) :
    Links t where
  chained := hc.effect.chained hi.chained
  write u v hn := by
    rcases hc.effect.next_cases hn with hn | ⟨-,htarget,hnew⟩
    · obtain ⟨a,ha,hold,hanew⟩ := hi.write u v hn
      exact ⟨a,hc.mem_writes.2 (.inl ha),hold,hanew⟩
    · cases hw : w with
      | none =>
        rw [hc.lock hw] at hnew
        cases hnew
      | some a =>
        obtain ⟨-,-,hold,hanew⟩ := hc.write a hw
        exact ⟨a,hc.mem_writes.2 (.inr hw),hold.trans htarget,hanew.trans hnew⟩
  next a ha v hd hanew hh honly halive := by
    rw [hc.alive_iff] at halive
    rcases hc.mem_writes.1 ha with ha | ha
    · obtain ⟨-,hd₀,h₀⟩ := hv.creates a ha v hanew
      obtain ⟨hd',hh',-,hsame,-⟩ := hc.effect.forward h₀
      rw [hh] at hh'
      cases hh'
      obtain ⟨u,hold,hd₁,h₁,hup,htid⟩ := hi.next a ha v hd₀ hanew h₀ (hsame.symm.trans honly) halive
      have hne : target ≠ some u := fun htarget => hc.free u htarget a ha hold halive
      refine ⟨u,hold,hd₁,?_,hup,htid⟩
      rw [hc.effect.kept u hne (hc.effect.ne_new h₁),h₁]
    · obtain ⟨-,-,haold,han⟩ := hc.write a ha
      have hnew := han.symm.trans hanew
      rw [hc.effect.created v hnew] at hh
      cases hh
      obtain ⟨u,v',hu,hv',-,hn⟩ := hc.effect.linked honly
      obtain rfl : v = v' := Option.some.inj (hnew.symm.trans hv')
      exact ⟨u,haold.trans hu,hn⟩

theorem calls (hc : Call h t xid hot target new w) (hi : Calls h) : Calls t where
  scanned x tid hmem := by
    obtain ⟨-,htaken,-,hscan⟩ := hc.frame
    rw [hscan] at hmem
    rw [htaken]
    obtain ⟨hd,hh,p,hp,hpx,hx⟩ := hi.scanned x tid hmem
    obtain ⟨hd',hh',hmin,-⟩ := hc.effect.forward hh
    exact ⟨hd',hh',p,hp,hpx,by rwa [hmin]⟩
  written a ha tid hold hlive hmem := by
    rw [hc.live_iff] at hlive
    rw [hc.frame.2.2.2] at hmem
    rcases hc.mem_writes.1 ha with ha | ha
    · exact hc.kept _ tid (hi.written a ha tid hold hlive hmem)
    · obtain ⟨hx,-,haold,-⟩ := hc.write a ha
      rw [hx]
      exact hc.written a ha tid (haold.symm.trans hold)

theorem rowWrites_eq (hc : Call h t xid hot target new w) (r : Tid) :
    t.rowWrites r = h.rowWrites r ++ w.toList.filter fun a => a.row = r := by
  have halive : ∀ a ∈ w.toList, h.Alive a.xid := fun a ha => by
    rw [Option.mem_toList] at ha
    rw [(hc.write a ha).1]
    exact hc.alive_xid
  simp only [History.rowWrites,hc.log,List.filter_append,hc.alive_iff]
  congr 1
  refine List.filter_congr fun a ha => ?_
  simp only [halive a ha,and_true]

/-- The creator of the target is the last write of its row that counts. -/
theorem rowWrites_last (hc : Call h t xid hot target new w) (hi : Inv h)
    (ht : target = some tid) : ∃ hd a, h.heap.tuple tid = some hd ∧ a.xid = hd.tXmin ∧
      (h.rowWrites (h.row tid)).getLast? = some a ∧ a.new = some tid := by
  obtain ⟨hd,-,hh,-⟩ := hc.effect.stamped tid ht
  obtain ⟨a,ha,hanew,hax⟩ := hi.versions.creator tid hd hh
  have halive : h.Alive a.xid := by
    obtain ⟨p,hp,-,hx | hx⟩ := hc.target_xmin hi.calls ht hh
    · rw [hax,hx]
      exact hc.alive_xid
    · have hst : h.heap.manager.getState hd.tXmin = .committed :=
        (((hi.snapshots.view.taken p.1 p.2 hp).done_iff hd.tXmin).1 hx).2.2
      rw [History.Alive,hax,hst]
      nofun
  have hmine : a ∈ h.rowWrites (h.row tid) := List.mem_filter.2
    ⟨ha,decide_eq_true ⟨((hi.versions.creates a ha tid hanew).1).symm,halive⟩⟩
  have hlast : (h.rowWrites (h.row tid)).getLast?.bind Write.new = some tid := by
    rw [(hi.chains.linked _).getLast?_eq_some_iff]
    refine ⟨a,hmine,hanew,fun b hb hbold => ?_⟩
    obtain ⟨hb,hp⟩ := List.mem_filter.1 hb
    exact hc.free tid ht b hb hbold (of_decide_eq_true hp).2
  obtain ⟨b,hb,hbnew⟩ := Option.bind_eq_some_iff.1 hlast
  have hmem := (List.mem_filter.1 (List.mem_of_getLast? hb)).1
  rw [hi.versions.unique b hmem a ha tid hbnew hanew] at hb
  exact ⟨hd,a,hh,hax,hb,hanew⟩

theorem chains (hc : Call h t xid hot target new w) (hi : Inv h) : Chains t := by
  have hcases : ∀ r, t.rowWrites r = h.rowWrites r ∨
      ∃ a ∈ w, a.row = r ∧ t.rowWrites r = h.rowWrites r ++ [a] := by
    intro r
    rw [hc.rowWrites_eq]
    cases hw : w with
    | none => exact .inl (List.append_nil _)
    | some a =>
      by_cases hr : a.row = r
      · exact .inr ⟨a,rfl,hr,by simp [hr]⟩
      · exact .inl (by simp [hr])
  have hempty : ∀ a ∈ w, target = none → h.rowWrites a.row = [] := by
    intro a ha htarget
    refine List.filter_eq_nil_iff.2 fun b hb hp => ?_
    obtain ⟨hd,hh⟩ := hi.versions.rowExists b hb
    rw [(of_decide_eq_true hp).1] at hh
    exact hc.effect.ne_new hh (hc.first a ha htarget)
  refine ⟨fun r => ?_,fun r => ?_⟩
  · rcases hcases r with he | ⟨a,ha,rfl,he⟩
    · rw [he]
      exact hi.chains.linked r
    · rw [he]
      obtain ⟨-,-,haold,hanew⟩ := hc.write a ha
      cases htarget : target with
      | none =>
        rw [hempty a ha htarget]
        exact .single (haold.trans htarget)
      | some tid =>
        obtain ⟨-,b,-,-,hlast,hbnew⟩ := hc.rowWrites_last hi htarget
        rw [hc.oldRow a ha tid htarget]
        refine (hi.chains.linked _).concat (v := tid) (by rw [hlast]; exact hbnew)
          (haold.trans htarget) fun c hcm hne heq => ?_
        obtain ⟨v,hv⟩ := Option.ne_none_iff_exists'.1 hne
        obtain ⟨-,hd,hh⟩ := hi.versions.creates c (List.mem_filter.1 hcm).1 v hv
        exact hc.effect.ne_new hh (hanew.symm.trans (heq.symm.trans hv))
  · rw [hc.frame.2.1]
    rcases hcases r with he | ⟨a,ha,rfl,he⟩
    · rw [he]
      exact hi.chains.ordered r
    · rw [he]
      refine (hi.chains.ordered _).append (List.isChain_singleton a) fun b hb c hcm => ?_
      cases hcm
      obtain ⟨hax,-,-,-⟩ := hc.write a ha
      cases htarget : target with
      | none =>
        rw [hempty a ha htarget] at hb
        cases hb
      | some tid =>
        obtain ⟨hd,b',hh,hbx,hlast,-⟩ := hc.rowWrites_last hi htarget
        rw [hc.oldRow a ha tid htarget,hlast] at hb
        cases hb
        obtain ⟨p,hp,hpx,hx⟩ := hc.target_xmin hi.calls htarget hh
        rw [hax,hbx]
        exact hx.imp id fun hx => ⟨p,hp,hpx,hx⟩

/-- A call keeps the invariant. -/
theorem inv (hc : Call h t xid hot target new w) (hi : Inv h) : Inv t :=
  ⟨hc.snapshots hi.snapshots,hc.versions hi.versions hi.snapshots hi.calls,
    hc.links hi.links hi.versions,hc.calls hi.calls,hc.chains hi⟩

end Call

end HeapHistory
end PgAm
