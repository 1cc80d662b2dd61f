import PgAm.EngineRuns

/-! Lookups by index and scans of the table. Both read with a snapshot of their own that belongs
to no transaction. They agree unless the only entries of the rows in question have been removed
by transactions that are still active: entries go at once, rows when the remover commits. -/
namespace PgAm
namespace Engine

open Machine Heap
open HeapHistory (History Write Reads eq_ok_of_toOption)
open UndoLog (Op)
open Table

inductive LookupError
  | indexNotFound
  | keyTooLarge
  | heap (err : HeapError)
  deriving DecidableEq

/-- The version of an index entry that the snapshot shows. -/
def heapTupleVisible (s : Sys) (snap : Snapshot) (tid : Tid) : Except HeapError (Option Tid) :=
  match s.tuple tid with
  | none => .ok none
  | some h =>
    if h.visible snap s.manager.getState then .ok (some tid)
    else if h.hotUpdated ∧ h.tCtid ≠ tid then
      s.follow snap tid.pageId (s.slotCount tid.pageId) h.tCtid
    else .ok none

def firstVisible (s : Sys) (snap : Snapshot) : List Tid → Except HeapError (Option Tid)
  | [] => .ok none
  | tid :: tids =>
    match heapTupleVisible s snap tid with
    | .error err => .error err
    | .ok (some v) => .ok (some v)
    | .ok none => firstVisible s snap tids

namespace Table

variable {K : Type} [DecidableEq K]

def freshSnapshot (e : Table K) : Snapshot :=
  (e.history.heap.manager.snapshot TxnId.invalid).advanceCurcid

def lookupAll (e : Table K) (column : ℕ) (key : K) : List Tid :=
  ((e.index.filter fun a => a.column = column ∧ a.key = key).map Entry.tid).insertionSort (· ≤ ·)

def indexLookup (schema : Schema K) (e : Table K) (column : ℕ) (key : K) :
    Except LookupError (Option Tid) :=
  if column ∉ schema.columns then .error .indexNotFound
  else if schema.fits key = false then .error .keyTooLarge
  else match firstVisible e.history.heap e.freshSnapshot (e.lookupAll column key) with
    | .ok found => .ok found
    | .error err => .error (.heap err)

def scanEq (e : Table K) (column : ℕ) (key : K) : Except HeapError (List Tid) :=
  (e.history.heap.scan e.freshSnapshot).map fun rows =>
    rows.filter fun v => (e.values v)[column]?.join = some key

/-- The lookup finds something if and only if the scan does, and then one of its rows. -/
def Agrees (schema : Schema K) (e : Table K) (column : ℕ) (key : K) : Prop :=
  ∃ rows, e.scanEq column key = .ok rows ∧
    ((∃ v, e.indexLookup schema column key = .ok (some v)) ↔ rows ≠ []) ∧
    ∀ v, e.indexLookup schema column key = .ok (some v) → v ∈ rows

/-- A transaction that is still active has removed the entry. -/
def Removed (e : Table K) (a : Entry K) : Prop :=
  ∃ x ∈ e.history.heap.manager.active, (x,.deleted a) ∈ e.applied

instance (e : Table K) (a : Entry K) : Decidable (e.Removed a) :=
  inferInstanceAs (Decidable (∃ x ∈ _, _))

end Table

section Fresh

variable {h : History}

def seesCompleted (m : Manager) (x : ℕ) : Bool :=
  x < m.txnIdClock ∧ x ∉ m.active ∧ m.getState x = .committed

theorem sees_fresh {m : Manager} {x : ℕ} :
    (m.snapshot TxnId.invalid).advanceCurcid.Sees m.getState x ↔ seesCompleted m x = true := by
  rw [seesCompleted,decide_eq_true_eq]
  change x < m.txnIdClock ∧ x ∉ (m.snapshot TxnId.invalid).xip ∧ _ ↔ _
  rw [Manager.mem_snapshot_xip]

theorem reads_of_sees (hi : HeapHistory.Inv h) {snap : Snapshot} {sees : ℕ → Bool}
    (hown : snap.currentXid = TxnId.invalid)
    (hsees : ∀ x, snap.Sees h.heap.manager.getState x ↔ sees x = true)
    (hdone : ∀ x ∈ h.completed, sees x = true) : Reads h snap sees where
  visible tid hd hh := by
    obtain ⟨w,hw,-,hwx⟩ := hi.versions.creator tid hd hh
    exact HeapHistory.visible_iff_sees hown hsees (hwx ▸ (hi.versions.writer w hw).1)
  alive w _ hs := by
    rw [HeapHistory.History.Alive,((hsees _).2 hs).2.2]
    rintro ⟨⟩
  before p hp _ x hx := hdone x (hi.snapshots.done p hp x hx)

theorem reads_fresh (hi : HeapHistory.Inv h) :
    Reads h (h.heap.manager.snapshot TxnId.invalid).advanceCurcid
      (seesCompleted h.heap.manager) := by
  refine reads_of_sees hi rfl (fun _ => sees_fresh) fun x hx => ?_
  have hc := (hi.snapshots.view.completed x).1 hx
  exact decide_eq_true ⟨hc.1.1,hc.1.2,hc.2⟩

end Fresh

section Lookup

variable {s : Sys} {snap : Snapshot} {tids : List Tid}

theorem heapTupleVisible_eq (hc : s.Chained) {tid : Tid} (hroot : s.IsRoot tid) :
    heapTupleVisible s snap tid = .ok (s.found snap tid) := by
  obtain ⟨hd,hh,honly⟩ := hroot
  have hslot := (@scanSlot_spec s snap hc tid).1
  rw [← hslot,Sys.scanTid,scanSlot]
  simp only [heapTupleVisible,Sys.follow,hh,honly,Bool.false_eq_true,if_false]

theorem firstVisible_spec (hc : s.Chained) (hroots : ∀ tid ∈ tids, s.IsRoot tid) :
    ∃ r, firstVisible s snap tids = .ok r ∧
      (∀ v, r = some v → ∃ tid ∈ tids, s.found snap tid = some v) ∧
      (r = none → ∀ tid ∈ tids, s.found snap tid = none) := by
  induction tids with
  | nil => exact ⟨none,rfl,nofun,nofun⟩
  | cons tid tids ih =>
    obtain ⟨r,hr,hsome,hnone⟩ := ih fun t ht => hroots t (List.mem_cons_of_mem _ ht)
    rw [firstVisible,heapTupleVisible_eq hc (hroots tid List.mem_cons_self)]
    cases hf : s.found snap tid with
    | some v =>
      refine ⟨some v,rfl,fun v' hv => ?_,nofun⟩
      cases hv
      exact ⟨tid,List.mem_cons_self,hf⟩
    | none =>
      refine ⟨r,hr,fun v hv => ?_,fun h => List.forall_mem_cons.2 ⟨hf,hnone h⟩⟩
      obtain ⟨t,ht,hfound⟩ := hsome v hv
      exact ⟨t,List.mem_cons_of_mem _ ht,hfound⟩

end Lookup

variable {K : Type} {schema : Schema K} {e : Table K} {c : ℕ} {k : K} {u v : Tid}

theorem Inv.reads (hi : Inv schema e) :
    Reads e.history e.freshSnapshot (seesCompleted e.history.heap.manager) := reads_fresh hi.history

section Shown

variable {snap : Snapshot} {sees : ℕ → Bool}

theorem Inv.entry_of_shown (hi : Inv schema e) (hr : Reads e.history snap sees)
    (hcomm : ∀ x, sees x = true → e.Committed x) (hv : e.history.heap.Shows snap v)
    (hc : c ∈ schema.columns) (hk : (e.values v)[c]?.join = some k) :
    ∃ x, (x,.inserted ⟨c,k,e.root v⟩) ∈ e.applied := by
  obtain ⟨a,ha,hsa,hanew,-⟩ := (hr.newest_iff hi.history _ v).1 ((hr.shows_iff hi.history v).1 hv)
  obtain ⟨⟨hd,hh,honly⟩,hreach⟩ := hi.roots.root_reaches hi.history ha hanew
  obtain ⟨b,hb,hbnew,hbx⟩ := hi.root_known ha hanew (.inr (hcomm _ hsa))
  have hcommb : e.Committed b.xid := hbx.elim (fun h => h ▸ hcomm _ hsa) id
  have hval : (e.values (e.root v))[c]?.join = some k := by
    rw [← (hi.roots.reach hi.history hreach).2 c hc]
    exact hk
  have hentry : entryOf (e.values (e.root v)) (e.root v) c = some ⟨c,k,e.root v⟩ :=
    Option.map_eq_some_iff.2 ⟨k,hval,rfl⟩
  rcases hi.complete b hb (.inl hcommb) _ hd hbnew hh honly c hc _ hentry with hdone | hpend
  · exact ⟨b.xid,hdone⟩
  · have hlive := (hi.pending b.xid _ hpend).2
    exact absurd (hlive.2.symm.trans hcommb) nofun

/-- Whoever has removed the entry of a visible version is not seen. -/
theorem Inv.unseen_of_deleted (hi : Inv schema e) (hr : Reads e.history snap sees)
    (hv : e.history.heap.Shows snap v) {x : ℕ} {a : Entry K} (htid : a.tid = e.root v)
    (hx : (x,.deleted a) ∈ e.applied) : ¬sees x = true := by
  intro hsw
  obtain ⟨b,hb,hsb,hbnew,hfree⟩ :=
    (hr.newest_iff hi.history _ v).1 ((hr.shows_iff hi.history v).1 hv)
  obtain ⟨⟨w,hw,rfl,u,hcl,-,hentry⟩,-⟩ := hi.applied x _ hx
  have hru : e.root v = e.root u := htid.symm.trans (entryOf_eq hentry).2
  obtain ⟨hwrow,d,hd,hdu,-⟩ := created_of_ended hi.history hw (hr.alive w hw hsw) hcl.1
  have hrow : e.history.row u = e.history.row v := by
    rw [hi.history.row_reach (hi.roots.root_reaches hi.history hd hdu).2,← hru,
      hi.history.row_reach (hi.roots.root_reaches hi.history hb hbnew).2]
  rw [hrow] at hwrow
  have hprefix := VersionChain.filter_isPrefix (hr.seen_before hi.history (e.history.row v))
  have hlinked := (hi.history.chains.linked (e.history.row v)).of_isPrefix hprefix
  obtain ⟨z,hz,hzv⟩ := hlinked.ended_of_closed (fun w hw => hi.roots.rooted hi.history
    (List.mem_filter.1 (List.mem_filter.1 hw).1).1) (List.mem_filter.2 ⟨hb,hsb⟩) hbnew
    (List.mem_filter.2 ⟨hwrow,hsw⟩) hcl.1 hcl.2 hru
  obtain ⟨hz,hsz⟩ := List.mem_filter.1 hz
  exact hfree z hz hsz hzv

end Shown

/-- The entry of a visible version goes away only by a transaction that is still active. -/
theorem Inv.mem_index_of_shown (hi : Inv schema e)
    (hv : e.history.heap.Shows e.freshSnapshot v)
    (hc : c ∈ schema.columns) (hk : (e.values v)[c]?.join = some k)
    (hnot : ¬e.Removed ⟨c,k,e.root v⟩) : ⟨c,k,e.root v⟩ ∈ e.index := by
  refine (hi.log.mem _).2
    ⟨hi.entry_of_shown hi.reads (fun _ hs => (of_decide_eq_true hs).2.2) hv hc hk,fun x hx => ?_⟩
  have hact : x ∉ e.history.heap.manager.active := fun hact => hnot ⟨x,hact,hx⟩
  obtain ⟨⟨w,hw,rfl,-⟩,hst⟩ := hi.applied x _ hx
  have hcomm : e.Committed w.xid := hst.resolve_left fun hl => hact hl.1
  exact hi.unseen_of_deleted hi.reads hv rfl hx
    (decide_eq_true ⟨(hi.history.versions.writer w hw).2.1,hact,hcomm⟩)

theorem Inv.of_mem_index (hi : Inv schema e) (hmem : ⟨c,k,u⟩ ∈ e.index) :
    e.history.heap.IsRoot u ∧ (e.values u)[c]?.join = some k := by
  obtain ⟨⟨x,hx⟩,-⟩ := (hi.log.mem _).1 hmem
  obtain ⟨⟨-,hentry,hd,hh,honly,-⟩,-⟩ := hi.applied x _ hx
  obtain ⟨k',hk,he⟩ := Option.map_eq_some_iff.1 hentry
  cases he
  exact ⟨⟨hd,hh,honly⟩,hk⟩

theorem Inv.found_entry (hi : Inv schema e) (hc : c ∈ schema.columns) (hmem : ⟨c,k,u⟩ ∈ e.index)
    (hf : e.history.heap.found e.freshSnapshot u = some v) :
    e.history.heap.Shows e.freshSnapshot v ∧ (e.values v)[c]?.join = some k ∧ e.root v = u := by
  obtain ⟨hv,⟨hd,hh,honly⟩,hreach⟩ := (scanSlot_spec hi.history.links.chained u).2.1 v hf
  obtain ⟨hroot,hval⟩ := hi.roots.reach hi.history hreach
  refine ⟨hv,?_,by rw [hroot,hi.roots.own u hd hh honly]⟩
  rw [hval c hc]
  exact (hi.of_mem_index hmem).2

section Agreement

variable [DecidableEq K]

theorem mem_lookupAll : u ∈ e.lookupAll c k ↔ ⟨c,k,u⟩ ∈ e.index := by
  rw [Table.lookupAll,List.mem_insertionSort,List.mem_map]
  constructor
  · rintro ⟨⟨c',k',t⟩,ha,rfl⟩
    obtain ⟨hmem,hp⟩ := List.mem_filter.1 ha
    obtain ⟨rfl,rfl⟩ := of_decide_eq_true hp
    exact hmem
  · intro hmem
    exact ⟨_,List.mem_filter.2 ⟨hmem,decide_eq_true ⟨rfl,rfl⟩⟩,rfl⟩

theorem Inv.scanEq_eq (hi : Inv schema e) : ∃ rows, e.scanEq c k = .ok rows ∧
    ∀ v, v ∈ rows ↔ e.history.heap.Shows e.freshSnapshot v ∧ (e.values v)[c]?.join = some k := by
  refine ⟨_,by rw [Table.scanEq,scan_eq hi.history.links.chained]; rfl,fun v => ?_⟩
  rw [List.mem_filter,hi.reads.mem_scan_iff hi.history,← hi.reads.shows_iff hi.history,
    decide_eq_true_eq]

theorem Inv.indexLookup_eq (hi : Inv schema e) (hc : c ∈ schema.columns)
    (hfits : schema.fits k = true) : ∃ r, e.indexLookup schema c k = .ok r ∧
      (∀ v, r = some v → ∃ u, ⟨c,k,u⟩ ∈ e.index ∧ e.history.heap.found e.freshSnapshot u = some v) ∧
      (r = none → ∀ u, ⟨c,k,u⟩ ∈ e.index → e.history.heap.found e.freshSnapshot u = none) := by
  have hroots : ∀ u ∈ e.lookupAll c k, e.history.heap.IsRoot u := fun u hu =>
    (hi.of_mem_index (mem_lookupAll.1 hu)).1
  obtain ⟨r,hr,hsome,hnone⟩ :=
    @firstVisible_spec _ e.freshSnapshot _ hi.history.links.chained hroots
  refine ⟨r,?_,fun v hv => ?_,fun h u hu => hnone h u (mem_lookupAll.2 hu)⟩
  · rw [Table.indexLookup,if_neg (not_not.2 hc),hfits,if_neg Bool.true_eq_false.mp,hr]
  · obtain ⟨u,hu,hf⟩ := hsome v hv
    exact ⟨u,mem_lookupAll.1 hu,hf⟩

/-- Lookup and scan agree if and only if the scan returns nothing or some row of it has an entry
that no active transaction has removed. -/
theorem lookup_agrees_iff (hr : Reach (step schema) Start NoFailedCommit e)
    (hc : c ∈ schema.columns) (k : K) :
    e.Agrees schema c k ↔ ∃ rows, e.scanEq c k = .ok rows ∧
      (rows ≠ [] → ∃ v ∈ rows, ∃ r, e.history.heap.hotChainRoot v = .ok r ∧
        ¬e.Removed ⟨c,k,r⟩) := by
  have hi := reach_inv hr
  obtain ⟨rows,hrows,hmem⟩ := @Inv.scanEq_eq _ schema e c k _ hi
  have hroot : ∀ v ∈ rows, e.history.heap.hotChainRoot v = .ok (e.root v) := fun v hv => by
    obtain ⟨a,ha,-,hanew,-⟩ :=
      (hi.reads.newest_iff hi.history _ v).1 ((hi.reads.shows_iff hi.history v).1 ((hmem v).1 hv).1)
    exact hi.roots.hotChainRoot_eq hi.history ha hanew
  have hsize : rows ≠ [] → schema.fits k = true := fun hne => by
    obtain ⟨v,hv⟩ := List.exists_mem_of_ne_nil rows hne
    obtain ⟨x,hx⟩ := hi.entry_of_shown hi.reads (fun _ hs => (of_decide_eq_true hs).2.2)
      ((hmem v).1 hv).1 hc ((hmem v).1 hv).2
    exact hi.fits x _ hx
  have hfound : ∀ v, e.indexLookup schema c k = .ok (some v) →
      v ∈ rows ∧ ⟨c,k,e.root v⟩ ∈ e.index := fun v hv => by
    have hfits : schema.fits k = true := by
      by_contra hfits
      rw [Table.indexLookup,if_neg (not_not.2 hc),if_pos (Bool.not_eq_true _ ▸ hfits)] at hv
      cases hv
    obtain ⟨r,hr,hsome,-⟩ := hi.indexLookup_eq hc hfits
    rw [hv] at hr
    obtain ⟨u,hu,hf⟩ := hsome v (Except.ok.inj hr).symm
    obtain ⟨hshows,hval,hru⟩ := hi.found_entry hc hu hf
    exact ⟨(hmem v).2 ⟨hshows,hval⟩,hru ▸ hu⟩
  constructor
  · rintro ⟨rows',hrows',hiff,-⟩
    rw [hrows] at hrows'
    cases hrows'
    refine ⟨rows,hrows,fun hne => ?_⟩
    obtain ⟨v,hv⟩ := hiff.2 hne
    obtain ⟨hvr,hin⟩ := hfound v hv
    exact ⟨v,hvr,e.root v,hroot v hvr,fun ⟨x,_,hx⟩ => ((hi.log.mem _).1 hin).2 x hx⟩
  · rintro ⟨rows',hrows',hcond⟩
    rw [hrows] at hrows'
    cases hrows'
    refine ⟨rows,hrows,⟨fun ⟨v,hv⟩ => List.ne_nil_of_mem (hfound v hv).1,fun hne => ?_⟩,
      fun v hv => (hfound v hv).1⟩
    obtain ⟨v,hv,r,hvr,hnot⟩ := hcond hne
    rw [hroot v hv] at hvr
    cases hvr
    obtain ⟨hshows,hval⟩ := (hmem v).1 hv
    have hin := hi.mem_index_of_shown hshows hc hval hnot
    obtain ⟨r,hr,-,hnone⟩ := hi.indexLookup_eq hc (hsize hne)
    cases r with
    | some v' => exact ⟨v',hr⟩
    | none =>
      obtain ⟨a,ha,-,hanew,-⟩ :=
        (hi.reads.newest_iff hi.history _ v).1 ((hi.reads.shows_iff hi.history v).1 hshows)
      obtain ⟨hisroot,hreach⟩ := hi.roots.root_reaches hi.history ha hanew
      have hf := hi.reads.found_root hi.history hshows hisroot hreach
      rw [hnone rfl _ hin] at hf
      cases hf

end Agreement

def oneIndex : Schema ℕ := ⟨[0],List.nodup_singleton 0,fun _ => true⟩

def fresh : Table ℕ := ⟨HeapHistory.fresh,fun _ => [],[],[],fun _ => [],[],[],id⟩

theorem fresh_start : Start fresh :=
  ⟨HeapHistory.fresh_start,rfl,rfl,fun _ => rfl,rfl,rfl⟩

/-- Transaction 1 inserts rows with the key 7 and commits, transaction 2 begins a statement. -/
def insertedRows (n : ℕ) : List (Step ℕ) :=
  [.act (.manager .beginTxn),.act (.extend 1),.act (.take 1),.act (.statement 1)] ++
    (List.replicate n [.insert 1 1 [some 7],.maintain 1]).flatten ++
    [.commit 1,.act (.manager (.leaveActive 1)),.act (.manager .beginTxn),.act (.take 2),
      .act (.statement 2)]

/-- Transaction 2 deletes the first row and stays open. -/
def deletedFirst : List (Step ℕ) := [.delete 2 ⟨1,0⟩ [] true,.maintain 2]

/-- The only row with the key is deleted by an open transaction. -/
theorem lookup_misses_row :
    ∃ e, Reach (step oneIndex) Start NoFailedCommit e ∧
      (∀ x ∈ e.history.heap.manager.active, e.Idle x ∧ e.history.heap.Live x) ∧
      e.scanEq 0 7 = .ok [⟨1,0⟩] ∧ e.indexLookup oneIndex 0 7 = .ok none := by
  have hrun : ∃ e, Reach (step oneIndex) Start NoFailedCommit e ∧
      decide ((∀ x ∈ e.history.heap.manager.active, e.Idle x ∧ e.history.heap.Live x) ∧
        (e.scanEq 0 7).toOption = some [⟨1,0⟩] ∧
        (e.indexLookup oneIndex 0 7).toOption = some none) = true :=
    @exists_reach _ _ (step oneIndex) Start NoFailedCommit _ fresh fresh_start
      (insertedRows 1 ++ deletedFirst) _ (by decide +kernel)
  obtain ⟨e,hr,he⟩ := hrun
  obtain ⟨hidle,hscan,hlookup⟩ := of_decide_eq_true he
  exact ⟨e,hr,hidle,eq_ok_of_toOption hscan,eq_ok_of_toOption hlookup⟩

/-- With a second row of that key, lookup and scan agree while the deleter of the first is open. -/
theorem lookup_agrees_second_row :
    ∃ e, Reach (step oneIndex) Start NoFailedCommit e ∧ e.history.heap.Live 2 ∧
      e.Removed ⟨0,7,⟨1,0⟩⟩ ∧ e.scanEq 0 7 = .ok [⟨1,0⟩,⟨1,1⟩] ∧ e.Agrees oneIndex 0 7 := by
  have hrun : ∃ e, Reach (step oneIndex) Start NoFailedCommit e ∧
      decide (e.history.heap.Live 2 ∧ e.Removed ⟨0,7,⟨1,0⟩⟩ ∧
        (e.scanEq 0 7).toOption = some [⟨1,0⟩,⟨1,1⟩] ∧
        (e.history.heap.hotChainRoot ⟨1,1⟩).toOption = some ⟨1,1⟩ ∧
        ¬e.Removed ⟨0,7,⟨1,1⟩⟩) = true :=
    @exists_reach _ _ (step oneIndex) Start NoFailedCommit _ fresh fresh_start
      (insertedRows 2 ++ deletedFirst) _ (by decide +kernel)
  obtain ⟨e,hr,he⟩ := hrun
  obtain ⟨hlive,hrem,hscan,hroot,hnot⟩ := of_decide_eq_true he
  refine ⟨e,hr,hlive,hrem,eq_ok_of_toOption hscan,
    (lookup_agrees_iff hr (List.mem_singleton.2 rfl) 7).2
      ⟨_,eq_ok_of_toOption hscan,fun _ => ⟨⟨1,1⟩,List.mem_cons_of_mem _ List.mem_cons_self,⟨1,1⟩,
        eq_ok_of_toOption hroot,hnot⟩⟩⟩

end Engine
end PgAm
