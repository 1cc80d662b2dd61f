import PgAm.EngineRedo

/-! Opening the engine after a crash gives every visible row its index entries, also if a
transaction without an outcome had removed them, and opening it once more changes no entry. -/
namespace PgAm
namespace EngineLog

open Machine Heap Function
open Engine (Entry Schema Table oneIndex)
open HeapHistory (History Write)
open UndoLog (Op)
open RecordStream (Item Contiguous stop)

variable {K : Type} {schema : Schema K} {cfg : Config K} {d : Disk K} {e : Table K}
  {r r' : Restored K} {l₁ l₂ tail : List (Item (Record K))} {rs : List (Record K)} {xs : List ℕ}

section Appended

variable [DecidableEq K]

def Appends (rec : Record K) : Prop := rec = .page ∨ ∃ a, rec = .index (.inserted a)

theorem foldlM_appends (h : ∀ rec ∈ rs, Appends rec) : ∃ index,
    rs.foldlM Restored.redo r = some { r with index := index } ∧
      ∀ a, a ∈ index ↔ a ∈ r.index ∨ .index (.inserted a) ∈ rs := by
  induction rs generalizing r with
  | nil => exact ⟨r.index,rfl,fun a => (or_iff_left List.not_mem_nil).symm⟩
  | cons rec rs ih =>
    obtain ⟨hrec,hrs⟩ := List.forall_mem_cons.1 h
    rcases hrec with rfl | ⟨b,rfl⟩
    · obtain ⟨index,hi,hmem⟩ := @ih r hrs
      refine ⟨index,hi,fun a => (hmem a).trans (or_congr_right ?_)⟩
      exact ⟨List.mem_cons_of_mem _,fun ha => (List.mem_cons.1 ha).resolve_left nofun⟩
    · obtain ⟨index,hi,hmem⟩ := @ih { r with index := (Op.inserted b).run r.index } hrs
      refine ⟨index,hi,fun a => ?_⟩
      rw [hmem a,UndoLog.mem_run_inserted,List.mem_cons,Record.index.injEq,Op.inserted.injEq]
      exact ⟨fun h => h.elim (·.elim (.inr ∘ .inl) .inl) (.inr ∘ .inr),
        fun h => h.elim (.inl ∘ .inr) (·.elim (.inl ∘ .inl) .inr)⟩

end Appended

section Compensation

variable [DecidableEq K] {acc acc' : List (Entry K) × List (Op (Entry K))}

structure Put (acc acc' : List (Entry K) × List (Op (Entry K))) (p : Entry K → Prop) : Prop where
  mem : ∀ a, a ∈ acc'.1 ↔ a ∈ acc.1 ∨ p a
  ops : ∀ op ∈ acc'.2, op ∈ acc.2 ∨ ∃ a, op = .inserted a ∧ p a
  logged : ∀ a ∈ acc'.1, a ∈ acc.1 ∨ .inserted a ∈ acc'.2
  kept : ∀ op ∈ acc.2, op ∈ acc'.2

omit [DecidableEq K] in
theorem Put.refl {p : Entry K → Prop} (h : ∀ a, p a → a ∈ acc.1) : Put acc acc p :=
  ⟨fun a => (or_iff_left_of_imp (h a)).symm,fun _ => .inl,fun _ => .inl,fun _ => id⟩

omit [DecidableEq K] in
theorem put_foldlM {α : Type} {f : List (Entry K) × List (Op (Entry K)) → α →
    Option (List (Entry K) × List (Op (Entry K)))} {p : α → Entry K → Prop} {l : List α}
    (h : ∀ x ∈ l, ∀ acc, ∃ acc', f acc x = some acc' ∧ Put acc acc' (p x))
    (acc : List (Entry K) × List (Op (Entry K))) :
    ∃ acc', l.foldlM f acc = some acc' ∧ Put acc acc' fun a => ∃ x ∈ l, p x a := by
  induction l generalizing acc with
  | nil =>
    refine ⟨acc,rfl,.refl ?_⟩
    rintro a ⟨x,hx,-⟩
    cases hx
  | cons x l ih =>
    obtain ⟨hx,hl⟩ := List.forall_mem_cons.1 h
    obtain ⟨acc₁,h₁,hput₁⟩ := hx acc
    obtain ⟨acc₂,h₂,hput₂⟩ := ih hl acc₁
    refine ⟨acc₂,?_,fun a => ?_,fun op hop => ?_,fun a ha => ?_,fun op hop =>
      hput₂.kept op (hput₁.kept op hop)⟩
    · rw [List.foldlM_cons,h₁]
      exact h₂
    · rw [hput₂.mem,hput₁.mem,or_assoc,List.exists_mem_cons_iff]
    · rcases hput₂.ops op hop with hop | ⟨a,ha,y,hy,hp⟩
      · exact (hput₁.ops op hop).imp id fun ⟨a,ha,hp⟩ => ⟨a,ha,x,List.mem_cons_self,hp⟩
      · exact .inr ⟨a,ha,y,List.mem_cons_of_mem _ hy,hp⟩
    · rcases hput₂.logged a ha with ha | ha
      · exact (hput₁.logged a ha).imp id (hput₂.kept _)
      · exact .inr ha

theorem restoreEntry_put {values : List (Option K)} {indexTid : Tid} {c : ℕ}
    (hfits : ∀ a, Table.entryOf values indexTid c = some a → schema.fits a.key = true)
    (acc : List (Entry K) × List (Op (Entry K))) :
    ∃ acc', restoreEntry schema values indexTid acc c = some acc' ∧
      Put acc acc' fun a => Table.entryOf values indexTid c = some a := by
  unfold restoreEntry
  cases ha : Table.entryOf values indexTid c with
  | none => exact ⟨acc,rfl,.refl nofun⟩
  | some b =>
    simp only [if_pos (hfits b ha)]
    by_cases hb : b ∈ acc.1
    · refine ⟨acc,if_pos hb,.refl ?_⟩
      rintro _ ⟨⟩
      exact hb
    · refine ⟨_,if_neg hb,fun a => ?_,fun op hop => ?_,fun a ha => ?_,fun op =>
        List.mem_append_left _⟩
      · rw [UndoLog.mem_run_inserted,Option.some.injEq,or_comm,eq_comm (a := b)]
      · refine (List.mem_append.1 hop).imp id fun hop => ⟨b,List.mem_singleton.1 hop,rfl⟩
      · rcases UndoLog.mem_run_inserted.1 ha with rfl | ha
        · exact .inr (List.mem_append_right _ List.mem_cons_self)
        · exact .inl ha

theorem restoreEntries_put {tid root : Tid} (hpage : tid.pageId ∈ r.heap.relation)
    {hd : TupleHeader} (hh : r.heap.tuple tid = some hd)
    (hroot : r.heap.hotChainRoot tid = .ok root)
    (hfits : ∀ c ∈ schema.columns, ∀ a, Table.entryOf (r.values tid) root c = some a →
      schema.fits a.key = true) (acc : List (Entry K) × List (Op (Entry K))) :
    ∃ acc', restoreEntries schema r acc tid = some acc' ∧
      Put acc acc' fun a => ∃ c ∈ schema.columns, Table.entryOf (r.values tid) root c = some a := by
  by_cases hcols : schema.columns = []
  · refine ⟨acc,if_pos (.inr hcols),.refl ?_⟩
    rw [hcols]
    rintro a ⟨c,hc,-⟩
    cases hc
  · have hnot : ¬(tid.pageId ∉ r.heap.relation ∨ schema.columns = []) :=
      fun h => h.elim (· hpage) hcols
    obtain ⟨acc',hfold,hput⟩ := put_foldlM (fun c hc => restoreEntry_put (hfits c hc)) acc
    refine ⟨acc',?_,hput⟩
    rw [restoreEntries,if_neg hnot,hh,hroot]
    exact hfold

end Compensation

section Heap

variable {u v : Tid}

/-- A header after redo: its `t_xmax` is that of a committed writer if there is one. -/
structure Survives (e : Table K) (tid : Tid) (hd hd' : TupleHeader) : Prop where
  tXmin : hd'.tXmin = hd.tXmin
  heapOnly : hd'.heapOnly = hd.heapOnly
  hotUpdated : hd'.hotUpdated = hd.hotUpdated
  tCtid : hd'.tCtid = hd.tCtid
  ended : ∀ w ∈ e.history.writes, w.old = some tid → e.Committed w.xid →
    hd'.visibilityXmax = w.xid

structure Resembles (e : Table K) (r : Restored K) : Prop where
  relation : r.heap.relation = e.history.heap.relation
  tuple : ∀ tid hd, e.history.heap.tuple tid = some hd →
    ∃ hd', r.heap.tuple tid = some hd' ∧ Survives e tid hd hd'
  back : ∀ tid hd', r.heap.tuple tid = some hd' → ∃ hd, e.history.heap.tuple tid = some hd
  values : ∀ tid hd, e.history.heap.tuple tid = some hd → r.values tid = e.values tid

theorem Mirrors.resembles {gone : ℕ → Prop} (hm : Mirrors e r) (hi : Engine.Inv schema e)
    (hl : ∀ tid, AlikeAt gone r r' tid) (hrel : r'.heap.relation = r.heap.relation)
    (hgone : ∀ x, e.Committed x → ¬gone x) : Resembles e r' where
  relation := hrel.trans hm.relation
  tuple tid hd hh := by
    obtain ⟨hd₁,h₁,hb⟩ := hm.tuple tid hd hh
    have hrel := (hl tid).tuple
    rw [h₁] at hrel
    generalize r'.heap.tuple tid = y at hrel
    cases hrel with
    | some himage =>
      refine ⟨_,rfl,himage.tXmin.trans hb.tXmin,himage.heapOnly.trans hb.heapOnly,
        himage.hotUpdated.trans hb.hotUpdated,himage.tCtid.trans hb.tCtid,fun w hw hold hcomm => ?_⟩
      have hxmax := hb.ended w hw hold fun hab => nomatch hcomm.symm.trans hab
      rcases himage.tXmax with ⟨hsame,hlock⟩ | ⟨-,hnone | hlost⟩
      · rw [TupleHeader.visibilityXmax,hlock,hb.lockOnly,hsame,hxmax]
        rfl
      · exact absurd (hxmax.symm.trans hnone) (hi.history.versions.writer w hw).1
      · exact absurd (hxmax ▸ hlost) (hgone w.xid hcomm)
  back tid hd' hh := by
    have hrel := (hl tid).tuple
    rw [hh] at hrel
    generalize hx : r.heap.tuple tid = x at hrel
    cases hrel with
    | some => exact hm.back tid _ hx
  values tid hd hh := by
    obtain ⟨hd₁,h₁,-⟩ := hm.tuple tid hd hh
    exact ((hl tid).values hd₁ h₁).trans (hm.values tid hd hh)

theorem Resembles.next_iff (hm : Resembles e r) : r.heap.Next u v ↔ e.history.heap.Next u v := by
  constructor
  · rintro ⟨hd',hh',hup,hct⟩
    obtain ⟨hd,hh⟩ := hm.back u hd' hh'
    obtain ⟨hd₁,h₁,hlike⟩ := hm.tuple u hd hh
    rw [hh'] at h₁
    cases h₁
    exact ⟨hd,hh,hlike.hotUpdated.symm.trans hup,hlike.tCtid.symm.trans hct⟩
  · rintro ⟨hd,hh,hup,hct⟩
    obtain ⟨hd',hh',hlike⟩ := hm.tuple u hd hh
    exact ⟨hd',hh',hlike.hotUpdated.trans hup,hlike.tCtid.trans hct⟩

theorem Resembles.chained (hm : Resembles e r) (hc : e.history.heap.Chained) :
    r.heap.Chained where
  page u v hn := hc.page u v (hm.next_iff.1 hn)
  slot u v hn := hc.slot u v (hm.next_iff.1 hn)
  target u v hn := by
    obtain ⟨hd,hh,honly⟩ := hc.target u v (hm.next_iff.1 hn)
    obtain ⟨hd',hh',hlike⟩ := hm.tuple v hd hh
    exact ⟨hd',hh',hlike.heapOnly.trans honly⟩

theorem Resembles.hotChainRoot_eq (hm : Resembles e r) (hi : Engine.Inv schema e) {a : Write}
    (ha : a ∈ e.history.rowWrites (e.history.row v)) (hnew : a.new = some v) :
    r.heap.hotChainRoot v = .ok (e.root v) := by
  obtain ⟨⟨hd,hh,honly⟩,hreach⟩ := hi.roots.root_reaches hi.history ha hnew
  obtain ⟨hd',hh',hlike⟩ := hm.tuple _ hd hh
  refine Heap.hotChainRoot_eq (hm.chained hi.history.links.chained) (fun a b c hac hbc => ?_)
    ⟨hd',hh',hlike.heapOnly.trans honly⟩ (hreach.lift id fun a b => hm.next_iff.2)
  exact hi.history.next_unique (hm.next_iff.1 hac) (hm.next_iff.1 hbc)

/-- A snapshot of the table as of its end: all commits count. -/
def settled (e : Table K) : Snapshot := { e.freshSnapshot with xip := [] }

def seesCommitted (m : Manager) (x : ℕ) : Bool := x < m.txnIdClock ∧ m.getState x = .committed

theorem reads_settled (hi : Engine.Inv schema e) :
    HeapHistory.Reads e.history (settled e) (seesCommitted e.history.heap.manager) := by
  refine Engine.reads_of_sees hi.history rfl (fun x => ?_) fun x hx => ?_
  · rw [seesCommitted,decide_eq_true_eq]
    exact and_congr_right fun _ => and_iff_right List.not_mem_nil
  · have hc := (hi.history.snapshots.view.completed x).1 hx
    exact decide_eq_true ⟨hc.1.1,hc.2⟩

def Restored.freshSnapshot (r : Restored K) : Snapshot :=
  (r.heap.manager.snapshot TxnId.invalid).advanceCurcid

/-- What the restored pages show has not been ended by a committed transaction. -/
theorem Resembles.shows (hm : Resembles e r) (hi : Engine.Inv schema e)
    (hactive : r.heap.manager.active = [])
    (hstate : ∀ w ∈ e.history.writes,
      r.heap.manager.getState w.xid = .committed ↔ e.Committed w.xid)
    (hclock : ∀ w ∈ e.history.writes, w.xid < r.heap.manager.txnIdClock)
    (hv : r.heap.Shows r.freshSnapshot v) : e.history.heap.Shows (settled e) v := by
  obtain ⟨hd',hh',hvis⟩ := hv
  obtain ⟨hd,hh⟩ := hm.back v hd' hh'
  obtain ⟨hd₁,h₁,hlike⟩ := hm.tuple v hd hh
  have he : hd₁ = hd' := Option.some.inj (h₁.symm.trans hh')
  rw [he] at hlike
  obtain ⟨w,hw,-,hwx⟩ := hi.history.versions.creator v hd hh
  have hpos : hd'.tXmin ≠ TxnId.invalid := by
    rw [hlike.tXmin,← hwx]
    exact (hi.history.versions.writer w hw).1
  obtain ⟨hmin,hmax⟩ :=
    (HeapHistory.visible_iff_sees rfl (fun x => Engine.sees_fresh) hpos).1 hvis
  refine ⟨hd,hh,((reads_settled hi).visible v hd hh).2 ⟨?_,fun h₀ hs => ?_⟩⟩
  · rw [hlike.tXmin,← hwx] at hmin
    rw [← hwx]
    exact decide_eq_true ⟨(hi.history.versions.writer w hw).2.1,
      (hstate w hw).1 (of_decide_eq_true hmin).2.2⟩
  · obtain ⟨b,hb,hbold,hbx⟩ := hi.history.versions.stamped v hd hh h₀
    rw [← hbx] at hs
    have hcomm := (of_decide_eq_true hs).2
    rw [hlike.ended b hb hbold hcomm] at hmax
    refine hmax (hi.history.versions.writer b hb).1
      (decide_eq_true ⟨hclock b hb,?_,(hstate b hb).2 hcomm⟩)
    rw [hactive]
    exact List.not_mem_nil

end Heap

def Disk.Unfinished (d : Disk K) (x : ℕ) : Prop := ∀ i ∈ d.log, i.value.ends ≠ some x

/-- The records of removed entries are in segments that the search reads. -/
def Disk.Kept (cfg : Config K) (d : Disk K) : Prop :=
  ∀ i ∈ d.log, ∀ x u, i.value.removes = some (x,u) → d.Unfinished x →
    d.redoSegment cfg ≤ Lsn.segmentId i.pos cfg.segmentSize

/-- The last checkpoint is the superblock's, or transactions without an end have later records. -/
def Disk.Listed (d : Disk K) : Prop :=
  Disk.findLatestCheckpointEnd (d.log.map Item.value) = some d.superblock.checkpointLsn ∨
    ∀ i ∈ d.log, ∀ x u, i.value.removes = some (x,u) → d.Unfinished x →
      ∃ j ∈ d.log, d.redoStart ≤ j.pos ∧ j.value.txnId = x

/-- What a crash leaves of a run whose log up to there is that of the table `e`. -/
structure Crashed [DecidableEq K] (schema : Schema K) (cfg : Config K) (d : Disk K) (e : Table K)
    (l₁ l₂ : List (Item (Record K))) : Prop where
  tied : Tied schema e (d.log.map Item.value)
  contiguous : Contiguous Lsn.first d.log
  eq : d.log = l₁ ++ l₂
  redo : d.redoStart = stop Lsn.first l₁
  sizes : ∀ i ∈ l₁, walRecordHeaderSize ≤ i.size ∧ lsnAlignment ∣ i.size ∧ i.size ≤ maxRecord
  below : ∀ i ∈ l₁, i.value.txnId ≠ TxnId.invalid → i.value.txnId < d.superblock.nextTxnId
  covered : Disk.findLatestCheckpointEnd (d.log.map Item.value) = some d.superblock.checkpointLsn →
    Covered (· ∈ d.attBaseline cfg) l₁

theorem crash_crashed [DecidableEq K] {s : Server K} {n : ℕ} {files : Files K}
    (hi : Inv schema s) (hn : s.durable ≤ n) :
    ∃ e l₁ l₂, Crashed schema cfg (s.crash n files) e l₁ l₂ := by
  obtain ⟨e,ht⟩ := hi.stream.tied n
  have hc : Contiguous Lsn.first (s.log.take n) := by
    have h := hi.stream.contiguous
    rw [← List.take_append_drop n s.log] at h
    exact (RecordStream.contiguous_append.1 h).1
  by_cases hv : Lsn.isValid s.superblock.checkpointLsn = true
  · obtain ⟨l₁,l₂,l₃,heq,hpos,hcov,hbelow,hend,hwithin⟩ := hi.anchor hv
    have htake : s.log.take n = l₁ ++ (l₂ ++ l₃.take (n - l₁.length - l₂.length)) := by
      rw [heq,List.take_append,List.take_append,List.take_of_length_le (by omega),
        List.take_of_length_le (by omega)]
    have hredo : (s.crash n files).redoStart = stop Lsn.first l₁ := (if_pos hv).trans hpos.symm
    refine ⟨e,l₁,l₂ ++ l₃.take (n - l₁.length - l₂.length),ht,hc,htake,hredo,fun i hmem => ?_,
      hbelow,fun hnewest => ?_⟩
    · exact hi.stream.sizes i (by rw [heq]; exact List.mem_append_left _ hmem)
    · obtain ⟨b',hb'⟩ := findLatest_isSome (List.mem_append_left
        ((l₃.take (n - l₁.length - l₂.length)).map Item.value) hend)
      rw [← List.map_append] at hb'
      have hlast : Disk.findLatestCheckpointEnd ((s.crash n files).recordsFrom cfg
          (s.crash n files).redoStart) = some s.superblock.checkpointLsn := by
        rw [hredo,recordsFrom_eq hc htake,hb']
        refine Eq.trans ?_ hnewest
        change _ = Disk.findLatestCheckpointEnd ((s.log.take n).map Item.value)
        rw [htake,List.map_append,findLatest_append,hb']
        rfl
      have hbase : (s.crash n files).attBaseline cfg = s.attFiles s.superblock.checkpointLsn := by
        rw [Disk.attBaseline,hlast]
        exact if_pos rfl
      rw [hbase]
      exact hcov
  · have hredo : (s.crash n files).redoStart = Lsn.first := if_neg hv
    exact ⟨e,[],s.log.take n,ht,hc,rfl,hredo,nofun,nofun,fun _ => nofun⟩

/-- The engine is opened again: records have been appended, pages and outcomes written. -/
def Disk.reopened (d : Disk K) (tail : List (Item (Record K))) (stamps : List ℕ)
    (files : Files K) : Disk K :=
  { d with log := d.log ++ tail, stamps := stamps, files := files }

section Reopened

variable [DecidableEq K] {stamps : List ℕ} {files : Files K}

theorem Crashed.contiguous_reopened (hc : Crashed schema cfg d e l₁ l₂)
    (htail : Contiguous d.logEnd tail) :
    Contiguous Lsn.first (d.reopened tail stamps files).log :=
  RecordStream.contiguous_append.2 ⟨hc.contiguous,htail⟩

theorem Crashed.recordsFrom (hc : Crashed schema cfg d e l₁ l₂) (htail : Contiguous d.logEnd tail) :
    (d.reopened tail stamps files).recordsFrom cfg (d.reopened tail stamps files).redoStart =
      (l₂ ++ tail).map Item.value := by
  have hredo : (d.reopened tail stamps files).redoStart = stop Lsn.first l₁ := hc.redo
  rw [hredo]
  refine recordsFrom_eq (hc.contiguous_reopened htail) ?_
  change d.log ++ tail = _
  rw [hc.eq,List.append_assoc]

omit [DecidableEq K] in
theorem findLatest_appends (h : ∀ rec ∈ rs, Appends rec) :
    Disk.findLatestCheckpointEnd rs = none := by
  induction rs with
  | nil => rfl
  | cons rec rs ih =>
    obtain ⟨hrec,hrs⟩ := List.forall_mem_cons.1 h
    rcases hrec with rfl | ⟨a,rfl⟩
    · exact ih hrs
    · exact ih hrs

omit [DecidableEq K] in
theorem foldl_analyze_appends (h : ∀ rec ∈ rs, Appends rec) (att : List ℕ) :
    rs.foldl Disk.analyze att = att := by
  induction rs with
  | nil => rfl
  | cons rec rs ih =>
    obtain ⟨hrec,hrs⟩ := List.forall_mem_cons.1 h
    rcases hrec with rfl | ⟨a,rfl⟩
    · exact ih hrs
    · exact ih hrs

theorem Crashed.recordsFrom_redo (hc : Crashed schema cfg d e l₁ l₂) :
    d.recordsFrom cfg d.redoStart = l₂.map Item.value :=
  hc.redo ▸ recordsFrom_eq hc.contiguous hc.eq

theorem Crashed.runAnalysis (hc : Crashed schema cfg d e l₁ l₂) (htail : Contiguous d.logEnd tail)
    (happ : ∀ i ∈ tail, Appends i.value) :
    (d.reopened tail stamps files).runAnalysis cfg = d.runAnalysis cfg := by
  have happ' : ∀ rec ∈ tail.map Item.value, Appends rec := List.forall_mem_map.2 happ
  have hrecs := @Crashed.recordsFrom _ _ _ _ _ _ _ _ _ stamps files hc htail
  have hrecs₀ := hc.recordsFrom_redo
  have hbase : (d.reopened tail stamps files).attBaseline cfg = d.attBaseline cfg := by
    rw [Disk.attBaseline,Disk.attBaseline,hrecs,hrecs₀,List.map_append,findLatest_append,
      findLatest_appends happ',Option.none_or]
    rfl
  rw [Disk.runAnalysis,Disk.runAnalysis,hrecs,hrecs₀,hbase,List.map_append,List.foldl_append,
    foldl_analyze_appends happ']

variable {i : Item (Record K)}

theorem Crashed.lt_nextTxnId (hc : Crashed schema cfg d e l₁ l₂)
    (htail : Contiguous d.logEnd tail) (hi : i ∈ d.log)
    (hx : i.value.txnId ≠ TxnId.invalid) :
    i.value.txnId < (d.reopened tail stamps files).nextTxnId cfg := by
  have hfold : ∀ (l : List ℕ) (a : ℕ), a ≤ l.foldl max a ∧ ∀ b ∈ l, b ≤ l.foldl max a := by
    intro l
    induction l with
    | nil => exact fun a => ⟨le_rfl,nofun⟩
    | cons c l ih =>
      intro a
      obtain ⟨hle,hmem⟩ := ih (max a c)
      exact ⟨(le_max_left ..).trans hle,List.forall_mem_cons.2 ⟨(le_max_right ..).trans hle,hmem⟩⟩
  rw [Disk.nextTxnId,hc.recordsFrom htail]
  rw [hc.eq] at hi
  rcases List.mem_append.1 hi with hi | hi
  · exact (hc.below i hi hx).trans_le (hfold _ _).1
  · refine Nat.lt_of_succ_le ((hfold _ _).2 (i.value.txnId + 1) (List.mem_map.2 ⟨i.value,?_,rfl⟩))
    exact List.mem_map_of_mem (List.mem_append_left _ hi)

variable {u : Tid} {losers : List ℕ} {rec : Record K}

omit [DecidableEq K] in
theorem victim_eq_some :
    Disk.victim losers rec = some u ↔ ∃ x ∈ losers, rec.removes = some (x,u) := by
  have hcase : ∀ {y : ℕ} {t : Tid}, (if y ∈ losers then some t else none) = some u ↔
      ∃ x ∈ losers, some (y,t) = some (x,u) := by
    intro y t
    rw [Option.ite_none_right_eq_some]
    constructor
    · rintro ⟨hy,he⟩
      cases he
      exact ⟨y,hy,rfl⟩
    · rintro ⟨x,hx,he⟩
      cases he
      exact ⟨hx,rfl⟩
  cases rec with
  | heapDelete y t | heapUpdate y t _ _ _ => exact hcase
  | extend _ | heapInsert _ _ _ _ | heapHotUpdate _ _ _ _ _ _ | index _ | txnCommit _ | txnAbort _
  | checkpointBegin | checkpointEnd _ | page => exact ⟨nofun,fun ⟨_,_,h⟩ => nomatch h⟩

/-- The search finds the versions whose entries a transaction without an end has removed. -/
theorem Crashed.mem_victimTids (hc : Crashed schema cfg d e l₁ l₂)
    (htail : Contiguous d.logEnd tail) (happ : ∀ i ∈ tail, Appends i.value) (hkept : d.Kept cfg)
    (hquiet : d.Quiet cfg)
    (hlosers : ∀ i ∈ d.log, ∀ x ∈ losers, ∀ u, i.value.removes = some (x,u) → d.Unfinished x) :
    u ∈ (d.reopened tail stamps files).victimTids cfg losers ↔
      ∃ i ∈ d.log, ∃ x ∈ losers, i.value.removes = some (x,u) := by
  have hquiet' : (d.reopened tail stamps files).Quiet cfg := fun p hp hle hbefore =>
    hquiet p hp hle fun i hi => hbefore i (List.mem_append_left _ hi)
  have hcont := @Crashed.contiguous_reopened _ _ _ _ _ _ _ _ _ stamps files hc htail
  obtain ⟨m₁,m₂,hm,hstart,hall⟩ := @scanStart_spec _ _ _ l₁ (l₂ ++ tail) hcont hquiet'
    (by change d.log ++ tail = _; rw [hc.eq,List.append_assoc]) hc.redo hc.sizes
  rw [Disk.victimTids,List.mem_dedup,List.mem_insertionSort,hstart,recordsFrom_eq hcont hm,
    List.mem_filterMap]
  constructor
  · rintro ⟨rec,hrec,hv⟩
    obtain ⟨i,hi,rfl⟩ := List.mem_map.1 hrec
    obtain ⟨x,hx,hrem⟩ := victim_eq_some.1 hv
    have hlog : i ∈ d.log ++ tail := by
      change i ∈ (d.reopened tail stamps files).log
      rw [hm]
      exact List.mem_append_right _ hi
    refine ⟨i,(List.mem_append.1 hlog).resolve_right fun ht => ?_,x,hx,hrem⟩
    rcases happ i ht with h | ⟨a,h⟩
    · rw [h] at hrem
      cases hrem
    · rw [h] at hrem
      cases hrem
  · rintro ⟨i,hi,x,hx,hrem⟩
    refine ⟨i.value,List.mem_map_of_mem ?_,victim_eq_some.2 ⟨x,hx,hrem⟩⟩
    exact hall i (List.mem_append_left _ hi) (hkept i hi x u hrem (hlosers i hi x hx u hrem))

def Loser (cfg : Config K) (d : Disk K) (e : Table K) (x : ℕ) : Prop :=
  x ∈ d.runAnalysis cfg ∧ e.history.heap.manager.getState x ≠ .committed ∧
    e.history.heap.manager.getState x ≠ .aborted

/-- An entry that has to be put back for a transaction without an end. -/
def Owed (schema : Schema K) (d : Disk K) (e : Table K) (losers : ℕ → Prop) (a : Entry K) : Prop :=
  ∃ i ∈ d.log, ∃ x u, i.value.removes = some (x,u) ∧ losers x ∧
    ∃ c ∈ schema.columns, Table.entryOf (e.values u) (e.root u) c = some a

variable {x : ℕ}

theorem Crashed.unfinished (hc : Crashed schema cfg d e l₁ l₂)
    (hx : e.history.heap.manager.getState x ≠ .committed ∧
      e.history.heap.manager.getState x ≠ .aborted) : d.Unfinished x := fun _ hi hend =>
  (hc.tied.ended _ (List.mem_map_of_mem hi) x hend).elim hx.1 hx.2

omit [DecidableEq K] in
theorem txnId_of_removes (h : rec.removes = some (x,u)) : rec.txnId = x := by
  cases rec <;> cases h
  · rfl
  · rfl

theorem Crashed.mem_runAnalysis (hc : Crashed schema cfg d e l₁ l₂) (hlisted : d.Listed)
    (hi : i ∈ d.log)
    (hrem : i.value.removes = some (x,u)) (hx : x ≠ TxnId.invalid) (hun : d.Unfinished x) :
    x ∈ d.runAnalysis cfg := by
  have hrecs := hc.recordsFrom_redo
  have hid := txnId_of_removes hrem
  have hback : ∀ j ∈ l₂, j ∈ d.log := fun j hj => by
    rw [hc.eq]
    exact List.mem_append_right _ hj
  have hfound : ∀ j ∈ l₂, j.value.txnId = x → ∃ rec ∈ l₂.map Item.value, rec.txnId = x ∧
      x ≠ TxnId.invalid := fun j hj he => ⟨_,List.mem_map_of_mem hj,he,hx⟩
  rw [Disk.runAnalysis,List.mem_insertionSort,hrecs]
  refine mem_foldl_analyze (List.forall_mem_map.2 fun j hj => hun j (hback j hj)) ?_
  rcases hlisted with hnewest | hlater
  · have hi' := hi
    rw [hc.eq] at hi'
    rcases List.mem_append.1 hi' with hi' | hi'
    · refine (hc.covered hnewest i hi' (by rw [hid]; exact hx)).elim (fun h => .inl (hid ▸ h)) ?_
      rintro ⟨j,hj,hend⟩
      rw [hid] at hend
      exact absurd hend (hun j (by rw [hc.eq]; exact List.mem_append_left _ hj))
    · exact .inr (hfound i hi' hid)
  · obtain ⟨j,hj,hle,hjx⟩ := hlater i hi x u hrem hun
    refine .inr (hfound j ?_ hjx)
    rw [hc.eq] at hj
    refine (List.mem_append.1 hj).resolve_left fun hj₁ => ?_
    have hcont := hc.contiguous
    rw [hc.eq] at hcont
    obtain ⟨-,hpos,hend⟩ := (RecordStream.contiguous_append.1 hcont).1.bounds hj₁
    rw [hc.redo] at hle
    omega

/-- What opening the engine gives. -/
structure Recovered (schema : Schema K) (cfg : Config K) (d : Disk K) (e : Table K)
    (tail : List (Item (Record K))) (stamps : List ℕ) (o : Opened K) : Prop where
  index : ∀ a, a ∈ o.restored.index ↔ (a ∈ e.index ∨ .index (.inserted a) ∈ tail.map Item.value) ∨
    Owed schema d e (fun x => Loser cfg d e x ∧ x ∉ stamps) a
  ops : ∀ op ∈ o.appended, ∃ a, op = .inserted a ∧
    Owed schema d e (fun x => Loser cfg d e x ∧ x ∉ stamps) a
  logged : ∀ a ∈ o.restored.index, (a ∈ e.index ∨ .index (.inserted a) ∈ tail.map Item.value) ∨
    .inserted a ∈ o.appended
  losers : ∀ x ∈ o.recoveredActiveXids, Loser cfg d e x
  heap : Resembles e o.restored
  active : o.restored.heap.manager.active = []
  committed : ∀ w ∈ e.history.writes,
    o.restored.heap.manager.getState w.xid = .committed ↔ e.Committed w.xid
  clock : ∀ w ∈ e.history.writes, w.xid < o.restored.heap.manager.txnIdClock

theorem Crashed.removed (hc : Crashed schema cfg d e l₁ l₂) (hi : i ∈ d.log)
    (hrem : i.value.removes = some (x,u))
    (hx : e.history.heap.manager.getState x ≠ .aborted) :
    x ≠ TxnId.invalid ∧ (∃ hd, e.history.heap.tuple u = some hd) ∧
      (∃ b ∈ e.history.rowWrites (e.history.row u), b.new = some u) ∧
      ∀ c ∈ schema.columns, ∀ a, Table.entryOf (e.values u) (e.root u) c = some a →
        schema.fits a.key = true := by
  obtain ⟨w,hw,rfl,hold⟩ := hc.tied.writes _ (List.mem_map_of_mem hi) x u hrem
  obtain ⟨-,hd,hh,-⟩ := hc.tied.inv.history.versions.ended w hw u hold
  obtain ⟨-,b,hb,hbu,-⟩ := Engine.created_of_ended hc.tied.inv.history hw hx hold
  exact ⟨(hc.tied.inv.history.versions.writer w hw).1,⟨hd,hh⟩,⟨b,hb,hbu⟩,hc.tied.keys w hw u hold⟩

theorem Manager.clog_of_getState {m : Manager} (h : m.getState x = .committed) :
    m.clog x = .committed := by
  rw [Manager.getState] at h
  split at h
  · cases h
  · exact h

structure Redid (e : Table K) (tail : List (Item (Record K))) (stamps : List ℕ) (q : Restored K) :
    Prop where
  heap : Resembles e q
  index : ∀ a, a ∈ q.index ↔ a ∈ e.index ∨ .index (.inserted a) ∈ tail.map Item.value
  clog : q.heap.manager.clog = marked stamps e.history.heap.manager.clog
  active : q.heap.manager.active = []

theorem Crashed.restore (hc : Crashed schema cfg d e l₁ l₂) (htail : Contiguous d.logEnd tail)
    (happ : ∀ i ∈ tail, Appends i.value) (hholds : (d.reopened tail stamps files).Holds)
    (hstamps : ∀ x ∈ stamps, Loser cfg d e x) :
    ∃ q, (d.reopened tail stamps files).restore cfg = some q ∧ Redid e tail stamps q := by
  obtain ⟨r,hr,hm⟩ := hc.tied.restored
  obtain ⟨index,happended,hindex⟩ :=
    @foldlM_appends _ r (tail.map Item.value) _ (List.forall_mem_map.2 happ)
  have hreplay : replay (d.log ++ tail) = some { r with index := index } := by
    rw [replay,List.map_append,List.foldlM_append,hr]
    exact happended
  have houtcomes : (d.reopened tail stamps files).outcomes = e.history.heap.manager.clog :=
    (foldlM_clog hreplay).symm.trans hm.clog
  obtain ⟨q,hq,hlike,hclog,hactive⟩ := @Disk.Holds.restore _ _ _ cfg _ l₁ (l₂ ++ tail) hholds
    (by rw [← List.append_assoc,← hc.eq]; rfl) (hc.contiguous_reopened htail) hc.redo hreplay
    fun i hi x hx hend => by
      rcases List.mem_append.1 hi with hi | hi
      · exact (hc.tied.ended _ (List.mem_map_of_mem hi) x hend).elim (hstamps x hx).2.1
          (hstamps x hx).2.2
      · rcases happ i hi with h | ⟨a,h⟩
        · rw [h] at hend
          cases hend
        · rw [h] at hend
          cases hend
  have hheap := hm.resembles hc.tied.inv
    (fun tid => ⟨(hlike.alike tid).tuple,(hlike.alike tid).values⟩) hlike.relation
    fun x hcomm hgone => hgone (houtcomes ▸ Manager.clog_of_getState hcomm)
  refine ⟨q,hq,hheap,fun a => ?_,?_,hactive⟩
  · rw [hlike.index,← hm.index]
    exact hindex a
  · rw [hclog,houtcomes]
    rfl

omit [DecidableEq K] in
theorem Redid.getState {q : Restored K} (hq : Redid e tail stamps q) (hx : x ≠ TxnId.invalid) :
    q.heap.manager.getState x =
      if x ∈ stamps then .aborted else e.history.heap.manager.getState x := by
  rw [Manager.getState,if_neg hx,Manager.getState,if_neg hx,hq.clog]
  rfl

theorem Crashed.mem_recoveredActiveXids (hc : Crashed schema cfg d e l₁ l₂)
    (htail : Contiguous d.logEnd tail) (happ : ∀ i ∈ tail, Appends i.value) {q : Restored K} :
    x ∈ (d.reopened tail stamps files).recoveredActiveXids cfg q ↔ x ∈ d.runAnalysis cfg ∧
      q.heap.manager.getState x ≠ .committed ∧ q.heap.manager.getState x ≠ .aborted := by
  rw [Disk.recoveredActiveXids,List.mem_filter,hc.runAnalysis htail happ,decide_eq_true_eq]

theorem Redid.mem_losers {q : Restored K} (hq : Redid e tail stamps q)
    (hc : Crashed schema cfg d e l₁ l₂) (htail : Contiguous d.logEnd tail)
    (happ : ∀ i ∈ tail, Appends i.value) (hx : x ≠ TxnId.invalid) :
    x ∈ (d.reopened tail stamps files).recoveredActiveXids cfg q ↔
      Loser cfg d e x ∧ x ∉ stamps := by
  rw [hc.mem_recoveredActiveXids htail happ,hq.getState hx]
  by_cases hst : x ∈ stamps
  · rw [if_pos hst]
    exact ⟨fun h => absurd rfl h.2.2,fun h => absurd hst h.2⟩
  · rw [if_neg hst]
    exact ⟨fun h => ⟨h,hst⟩,fun h => h.1⟩

theorem Redid.loser {q : Restored K} (hq : Redid e tail stamps q)
    (hc : Crashed schema cfg d e l₁ l₂) (htail : Contiguous d.logEnd tail)
    (happ : ∀ i ∈ tail, Appends i.value)
    (hx : x ∈ (d.reopened tail stamps files).recoveredActiveXids cfg q) : Loser cfg d e x := by
  by_cases h₀ : x = TxnId.invalid
  · refine ⟨((hc.mem_recoveredActiveXids htail happ).1 hx).1,?_⟩
    rw [Manager.getState,if_pos h₀]
    decide
  · exact ((hq.mem_losers hc htail happ h₀).1 hx).1

def Restored.rolledBack (q : Restored K) (losers : List ℕ) (clock : ℕ) : Restored K :=
  { q with heap := { q.heap with
    manager := ⟨clock,q.heap.manager.active,marked losers q.heap.manager.clog⟩ } }

theorem openEngine_eq {q : Restored K} (h : d.restore cfg = some q) :
    d.openEngine schema cfg =
      ((d.victimTids cfg (d.recoveredActiveXids cfg q)).foldlM
        (restoreEntries schema (q.rolledBack (d.recoveredActiveXids cfg q) (d.nextTxnId cfg)))
        (q.index,[])).map fun acc =>
          ⟨{ q.rolledBack (d.recoveredActiveXids cfg q) (d.nextTxnId cfg) with index := acc.1 },
            d.recoveredActiveXids cfg q,acc.2⟩ := by
  rw [Disk.openEngine,h,Option.bind_some]
  simp only [abortAll_eq]
  rfl

section Opened

variable {q : Restored K}

theorem Redid.mem_victimTids (hq : Redid e tail stamps q) (hc : Crashed schema cfg d e l₁ l₂)
    (htail : Contiguous d.logEnd tail) (happ : ∀ i ∈ tail, Appends i.value) (hkept : d.Kept cfg)
    (hquiet : d.Quiet cfg) :
    u ∈ (d.reopened tail stamps files).victimTids cfg
        ((d.reopened tail stamps files).recoveredActiveXids cfg q) ↔
      ∃ i ∈ d.log, ∃ x, i.value.removes = some (x,u) ∧ Loser cfg d e x ∧ x ∉ stamps := by
  rw [hc.mem_victimTids htail happ hkept hquiet
    fun _ _ y hy _ _ => hc.unfinished (hq.loser hc htail happ hy).2]
  refine exists_congr fun i => and_congr_right fun hi => exists_congr fun x => ?_
  constructor
  · rintro ⟨hx,hrem⟩
    have h₀ := (hc.removed hi hrem (hq.loser hc htail happ hx).2.2).1
    exact ⟨hrem,(hq.mem_losers hc htail happ h₀).1 hx⟩
  · rintro ⟨hrem,hx⟩
    have h₀ := (hc.removed hi hrem hx.1.2.2).1
    exact ⟨(hq.mem_losers hc htail happ h₀).2 hx,hrem⟩

theorem Resembles.put (hm : Resembles e r) (hc : Crashed schema cfg d e l₁ l₂) (hi : i ∈ d.log)
    (hrem : i.value.removes = some (x,u))
    (hx : e.history.heap.manager.getState x ≠ .aborted)
    (acc : List (Entry K) × List (Op (Entry K))) :
    ∃ acc', restoreEntries schema r acc u = some acc' ∧ Put acc acc' fun a =>
      ∃ c ∈ schema.columns, Table.entryOf (e.values u) (e.root u) c = some a := by
  obtain ⟨-,⟨hd,hh⟩,⟨b,hb,hbu⟩,hfits⟩ := hc.removed hi hrem hx
  obtain ⟨hd',hh',-⟩ := hm.tuple u hd hh
  have hpage : u.pageId ∈ r.heap.relation := by
    rw [hm.relation]
    exact hc.tied.inv.history.versions.placed u hd hh
  have hvalues := hm.values u hd hh
  obtain ⟨acc',hacc,hput⟩ := restoreEntries_put hpage hh'
    (hm.hotChainRoot_eq hc.tied.inv hb hbu) (by rw [hvalues]; exact hfits) acc
  rw [hvalues] at hput
  exact ⟨acc',hacc,hput⟩

omit [DecidableEq K] in
theorem Redid.committed (hq : Redid e tail stamps q) (hstamps : ∀ x ∈ stamps, Loser cfg d e x)
    {losers : List ℕ} (hlosers : ∀ x ∈ losers, Loser cfg d e x) {clock : ℕ}
    (h₀ : x ≠ TxnId.invalid) :
    (q.rolledBack losers clock).heap.manager.getState x = .committed ↔ e.Committed x := by
  have hstate : (q.rolledBack losers clock).heap.manager.getState x =
      if x ∈ losers then .aborted else q.heap.manager.getState x := by
    rw [Manager.getState,if_neg h₀,Manager.getState,if_neg h₀]
    rfl
  rw [hstate,hq.getState h₀]
  by_cases hx : x ∈ losers
  · rw [if_pos hx]
    exact ⟨by rintro ⟨⟩,fun hcomm => absurd hcomm (hlosers x hx).2.1⟩
  · rw [if_neg hx]
    by_cases hst : x ∈ stamps
    · rw [if_pos hst]
      exact ⟨by rintro ⟨⟩,fun hcomm => absurd hcomm (hstamps x hst).2.1⟩
    · rw [if_neg hst]
      exact Iff.rfl

theorem Crashed.openEngine (hc : Crashed schema cfg d e l₁ l₂) (htail : Contiguous d.logEnd tail)
    (happ : ∀ i ∈ tail, Appends i.value) (hkept : d.Kept cfg) (hquiet : d.Quiet cfg)
    (hholds : (d.reopened tail stamps files).Holds) (hstamps : ∀ x ∈ stamps, Loser cfg d e x) :
    ∃ o, (d.reopened tail stamps files).openEngine schema cfg = some o ∧
      Recovered schema cfg d e tail stamps o := by
  obtain ⟨q,hrestore,hq⟩ := hc.restore htail happ hholds hstamps
  have hloser : ∀ x ∈ (d.reopened tail stamps files).recoveredActiveXids cfg q, Loser cfg d e x :=
    fun x => hq.loser hc htail happ
  have hmem := fun u => @Redid.mem_victimTids _ _ _ _ _ _ _ _ _ _ files u _ hq hc htail happ hkept
    hquiet
  set losers := (d.reopened tail stamps files).recoveredActiveXids cfg q with hlosers
  set R := q.rolledBack losers ((d.reopened tail stamps files).nextTxnId cfg) with hR
  have hheap : Resembles e R := ⟨hq.heap.relation,hq.heap.tuple,hq.heap.back,hq.heap.values⟩
  obtain ⟨acc,hfold,hput⟩ := put_foldlM (fun u hu acc => by
    obtain ⟨i,hi,x,hrem,hx⟩ := (hmem u).1 hu
    exact hheap.put hc hi hrem hx.1.2.2 acc) (q.index,[])
  have howed : ∀ a, (∃ u ∈ (d.reopened tail stamps files).victimTids cfg losers,
      ∃ c ∈ schema.columns, Table.entryOf (e.values u) (e.root u) c = some a) ↔
      Owed schema d e (fun x => Loser cfg d e x ∧ x ∉ stamps) a := by
    intro a
    constructor
    · rintro ⟨u,hu,hentry⟩
      obtain ⟨i,hi,x,hrem,hx⟩ := (hmem u).1 hu
      exact ⟨i,hi,x,u,hrem,hx,hentry⟩
    · rintro ⟨i,hi,x,u,hrem,hx,hentry⟩
      exact ⟨u,(hmem u).2 ⟨i,hi,x,hrem,hx⟩,hentry⟩
  refine ⟨⟨{ R with index := acc.1 },losers,acc.2⟩,?_,fun a => ?_,fun op hop => ?_,fun a ha => ?_,
    hloser,⟨hheap.relation,hheap.tuple,hheap.back,hheap.values⟩,hq.active,fun w hw => ?_,
    fun w hw => ?_⟩
  · rw [openEngine_eq hrestore,← hlosers,← hR,hfold]
    rfl
  · change a ∈ acc.1 ↔ _
    rw [hput.mem a,hq.index,howed]
  · rcases hput.ops op hop with hop | ⟨a,ha,hp⟩
    · cases hop
    · exact ⟨a,ha,(howed a).1 hp⟩
  · exact (hput.logged a ha).imp (hq.index a).1 id
  · exact hq.committed hstamps hloser (hc.tied.inv.history.versions.writer w hw).1
  · obtain ⟨rec,hrec,hx⟩ := hc.tied.logged w hw
    obtain ⟨i,hi,rfl⟩ := List.mem_map.1 hrec
    rw [← hx]
    exact hc.lt_nextTxnId htail hi (by rw [hx]; exact (hc.tied.inv.history.versions.writer w hw).1)

end Opened

end Reopened

/-- Every visible row has its entries. -/
def Restored.Complete (schema : Schema K) (r : Restored K) : Prop :=
  ∀ v, r.heap.Shows r.freshSnapshot v → ∀ c ∈ schema.columns, ∀ k,
    (r.values v)[c]?.join = some k →
      ∃ root, r.heap.hotChainRoot v = .ok root ∧ ⟨c,k,root⟩ ∈ r.index

def Record.op : Record K → Option (Op (Entry K))
  | .index op => some op
  | _ => none

/-- Some of the index records got to the disk, and the outcomes of losers only after all of them. -/
structure Reopens (d : Disk K) (o : Opened K) (tail : List (Item (Record K))) (stamps : List ℕ) :
    Prop where
  contiguous : Contiguous d.logEnd tail
  records : ∀ i ∈ tail, Appends i.value
  ops : (tail.map Item.value).filterMap Record.op <+: o.appended
  rolledBack : ∀ x ∈ stamps, x ∈ o.recoveredActiveXids
  durable : stamps ≠ [] → (tail.map Item.value).filterMap Record.op = o.appended

theorem mem_filterMap_op {a : Entry K} : .inserted a ∈ rs.filterMap Record.op ↔
    .index (.inserted a) ∈ rs := by
  rw [List.mem_filterMap]
  constructor
  · rintro ⟨rec,hrec,hop⟩
    cases rec <;> cases hop
    exact hrec
  · intro h
    exact ⟨_,h,rfl⟩

section Open

variable [DecidableEq K]

/-- Whoever has removed the entry of a visible row is rolled back. -/
theorem Crashed.owed (hc : Crashed schema cfg d e l₁ l₂) (hlisted : d.Listed) {v : Tid}
    (hv : e.history.heap.Shows (settled e) v) {x : ℕ} {a : Entry K} (htid : a.tid = e.root v)
    (hx : (x,.deleted a) ∈ e.applied) :
    Owed schema d e (fun x => Loser cfg d e x ∧ x ∉ ([] : List ℕ)) a := by
  have hi := hc.tied.inv
  obtain ⟨⟨w,hw,rfl,u,hcl,hcol,hentry⟩,hst⟩ := hi.applied x _ hx
  have hlive : e.history.heap.Live w.xid := by
    refine hst.resolve_right fun hcomm => ?_
    refine hi.unseen_of_deleted (reads_settled hi) hv htid hx (decide_eq_true ⟨?_,hcomm⟩)
    exact (hi.history.versions.writer w hw).2.1
  have hnone : e.history.heap.manager.getState w.xid ≠ .committed ∧
      e.history.heap.manager.getState w.xid ≠ .aborted := by
    rw [hlive.2]
    exact ⟨nofun,nofun⟩
  obtain ⟨rec,hrec,hrem⟩ := hc.tied.removes w hw u hcl
  obtain ⟨i,hilog,rfl⟩ := List.mem_map.1 hrec
  refine ⟨i,hilog,w.xid,u,hrem,⟨⟨?_,hnone⟩,List.not_mem_nil⟩,a.column,hcol,hentry⟩
  exact hc.mem_runAnalysis hlisted hilog hrem (hi.history.versions.writer w hw).1
    (hc.unfinished hnone)

theorem Recovered.complete (hc : Crashed schema cfg d e l₁ l₂) (hlisted : d.Listed) {o : Opened K}
    (hrec : Recovered schema cfg d e [] [] o) : o.restored.Complete schema := by
  have hi := hc.tied.inv
  intro v hv c hcol k hk
  have hv := hrec.heap.shows hi hrec.active hrec.committed hrec.clock hv
  obtain ⟨b,hb,-,hbnew,-⟩ := ((reads_settled hi).newest_iff hi.history _ v).1
    (((reads_settled hi).shows_iff hi.history v).1 hv)
  have ⟨hd,hh,_⟩ := hv
  rw [hrec.heap.values v hd hh] at hk
  refine ⟨e.root v,hrec.heap.hotChainRoot_eq hi hb hbnew,(hrec.index _).2 ?_⟩
  by_cases hin : ⟨c,k,e.root v⟩ ∈ e.index
  · exact .inl (.inl hin)
  · have hins := hi.entry_of_shown (reads_settled hi) (fun x hs => (of_decide_eq_true hs).2) hv
      hcol hk
    have hdel : ∃ x, (x,.deleted ⟨c,k,e.root v⟩) ∈ e.applied := by
      by_contra hno
      exact hin ((hi.log.mem _).2 ⟨hins,fun x hx => hno ⟨x,hx⟩⟩)
    obtain ⟨x,hx⟩ := hdel
    exact .inr (hc.owed hlisted hv rfl hx)

/-- After every orderly run and a crash that leaves the durable records and complete checkpoints,
the engine opens: every visible row has its entries, and opening it again changes no entry. The
records of removed entries have to be in segments that are read, and the transactions without an end
known to the analysis. -/
theorem open_keeps_entries {s : Server K} (hr : Reach (step schema) Start OrderlyStep s) {n : ℕ}
    (hn : s.durable ≤ n) {files : Files K} (hholds : (s.crash n files).Holds)
    (hkept : (s.crash n files).Kept cfg) (hlisted : (s.crash n files).Listed)
    (hquiet : (s.crash n files).Quiet cfg) :
    ∃ o, (s.crash n files).openEngine schema cfg = some o ∧ o.restored.Complete schema ∧
      ∀ tail stamps files', Reopens (s.crash n files) o tail stamps →
        ((s.crash n files).reopened tail stamps files').Holds →
        ∃ o', ((s.crash n files).reopened tail stamps files').openEngine schema cfg = some o' ∧
          ∀ a, a ∈ o'.restored.index ↔ a ∈ o.restored.index := by
  obtain ⟨e,l₁,l₂,hc⟩ := @crash_crashed _ schema cfg _ s n files (reach_inv hr) hn
  have hsame : (s.crash n files).reopened [] [] files = s.crash n files := by
    rw [Disk.reopened,List.append_nil]
    rfl
  obtain ⟨o,ho,hrec⟩ := @Crashed.openEngine _ _ _ _ _ _ _ [] _ [] files hc trivial nofun hkept
    hquiet (by rw [hsame]; exact hholds) nofun
  rw [hsame] at ho
  refine ⟨o,ho,hrec.complete hc hlisted,fun tail stamps files' hre hholds' => ?_⟩
  obtain ⟨o',ho',hrec'⟩ := hc.openEngine hre.contiguous hre.records hkept hquiet hholds'
    fun x hx => hrec.losers x (hre.rolledBack x hx)
  refine ⟨o',ho',fun a => ?_⟩
  constructor
  · intro ha
    rw [hrec.index]
    rcases (hrec'.index a).1 ha with (hin | htail) | ⟨i,hi,x,u,hrem,hx,hentry⟩
    · exact .inl (.inl hin)
    · obtain ⟨b,hb,howed⟩ := hrec.ops _ (hre.ops.subset (mem_filterMap_op.2 htail))
      cases hb
      exact .inr howed
    · exact .inr ⟨i,hi,x,u,hrem,⟨hx.1,List.not_mem_nil⟩,hentry⟩
  · intro ha
    rw [hrec'.index]
    by_cases hst : stamps = []
    · rcases (hrec.index a).1 ha with (hin | htail) | howed
      · exact .inl (.inl hin)
      · cases htail
      · rw [hst]
        exact .inr howed
    · rcases hrec.logged a ha with (hin | htail) | happ
      · exact .inl (.inl hin)
      · cases htail
      · rw [← hre.durable hst] at happ
        exact .inl (.inr (mem_filterMap_op.1 happ))

end Open

def fresh : Server ℕ := ⟨Engine.fresh,[],0,.idle,fun _ => [],⟨Lsn.invalid,TxnId.first⟩⟩

theorem fresh_start : Start fresh :=
  ⟨Engine.fresh_start,fun _ => rfl,rfl,rfl,rfl,rfl⟩

def plainLog : Config ℕ := ⟨16777216,by decide,by decide,fun _ => none⟩

/-- Transaction 2 deletes the row of 1 and stays open while a checkpoint is made. -/
def deletedAtCheckpoint : List (Step ℕ) :=
  (Engine.insertedRows 1 ++ Engine.deletedFirst).map (.table · 40) ++
    [.checkpointBegin 0,.checkpointSample,.checkpointEnd 40,.checkpointFlush,.checkpointSuperblock]

/-- A second checkpoint is cut off before it has written the superblock. -/
def cutCheckpoint : List (Step ℕ) :=
  [.checkpointBegin 0,.checkpointSample,.checkpointEnd 40,.checkpointFlush]

theorem crash_holds [DecidableEq K] {s : Server K} (hi : Inv schema s) {m n : ℕ} (hmn : m ≤ n)
    (hredo : (s.crash n (.asOf (s.log.take m))).redoStart ≤ stop Lsn.first (s.log.take m)) :
    (s.crash n (.asOf (s.log.take m))).Holds := by
  obtain ⟨e,ht⟩ := hi.stream.tied n
  obtain ⟨r,hr,-⟩ := ht.restored
  have hlog : s.log.take n = s.log.take m ++ (s.log.take n).drop m := by
    conv_lhs => rw [← List.take_append_drop m (s.log.take n)]
    rw [List.take_take,min_eq_left hmn]
  refine Files.asOf_holds hlog ?_ hredo hr rfl
  have h := hi.stream.contiguous
  rw [← List.take_append_drop n s.log] at h
  exact (RecordStream.contiguous_append.1 h).1

def Opened.losesRow (o : Opened ℕ) : Bool :=
  (o.restored.heap.tuple ⟨1,0⟩).any (fun h =>
    h.visible o.restored.freshSnapshot o.restored.heap.manager.getState) &&
  decide ((o.restored.values ⟨1,0⟩)[0]?.join = some 7 ∧
    (o.restored.heap.hotChainRoot ⟨1,0⟩).toOption = some ⟨1,0⟩ ∧ ⟨0,7,⟨1,0⟩⟩ ∉ o.restored.index)

theorem not_complete_of_losesRow {o : Opened ℕ} (h : o.losesRow = true) :
    ¬o.restored.Complete oneIndex := by
  intro hcomplete
  obtain ⟨hshow,hrest⟩ := Bool.and_eq_true_iff.1 h
  obtain ⟨hd,hh,hvis⟩ := (Option.any_eq_true _ _).1 hshow
  obtain ⟨hval,hroot,hnot⟩ := of_decide_eq_true hrest
  obtain ⟨root,hroot',hin⟩ := hcomplete ⟨1,0⟩ ⟨hd,hh,hvis⟩ 0 (List.mem_singleton.2 rfl) 7 hval
  rw [HeapHistory.eq_ok_of_toOption hroot] at hroot'
  cases hroot'
  exact hnot hin

def committedAtCheckpoint : List (Step ℕ) :=
  (Engine.insertedRows 1 ++ Engine.deletedFirst ++ [Engine.Step.commit 2]).map (.table · 40) ++
    [.checkpointBegin 0,.checkpointSample,.checkpointEnd 40,.checkpointFlush,.checkpointSuperblock]

/-- Files that have all of a log but the changes of heap pages behind a front of it. -/
def staleHeap (l : List (Item (Record ℕ))) (m : ℕ) : Files ℕ :=
  { Files.asOf l with
    pages := (Files.asOf (l.take m)).pages
    lsns := { (Files.asOf l).lsns with page := (Files.asOf (l.take m)).lsns.page } }

/-- The analysis does not know the open transaction: the row shows again without its entry. And so
it does if a checkpoint has left out the heap page of a committed deletion. -/
theorem open_loses_entry :
    (∃ s, Reach (step oneIndex) Start OrderlyStep s ∧
      (s.crash s.durable (.asOf (s.log.take s.durable))).Holds ∧
      (s.crash s.durable (.asOf (s.log.take s.durable))).Kept plainLog ∧
      (s.crash s.durable (.asOf (s.log.take s.durable))).Quiet plainLog ∧
      ∃ o, (s.crash s.durable (.asOf (s.log.take s.durable))).openEngine oneIndex plainLog =
        some o ∧ ¬o.restored.Complete oneIndex) ∧
    ∃ s, Reach (step oneIndex) Start OrderlyStep s ∧
      (s.crash s.durable (staleHeap s.log 4)).Kept plainLog ∧
      (s.crash s.durable (staleHeap s.log 4)).Listed ∧
      (s.crash s.durable (staleHeap s.log 4)).Quiet plainLog ∧
      ∃ o, (s.crash s.durable (staleHeap s.log 4)).openEngine oneIndex plainLog = some o ∧
        ¬o.restored.Complete oneIndex := by
  constructor
  · have hrun : ∃ s, Reach (step oneIndex) Start OrderlyStep s ∧
        decide ((s.crash s.durable (.asOf (s.log.take s.durable))).redoSegment plainLog = 0 ∧
          (s.crash s.durable (.asOf (s.log.take s.durable))).redoStart ≤
            stop Lsn.first (s.log.take s.durable) ∧
          ((s.crash s.durable (.asOf (s.log.take s.durable))).openEngine oneIndex plainLog).any
            Opened.losesRow = true) = true :=
      @exists_reach _ _ (step oneIndex) Start OrderlyStep _ fresh fresh_start
        (deletedAtCheckpoint ++ cutCheckpoint) _ (by decide +kernel)
    obtain ⟨s,hr,hs⟩ := hrun
    obtain ⟨hseg,hredo,hopen⟩ := of_decide_eq_true hs
    obtain ⟨o,ho,hlost⟩ := (Option.any_eq_true _ _).1 hopen
    exact ⟨s,hr,crash_holds (reach_inv hr) le_rfl hredo,
      fun _ _ _ _ _ _ => hseg ▸ Nat.zero_le _,fun _ _ _ _ => rfl,o,ho,
      not_complete_of_losesRow hlost⟩
  · have hrun : ∃ s, Reach (step oneIndex) Start OrderlyStep s ∧
        decide ((s.crash s.durable (staleHeap s.log 4)).redoSegment plainLog = 0 ∧
          Disk.findLatestCheckpointEnd
              ((s.crash s.durable (staleHeap s.log 4)).log.map Item.value) =
            some (s.crash s.durable (staleHeap s.log 4)).superblock.checkpointLsn ∧
          ((s.crash s.durable (staleHeap s.log 4)).openEngine oneIndex plainLog).any
            Opened.losesRow = true) = true :=
      @exists_reach _ _ (step oneIndex) Start OrderlyStep _ fresh fresh_start
        committedAtCheckpoint _ (by decide +kernel)
    obtain ⟨s,hr,hs⟩ := hrun
    obtain ⟨hseg,hnewest,hopen⟩ := of_decide_eq_true hs
    obtain ⟨o,ho,hlost⟩ := (Option.any_eq_true _ _).1 hopen
    exact ⟨s,hr,fun _ _ _ _ _ _ => hseg ▸ Nat.zero_le _,.inl hnewest,fun _ _ _ _ => rfl,o,ho,
      not_complete_of_losesRow hlost⟩

def insertedBehind : List (Step ℕ) :=
  ([.act (.manager .beginTxn),.act (.take 3),.act (.statement 3),.insert 3 1 [some 9],.maintain 3,
    .commit 3] : List (Engine.Step ℕ)).map (.table · 40)

/-- The entry that the open transaction had removed is back, from files as of the redo point. -/
theorem open_restores_entry :
    ∃ s o, Reach (step oneIndex) Start OrderlyStep s ∧ s.table.history.heap.Live 2 ∧
      ⟨0,7,⟨1,0⟩⟩ ∉ s.table.index ∧ ⟨0,9,⟨1,1⟩⟩ ∉ (Files.asOf (s.log.take 6)).index ∧
      (s.crash s.durable (.asOf (s.log.take 6))).openEngine oneIndex plainLog = some o ∧
      ⟨0,7,⟨1,0⟩⟩ ∈ o.restored.index ∧ ⟨0,9,⟨1,1⟩⟩ ∈ o.restored.index ∧
      o.restored.Complete oneIndex := by
  have hrun : ∃ s, Reach (step oneIndex) Start OrderlyStep s ∧
      decide ((s.crash s.durable (.asOf (s.log.take 6))).redoSegment plainLog = 0 ∧
        (s.crash s.durable (.asOf (s.log.take 6))).redoStart ≤ stop Lsn.first (s.log.take 6) ∧
        6 ≤ s.durable ∧
        Disk.findLatestCheckpointEnd
            ((s.crash s.durable (.asOf (s.log.take 6))).log.map Item.value) =
          some (s.crash s.durable (.asOf (s.log.take 6))).superblock.checkpointLsn ∧
        s.table.history.heap.Live 2 ∧ ⟨0,7,⟨1,0⟩⟩ ∉ s.table.index ∧
        ⟨0,9,⟨1,1⟩⟩ ∉ (Files.asOf (s.log.take 6)).index ∧
        ((s.crash s.durable (.asOf (s.log.take 6))).openEngine oneIndex plainLog).all (fun o =>
          decide (⟨0,7,⟨1,0⟩⟩ ∈ o.restored.index ∧ ⟨0,9,⟨1,1⟩⟩ ∈ o.restored.index)) = true) =
        true :=
    @exists_reach _ _ (step oneIndex) Start OrderlyStep _ fresh fresh_start
      (deletedAtCheckpoint ++ insertedBehind) _ (by decide +kernel)
  obtain ⟨s,hr,hs⟩ := hrun
  obtain ⟨hseg,hredo,hle,hnewest,hlive,hnot,hbehind,hback⟩ := of_decide_eq_true hs
  obtain ⟨o,ho,hcomplete,-⟩ := @open_keeps_entries _ _ plainLog _ _ hr _ le_rfl _
    (crash_holds (reach_inv hr) hle hredo) (fun _ _ _ _ _ _ => hseg ▸ Nat.zero_le _)
    (.inl hnewest) fun _ _ _ _ => rfl
  rw [ho] at hback
  obtain ⟨h7,h9⟩ := of_decide_eq_true hback
  exact ⟨s,o,hr,hlive,hnot,hbehind,ho,h7,h9,hcomplete⟩

end EngineLog
end PgAm
