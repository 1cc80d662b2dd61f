import PgAm.TxnSystem

/-! Transaction outcomes survive crashes. The commit log never holds a state that the
durable WAL does not justify, a checkpoint moves the redo point only past terminal
records whose state is synced, and replay covers the records behind it. -/
namespace PgAm
namespace TxnSystem

open Function

def Settles (a b : TxnState) : Prop := a = .inProgress ∨ a = b

theorem Settles.trans {a b c : TxnState} (h : Settles a b) (h' : Settles b c) : Settles a c := by
  rcases h with h | rfl
  · exact .inl h
  · exact h'

theorem Settles.eq_of_ne {a b : TxnState} (h : Settles a b) (ha : a ≠ .inProgress) : b = a :=
  (h.resolve_left ha).symm

@[simp] theorem state_ne_inProgress (o : Outcome) : o.state ≠ .inProgress := by
  cases o <;> simp [Outcome.state]

@[simp] theorem record_ne_other (o : Outcome) (x y : ℕ) : o.record x ≠ .other y := by
  cases o <;> simp [Outcome.record]

@[simp] theorem record_ne_checkpointBegin (o : Outcome) (x : ℕ) :
    o.record x ≠ .checkpointBegin := by
  cases o <;> simp [Outcome.record]

@[simp] theorem record_ne_checkpointEnd (o : Outcome) (x a b : ℕ) :
    o.record x ≠ .checkpointEnd a b := by
  cases o <;> simp [Outcome.record]

theorem record_inj {o o' : Outcome} {x y : ℕ} (h : o.record x = o'.record y) : o = o' ∧ x = y := by
  cases o <;> cases o' <;> simp_all [Outcome.record]

/-- The superblock or a durable record from the redo point on names the transaction. -/
def Bound (s : Sys) (xid : ℕ) : Prop :=
  xid < s.superblock.nextTxnId ∨ ∃ r ∈ (s.log.take s.synced).drop (redoStart s), r.txnId = xid

/-- A durable terminal record, or a loser of an earlier incarnation that can never commit. -/
def Justified (s : Sys) (xid : ℕ) : TxnState → Prop
  | .inProgress => True
  | .committed => Rec.txnCommit xid ∈ s.log.take s.synced
  | .aborted => Rec.txnAbort xid ∈ s.log.take s.synced ∨
      (Bound s xid ∧ Rec.txnCommit xid ∉ s.log ∧ s.calls xid = none)
  | .subCommitted => False

structure Common (s : Sys) : Prop where
  synced_le : s.synced ≤ s.log.length
  redo_le : s.superblock.checkpointLsn ≤ s.synced
  oldest_le : s.oldest ≤ redoStart s
  next_pos : 1 ≤ s.superblock.nextTxnId
  positive : ∀ o : Outcome, o.record 0 ∉ s.log
  unique : ∀ x, Rec.txnCommit x ∈ s.log → Rec.txnAbort x ∉ s.log
  file_settles : ∀ x, Settles (s.clog.stable x) (s.clog.file x)
  mem_settles : ∀ x, Settles (s.clog.file x) (s.clog.mem x)
  justified : ∀ x, Justified s x (s.clog.mem x)
  stable : ∀ (o : Outcome) x, o.record x ∈ s.log.take (redoStart s) → s.clog.stable x = o.state
  known : ∀ r ∈ s.log.take (redoStart s), r.txnId < s.superblock.nextTxnId
  snapshot : ∀ x ∈ s.attFiles s.superblock.checkpointLsn, x < s.superblock.nextTxnId

variable {s : Sys}

theorem Common.redoStart_le (h : Common s) : redoStart s ≤ s.synced :=
  (Nat.sub_le _ _).trans h.redo_le

variable {x : ℕ}

theorem Common.outcome_eq (h : Common s) {o o' : Outcome}
    (ho : o.record x ∈ s.log) (ho' : o'.record x ∈ s.log) : o = o' := by
  cases o <;> cases o' <;> first | rfl | skip
  · exact absurd ho' (h.unique x ho)
  · exact absurd ho (h.unique x ho')

variable {o : Outcome}

theorem Common.mem_of_record (h : Common s)
    (ho : o.record x ∈ s.log) : Settles (s.clog.mem x) o.state := by
  have hj := h.justified x
  cases hm : s.clog.mem x with
  | inProgress => exact .inl rfl
  | committed =>
    rw [hm] at hj
    have hc : Outcome.commit.record x ∈ s.log := List.mem_of_mem_take hj
    exact .inr (by rw [h.outcome_eq ho hc]; rfl)
  | aborted =>
    rw [hm] at hj
    rcases hj with hj | ⟨-,hj,-⟩
    · have hc : Outcome.abort.record x ∈ s.log := List.mem_of_mem_take hj
      exact .inr (by rw [h.outcome_eq ho hc]; rfl)
    · cases o with
      | commit => exact absurd ho hj
      | abort => exact .inr rfl
  | subCommitted =>
    rw [hm] at hj
    exact hj.elim

theorem mem_drop_take_mono {log : List Rec} {k m n : ℕ} (h : m ≤ n) {r : Rec}
    (hr : r ∈ (log.take m).drop k) : r ∈ (log.take n).drop k := by
  rw [List.drop_take] at hr ⊢
  exact List.take_subset_take_left _ (Nat.sub_le_sub_right h k) hr

theorem Justified.mono {s s' : Sys} {v : TxnState} (h : Justified s x v)
    (hdur : ∀ r ∈ s.log.take s.synced, r ∈ s'.log.take s'.synced)
    (hloser : Bound s x → Rec.txnCommit x ∉ s.log → s.calls x = none →
      Bound s' x ∧ Rec.txnCommit x ∉ s'.log ∧ s'.calls x = none) : Justified s' x v := by
  cases v with
  | inProgress => trivial
  | committed => exact hdur _ h
  | aborted => exact h.imp (hdur _) fun ⟨hb,hc,hn⟩ => hloser hb hc hn
  | subCommitted => exact h

/-- A terminal record has to be the first of a live transaction. -/
theorem Common.append {s : Sys} (h : Common s) {r : Rec}
    (hr : ∀ (o : Outcome) x, r = o.record x →
      x ≠ 0 ∧ s.calls x ≠ none ∧ ∀ o' : Outcome, o'.record x ∉ s.log) :
    Common { s with log := s.log ++ [r] } := by
  have hold : ∀ {n}, n ≤ s.log.length → (s.log ++ [r]).take n = s.log.take n :=
    List.take_append_of_le_length
  have hsync := hold h.synced_le
  have hredo := hold (h.redoStart_le.trans h.synced_le)
  have hmem : ∀ {o : Outcome} {x}, o.record x ∈ s.log ++ [r] → o.record x ∈ s.log ∨
      x ≠ 0 ∧ s.calls x ≠ none ∧ ∀ o' : Outcome, o'.record x ∉ s.log := by
    intro o x hx
    rcases List.mem_append.1 hx with hx | hx
    · exact .inl hx
    · exact .inr (hr o x (List.mem_singleton.1 hx).symm)
  refine { h with
    synced_le := h.synced_le.trans (by simp), positive := ?_, unique := ?_
    justified := fun x => (h.justified x).mono ?_ ?_, stable := ?_, known := ?_ }
  · exact fun o ho => (hmem ho).elim (h.positive o) fun hx => hx.1 rfl
  · intro x hc ha
    have hc' := @hmem .commit x hc
    have ha' := @hmem .abort x ha
    rcases hc' with hc' | ⟨-,-,hnew⟩
    · rcases ha' with ha' | ⟨-,-,hnew⟩
      · exact h.unique x hc' ha'
      · exact hnew .commit hc'
    · have hc'' := (List.mem_append.1 hc).resolve_left (hnew .commit)
      have ha'' := (List.mem_append.1 ha).resolve_left (hnew .abort)
      cases (List.mem_singleton.1 hc'').trans (List.mem_singleton.1 ha'').symm
  · exact fun q hq => by rwa [hsync]
  · intro hb hc hn
    refine ⟨?_,fun hx => (@hmem .commit x hx).elim hc fun hx => hx.2.1 hn,hn⟩
    unfold Bound redoStart at hb ⊢
    rwa [hsync]
  · intro o x hx
    change o.record x ∈ (s.log ++ [r]).take (redoStart s) at hx
    exact h.stable o x (hredo ▸ hx)
  · intro q hq
    change q ∈ (s.log ++ [r]).take (redoStart s) at hq
    exact h.known q (hredo ▸ hq)

theorem Common.sync {s : Sys} (h : Common s) {n : ℕ} (hn : s.synced ≤ n)
    (hle : n ≤ s.log.length) : Common { s with synced := n } :=
  { h with
    synced_le := hle
    redo_le := h.redo_le.trans hn
    justified := fun x =>
      (h.justified x).mono (fun _ hr => List.take_subset_take_left _ hn hr) fun hb hc hno =>
        ⟨hb.imp id fun ⟨q,hq,hx⟩ => ⟨q,mem_drop_take_mono hn hq,hx⟩,hc,hno⟩ }

theorem Common.setState (h : Common s) {st : TxnState}
    (hst : Settles (s.clog.mem x) st) (hj : Justified s x st) :
    Common { s with clog := s.clog.setState x st } := by
  unfold Clog.setState
  split
  · exact { h with }
  refine { h with mem_settles := fun y => ?_, justified := fun y => ?_ }
  · by_cases hy : y = x
    · subst hy
      simpa using (h.mem_settles y).trans hst
    · simpa [update_of_ne hy] using h.mem_settles y
  · change Justified s y (update s.clog.mem x st y)
    by_cases hy : y = x
    · subst hy
      simpa using hj
    · simpa [update_of_ne hy] using h.justified y

theorem Common.write (h : Common s) {c : Clog} (hmem : c.mem = s.clog.mem)
    (hstable : ∀ x, Settles (s.clog.stable x) (c.stable x))
    (hfile : ∀ x, Settles (c.stable x) (c.file x))
    (hcache : ∀ x, Settles (c.file x) (c.mem x)) : Common { s with clog := c } := by
  refine { h with
    file_settles := hfile, mem_settles := hcache, justified := fun x => ?_
    stable := fun o x hx => ?_ }
  · change Justified s x (c.mem x)
    rw [hmem]
    exact h.justified x
  · have hs := h.stable o x hx
    exact ((hstable x).eq_of_ne (by simp [hs])).trans hs

theorem Common.setCalls (h : Common s) {calls : ℕ → Option Call}
    (hcalls : ∀ x, Bound s x → s.calls x = none → calls x = none) :
    Common { s with calls := calls } :=
  { h with
    justified := fun x =>
      (h.justified x).mono (fun _ hr => hr) fun hb hc hn => ⟨hb,hc,hcalls x hb hn⟩ }

theorem Common.justified_of_settles (h : Common s) {v : TxnState}
    (hv : Settles v (s.clog.mem x)) : Justified s x v := by
  rcases hv with rfl | rfl
  · trivial
  · exact h.justified x

theorem Common.crash (h : Common s) {n : ℕ} (hn : s.synced ≤ n)
    (hle : n ≤ s.log.length) (keep : ℕ → Bool) :
    Common { s with
      log := s.log.take n, poisoned := false, clog := s.clog.crash keep, active := []
      calls := fun _ => none, readers := [], checkpoint := .idle, mode := .down } := by
  have hprefix : ∀ {k}, k ≤ n → (s.log.take n).take k = s.log.take k := fun hk => by
    rw [List.take_take,Nat.min_eq_left hk]
  have hredo := hprefix (h.redoStart_le.trans hn)
  have hsync := hprefix hn
  have hfound : ∀ x, Settles ((s.clog.crash keep).mem x) (s.clog.mem x) := by
    intro x
    change Settles (if keep x then s.clog.file x else s.clog.stable x) _
    split
    · exact h.mem_settles x
    · exact (h.file_settles x).trans (h.mem_settles x)
  refine ⟨?_,h.redo_le,h.oldest_le,h.next_pos,fun o ho => h.positive o (List.mem_of_mem_take ho),
    fun x hc ha => h.unique x (List.mem_of_mem_take hc) (List.mem_of_mem_take ha),
    fun x => ?_,fun x => .inr rfl,fun x => ?_,fun o x hx => ?_,fun r hr => ?_,h.snapshot⟩
  · simpa [hle] using hn
  · change Settles (s.clog.stable x) (if keep x then s.clog.file x else s.clog.stable x)
    split
    · exact h.file_settles x
    · exact .inr rfl
  · refine (h.justified_of_settles (hfound x)).mono (fun r hr => ?_) fun hb hc _ =>
      ⟨?_,fun hx => hc (List.mem_of_mem_take hx),rfl⟩
    · rwa [hsync]
    · unfold Bound redoStart at hb ⊢
      rwa [hsync]
  · exact h.stable o x (hredo ▸ hx)
  · exact h.known r (hredo ▸ hr)

variable {b n : ℕ}

/-- The earlier terminal records have to be in the synced commit log. -/
theorem Common.writeSuperblock (h : Common s) (hb : b ≤ s.synced)
    (hredo : redoStart s ≤ b - 1) (hn : s.superblock.nextTxnId ≤ n)
    (hstable : ∀ (o : Outcome) x, o.record x ∈ s.log.take (b - 1) → s.clog.stable x = o.state)
    (hknown : ∀ r ∈ s.log.take (b - 1), r.txnId < n) (hatt : ∀ x ∈ s.attFiles b, x < n) :
    Common { s with superblock := ⟨b,n⟩ } := by
  refine { h with
    redo_le := hb, oldest_le := h.oldest_le.trans hredo, next_pos := h.next_pos.trans hn
    justified := fun x => (h.justified x).mono (fun _ hr => hr) fun hbd hc hno => ⟨?_,hc,hno⟩
    stable := hstable, known := hknown, snapshot := hatt }
  rcases hbd with hlt | ⟨r,hr,hx⟩
  · exact .inl (hlt.trans_le hn)
  · have hmem := List.mem_of_mem_drop hr
    rw [← List.take_append_drop (b - 1) (s.log.take s.synced)] at hmem
    rcases List.mem_append.1 hmem with hmem | hmem
    · rw [List.take_take,Nat.min_eq_left (by omega)] at hmem
      exact .inl (hx ▸ hknown r hmem)
    · exact .inr ⟨r,hmem,hx⟩

theorem settles_writePage {c : Clog} (h : ∀ x, Settles (c.stable x) (c.file x))
    (h' : ∀ x, Settles (c.file x) (c.mem x)) (page x : ℕ) :
    Settles (c.stable x) ((c.writePage page).file x) ∧
      Settles ((c.writePage page).file x) (c.mem x) := by
  change Settles _ (if Clog.pageNoOfXid x = page then c.mem x else c.file x) ∧
    Settles (if Clog.pageNoOfXid x = page then c.mem x else c.file x) _
  split
  · exact ⟨(h x).trans (h' x),.inr rfl⟩
  · exact ⟨h x,h' x⟩

theorem Common.writePage (h : Common s) (page : ℕ) :
    Common { s with clog := s.clog.writePage page } :=
  h.write rfl (fun _ => .inr rfl)
    (fun x => (settles_writePage h.file_settles h.mem_settles page x).1)
    fun x => (settles_writePage h.file_settles h.mem_settles page x).2

theorem Common.syncSegment (h : Common s) (segment : ℕ) :
    Common { s with clog := s.clog.syncSegment segment } := by
  refine h.write rfl (fun x => ?_) (fun x => ?_) h.mem_settles
  · change Settles _ (if Clog.segmentIdOfXid x = segment then s.clog.file x else s.clog.stable x)
    split
    · exact h.file_settles x
    · exact .inr rfl
  · change Settles (if Clog.segmentIdOfXid x = segment then s.clog.file x else s.clog.stable x) _
    split
    · exact .inr rfl
    · exact h.file_settles x

theorem Common.flushDirty (h : Common s) : Common { s with clog := s.clog.flushDirty } :=
  h.write rfl (fun x => (h.file_settles x).trans (h.mem_settles x)) (fun _ => .inr rfl)
    fun _ => .inr rfl

def Call.inProgress : Call → Bool
  | .holding _ | .appended .. | .flushed _ | .stateSet _ => true
  | .running | .ended => false

/-- What is known about a transaction from the progress of its ending call. -/
def CallInv (s : Sys) (x : ℕ) : Call → Prop
  | .running | .holding _ => s.poisoned = false → ∀ o : Outcome, o.record x ∉ s.log
  | .appended o lsn => 1 ≤ lsn ∧ s.log[lsn - 1]? = some (o.record x)
  | .flushed o => o.record x ∈ s.log.take s.synced
  | .stateSet o => s.clog.mem x = o.state ∧ o.record x ∈ s.log
  | .ended => True

/-- No transaction is ending, and those that ended before the begin record are in the commit log. -/
structure Held (s : Sys) (b : ℕ) : Prop where
  readers : s.readers = []
  later : s.superblock.checkpointLsn < b
  le : b ≤ s.log.length
  settled : ∀ (o : Outcome) x, o.record x ∈ s.log.take (b - 1) → s.clog.mem x = o.state

/-- The checkpoint has flushed the commit log and read the clock. -/
structure Sampled (s : Sys) (b n : ℕ) : Prop where
  held : Held s b
  stable : ∀ (o : Outcome) x, o.record x ∈ s.log.take (b - 1) → s.clog.stable x = o.state
  next : s.superblock.nextTxnId ≤ n
  clock : n ≤ s.txnIdClock
  known : ∀ r ∈ s.log.take (b - 1), r.txnId < n
  att : ∀ x ∈ s.attFiles b, x < n

def CheckpointInv (s : Sys) : Checkpoint → Prop
  | .idle => True
  | .locked => s.readers = []
  | .begun b => Held s b
  | .snapshotWritten b => Held s b ∧ ∀ x ∈ s.attFiles b, x < s.txnIdClock
  | .clogFlushed b => (Held s b ∧ ∀ x ∈ s.attFiles b, x < s.txnIdClock) ∧
      ∀ (o : Outcome) x, o.record x ∈ s.log.take (b - 1) → s.clog.stable x = o.state
  | .sampled b n => Sampled s b n
  | .endAppended b n e => Sampled s b n ∧ b ≤ e
  | .endFlushed b n => Sampled s b n ∧ b ≤ s.synced
  | .superblockWritten b => s.readers = [] ∧ s.superblock.checkpointLsn = b

structure Running (s : Sys) : Prop where
  clock_next : s.superblock.nextTxnId ≤ s.txnIdClock
  clock_log : ∀ r ∈ s.log, r.txnId < s.txnIdClock
  clock_active : ∀ x ∈ s.active, x < s.txnIdClock
  clock_calls : ∀ x, s.calls x ≠ none → 1 ≤ x ∧ x < s.txnIdClock
  call : ∀ x c, s.calls x = some c → CallInv s x c
  guard : ∀ x c, s.calls x = some c → c.inProgress = true → x ∈ s.readers
  settled : ∀ (o : Outcome) x, o.record x ∈ s.log →
    s.clog.mem x = o.state ∨ s.poisoned = true ∨ x ∈ s.readers
  checkpoint : CheckpointInv s s.checkpoint

theorem CheckpointInv.readers {c : Checkpoint} (h : CheckpointInv s c)
    (hc : c ≠ .idle) : s.readers = [] := by
  cases c with
  | idle => exact absurd rfl hc
  | locked => exact h
  | begun b => exact Held.readers h
  | snapshotWritten b => exact h.1.readers
  | clogFlushed b => exact h.1.1.readers
  | sampled b n => exact (Sampled.held h).readers
  | endAppended b n e | endFlushed b n => exact h.1.held.readers
  | superblockWritten b => exact h.1

variable {c : Call}

/-- The barrier keeps ending transactions and checkpoints apart. -/
theorem Running.checkpoint_idle (h : Running s)
    (hx : s.calls x = some c) (hc : c.inProgress = true) : s.checkpoint = .idle := by
  by_contra hne
  have hmem := h.guard x c hx hc
  rw [h.checkpoint.readers hne] at hmem
  cases hmem

theorem Running.lt_clock (h : Running s) (hx : Bound s x) : x < s.txnIdClock := by
  rcases hx with hx | ⟨r,hr,rfl⟩
  · exact hx.trans_le h.clock_next
  · exact h.clock_log r (List.mem_of_mem_take (List.mem_of_mem_drop hr))

/-- Only non-terminal records are added and no cached state changes. -/
structure Advances (s s' : Sys) : Prop where
  readers : s'.readers = s.readers
  clock : s.txnIdClock ≤ s'.txnIdClock
  mem : s'.clog.mem = s.clog.mem
  synced : s.synced ≤ s'.synced
  poisoned : s.poisoned = true → s'.poisoned = true
  log : ∃ extra, s'.log = s.log ++ extra ∧
    ∀ r ∈ extra, r.txnId < s'.txnIdClock ∧ ∀ (o : Outcome) x, r ≠ o.record x

theorem Advances.record_mem {s s' : Sys} (h : Advances s s')
    (hx : o.record x ∈ s'.log) : o.record x ∈ s.log := by
  obtain ⟨extra,hlog,hextra⟩ := h.log
  rw [hlog] at hx
  exact (List.mem_append.1 hx).resolve_right fun hx => (hextra _ hx).2 o x rfl

theorem Advances.take_eq {s s' : Sys} (h : Advances s s') {n : ℕ} (hn : n ≤ s.log.length) :
    s'.log.take n = s.log.take n := by
  obtain ⟨extra,hlog,-⟩ := h.log
  rw [hlog,List.take_append_of_le_length hn]

theorem CallInv.mono {s s' : Sys} (hc : CallInv s x c)
    (hs : s.synced ≤ s.log.length) (hlog : s.log <+: s'.log) (hsynced : s.synced ≤ s'.synced)
    (hpoisoned : s.poisoned = true → s'.poisoned = true)
    (hmem : s'.clog.mem x = s.clog.mem x)
    (hrec : ∀ o : Outcome, o.record x ∈ s'.log → o.record x ∈ s.log) : CallInv s' x c := by
  obtain ⟨extra,hlog⟩ := hlog
  have hfresh : (s.poisoned = false → ∀ o : Outcome, o.record x ∉ s.log) →
      s'.poisoned = false → ∀ o : Outcome, o.record x ∉ s'.log := by
    intro hold hp o ho
    have hp' : s.poisoned = false := by
      cases hq : s.poisoned with
      | false => rfl
      | true => rw [hpoisoned hq] at hp; cases hp
    exact hold hp' o (hrec o ho)
  cases c with
  | running | holding o => exact hfresh hc
  | appended o lsn =>
    refine ⟨hc.1,?_⟩
    have hlt : lsn - 1 < s.log.length := (List.getElem?_eq_some_iff.1 hc.2).1
    rw [← hlog,List.getElem?_append_left hlt]
    exact hc.2
  | flushed o =>
    have heq : s'.log.take s.synced = s.log.take s.synced := by
      rw [← hlog,List.take_append_of_le_length hs]
    have hc' : o.record x ∈ s'.log.take s.synced := heq ▸ hc
    exact List.take_subset_take_left _ hsynced hc'
  | stateSet o =>
    refine ⟨hmem.trans hc.1,?_⟩
    rw [← hlog]
    exact List.mem_append_left _ hc.2
  | ended => trivial

theorem Advances.log_append {s s' : Sys} (h : Advances s s') : s.log <+: s'.log :=
  h.log.imp fun _ he => he.1.symm

theorem Advances.callInv {s s' : Sys} (h : Advances s s') (hs : s.synced ≤ s.log.length)
    (hc : CallInv s x c) : CallInv s' x c :=
  hc.mono hs h.log_append h.synced h.poisoned (congrFun h.mem x) fun _ => h.record_mem

theorem Running.advance {s s' : Sys} (h : Running s) (hs : s.synced ≤ s.log.length)
    (ha : Advances s s') (hcalls : s'.calls = s.calls) (hactive : s'.active = s.active)
    (hnext : s'.superblock.nextTxnId ≤ s'.txnIdClock)
    (hck : CheckpointInv s' s'.checkpoint) : Running s' where
  clock_next := hnext
  clock_log r hr := by
    obtain ⟨extra,hlog,hextra⟩ := ha.log
    rw [hlog] at hr
    exact (List.mem_append.1 hr).elim (fun hr => (h.clock_log r hr).trans_le ha.clock)
      fun hr => (hextra r hr).1
  clock_active x hx := by
    rw [hactive] at hx
    exact (h.clock_active x hx).trans_le ha.clock
  clock_calls x hx := by
    rw [hcalls] at hx
    exact (h.clock_calls x hx).imp id fun hlt => hlt.trans_le ha.clock
  call x c hx := by
    rw [hcalls] at hx
    exact ha.callInv hs (h.call x c hx)
  guard x c hx hc := by
    rw [hcalls] at hx
    rw [ha.readers]
    exact h.guard x c hx hc
  settled o x hx := by
    rw [ha.mem,ha.readers]
    exact (h.settled o x (ha.record_mem hx)).imp id fun hp => hp.imp ha.poisoned id
  checkpoint := hck

theorem Advances.of_eq {s s' : Sys} (hpoisoned : s.poisoned = true → s'.poisoned = true)
    (hmem : s'.clog.mem = s.clog.mem := by rfl) (hreaders : s'.readers = s.readers := by rfl)
    (hclock : s'.txnIdClock = s.txnIdClock := by rfl) (hsynced : s'.synced = s.synced := by rfl)
    (hlog : s'.log = s.log := by rfl) : Advances s s' :=
  ⟨hreaders,hclock.ge,hmem,hsynced.ge,hpoisoned,[],by simp [hlog],by simp⟩

theorem Held.advance {s s' : Sys} {b : ℕ} (h : Held s b) (ha : Advances s s')
    (hsb : s'.superblock = s.superblock) : Held s' b where
  readers := ha.readers.trans h.readers
  later := by rw [hsb]; exact h.later
  le := by
    obtain ⟨extra,hlog,-⟩ := ha.log
    rw [hlog,List.length_append]
    exact h.le.trans (Nat.le_add_right _ _)
  settled o x hx := by
    rw [ha.take_eq ((Nat.sub_le _ _).trans h.le)] at hx
    rw [ha.mem]
    exact h.settled o x hx

theorem stable_advance {s s' : Sys} {b : ℕ} (ha : Advances s s') (hb : b ≤ s.log.length)
    (hst : ∀ x, Settles (s.clog.stable x) (s'.clog.stable x))
    (h : ∀ (o : Outcome) x, o.record x ∈ s.log.take (b - 1) → s.clog.stable x = o.state) :
    ∀ (o : Outcome) x, o.record x ∈ s'.log.take (b - 1) → s'.clog.stable x = o.state := by
  intro o x hx
  rw [ha.take_eq ((Nat.sub_le _ _).trans hb)] at hx
  have hs := h o x hx
  exact ((hst x).eq_of_ne (by simp [hs])).trans hs

theorem Sampled.advance {s s' : Sys} (h : Sampled s b n) (ha : Advances s s')
    (hsb : s'.superblock = s.superblock) (hatt : s'.attFiles = s.attFiles)
    (hst : ∀ x, Settles (s.clog.stable x) (s'.clog.stable x)) : Sampled s' b n where
  held := h.held.advance ha hsb
  stable := stable_advance ha h.held.le hst h.stable
  next := by rw [hsb]; exact h.next
  clock := h.clock.trans ha.clock
  known r hr := by
    rw [ha.take_eq ((Nat.sub_le _ _).trans h.held.le)] at hr
    exact h.known r hr
  att := by rw [hatt]; exact h.att

theorem CheckpointInv.advance {s s' : Sys} {c : Checkpoint} (h : CheckpointInv s c)
    (ha : Advances s s') (hsb : s'.superblock = s.superblock) (hatt : s'.attFiles = s.attFiles)
    (hst : ∀ x, Settles (s.clog.stable x) (s'.clog.stable x)) : CheckpointInv s' c := by
  have hfiles : ∀ {b}, (∀ x ∈ s.attFiles b, x < s.txnIdClock) →
      ∀ x ∈ s'.attFiles b, x < s'.txnIdClock := fun hold x hx => by
    rw [hatt] at hx
    exact (hold x hx).trans_le ha.clock
  cases c with
  | idle => trivial
  | locked => exact ha.readers.trans h
  | begun b => exact Held.advance h ha hsb
  | snapshotWritten b => exact ⟨h.1.advance ha hsb,hfiles h.2⟩
  | clogFlushed b =>
    exact ⟨⟨h.1.1.advance ha hsb,hfiles h.1.2⟩,stable_advance ha h.1.1.le hst h.2⟩
  | sampled b n => exact Sampled.advance h ha hsb hatt hst
  | endAppended b n e => exact ⟨h.1.advance ha hsb hatt hst,h.2⟩
  | endFlushed b n => exact ⟨h.1.advance ha hsb hatt hst,h.2.trans ha.synced⟩
  | superblockWritten b => exact ⟨ha.readers.trans h.1,by rw [hsb]; exact h.2⟩

theorem append_cases (s : Sys) (r : Rec) (fault : Option Bool) :
    (append s r fault = (some (s.log.length + 1),{ s with log := s.log ++ [r] }) ∧
      s.poisoned = false) ∨
    ∃ log, append s r fault = (none,{ s with log := log, poisoned := true }) ∧
      (log = s.log ∨ s.poisoned = false ∧ log = s.log ++ [r]) := by
  unfold append
  cases hp : s.poisoned with
  | true => exact .inr ⟨s.log,by simp [← hp],.inl rfl⟩
  | false =>
    cases fault with
    | none => exact .inl ⟨by simp,rfl⟩
    | some left =>
      cases left with
      | false => exact .inr ⟨s.log,by simp,.inl rfl⟩
      | true => exact .inr ⟨s.log ++ [r],by simp,.inr ⟨rfl,rfl⟩⟩

inductive TxnGoes (s : Sys) : Sys → Prop
  | begin : TxnGoes s (setCall { s with
      txnIdClock := s.txnIdClock + 1, active := s.txnIdClock :: s.active } s.txnIdClock .running)
  | log {x : ℕ} {log : List Rec} {poisoned : Bool}
      (hx : x = TxnId.invalid ∨ s.calls x = some .running)
      (hlog : log = s.log ∨ log = s.log ++ [.other x]) (hp : s.poisoned = true → poisoned = true) :
      TxnGoes s { s with log := log, poisoned := poisoned }
  | start {x : ℕ} {o : Outcome} (hx : s.calls x = some .running) (hc : s.checkpoint = .idle) :
      TxnGoes s { setCall s x (.holding o) with readers := x :: s.readers }
  | append {x : ℕ} {o : Outcome} (hx : s.calls x = some (.holding o)) (hp : s.poisoned = false) :
      TxnGoes s (setCall { s with log := s.log ++ [o.record x] } x (.appended o (s.log.length + 1)))
  | flush {x lsn : ℕ} {o : Outcome} (hx : s.calls x = some (.appended o lsn))
      (hlsn : lsn ≤ s.synced) : TxnGoes s (setCall s x (.flushed o))
  | fail {x : ℕ} {c : Call} {log : List Rec} (hx : s.calls x = some c) (hc : c.inProgress = true)
      (hset : ∀ o, c ≠ .stateSet o) (hlog : log = s.log ∨
        s.poisoned = false ∧ ∃ o, c = .holding o ∧ log = s.log ++ [o.record x]) :
      TxnGoes s (failCall { s with log := log, poisoned := true } x)
  | set {x : ℕ} {o : Outcome} (hx : s.calls x = some (.flushed o)) :
      TxnGoes s (setCall { s with clog := s.clog.setState x o.state } x (.stateSet o))
  | leave {x : ℕ} {o : Outcome} (hx : s.calls x = some (.stateSet o)) :
      TxnGoes s { setCall s x .ended with
        active := s.active.filter (· ≠ x), readers := s.readers.filter (· ≠ x) }

theorem stepTxn_goes {s s' : Sys} {a : Step} (h : stepTxn s a = some s') : TxnGoes s s' := by
  cases a with
  | beginTxn =>
    cases h
    exact .begin
  | log x fault =>
    obtain ⟨hx,rfl⟩ := of_guard h
    rcases append_cases s (.other x) fault with ⟨he,-⟩ | ⟨log,he,hlog⟩ <;> rw [he]
    · exact .log hx (.inr rfl) id
    · exact .log hx (hlog.imp_right And.right) fun _ => rfl
  | startEnd x o =>
    obtain ⟨⟨hx,hc⟩,rfl⟩ := of_guard h
    exact .start hx hc
  | appendEnd x fault =>
    simp only [stepTxn] at h
    split at h
    · rename_i o hx
      rcases append_cases s (o.record x) fault with ⟨he,hp⟩ | ⟨log,he,hlog⟩ <;> rw [he] at h <;>
        cases h
      · exact .append hx hp
      · exact .fail hx rfl (by rintro _ ⟨⟩) (hlog.imp_right fun ⟨hp,hl⟩ => ⟨hp,o,rfl,hl⟩)
    · cases h
  | flushEnd x ok =>
    simp only [stepTxn] at h
    split at h
    · rename_i hx
      split at h
      · obtain ⟨hlsn,rfl⟩ := of_guard h
        exact .flush hx hlsn
      · cases h
        exact .fail hx rfl (by rintro _ ⟨⟩) (.inl rfl)
    · cases h
  | setState x =>
    simp only [stepTxn] at h
    split at h <;> cases h
    exact .set ‹_›
  | leaveActive x =>
    simp only [stepTxn] at h
    split at h <;> cases h
    exact .leave ‹_›
  | _ => cases h

inductive CheckpointGoes (s : Sys) : Sys → Prop
  | lock (hr : s.readers = []) : CheckpointGoes s { s with checkpoint := .locked }
  | begin (hc : s.checkpoint = .locked) (hp : s.poisoned = false) : CheckpointGoes s { s with
      log := s.log ++ [.checkpointBegin], checkpoint := .begun (s.log.length + 1) }
  | snapshot {b : ℕ} (hc : s.checkpoint = .begun b) : CheckpointGoes s { s with
      attFiles := update s.attFiles b s.active, checkpoint := .snapshotWritten b }
  | flush {b : ℕ} (hc : s.checkpoint = .snapshotWritten b) : CheckpointGoes s { s with
      clog := s.clog.flushDirty, checkpoint := .clogFlushed b }
  | flushFail (pages segments : List ℕ) : CheckpointGoes s { s with
      clog := segments.foldl Clog.syncSegment (pages.foldl Clog.writePage s.clog)
      checkpoint := .idle }
  | sample {b : ℕ} (hc : s.checkpoint = .clogFlushed b) :
      CheckpointGoes s { s with checkpoint := .sampled b s.txnIdClock }
  | append {b n : ℕ} (hc : s.checkpoint = .sampled b n) : CheckpointGoes s { s with
      log := s.log ++ [.checkpointEnd b n], checkpoint := .endAppended b n (s.log.length + 1) }
  | endFlush {b n lsn : ℕ} (hc : s.checkpoint = .endAppended b n lsn) (hlsn : lsn ≤ s.synced) :
      CheckpointGoes s { s with checkpoint := .endFlushed b n }
  | superblock {b n : ℕ} {c : Checkpoint} (hc : s.checkpoint = .endFlushed b n)
      (hc' : c = .superblockWritten b ∨ c = .idle) :
      CheckpointGoes s { s with superblock := ⟨b,n⟩, checkpoint := c }
  | recycle {b n : ℕ} (hc : s.checkpoint = .superblockWritten b) (hn : n < b) :
      CheckpointGoes s { s with oldest := n, checkpoint := .idle }
  | stop {log : List Rec} {poisoned : Bool} (hlog : log = s.log ∨
      ∃ r, log = s.log ++ [r] ∧ r.txnId = 0 ∧ ∀ (o : Outcome) x, r ≠ o.record x)
      (hp : s.poisoned = true → poisoned = true) :
      CheckpointGoes s { s with log := log, poisoned := poisoned, checkpoint := .idle }

theorem stepCheckpoint_goes {s s' : Sys} {a : Step} (h : stepCheckpoint s a = some s') :
    CheckpointGoes s s' := by
  cases a with
  | checkpointLock =>
    obtain ⟨hok,rfl⟩ := of_guard h
    exact .lock hok.2
  | checkpointBegin fault =>
    obtain ⟨hc,h⟩ := Option.ite_none_right_eq_some.1 h
    rcases append_cases s .checkpointBegin fault with ⟨he,hp⟩ | ⟨log,he,hlog⟩ <;> rw [he] at h <;>
      cases h
    · exact .begin hc hp
    · exact .stop (hlog.imp_right fun hl => ⟨_,hl.2,rfl,fun o x he =>
        record_ne_checkpointBegin o x he.symm⟩) fun _ => rfl
  | checkpointEnd fault =>
    simp only [stepCheckpoint] at h
    split at h
    · rename_i b n hc
      rcases append_cases s (.checkpointEnd b n) fault with ⟨he,-⟩ | ⟨log,he,hlog⟩ <;>
        rw [he] at h <;> cases h
      · exact .append hc
      · exact .stop (hlog.imp_right fun hl => ⟨_,hl.2,rfl,fun o x he =>
          record_ne_checkpointEnd o x b n he.symm⟩) fun _ => rfl
    · cases h
  | checkpointEndFlush ok =>
    simp only [stepCheckpoint] at h
    split at h
    · rename_i hc
      split at h
      · obtain ⟨hlsn,rfl⟩ := of_guard h
        exact .endFlush hc hlsn
      · cases h
        exact .stop (.inl rfl) fun _ => rfl
    · cases h
  | checkpointSuperblock written ok =>
    simp only [stepCheckpoint] at h
    split at h
    · rename_i hc
      split at h <;> cases h
      · exact .superblock hc (.inl rfl)
      · cases written with
        | true => exact .superblock hc (.inr rfl)
        | false => exact .stop (.inl rfl) id
    · cases h
  | checkpointRecycle n =>
    simp only [stepCheckpoint] at h
    split at h
    · obtain ⟨hn,rfl⟩ := of_guard h
      exact .recycle ‹_› hn.2
    · cases h
  | checkpointAbort =>
    obtain ⟨-,rfl⟩ := of_unless h
    exact .stop (.inl rfl) id
  | checkpointSnapshot | checkpointClogFlush | checkpointClogFail | checkpointSample =>
    simp only [stepCheckpoint] at h
    split at h <;> cases h
    first | exact .snapshot ‹_› | exact .flush ‹_› | exact .flushFail .. | exact .sample ‹_›
  | _ => cases h

/-- A step of the ending call of `x`: nothing of another transaction changes. -/
structure Ending (s s' : Sys) (x : ℕ) (c : Call) : Prop where
  calls : s'.calls = update s.calls x (some c)
  checkpoint : s'.checkpoint = .idle
  clock : s'.txnIdClock = s.txnIdClock
  superblock : s'.superblock = s.superblock
  active : ∀ y ∈ s'.active, y ∈ s.active
  readers : ∀ y, y ≠ x → y ∈ s.readers → y ∈ s'.readers
  mem : ∀ y, y ≠ x → s'.clog.mem y = s.clog.mem y
  synced : s'.synced = s.synced
  poisoned : s.poisoned = true → s'.poisoned = true
  log : s'.log = s.log ∨ ∃ o : Outcome, s'.log = s.log ++ [o.record x]

theorem Ending.log_append {s s' : Sys} (h : Ending s s' x c) :
    ∃ extra, s'.log = s.log ++ extra ∧ ∀ r ∈ extra, ∃ o : Outcome, r = o.record x := by
  rcases h.log with hl | ⟨o,hl⟩
  · exact ⟨[],by simp [hl],by simp⟩
  · exact ⟨[o.record x],hl,fun r hr => ⟨o,List.mem_singleton.1 hr⟩⟩

theorem Ending.record_mem {s s' : Sys} (h : Ending s s' x c)
    {y : ℕ} (hy : y ≠ x) (ho : o.record y ∈ s'.log) : o.record y ∈ s.log := by
  obtain ⟨extra,hlog,hextra⟩ := h.log_append
  rw [hlog] at ho
  refine (List.mem_append.1 ho).resolve_right fun ho => ?_
  obtain ⟨o',he⟩ := hextra _ ho
  exact hy (record_inj he).2

theorem Ending.callInv {s s' : Sys} (h : Ending s s' x c)
    (hs : s.synced ≤ s.log.length) {y : ℕ} (hy : y ≠ x) {d : Call} (hd : CallInv s y d) :
    CallInv s' y d := by
  obtain ⟨extra,hlog,-⟩ := h.log_append
  exact hd.mono hs ⟨extra,hlog.symm⟩ h.synced.ge h.poisoned (h.mem y hy) fun _ => h.record_mem hy

theorem Running.ending {s s' : Sys} (h : Running s) (he : Ending s s' x c)
    (hs : s.synced ≤ s.log.length) (hlive : s.calls x ≠ none) (hc : CallInv s' x c)
    (hg : c.inProgress = true → x ∈ s'.readers)
    (hset : ∀ o : Outcome, o.record x ∈ s'.log →
      s'.clog.mem x = o.state ∨ s'.poisoned = true ∨ x ∈ s'.readers) : Running s' where
  clock_next := by
    rw [he.superblock,he.clock]
    exact h.clock_next
  clock_log r hr := by
    obtain ⟨extra,hlog,hextra⟩ := he.log_append
    rw [hlog] at hr
    rw [he.clock]
    rcases List.mem_append.1 hr with hr | hr
    · exact h.clock_log r hr
    · obtain ⟨o,rfl⟩ := hextra r hr
      rw [Outcome.record_txnId]
      exact (h.clock_calls x hlive).2
  clock_active y hy := by
    rw [he.clock]
    exact h.clock_active y (he.active y hy)
  clock_calls y hy := by
    rw [he.clock]
    by_cases hyx : y = x
    · exact hyx ▸ h.clock_calls x hlive
    · rw [he.calls,update_of_ne hyx] at hy
      exact h.clock_calls y hy
  call y d hd := by
    by_cases hyx : y = x
    · subst hyx
      rw [he.calls,update_self,Option.some.injEq] at hd
      exact hd ▸ hc
    · rw [he.calls,update_of_ne hyx] at hd
      exact he.callInv hs hyx (h.call y d hd)
  guard y d hd hin := by
    by_cases hyx : y = x
    · subst hyx
      rw [he.calls,update_self,Option.some.injEq] at hd
      exact hg (hd ▸ hin)
    · rw [he.calls,update_of_ne hyx] at hd
      exact he.readers y hyx (h.guard y d hd hin)
  settled o y hy := by
    by_cases hyx : y = x
    · subst hyx
      exact hset o hy
    · rw [he.mem y hyx]
      exact (h.settled o y (he.record_mem hyx hy)).imp id
        fun hp => hp.imp he.poisoned (he.readers y hyx)
  checkpoint := by
    rw [he.checkpoint]
    trivial

structure RunInv (s : Sys) : Prop where
  common : Common s
  running : Running s

theorem Common.setCall (h : Common s) (hx : s.calls x ≠ none) (c : Call) :
    Common { s with calls := update s.calls x (some c) } :=
  h.setCalls fun y _ hy => by
    rw [update_of_ne]
    · exact hy
    · rintro rfl
      exact hx hy

theorem RunInv.beginTxn (h : RunInv s) :
    RunInv (setCall { s with txnIdClock := s.txnIdClock + 1, active := s.txnIdClock :: s.active }
      s.txnIdClock .running) := by
  have hr := h.running
  have hc : Common { s with calls := update s.calls s.txnIdClock (some .running) } :=
    h.common.setCalls fun y hb hy => (update_of_ne (hr.lt_clock hb).ne ..).trans hy
  have hadv : Advances s (setCall { s with
      txnIdClock := s.txnIdClock + 1, active := s.txnIdClock :: s.active } s.txnIdClock .running) :=
    ⟨.refl _,Nat.le_succ _,.refl _,le_rfl,id,[],(List.append_nil _).symm,by simp⟩
  refine ⟨{ hc with },hr.clock_next.trans (Nat.le_succ _),fun r hm =>
    (hr.clock_log r hm).trans (Nat.lt_succ_self _),fun y hy => ?_,fun y hy => ?_,fun y c hy => ?_,
    fun y c hy hin => ?_,hr.settled,hr.checkpoint.advance hadv rfl rfl fun x => .inr rfl⟩
  · rcases List.mem_cons.1 hy with rfl | hy
    · exact Nat.lt_succ_self _
    · exact (hr.clock_active y hy).trans (Nat.lt_succ_self _)
  · rcases of_update_eq (y := update s.calls s.txnIdClock (some .running) y) rfl with
      ⟨rfl,-⟩ | ⟨-,he⟩
    · exact ⟨h.common.next_pos.trans hr.clock_next,Nat.lt_succ_self _⟩
    · exact (hr.clock_calls y (he ▸ hy)).imp id fun hlt => hlt.trans (Nat.lt_succ_self _)
  · obtain ⟨rfl,⟨⟩⟩ | ⟨-,hy⟩ := of_update_eq hy
    · intro _ o ho
      have hlt := hr.clock_log _ (hadv.record_mem ho)
      rw [Outcome.record_txnId] at hlt
      exact lt_irrefl _ hlt
    · exact hadv.callInv h.common.synced_le (hr.call y c hy)
  · obtain ⟨rfl,⟨⟩⟩ | ⟨-,hy⟩ := of_update_eq hy
    · cases hin
    · exact hr.guard y c hy hin

theorem RunInv.clock_pos (h : RunInv s) : 0 < s.txnIdClock :=
  h.common.next_pos.trans h.running.clock_next

theorem RunInv.plain (h : RunInv s) {log : List Rec} {poisoned : Bool}
    (hlog : log = s.log ∨ ∃ r, log = s.log ++ [r] ∧ r.txnId < s.txnIdClock ∧
      ∀ (o : Outcome) x, r ≠ o.record x) (hp : s.poisoned = true → poisoned = true) :
    RunInv { s with log := log, poisoned := poisoned } := by
  have hplain : ∀ t : Sys, t = { s with log := log, poisoned := poisoned } →
      Common t → Advances s t → RunInv t := by
    rintro _ rfl hc ha
    exact ⟨hc,h.running.advance h.common.synced_le ha rfl rfl h.running.clock_next
      (h.running.checkpoint.advance ha rfl rfl fun _ => .inr rfl)⟩
  rcases hlog with rfl | ⟨r,rfl,hid,hr⟩
  · exact hplain _ rfl { h.common with } (.of_eq hp)
  · have hc := h.common.append fun o x hx => absurd hx (hr o x)
    exact hplain _ rfl { hc with } ⟨rfl,le_rfl,rfl,le_rfl,hp,[r],rfl,by simp [hid,hr]⟩

theorem RunInv.startEnd (h : RunInv s)
    (hx : s.calls x = some .running) (hidle : s.checkpoint = .idle) :
    RunInv { setCall s x (.holding o) with readers := x :: s.readers } := by
  have hlive : s.calls x ≠ none := by simp [hx]
  refine ⟨{ h.common.setCall hlive _ with },
    h.running.ending (c := .holding o) ⟨rfl,hidle,rfl,rfl,fun _ hy => hy,
      fun _ _ hy => List.mem_cons_of_mem _ hy,fun _ _ => rfl,rfl,id,.inl rfl⟩
      h.common.synced_le hlive (h.running.call x _ hx) (fun _ => List.mem_cons_self)
      fun _ _ => .inr (.inr List.mem_cons_self)⟩

theorem RunInv.calls_pos (h : RunInv s) (hx : s.calls x ≠ none) : x ≠ 0 := by
  have := (h.running.clock_calls x hx).1
  omega

theorem RunInv.common_append (h : RunInv s) (hx : s.calls x = some (.holding o))
    (hp : s.poisoned = false) : Common { s with log := s.log ++ [o.record x] } := by
  have hlive : s.calls x ≠ none := by simp [hx]
  refine h.common.append fun o' y hy => ?_
  obtain ⟨rfl,rfl⟩ := record_inj hy
  exact ⟨h.calls_pos hlive,hlive,h.running.call x _ hx hp⟩

theorem RunInv.failCall (h : RunInv s) {log : List Rec} (hx : s.calls x = some c)
    (hc : c.inProgress = true) (hlog : log = s.log ∨
      s.poisoned = false ∧ ∃ o, c = .holding o ∧ log = s.log ++ [o.record x]) :
    RunInv (failCall { s with log := log, poisoned := true } x) := by
  have hlive : s.calls x ≠ none := by simp [hx]
  have hidle := h.running.checkpoint_idle hx hc
  have hcommon : Common { s with log := log, poisoned := true } := by
    rcases hlog with rfl | ⟨hp,o,rfl,rfl⟩
    · exact { h.common with }
    · exact { h.common_append hx hp with }
  refine ⟨{ hcommon.setCall (x := x) hlive .running with },
    h.running.ending (c := .running) ⟨rfl,hidle,rfl,rfl,fun _ hy => hy,
      fun y hy hmem => List.mem_filter.2 ⟨hmem,by simp [hy]⟩,fun _ _ => rfl,rfl,fun _ => rfl,
      hlog.imp_right fun ⟨_,o,_,hl⟩ => ⟨o,hl⟩⟩
      h.common.synced_le hlive (fun hp => absurd hp (by simp [TxnSystem.failCall,setCall]))
      (fun hin => by cases hin) fun _ _ => .inr (.inl rfl)⟩

theorem RunInv.appendEnd (h : RunInv s) (hx : s.calls x = some (.holding o))
    (hp : s.poisoned = false) : RunInv (TxnSystem.setCall { s with log := s.log ++ [o.record x] } x
      (.appended o (s.log.length + 1))) := by
  have hlive : s.calls x ≠ none := by simp [hx]
  have hguard := h.running.guard x _ hx rfl
  exact ⟨{ (h.common_append hx hp).setCall (x := x) hlive _ with },
    h.running.ending (c := .appended o (s.log.length + 1)) ⟨rfl,h.running.checkpoint_idle hx rfl,
      rfl,rfl,fun _ hy => hy,fun _ _ hy => hy,fun _ _ => rfl,rfl,id,.inr ⟨o,rfl⟩⟩
      h.common.synced_le hlive ⟨by omega,by simp [TxnSystem.setCall]⟩ (fun _ => hguard)
      fun _ _ => .inr (.inr hguard)⟩

theorem RunInv.flushEnd (h : RunInv s) {x lsn : ℕ}
    (hx : s.calls x = some (.appended o lsn)) (hlsn : lsn ≤ s.synced) :
    RunInv (TxnSystem.setCall s x (.flushed o)) := by
  have hlive : s.calls x ≠ none := by simp [hx]
  have hguard := h.running.guard x _ hx rfl
  have hrec : o.record x ∈ s.log.take s.synced := by
    obtain ⟨hpos,hget⟩ := h.running.call x _ hx
    refine List.mem_of_getElem? (i := lsn - 1) ?_
    rw [List.getElem?_take_of_lt (by omega)]
    exact hget
  exact ⟨{ h.common.setCall hlive _ with },
    h.running.ending (c := .flushed o) ⟨rfl,h.running.checkpoint_idle hx rfl,rfl,rfl,
      fun _ hy => hy,fun _ _ hy => hy,fun _ _ => rfl,rfl,id,.inl rfl⟩ h.common.synced_le hlive
      hrec (fun _ => hguard) fun _ _ => .inr (.inr hguard)⟩

theorem justified_state (h : o.record x ∈ s.log.take s.synced) : Justified s x o.state := by
  cases o with
  | commit => exact h
  | abort => exact .inl h

theorem Clog.setState_mem {c : Clog} (hx : x ≠ 0) (st : TxnState) :
    (c.setState x st).mem = update c.mem x st := by
  unfold Clog.setState TxnId.invalid
  rw [if_neg hx]

theorem RunInv.setState (h : RunInv s) (hx : s.calls x = some (.flushed o)) :
    RunInv (TxnSystem.setCall { s with clog := s.clog.setState x o.state } x (.stateSet o)) := by
  have hlive : s.calls x ≠ none := by simp [hx]
  have hguard := h.running.guard x _ hx rfl
  have hrec : o.record x ∈ s.log.take s.synced := h.running.call x _ hx
  have hlog := List.mem_of_mem_take hrec
  have hmem := Clog.setState_mem (c := s.clog) (h.calls_pos hlive) o.state
  have hcommon := h.common.setState (h.common.mem_of_record hlog) (justified_state hrec)
  refine ⟨{ hcommon.setCall (x := x) hlive (.stateSet o) with },
    h.running.ending (c := .stateSet o) ⟨rfl,h.running.checkpoint_idle hx rfl,rfl,rfl,
      fun _ hy => hy,fun _ _ hy => hy,fun y hy => ?_,rfl,id,.inl rfl⟩ h.common.synced_le hlive
      ⟨?_,hlog⟩ (fun _ => hguard) fun _ _ => .inr (.inr hguard)⟩
  · change (s.clog.setState x o.state).mem y = _
    rw [hmem,update_of_ne hy]
  · change (s.clog.setState x o.state).mem x = _
    rw [hmem,update_self]

theorem RunInv.leaveActive (h : RunInv s) (hx : s.calls x = some (.stateSet o)) :
    RunInv { TxnSystem.setCall s x .ended with
      active := s.active.filter (· ≠ x), readers := s.readers.filter (· ≠ x) } := by
  have hlive : s.calls x ≠ none := by simp [hx]
  obtain ⟨hmem,hrec⟩ := h.running.call x _ hx
  refine ⟨{ h.common.setCall hlive _ with },
    h.running.ending (c := .ended) ⟨rfl,h.running.checkpoint_idle hx rfl,rfl,rfl,
      fun _ hy => List.mem_of_mem_filter hy,
      fun y hy hin => List.mem_filter.2 ⟨hin,by simp [hy]⟩,fun _ _ => rfl,rfl,id,.inl rfl⟩
      h.common.synced_le hlive trivial (fun hin => by cases hin) fun o' ho' => .inl ?_⟩
  rw [h.common.outcome_eq (o := o') ho' hrec]
  exact hmem

theorem TxnGoes.inv {s s' : Sys} (hs : TxnGoes s s') (h : RunInv s) : RunInv s' := by
  cases hs with
  | begin => exact h.beginTxn
  | @log x _ _ hx hlog hp =>
    refine h.plain (hlog.imp_right fun hl => ⟨_,hl,?_,fun o y => (record_ne_other o y x).symm⟩) hp
    rcases hx with rfl | hx
    · exact h.clock_pos
    · exact (h.running.clock_calls x (by simp [hx])).2
  | start hx hc => exact h.startEnd hx hc
  | append hx hp => exact h.appendEnd hx hp
  | flush hx hlsn => exact h.flushEnd hx hlsn
  | fail hx hc _ hlog => exact h.failCall hx hc hlog
  | set hx => exact h.setState hx
  | leave hx => exact h.leaveActive hx

theorem RunInv.checkpointStep {s s' : Sys} (h : RunInv s) (hcommon : Common s')
    (ha : Advances s s') (hcalls : s'.calls = s.calls) (hactive : s'.active = s.active)
    (hnext : s'.superblock.nextTxnId ≤ s'.txnIdClock) (hck : CheckpointInv s' s'.checkpoint) :
    RunInv s' :=
  ⟨hcommon,h.running.advance h.common.synced_le ha hcalls hactive hnext hck⟩

theorem RunInv.setCheckpoint (h : RunInv s) {c : Checkpoint}
    (hck : CheckpointInv { s with checkpoint := c } c) : RunInv { s with checkpoint := c } :=
  h.checkpointStep { h.common with } (.of_eq id)
    rfl rfl h.running.clock_next hck

theorem RunInv.checkpointBegin (h : RunInv s) (hck : s.checkpoint = .locked)
    (hp : s.poisoned = false) : RunInv { s with
      log := s.log ++ [.checkpointBegin], checkpoint := .begun (s.log.length + 1) } := by
  have hinv := h.plain (.inr ⟨.checkpointBegin,rfl,h.clock_pos,fun o x =>
    (record_ne_checkpointBegin o x).symm⟩) id
  have hreaders : s.readers = [] := h.running.checkpoint.readers (by simp [hck])
  refine hinv.setCheckpoint ⟨hreaders,?_,by simp,fun o x hx => ?_⟩
  · exact (h.common.redo_le.trans h.common.synced_le).trans_lt (Nat.lt_succ_self _)
  · have hx' : o.record x ∈ s.log := by simpa using hx
    rcases h.running.settled o x hx' with hm | hm | hm
    · exact hm
    · rw [hp] at hm
      cases hm
    · rw [hreaders] at hm
      cases hm

theorem RunInv.checkpointSnapshot (h : RunInv s) {b : ℕ} (hck : s.checkpoint = .begun b) :
    RunInv { s with
      attFiles := update s.attFiles b s.active, checkpoint := .snapshotWritten b } := by
  have hheld : Held s b := by
    have hold := h.running.checkpoint
    rwa [hck] at hold
  have ha : Advances s { s with
      attFiles := update s.attFiles b s.active, checkpoint := .snapshotWritten b } :=
    .of_eq id
  have hcommon : Common { s with attFiles := update s.attFiles b s.active } := by
    refine { h.common with snapshot := ?_ }
    simpa only [update_of_ne hheld.later.ne] using h.common.snapshot
  refine h.checkpointStep { hcommon with } ha rfl rfl
    h.running.clock_next ⟨hheld.advance ha rfl,?_⟩
  simpa using h.running.clock_active

structure Written (s : Sys) (c : Clog) : Prop where
  mem : c.mem = s.clog.mem
  common : Common { s with clog := c }
  stable : ∀ x, Settles (s.clog.stable x) (c.stable x)

theorem Written.writePage {c : Clog} (h : Written s c) (page : ℕ) : Written s (c.writePage page) :=
  ⟨h.mem,h.common.writePage page,h.stable⟩

theorem Written.syncSegment {c : Clog} (h : Written s c) (segment : ℕ) :
    Written s (c.syncSegment segment) := by
  refine ⟨h.mem,h.common.syncSegment segment,fun x => (h.stable x).trans ?_⟩
  change Settles _ (if Clog.segmentIdOfXid x = segment then c.file x else c.stable x)
  split
  · exact h.common.file_settles x
  · exact .inr rfl

theorem Written.flush (h : Common s) (pages segments : List ℕ) :
    Written s (segments.foldl Clog.syncSegment (pages.foldl Clog.writePage s.clog)) := by
  refine List.foldlRecOn segments _ (List.foldlRecOn pages _ ⟨rfl,h,fun _ => .inr rfl⟩ ?_) ?_
  · exact fun c hc page _ => hc.writePage page
  · exact fun c hc segment _ => hc.syncSegment segment

theorem RunInv.write (h : RunInv s) {c : Clog} (hw : Written s c) :
    RunInv { s with clog := c } := by
  have ha : Advances s { s with clog := c } := .of_eq id hw.mem
  exact h.checkpointStep hw.common ha rfl rfl h.running.clock_next
    (h.running.checkpoint.advance ha rfl rfl hw.stable)

theorem RunInv.checkpointInv (h : RunInv s) {c : Checkpoint} (hc : s.checkpoint = c) :
    CheckpointInv s c :=
  hc ▸ h.running.checkpoint

theorem RunInv.checkpointClogFlush (h : RunInv s) {b : ℕ}
    (hck : s.checkpoint = .snapshotWritten b) :
    RunInv { s with clog := s.clog.flushDirty, checkpoint := .clogFlushed b } := by
  obtain ⟨hheld,hatt⟩ := h.checkpointInv hck
  have ha : Advances s { s with clog := s.clog.flushDirty, checkpoint := .clogFlushed b } :=
    .of_eq id
  exact h.checkpointStep { h.common.flushDirty with } ha rfl rfl
    h.running.clock_next ⟨⟨hheld.advance ha rfl,hatt⟩,hheld.settled⟩

theorem RunInv.checkpointSample (h : RunInv s) {b : ℕ} (hck : s.checkpoint = .clogFlushed b) :
    RunInv { s with checkpoint := .sampled b s.txnIdClock } := by
  obtain ⟨⟨hheld,hatt⟩,hstable⟩ := h.checkpointInv hck
  have ha : Advances s { s with checkpoint := .sampled b s.txnIdClock } :=
    .of_eq id
  exact h.setCheckpoint ⟨hheld.advance ha rfl,hstable,h.running.clock_next,le_rfl,
    fun r hr => h.running.clock_log r (List.mem_of_mem_take hr),hatt⟩

theorem RunInv.checkpointEnd (h : RunInv s) (hck : s.checkpoint = .sampled b n) :
    RunInv { s with
      log := s.log ++ [.checkpointEnd b n]
      checkpoint := .endAppended b n (s.log.length + 1) } := by
  have hinv := h.plain (.inr ⟨.checkpointEnd b n,rfl,h.clock_pos,fun o x =>
    (record_ne_checkpointEnd o x b n).symm⟩) id
  have hsampled := hinv.checkpointInv hck
  have hle : b ≤ s.log.length := (Sampled.held (h.checkpointInv hck)).le
  exact hinv.setCheckpoint ⟨Sampled.advance hsampled (.of_eq id) rfl rfl fun _ => .inr rfl,by omega⟩

theorem RunInv.checkpointSuperblock (h : RunInv s)
    (hck : s.checkpoint = .endFlushed b n) {c : Checkpoint}
    (hc : c = .superblockWritten b ∨ c = .idle) :
    RunInv { s with superblock := ⟨b,n⟩, checkpoint := c } := by
  obtain ⟨hs,hb⟩ := h.checkpointInv hck
  have hlater := hs.held.later
  have hcommon := h.common.writeSuperblock hb (by unfold redoStart; omega) hs.next hs.stable
    hs.known hs.att
  refine h.checkpointStep { hcommon with }
    (.of_eq id) rfl rfl hs.clock ?_
  rcases hc with rfl | rfl
  · exact ⟨hs.held.readers,rfl⟩
  · trivial

theorem RunInv.checkpointRecycle (h : RunInv s)
    (hck : s.checkpoint = .superblockWritten b) (hn : n < b) :
    RunInv { s with oldest := n, checkpoint := .idle } := by
  obtain ⟨-,hb⟩ := h.checkpointInv hck
  have hcommon : Common { s with oldest := n } :=
    { h.common with oldest_le := by change n ≤ s.superblock.checkpointLsn - 1; omega }
  exact h.checkpointStep { hcommon with }
    (.of_eq id) rfl rfl h.running.clock_next trivial

theorem CheckpointGoes.inv {s s' : Sys} (hs : CheckpointGoes s s') (h : RunInv s) : RunInv s' := by
  cases hs with
  | lock hr => exact h.setCheckpoint hr
  | begin hc hp => exact h.checkpointBegin hc hp
  | snapshot hc => exact h.checkpointSnapshot hc
  | flush hc => exact h.checkpointClogFlush hc
  | flushFail pages segments =>
    exact (h.write (.flush h.common pages segments)).setCheckpoint trivial
  | sample hc => exact h.checkpointSample hc
  | append hc => exact h.checkpointEnd hc
  | endFlush hc hlsn =>
    obtain ⟨hsampled,hle⟩ := h.checkpointInv hc
    exact h.setCheckpoint ⟨hsampled.advance (.of_eq id) rfl rfl fun _ => .inr rfl,hle.trans hlsn⟩
  | superblock hc hc' => exact h.checkpointSuperblock hc hc'
  | recycle hc hn => exact h.checkpointRecycle hc hn
  | stop hlog hp =>
    refine (h.plain (hlog.imp_right ?_) hp).setCheckpoint trivial
    rintro ⟨r,hl,hid,hr⟩
    exact ⟨r,hl,hid ▸ h.clock_pos,hr⟩

end TxnSystem
end PgAm
