import PgAm.EngineReplay

/-! The log and the checkpoints of a run. Every part of the log is that of a table, and the list of
active transactions that a checkpoint saves has all transactions with records in front of its
begin that have not ended there: commits and rollbacks wait while a checkpoint runs. -/
namespace PgAm
namespace EngineLog

open Machine Heap Function
open Engine (Entry Schema Table)
open RecordStream (Item Contiguous stop)

variable {K : Type} [DecidableEq K] {schema : Schema K} {e : Table K} {s t : Server K}
  {l : List (Item (Record K))} {b n k : ℕ}

/-- Each part of the log is that of a table; the records are aligned and not too long. -/
structure LogInv (schema : Schema K) (l : List (Item (Record K))) : Prop where
  tied : ∀ n, ∃ e, Tied schema e ((l.take n).map Item.value)
  contiguous : Contiguous Lsn.first l
  sizes : ∀ i ∈ l, walRecordHeaderSize ≤ i.size ∧ lsnAlignment ∣ i.size ∧ i.size ≤ maxRecord

/-- The transactions with records have a property or end among the records. -/
def Covered (p : ℕ → Prop) (l : List (Item (Record K))) : Prop :=
  ∀ i ∈ l, i.value.txnId ≠ TxnId.invalid →
    p i.value.txnId ∨ ∃ j ∈ l, j.value.ends = some i.value.txnId

def Front (l : List (Item (Record K))) (b : ℕ) (p : List (Item (Record K)) → Prop) : Prop :=
  ∃ l₁ l₂, l = l₁ ++ l₂ ∧ stop Lsn.first l₁ = b ∧ p l₁

/-- A checkpoint that began at `b` has ended within the first `k` records of the log. -/
structure Anchored (l : List (Item (Record K))) (att : List ℕ) (b nextTxnId k : ℕ)
    (l₁ l₂ l₃ : List (Item (Record K))) : Prop where
  eq : l = l₁ ++ (l₂ ++ l₃)
  pos : stop Lsn.first l₁ = b
  covered : Covered (· ∈ att) l₁
  below : ∀ i ∈ l₁, i.value.txnId ≠ TxnId.invalid → i.value.txnId < nextTxnId
  ended : .checkpointEnd b ∈ l₂.map Item.value
  within : l₁.length + l₂.length ≤ k

def IsAnchored (l : List (Item (Record K))) (att : List ℕ) (b nextTxnId k : ℕ) : Prop :=
  ∃ l₁ l₂ l₃, Anchored l att b nextTxnId k l₁ l₂ l₃

def PhaseInv (s : Server K) : Phase → Prop
  | .idle => True
  | .begun b => s.superblock.checkpointLsn < b ∧ Front s.log b (Covered s.table.history.heap.Live)
  | .sampled b => Front s.log b (Covered (· ∈ s.attFiles b))
  | .ended b n => IsAnchored s.log (s.attFiles b) b n s.log.length
  | .flushed b n => IsAnchored s.log (s.attFiles b) b n s.durable

structure Inv (schema : Schema K) (s : Server K) : Prop where
  stream : LogInv schema s.log
  tied : Tied schema s.table (s.log.map Item.value)
  durable : s.durable ≤ s.log.length
  phase : PhaseInv s s.phase
  anchor : Lsn.isValid s.superblock.checkpointLsn = true → IsAnchored s.log
    (s.attFiles s.superblock.checkpointLsn) s.superblock.checkpointLsn s.superblock.nextTxnId
    s.durable

omit [DecidableEq K] in
theorem Covered.mono {p q : ℕ → Prop} (h : Covered p l)
    (hpq : ∀ i ∈ l, p i.value.txnId → i.value.txnId ≠ TxnId.invalid →
      q i.value.txnId ∨ ∃ j ∈ l, j.value.ends = some i.value.txnId) : Covered q l := by
  intro i hi hx
  rcases h i hi hx with hp | hend
  · exact hpq i hi hp hx
  · exact .inr hend

omit [DecidableEq K] in
theorem Front.append {p : List (Item (Record K)) → Prop} (h : Front l b p)
    (l' : List (Item (Record K))) : Front (l ++ l') b p := by
  obtain ⟨l₁,l₂,rfl,hb,hp⟩ := h
  exact ⟨l₁,l₂ ++ l',List.append_assoc ..,hb,hp⟩

omit [DecidableEq K] in
theorem IsAnchored.append {att : List ℕ} (h : IsAnchored l att b n k) {k' : ℕ} (hk : k ≤ k')
    (l' : List (Item (Record K))) : IsAnchored (l ++ l') att b n k' := by
  obtain ⟨l₁,l₂,l₃,heq,hpos,hcov,hbelow,hend,hle⟩ := h
  refine ⟨l₁,l₂,l₃ ++ l',?_,hpos,hcov,hbelow,hend,hle.trans hk⟩
  rw [heq,List.append_assoc,List.append_assoc]

omit [DecidableEq K] in
theorem IsAnchored.lt_stop {att : List ℕ} (h : IsAnchored l att b n k)
    (hc : Contiguous Lsn.first l) : b < stop Lsn.first l := by
  obtain ⟨l₁,l₂,l₃,rfl,rfl,-,-,hend,-⟩ := h
  obtain ⟨i,hi,-⟩ := List.mem_map.1 hend
  have hi' : i ∈ l₂ ++ l₃ := List.mem_append_left _ hi
  have hle := hc.after hi'
  have hin := hc.bounds (List.mem_append_right l₁ hi')
  omega

variable {payload : ℕ}

omit [DecidableEq K] in
theorem recordSize_spec (h : payload ≤ u16Max) :
    walRecordHeaderSize ≤ recordSize payload ∧ lsnAlignment ∣ recordSize payload ∧
      recordSize payload ≤ maxRecord := by
  unfold recordSize maxRecord alignUp walRecordHeaderSize lsnAlignment u16Max at *
  omega

theorem LogInv.append (hl : LogInv schema l) {r : Record K} {payload : ℕ}
    (ht : Tied schema e (l.map Item.value ++ [r])) (hp : payload ≤ u16Max) :
    LogInv schema (l ++ [⟨stop Lsn.first l,recordSize payload,r⟩]) := by
  have hsize := recordSize_spec hp
  have hpos : 0 < recordSize payload := Nat.lt_of_lt_of_le (by decide) hsize.1
  refine ⟨fun n => ?_,RecordStream.contiguous_append.2 ⟨hl.contiguous,rfl,hpos,trivial⟩,
    List.forall_mem_append.2 ⟨hl.sizes,List.forall_mem_singleton.2 hsize⟩⟩
  by_cases hn : n ≤ l.length
  · rw [List.take_append_of_le_length hn]
    exact hl.tied n
  · refine ⟨e,?_⟩
    rw [List.take_of_length_le,List.map_append]
    · exact ht
    · rw [List.length_append,List.length_singleton]
      omega

omit [DecidableEq K] in
theorem PhaseInv.append {p : Phase} (h : PhaseInv s p) {l' : List (Item (Record K))}
    (hl : t.log = s.log ++ l') (hframe : t.attFiles = s.attFiles ∧ t.superblock = s.superblock)
    (hd : s.durable ≤ t.durable)
    (hlive : ∀ i ∈ s.log, i.value.txnId ≠ TxnId.invalid → s.table.history.heap.Live i.value.txnId →
      t.table.history.heap.Live i.value.txnId) : PhaseInv t p := by
  obtain ⟨hatt,hsup⟩ := hframe
  cases p with
  | idle => exact trivial
  | begun b =>
    obtain ⟨hlt,l₁,l₂,heq,hb,hcov⟩ := h
    refine ⟨by rw [hsup]; exact hlt,?_⟩
    rw [hl]
    refine Front.append ⟨l₁,l₂,heq,hb,hcov.mono fun i hi hp hx => .inl ?_⟩ l'
    exact hlive i (by rw [heq]; exact List.mem_append_left _ hi) hx hp
  | sampled b =>
    change Front _ _ _
    rw [hl,hatt]
    exact Front.append h l'
  | ended b n =>
    change IsAnchored _ _ _ _ _
    rw [hl,hatt]
    exact IsAnchored.append h (by simp) l'
  | flushed b n =>
    change IsAnchored _ _ _ _ _
    rw [hl,hatt]
    exact IsAnchored.append h hd l'

theorem Inv.append (hi : Inv schema s) {r : Record K} {payload : ℕ}
    (hredo : ∀ q : Restored K, q.redo r = some q)
    (hrec : r.removes = none ∧ r.txnId = TxnId.invalid ∧ r.ends = none) (hp : payload ≤ u16Max) :
    Inv schema (s.append payload r) := by
  have ht := hi.tied.record hredo hrec
  refine ⟨hi.stream.append ht hp,?_,?_,?_,fun hv => (hi.anchor hv).append le_rfl _⟩
  · change Tied schema s.table ((s.log ++ [_]).map Item.value)
    rw [List.map_append]
    exact ht
  · exact hi.durable.trans (by simp [Server.append])
  · exact hi.phase.append rfl ⟨rfl,rfl⟩ le_rfl fun _ _ _ => id

variable {a : Engine.Step K}

theorem recordOf_ends {r : Record K} (hr : recordOf schema e a = some r)
    (ha : ¬Blocked s a) (hphase : s.phase ≠ .idle) : r.ends = none := by
  cases a with
  | act a =>
    cases a with
    | extend page =>
      cases hr
      rfl
    | manager a | take x | statement x | insert x p | pass x tid op st b => cases hr
  | insert xid page values =>
    cases hr
    rfl
  | update xid tid page values stale stamps =>
    simp only [recordOf] at hr
    split at hr
    · split at hr
      · cases hr
        rfl
      · cases hr
        rfl
    · cases hr
  | delete xid tid stale stamps =>
    obtain ⟨-,rfl⟩ := of_guard hr
    rfl
  | maintain xid =>
    simp only [recordOf] at hr
    split at hr
    · cases hr
    · simp only [Option.ite_none_right_eq_some,Option.some.injEq] at hr
      obtain ⟨-,rfl⟩ := hr
      rfl
  | commit xid => exact absurd hphase ha
  | beginAbort xid => cases hr
  | undo xid =>
    simp only [recordOf] at hr
    split at hr
    · cases hr
      rfl
    · cases hr
  | abort xid => exact absurd hphase ha

/-- While a checkpoint runs no transaction ends. -/
theorem live_kept (ht : Tied schema s.table (s.log.map Item.value)) {a : Engine.Step K}
    {e : Table K}
    (ht' : Tied schema e (s.log.map Item.value ++ (recordOf schema s.table a).toList))
    (ha : ¬Blocked s a) (hphase : s.phase ≠ .idle) {i : Item (Record K)} (hi : i ∈ s.log)
    (hx : i.value.txnId ≠ TxnId.invalid) (hlive : s.table.history.heap.Live i.value.txnId) :
    e.history.heap.Live i.value.txnId := by
  have hmem := List.mem_map_of_mem (f := Item.value) hi
  refine (ht'.begun _ (List.mem_append_left _ hmem) hx).2.resolve_right ?_
  rintro ⟨r,hr,hend⟩
  rcases List.mem_append.1 hr with hr | hr
  · have hst := ht.ended r hr _ hend
    rw [hlive.2] at hst
    rcases hst with hst | hst <;> cases hst
  · rw [recordOf_ends (Option.mem_toList.1 hr) ha hphase] at hend
    cases hend

theorem Inv.table (hi : Inv schema s) (hok : Orderly s.table a)
    (hp : payload ≤ u16Max) (ha : ¬Blocked s a) (hs : Engine.step schema s.table a = some e) :
    Inv schema { ({ s with table := e }).appendAll payload (recordOf schema s.table a) with
      durable := durableAfter (({ s with table := e }).appendAll payload
        (recordOf schema s.table a)) a } := by
  have ht := hi.tied.step hok hs
  have hlive := fun hphase i => @live_kept _ _ _ s hi.tied a e ht ha hphase i
  set t := ({ s with table := e }).appendAll payload (recordOf schema s.table a) with htdef
  have hlog : ∃ l', t.log = s.log ++ l' ∧ LogInv schema t.log ∧
      t.log.map Item.value = s.log.map Item.value ++ (recordOf schema s.table a).toList ∧
      t.table = e ∧ t.durable = s.durable ∧ t.phase = s.phase ∧
      t.attFiles = s.attFiles ∧ t.superblock = s.superblock := by
    cases hrec : recordOf schema s.table a with
    | none =>
      rw [hrec] at htdef
      rw [htdef]
      exact ⟨[],(List.append_nil _).symm,hi.stream,(List.append_nil _).symm,rfl,rfl,rfl,rfl,rfl⟩
    | some r =>
      rw [hrec] at htdef ht
      rw [htdef]
      exact ⟨_,rfl,hi.stream.append ht hp,List.map_append ..,rfl,rfl,rfl,rfl,rfl⟩
  obtain ⟨l',hl,hstream,hvalues,htable,hdur,hphase,hatt,hsup⟩ := hlog
  have hd : s.durable ≤ durableAfter t a ∧ durableAfter t a ≤ t.log.length := by
    have hlen : s.log.length ≤ t.log.length := by
      rw [hl,List.length_append]
      exact Nat.le_add_right _ _
    have hle := hi.durable
    cases a with
    | commit xid => exact ⟨hle.trans hlen,le_rfl⟩
    | act _ | insert _ _ _ | update _ _ _ _ _ _ | delete _ _ _ _ | maintain _ | beginAbort _
    | undo _ | abort _ => exact ⟨hdur.ge,hdur.le.trans (hle.trans hlen)⟩
  refine ⟨hstream,?_,hd.2,?_,fun hv => ?_⟩
  · change Tied schema t.table _
    rw [htable,hvalues]
    exact ht
  · change PhaseInv _ t.phase
    rw [hphase]
    by_cases hidle : s.phase = .idle
    · rw [hidle]
      exact trivial
    · refine hi.phase.append hl ⟨hatt,hsup⟩ hd.1 fun i hi' hx hl' => ?_
      change t.table.history.heap.Live _
      rw [htable]
      exact hlive hidle i hi' hx hl'
  · change Lsn.isValid t.superblock.checkpointLsn = true at hv
    change IsAnchored t.log (t.attFiles t.superblock.checkpointLsn) t.superblock.checkpointLsn
      t.superblock.nextTxnId _
    rw [hsup] at hv ⊢
    rw [hatt,hl]
    exact (hi.anchor hv).append hd.1 l'

theorem Inv.checkpointBegin (hi : Inv schema s) (hp : payload ≤ u16Max) :
    Inv schema { s.append payload .checkpointBegin with phase := .begun s.nextLsn } := by
  have hi' := @Inv.append _ _ _ _ hi .checkpointBegin _ (fun _ => rfl) ⟨rfl,rfl,rfl⟩ hp
  refine { hi' with phase := ⟨?_,s.log,[_],rfl,rfl,fun i hmem hx => ?_⟩ }
  · change s.superblock.checkpointLsn < stop Lsn.first s.log
    by_cases hv : Lsn.isValid s.superblock.checkpointLsn = true
    · exact (hi.anchor hv).lt_stop hi.stream.contiguous
    · have hzero : s.superblock.checkpointLsn = 0 := by simpa [Lsn.isValid] using hv
      have hle := @RecordStream.start_le_stop _ Lsn.first s.log
      have hfirst : 0 < Lsn.first := by decide
      omega
  · refine (hi.tied.begun _ (List.mem_map_of_mem hmem) hx).2.imp id fun ⟨r,hr,hend⟩ => ?_
    obtain ⟨j,hj,rfl⟩ := List.mem_map.1 hr
    exact ⟨j,hj,hend⟩

theorem Inv.checkpointSample (hi : Inv schema s) (hphase : s.phase = .begun b) :
    Inv schema { s with
      attFiles := update s.attFiles b s.table.history.heap.manager.active
      phase := .sampled b } := by
  have hph := hi.phase
  rw [hphase] at hph
  obtain ⟨hlt,l₁,l₂,heq,hb,hcov⟩ := hph
  refine ⟨hi.stream,hi.tied,hi.durable,⟨l₁,l₂,heq,hb,hcov.mono fun i _ hp _ => .inl ?_⟩,
    fun hv => ?_⟩
  · change _ ∈ update s.attFiles b _ b
    rw [update_self]
    exact hp.1
  · change IsAnchored s.log (update s.attFiles b _ s.superblock.checkpointLsn) _ _ _
    rw [update_of_ne hlt.ne]
    exact hi.anchor hv

theorem Inv.checkpointEnd (hi : Inv schema s) (hp : payload ≤ u16Max)
    (hphase : s.phase = .sampled b) :
    Inv schema { s.append payload (.checkpointEnd b) with
      phase := .ended b s.table.history.heap.manager.txnIdClock } := by
  have hph := hi.phase
  rw [hphase] at hph
  obtain ⟨l₁,l₂,heq,hb,hcov⟩ := hph
  have hi' := @Inv.append _ _ _ _ hi (.checkpointEnd b) _ (fun _ => rfl) ⟨rfl,rfl,rfl⟩ hp
  refine ⟨hi'.stream,hi'.tied,hi'.durable,⟨l₁,l₂ ++ [⟨s.nextLsn,recordSize payload,
    .checkpointEnd b⟩],[],?_,hb,hcov,fun i hmem hx => ?_,?_,?_⟩,hi'.anchor⟩
  · change s.log ++ _ = _
    rw [List.append_nil,heq,List.append_assoc]
  · have hlog : i ∈ s.log := by
      rw [heq]
      exact List.mem_append_left _ hmem
    exact (hi.tied.begun _ (List.mem_map_of_mem hlog) hx).1
  · rw [List.map_append]
    exact List.mem_append_right _ List.mem_cons_self
  · change _ ≤ (s.log ++ [_]).length
    rw [heq,List.length_append,List.length_append,List.length_append]
    omega

theorem step_inv (hi : Inv schema s) {a : Step K}
    (hok : ∀ x p, a = .table x p → Orderly s.table x) (hs : step schema s a = some t) :
    Inv schema t := by
  cases a with
  | table a payload =>
    obtain ⟨⟨hp,ha⟩,e,he,rfl⟩ := of_guard_map hs
    exact hi.table (hok a payload rfl) hp ha he
  | page payload =>
    obtain ⟨hp,rfl⟩ := of_guard hs
    exact hi.append (fun _ => rfl) ⟨rfl,rfl,rfl⟩ hp
  | flush n =>
    obtain ⟨⟨hle,hn⟩,rfl⟩ := of_guard hs
    have hnil : s.log = s.log ++ [] := (List.append_nil _).symm
    refine ⟨hi.stream,hi.tied,hn,hi.phase.append hnil ⟨rfl,rfl⟩ hle fun _ _ _ => id,fun hv => ?_⟩
    have h := (hi.anchor hv).append hle []
    rw [List.append_nil] at h
    exact h
  | checkpointBegin payload =>
    obtain ⟨⟨-,hp⟩,rfl⟩ := of_guard hs
    exact hi.checkpointBegin hp
  | checkpointSample =>
    simp only [step] at hs
    split at hs
    · rename_i b hphase
      cases hs
      exact hi.checkpointSample hphase
    · cases hs
  | checkpointEnd payload =>
    simp only [step] at hs
    split at hs
    · rename_i b hphase
      simp only [Option.ite_none_right_eq_some,Option.some.injEq] at hs
      obtain ⟨hp,rfl⟩ := hs
      exact hi.checkpointEnd hp hphase
    · cases hs
  | checkpointFlush =>
    simp only [step] at hs
    split at hs
    · rename_i b n hphase
      cases hs
      have hph := hi.phase
      rw [hphase] at hph
      refine ⟨hi.stream,hi.tied,le_rfl,hph,fun hv => ?_⟩
      have h := (hi.anchor hv).append hi.durable []
      rw [List.append_nil] at h
      exact h
    · cases hs
  | checkpointSuperblock =>
    simp only [step] at hs
    split at hs
    · rename_i b n hphase
      cases hs
      have hph := hi.phase
      rw [hphase] at hph
      exact ⟨hi.stream,hi.tied,hi.durable,trivial,fun _ => hph⟩
    · cases hs
  | checkpointFail =>
    cases hs
    exact { hi with phase := trivial }

theorem start_inv (hs : Start s) : Inv schema s := by
  obtain ⟨hstart,hclog,hlog,hdur,hphase,hsup⟩ := hs
  have ht : Tied schema s.table [] := tied_start hstart hclog
  refine ⟨?_,by rw [hlog]; exact ht,by rw [hdur]; exact Nat.zero_le _,by rw [hphase]; exact trivial,
    fun hv => ?_⟩
  · rw [hlog]
    exact ⟨fun n => ⟨s.table,by rw [List.take_nil]; exact ht⟩,trivial,nofun⟩
  · rw [hsup] at hv
    cases hv

def OrderlyStep (s : Server K) : Step K → Prop
  | .table a _ => Orderly s.table a
  | _ => True

instance (s : Server K) : (a : Step K) → Decidable (OrderlyStep s a)
  | .table a _ => inferInstanceAs (Decidable (Orderly s.table a))
  | .page _ | .flush _ | .checkpointBegin _ | .checkpointSample | .checkpointEnd _
  | .checkpointFlush | .checkpointSuperblock | .checkpointFail => .isTrue trivial

theorem reach_inv (hr : Reach (step schema) Start OrderlyStep s) : Inv schema s := by
  refine hr.invariant (fun _ => start_inv) fun s a t hi hok hs => step_inv hi ?_ hs
  rintro x p rfl
  exact hok

end EngineLog
end PgAm
