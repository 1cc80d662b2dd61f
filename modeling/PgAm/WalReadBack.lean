import PgAm.WalHop
import PgAm.WalResume

/-! Reading back what was appended. Any number of records is added to a fresh WAL, each by
`append` or by `reserve_and_append`; the log is what these calls returned a position for. A record
that is larger than a segment is refused and shuts the writer. -/
namespace PgAm
namespace WalCrash

open WalSystem (Logged logged)

inductive Entry
  | append
  | reserveAndAppend
  deriving DecidableEq, Repr

def Entry.call (cfg : WalConfig) : Entry → Option IoFault → WalRecord → WriterState →
    Except StorageError ℕ × WriterState
  | .append => WalWriter.append cfg
  | .reserveAndAppend => WalWriter.reserveAndAppend cfg

/-- One call without a fault of the file system; its record joins the log if it returns `Ok`. -/
def add (cfg : WalConfig) (s : Sys) (c : Entry × WalRecord) : Sys :=
  match c.1.call cfg none c.2 s.writer with
  | (.ok lsn,w) => ⟨w,s.log ++ [logged cfg c.2 lsn]⟩
  | (.error _,w) => ⟨w,s.log⟩

/-- A record that can be encoded but does not fit a segment. -/
def Oversized (cfg : WalConfig) (r : WalRecord) : Prop :=
  r.payload.length ≤ u16Max ∧ cfg.walSegmentSize < r.recordSize

instance (cfg : WalConfig) (r : WalRecord) : Decidable (Oversized cfg r) :=
  inferInstanceAs (Decidable (_ ∧ _))

/-- Its payload is too long, it does not fit a segment, or the writer is shut. -/
def Refused (cfg : WalConfig) (calls : List (Entry × WalRecord)) (r : WalRecord) :
    StorageError → Prop
  | .serialize _ => u16Max < r.payload.length ∧ ∀ c ∈ calls, ¬Oversized cfg c.2
  | .walWriteFailed _ => Oversized cfg r ∨ ∃ c ∈ calls, Oversized cfg c.2
  | _ => False

/-- The reader gets the records `rs`, and then `None`, in whatever pieces its reads arrive. -/
def ReadsBack (cfg : WalConfig) (d : WalDir) (start : ℕ) (rs : List WalRecord) : Prop :=
  ∃ rd, SegmentReader.openAt cfg.walSegmentSize d start = .ok rd ∧
    ∀ (short : ℕ → ℕ → ℕ → ℕ) (n : ℕ),
      SegmentReader.nextRecords cfg.walSegmentSize cfg.crc32 d short (rs.length + n) rd =
        rs.map (fun r => .ok (some r)) ++ List.replicate n (.ok none)

variable {cfg : WalConfig}

theorem Entry.call_eq (e : Entry) : ∃ name, e.call cfg = WalWriter.appendAs cfg name := by
  cases e with
  | append | reserveAndAppend => exact ⟨_,rfl⟩

theorem call_poisoned (e : Entry) (r : WalRecord) {st : WriterState} (h : st.lastError ≠ none) :
    ∃ msg, e.call cfg none r st = (.error (.walWriteFailed msg),st) := by
  obtain ⟨name,hname⟩ := @Entry.call_eq cfg e
  obtain ⟨msg,hmsg⟩ := Option.ne_none_iff_exists'.1 h
  refine ⟨msg,?_⟩
  rw [hname,WalWriter.appendAs,WalWriter.checkError,hmsg]

theorem call_long (e : Entry) {r : WalRecord} {st : WriterState} (h : st.lastError = none)
    (hr : u16Max < r.payload.length) :
    ∃ msg, e.call cfg none r st = (.error (.serialize msg),st) := by
  obtain ⟨name,hname⟩ := @Entry.call_eq cfg e
  rw [hname,WalWriter.appendAs,WalWriter.checkError,h]
  exact ⟨_,if_pos hr⟩

variable {r : WalRecord} {st : WriterState}

theorem call_oversized (e : Entry) (h : st.lastError = none) (hr : Oversized cfg r) :
    ∃ msg st', e.call cfg none r st = (.error (.walWriteFailed msg),st') ∧
      st'.lastError ≠ none ∧ st'.segmentManager = st.segmentManager := by
  obtain ⟨name,hname⟩ := @Entry.call_eq cfg e
  have henc : ∃ buf, WalRecord.encode cfg.crc32 { r with lsn := st.lsnClock } = .ok buf :=
    ⟨_,if_neg (not_lt.2 hr.1)⟩
  obtain ⟨buf,hbuf⟩ := henc
  have hlen : cfg.walSegmentSize < buf.length := by
    rw [WalRecord.encode_length cfg.crc32 hbuf]
    exact hr.2
  have hwrite : WalSegmentManager.writeRecordToSegment cfg.walSegmentSize buf st.lsnClock
      ⟨st.segmentManager,none⟩ = (.error (.walWriteFailed
        s!"record size {buf.length} exceeds segment size {cfg.walSegmentSize}"),
        ⟨st.segmentManager,none⟩) := by
    rw [WalSegmentManager.writeRecordToSegment,if_pos hlen]
    rfl
  rw [hname,WalWriter.appendAs,WalWriter.checkError,h]
  dsimp only
  rw [if_neg (not_lt.2 hr.1),hbuf]
  dsimp only
  rw [hwrite]
  exact ⟨_,_,rfl,Option.some_ne_none _,rfl⟩

theorem call_outcome (e : Entry) (hnone : st.lastError = none)
    (hlaid : st.segmentManager.Laid cfg.walSegmentSize) (r : WalRecord) :
    Outcome cfg r none st (e.call cfg none r st).1 (e.call cfg none r st).2 := by
  obtain ⟨name,hname⟩ := @Entry.call_eq cfg e
  rw [hname]
  exact appendAs_outcome name hnone hlaid r none

/-- The writer `w` is in order and the log stands in its files, with nothing behind it. -/
structure Writable (cfg : WalConfig) (w : WriterState) (log : List Logged) : Prop where
  inv : Inv cfg ⟨w,log⟩
  stale : StaleFree cfg ⟨w,log⟩
  abreast : Abreast cfg ⟨w,log⟩

variable {w : WriterState}

variable {log : List Logged}

theorem Writable.call (h : Writable cfg w log) (e : Entry) (hr : Appendable cfg r) :
    ∃ w', e.call cfg none r w = (.ok w.lsnClock,w') ∧ w'.lastError = none ∧
      (Typed ⟨w,log⟩ r → Writable cfg w' (log ++ [logged cfg r w.lsnClock])) := by
  have hout := call_outcome e h.inv.ready.healthy h.inv.ready.laid r
  generalize e.call cfg none r w = out at hout
  obtain ⟨res,w'⟩ := out
  cases hout with
  | stopped hspread hw hcalm => exact absurd (hcalm rfl hr.1 hr.2) (not_lt.2 h.abreast)
  | stored hbuf hlaid hle hw =>
    refine ⟨_,rfl,h.inv.ready.healthy,fun hf => ⟨h.inv.stored_append hf hbuf hlaid hw,?_,?_⟩⟩
    · intro p hp
      exact (congrArg (Option.getD · 0) (hw.data_behind p hp)).trans
        (h.stale p ((Nat.le_add_right _ _).trans hp))
    · simp only [Abreast,Lsn.segmentId]
      rcases hw.current_le.eq_or_lt with he | hlt
      · rw [← he]
        exact h.abreast.trans (Nat.div_le_div_right (Nat.le_add_right _ _))
      · exact (Nat.le_div_iff_mul_le cfg.size_pos).2 (hw.position hlt)

theorem Writable.yields {w : WriterState} {log l₁ l₂ : List Logged} (h : Writable cfg w log)
    (hl : log = l₁ ++ l₂) :
    WalReader.Yields cfg.walSegmentSize cfg.crc32 w.segmentManager.dir (stop l₁)
      (l₂.map Logged.record) (.ok (stop log)) := by
  subst hl
  have hclock : w.lsnClock = stop (l₁ ++ l₂) := h.inv.clock
  have hend : WalReader.Yields cfg.walSegmentSize cfg.crc32 w.segmentManager.dir
      (stop (l₁ ++ l₂)) [] (.ok (stop (l₁ ++ l₂))) := by
    refine .done (WalReader.nextRecord_blank fun i b hb => ?_)
    rw [readByte_eq hb]
    exact h.stale _ (hclock.trans_le (Nat.le_add_right _ _))
  have hy := yields_log h.inv.contiguous
    (fun x hx => h.inv.encoded x (List.mem_append_right _ hx))
    (fun x hx => h.inv.stored x (List.mem_append_right _ hx)) hend
  rwa [List.append_nil] at hy

theorem Writable.readsBack {w : WriterState} {log l₁ l₂ : List Logged} (h : Writable cfg w log)
    (hl : log = l₁ ++ l₂)
    (hmem : Lsn.segmentId (stop l₁) cfg.walSegmentSize ∈ w.segmentManager.dir.ids) :
    ReadsBack cfg w.segmentManager.dir (stop l₁) (l₂.map Logged.record) := by
  have hopen : SegmentReader.openAt cfg.walSegmentSize w.segmentManager.dir (stop l₁) =
      .ok ⟨Lsn.segmentId (stop l₁) cfg.walSegmentSize,stop l₁⟩ := by
    have hvalid : Lsn.isValid (stop l₁) = true := by
      simpa [Lsn.isValid] using (stop_pos l₁).ne'
    have halign : stop l₁ % lsnAlignment = 0 := Nat.mod_eq_zero_of_dvd (h.inv.dvd_stop hl)
    rw [SegmentReader.openAt,WalReader.openAt,if_neg,if_pos hmem]
    · rfl
    · rw [hvalid,halign]
      simp
  exact ⟨_,hopen,fun short n => SegmentReader.nextRecords_of_yields cfg.size_pos short hmem rfl
    (h.yields hl)⟩

theorem Writable.readsBack_first (h : Writable cfg w log) :
    ReadsBack cfg w.segmentManager.dir Lsn.first (log.map Logged.record) := by
  refine @Writable.readsBack cfg w log [] log h rfl ?_
  rw [stop_nil,h.inv.origin]
  exact h.inv.ready.laid.mem 0 (Nat.zero_le _)

theorem Writable.readsBack_mem {log l₁ l₂ : List Logged} {x : Logged}
    (h : Writable cfg w log) (hl : log = l₁ ++ x :: l₂) :
    ReadsBack cfg w.segmentManager.dir x.lsn ((x :: l₂).map Logged.record) := by
  have hcont := h.inv.contiguous
  have hmem := h.inv.segment_mem (x := x) (by rw [hl]; simp)
  rw [hl,List.map_append,List.map_cons] at hcont
  have hpos : x.lsn = stop l₁ := hcont.pos_eq
  rw [hpos] at hmem ⊢
  exact h.readsBack hl hmem

/-- The log stands in the files, and the writer is open as long as no record was oversized. -/
structure Run (cfg : WalConfig) (calls : List (Entry × WalRecord)) (s : Sys) : Prop where
  files : ∃ w, Writable cfg w s.log ∧ w.segmentManager.dir = s.writer.segmentManager.dir ∧
    (s.writer.lastError = none → w = s.writer)
  shut : s.writer.lastError = none ↔ ∀ c ∈ calls, ¬Oversized cfg c.2
  exact : (∀ c ∈ calls, Appendable cfg c.2) →
    List.Forall₂ (fun c x => x.record = { c.2 with lsn := x.lsn }) calls s.log

theorem not_appendable_of_oversized (h : Oversized cfg r) : ¬Appendable cfg r :=
  fun ha => absurd ha.2 (not_le.2 h.2)

variable {calls : List (Entry × WalRecord)}

variable {s : Sys}

theorem Run.refused (h : Run cfg calls s)
    {c : Entry × WalRecord} (hover : s.writer.lastError = none → ¬Oversized cfg c.2)
    (happ : s.writer.lastError = none → ¬Appendable cfg c.2) : Run cfg (calls ++ [c]) s where
  files := h.files
  shut := by
    constructor
    · intro hnone c' hc'
      rcases List.mem_append.1 hc' with hc' | hc'
      · exact h.shut.1 hnone c' hc'
      · rw [List.mem_singleton.1 hc']
        exact hover hnone
    · exact fun hall => h.shut.2 fun c' hc' => hall c' (List.mem_append_left _ hc')
  exact hall := by
    have hcalls : ∀ c' ∈ calls, ¬Oversized cfg c'.2 := fun c' hc' ho =>
      not_appendable_of_oversized ho (hall c' (List.mem_append_left _ hc'))
    exact absurd (hall c (by simp)) (happ (h.shut.2 hcalls))

theorem Run.add (h : Run cfg calls s)
    (c : Entry × WalRecord) (hword : ∀ x ∈ (add cfg s c).log, x.record.Fits) :
    Run cfg (calls ++ [c]) (add cfg s c) := by
  obtain ⟨e,r⟩ := c
  by_cases hnone : s.writer.lastError = none
  swap
  · obtain ⟨err,hcall⟩ := @call_poisoned cfg e r s.writer hnone
    rw [WalCrash.add,hcall]
    exact h.refused (fun hn => absurd hn hnone) fun hn => absurd hn hnone
  by_cases hlong : u16Max < r.payload.length
  · obtain ⟨err,hcall⟩ := @call_long cfg e r s.writer hnone hlong
    rw [WalCrash.add,hcall]
    exact h.refused (fun _ ho => absurd ho.1 (not_le.2 hlong)) fun _ ha =>
      absurd ha.1 (not_le.2 hlong)
  obtain ⟨w,hw,hdir,heq⟩ := h.files
  by_cases hover : cfg.walSegmentSize < r.recordSize
  · have ho : Oversized cfg r := ⟨not_lt.1 hlong,hover⟩
    obtain ⟨err,st',hcall,hshut,hman⟩ := call_oversized e hnone ho
    rw [WalCrash.add,hcall]
    refine ⟨⟨w,hw,?_,fun hn => absurd hn hshut⟩,?_,fun hall => ?_⟩
    · exact hdir.trans (congrArg _ hman.symm)
    · exact iff_of_false hshut fun hall => hall (e,r) (by simp) ho
    · exact absurd (hall (e,r) (by simp)) (not_appendable_of_oversized ho)
  · have ha : Appendable cfg r := ⟨not_lt.1 hlong,not_lt.1 hover⟩
    obtain rfl := heq hnone
    obtain ⟨w',hcall,hnone',hnext⟩ := hw.call e ha
    rw [WalCrash.add,hcall] at hword ⊢
    have hf : Typed s r := hword (logged cfg r s.writer.lsnClock) (by simp)
    refine ⟨⟨w',hnext hf,rfl,fun _ => rfl⟩,?_,fun hall => ?_⟩
    · refine iff_of_true hnone' fun c' hc' => ?_
      rcases List.mem_append.1 hc' with hc' | hc'
      · exact h.shut.1 hnone c' hc'
      · rw [List.mem_singleton.1 hc']
        exact fun ho => absurd ho.2 hover
    · refine List.rel_append (h.exact fun c' hc' => hall c' (List.mem_append_left _ hc')) ?_
      exact .cons rfl .nil

theorem log_add (s : Sys) (c : Entry × WalRecord) : s.log ⊆ (add cfg s c).log := by
  unfold add
  split
  · exact List.subset_append_left _ _
  · exact List.Subset.refl _

theorem run_calls (h : Run cfg [] s) (calls : List (Entry × WalRecord))
    (hword : ∀ x ∈ (calls.foldl (add cfg) s).log, x.record.Fits) :
    Run cfg calls (calls.foldl (add cfg) s) := by
  induction calls using List.reverseRecOn with
  | nil => exact h
  | append_singleton calls c ih =>
    rw [List.foldl_append] at hword ⊢
    exact (ih fun x hx => hword x (log_add _ c hx)).add c hword

theorem open_fresh_iff : (∃ w, WalWriter.openWithScanStart cfg WalDir.empty Lsn.invalid = .ok w) ↔
    Lsn.first < cfg.walSegmentSize := by
  have hempty : WalDir.empty.Complete cfg.walSegmentSize := fun id hid =>
    absurd hid (Nat.not_lt_zero id)
  obtain ⟨hlaid,hdata,hcur⟩ := openSegments_laid hempty
  have hstart : scanStart Lsn.invalid = Lsn.first := rfl
  constructor
  · rintro ⟨w,hw⟩
    have hle := hlaid.le _ (mem_of_open hlaid hw)
    rw [hcur,hstart] at hle
    exact (Nat.div_eq_zero_iff_lt cfg.size_pos).1 (Nat.le_zero.1 hle)
  · intro hsize
    have hmem : Lsn.segmentId (scanStart Lsn.invalid) cfg.walSegmentSize ∈
        (WalWriter.openSegments cfg WalDir.empty).dir.ids := by
      have hzero : Lsn.segmentId Lsn.first cfg.walSegmentSize = 0 := Nat.div_eq_of_lt hsize
      rw [hstart,hzero]
      exact hlaid.mem 0 (Nat.zero_le _)
    have hblank : WalReader.ReadsAs cfg.walSegmentSize
        (WalWriter.openSegments cfg WalDir.empty).dir (scanStart Lsn.invalid) [] := by
      intro i b hb
      rw [readByte_eq hb,hdata]
      rfl
    rw [open_of_yields hlaid (by decide) hmem (.done (WalReader.nextRecord_blank hblank))]
    exact ⟨_,rfl⟩

theorem fresh_run (hw : WalWriter.openWithScanStart cfg WalDir.empty Lsn.invalid = .ok w) :
    Run cfg [] ⟨w,[]⟩ := by
  obtain ⟨hinv,hstale⟩ := @fresh_inv cfg ⟨w,[]⟩ ⟨w,hw,rfl⟩
  obtain ⟨startLsn,rfl⟩ := WalWriter.openWithScanStart_ok hw
  refine ⟨⟨_,⟨hinv,hstale,?_⟩,rfl,fun _ => rfl⟩,iff_of_true rfl (by simp),fun _ => .nil⟩
  change (WalWriter.openSegments cfg WalDir.empty).currentSegmentId ≤ _
  rw [(@WalWriter.openSegments_touched cfg WalDir.empty).current]
  exact Nat.zero_le _

theorem Run.call_ok (h : Run cfg calls s) (e : Entry) (hr : Appendable cfg r)
    (hc : ∀ c ∈ calls, ¬Oversized cfg c.2) : ∃ lsn, (e.call cfg none r s.writer).1 = .ok lsn := by
  obtain ⟨w,hw,-,heq⟩ := h.files
  obtain rfl := heq (h.shut.2 hc)
  obtain ⟨w',hcall,-⟩ := hw.call e hr
  exact ⟨_,by rw [hcall]⟩

theorem Run.call_error (h : Run cfg calls s) (e : Entry)
    (hr : ¬(Appendable cfg r ∧ ∀ c ∈ calls, ¬Oversized cfg c.2)) :
    ∃ err, (e.call cfg none r s.writer).1 = .error err ∧ Refused cfg calls r err := by
  by_cases hnone : s.writer.lastError = none
  · have hc := h.shut.1 hnone
    by_cases hlong : u16Max < r.payload.length
    · obtain ⟨msg,hcall⟩ := @call_long cfg e r _ hnone hlong
      exact ⟨.serialize msg,by rw [hcall],hlong,hc⟩
    · have hover : Oversized cfg r :=
        ⟨not_lt.1 hlong,not_le.1 fun hle => hr ⟨⟨not_lt.1 hlong,hle⟩,hc⟩⟩
      obtain ⟨msg,st',hcall,-⟩ := call_oversized e hnone hover
      exact ⟨.walWriteFailed msg,by rw [hcall],.inl hover⟩
  · obtain ⟨msg,hcall⟩ := @call_poisoned cfg e r _ hnone
    refine ⟨.walWriteFailed msg,by rw [hcall],.inr ?_⟩
    by_contra hc
    exact hnone (h.shut.2 fun c hmem ho => hc ⟨c,hmem,ho⟩)

/-- A record is taken exactly if it fits and the writer is open; others get the error of their
kind. -/
theorem Run.call_iff (h : Run cfg calls s) (e : Entry) (r : WalRecord) :
    ((∃ lsn, (e.call cfg none r s.writer).1 = .ok lsn) ↔
      Appendable cfg r ∧ ∀ c ∈ calls, ¬Oversized cfg c.2) ∧
    ∀ err, (e.call cfg none r s.writer).1 = .error err → Refused cfg calls r err := by
  by_cases hr : Appendable cfg r ∧ ∀ c ∈ calls, ¬Oversized cfg c.2
  · obtain ⟨lsn,hcall⟩ := h.call_ok e hr.1 hr.2
    exact ⟨iff_of_true ⟨lsn,hcall⟩ hr,fun err he => nomatch hcall.symm.trans he⟩
  · obtain ⟨err,hcall,href⟩ := h.call_error e hr
    refine ⟨iff_of_false (fun ⟨lsn,hok⟩ => nomatch hcall.symm.trans hok) hr,fun err' he => ?_⟩
    cases hcall.symm.trans he
    exact href

/-- A fresh WAL opens exactly if its first position lies in the first segment. A record is taken
exactly if it fits a segment and none before it was refused for its size. The reader gets all
records that were taken, from each of their positions, and then the end. -/
theorem wal_reads_back :
    ((∃ w, WalWriter.openWithScanStart cfg WalDir.empty Lsn.invalid = .ok w) ↔
      Lsn.first < cfg.walSegmentSize) ∧
    ∀ w, WalWriter.openWithScanStart cfg WalDir.empty Lsn.invalid = .ok w →
      ∀ calls s, s = calls.foldl (add cfg) ⟨w,[]⟩ → (∀ x ∈ s.log, x.record.Fits) →
        (∀ e r, ((∃ lsn, (Entry.call cfg e none r s.writer).1 = .ok lsn) ↔
            Appendable cfg r ∧ ∀ c ∈ calls, ¬Oversized cfg c.2) ∧
          ∀ err, (Entry.call cfg e none r s.writer).1 = .error err → Refused cfg calls r err) ∧
        ((∀ c ∈ calls, Appendable cfg c.2) →
          List.Forall₂ (fun c x => x.record = { c.2 with lsn := x.lsn }) calls s.log) ∧
        ReadsBack cfg s.writer.segmentManager.dir Lsn.first (s.log.map Logged.record) ∧
        ∀ l₁ x l₂, s.log = l₁ ++ x :: l₂ →
          ReadsBack cfg s.writer.segmentManager.dir x.lsn ((x :: l₂).map Logged.record) := by
  refine ⟨open_fresh_iff,fun w₀ hopen => ?_⟩
  rintro calls s rfl hword
  have hrun := run_calls (fresh_run hopen) calls hword
  obtain ⟨w,hw,hdir,-⟩ := hrun.files
  rw [← hdir]
  exact ⟨hrun.call_iff,hrun.exact,hw.readsBack_first,fun l₁ x l₂ hl => hw.readsBack_mem hl⟩

/-- A record of 136 bytes does not go into segments of 128 bytes. -/
theorem oversized_record_refused :
    ∃ w, WalWriter.openWithScanStart tinyConfig WalDir.empty Lsn.invalid = .ok w ∧
      (filler 100).payload.length ≤ 65535 ∧ ∀ e : Entry,
        (∃ msg, (e.call tinyConfig none (filler 100) w).1 = .error (.walWriteFailed msg)) ∧
        ReadsBack tinyConfig (e.call tinyConfig none (filler 100) w).2.segmentManager.dir
          Lsn.first [] := by
  obtain ⟨w,hopen⟩ := (@open_fresh_iff tinyConfig).2 (by decide)
  refine ⟨w,hopen,by decide +kernel,fun e => ?_⟩
  obtain ⟨w',hw,hdir,-⟩ := (fresh_run hopen).files
  have hover : Oversized tinyConfig (filler 100) := by decide +kernel
  have hnone : w.lastError = none := (fresh_run hopen).shut.2 (by simp)
  obtain ⟨err,st',hcall,-,hman⟩ := call_oversized e hnone hover
  rw [hcall]
  refine ⟨⟨err,rfl⟩,?_⟩
  change ReadsBack tinyConfig st'.segmentManager.dir Lsn.first []
  rw [hman,← hdir]
  exact hw.readsBack_first

def crossing : List (Entry × WalRecord) :=
  [(.append,filler 60),(.reserveAndAppend,filler 8),(.append,filler 0)]

def crossed : Sys := crossing.foldl (add tinyConfig) freshSys

theorem crossed_records : crossed.log.map Logged.record =
    [{ filler 60 with lsn := 8 },{ filler 8 with lsn := 104 },{ filler 0 with lsn := 144 }] := by
  decide +kernel

theorem crossed_fits : ∀ x ∈ crossed.log, x.record.Fits := by
  intro x hx
  have hmem : x.record ∈ crossed.log.map Logged.record := List.mem_map_of_mem hx
  rw [crossed_records] at hmem
  simp only [List.mem_cons,List.not_mem_nil,or_false] at hmem
  rcases hmem with he | he | he <;> rw [he] <;> exact ⟨by decide,by decide,by decide⟩

theorem wal_reads_back_crossing :
    crossed.log.map Logged.lsn = [8,104,144] ∧
      ReadsBack tinyConfig crossed.writer.segmentManager.dir 104
        [{ filler 8 with lsn := 104 },{ filler 0 with lsn := 144 }] := by
  obtain ⟨hopens,h⟩ := @wal_reads_back tinyConfig
  obtain ⟨w,hw⟩ := hopens.2 (by decide)
  have h := h w hw
  obtain ⟨w',hw',hfresh⟩ := fresh_freshSys
  obtain rfl : w = w' := Except.ok.inj (hw.symm.trans hw')
  rw [← hfresh] at h
  obtain ⟨-,-,-,hread⟩ := h crossing crossed rfl crossed_fits
  have hlsn : crossed.log.map Logged.lsn = [8,104,144] := by decide +kernel
  refine ⟨hlsn,?_⟩
  obtain ⟨a,b,c,hl⟩ := List.length_eq_three.1 (by simpa using congrArg List.length hlsn)
  have hlog := crossed_records
  rw [hl] at hlog hlsn
  simp only [List.map_cons,List.map_nil,List.cons.injEq,and_true] at hlog hlsn
  have hb := hread [a] b [c] hl
  rwa [hlsn.2.1,List.map_cons,List.map_singleton,hlog.2.1,hlog.2.2] at hb

end WalCrash
end PgAm
