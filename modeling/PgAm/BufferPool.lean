import PgAm.Machine
import PgAm.Types

/-! The buffer pool at the granularity of its locks. A section of a frame's meta mutex,
of a page-table shard or of an atomic is one step; the content latch and the allocation
lock are held by the threads whose program counter lies inside their scope. Results of
the WAL and of file operations are choices of the environment. -/
namespace PgAm
namespace BufferPool

open Function

structure PageFormat (C : Type) where
  zero : C
  pdLsn : C → ℕ
  setPdLsn : C → ℕ → C
  pdLsn_zero : pdLsn zero = Lsn.invalid
  pdLsn_setPdLsn : ∀ c l, pdLsn (setPdLsn c l) = l

structure FrameMeta where
  pageId : ℕ
  pinCount : ℕ
  dirty : Bool
  reference : Bool
  cachedLsn : ℕ
  firstDirtyLsn : ℕ
  needsFpi : Bool
  evicting : Bool
  flushing : Bool
  deriving DecidableEq

def FrameMeta.default : FrameMeta :=
  ⟨PageId.invalid,0,false,false,Lsn.invalid,Lsn.invalid,false,false,false⟩

/-- The fields behind locks and atomics, and the data file with its writes and syncs. -/
structure Shared (C : Type) where
  frameMeta : ℕ → FrameMeta
  content : ℕ → C
  pageTable : ℕ → Option ℕ
  clockHand : ℕ
  checkpointLsn : ℕ
  flushGen : ℕ
  syncedGen : ℕ
  base : ℕ → C
  writes : List (ℕ × C)
  synced : ℕ

/-- The public calls that end with a guard. -/
inductive Access
  | pin
  | pinMut
  | pinMutWithoutFpi
  | newPage
  deriving DecidableEq

/-- Who flushes a frame: `flush`, or an eviction for `page` that found `old` in it. -/
inductive Owner
  | call
  | evict (a : Access) (page old : ℕ)
  deriving DecidableEq

/-- What `flush_frame` does next once it has claimed the dirty epoch. -/
inductive Stage
  | latch
  | wal (lsn : ℕ)
  | write
  | bump
  | mark (gen : ℕ)
  | check (gen : ℕ)
  | sync (covered upTo : ℕ)
  | publish (covered : ℕ)
  | done
  | failed (e : StorageError) (latched : Bool)
  deriving DecidableEq

/-- Program counters; each names the section that is executed next. -/
inductive Pc
  | idle
  | returned (err : Option StorageError)
  | allocWait (a : Access) (p : ℕ)
  | resident (a : Access) (p : ℕ)
  | absent (a : Access) (p : ℕ)
  | scan (a : Access) (p left : ℕ)
  | probe (a : Access) (p left f : ℕ)
  | flushClaim (o : Owner) (f : ℕ)
  | flushing (o : Owner) (f page saved : ℕ) (st : Stage)
  | evictFailed (a : Access) (p f : ℕ) (e : StorageError)
  | unmap (a : Access) (p f old : ℕ)
  | reset (a : Access) (p f : ℕ)
  | fill (a : Access) (p f : ℕ)
  | load (a : Access) (p f : ℕ)
  | sample (a : Access) (p f : ℕ)
  | install (a : Access) (p f lsn : ℕ)
  | insert (a : Access) (p f : ℕ)
  | markNew (p f : ℕ)
  | latch (a : Access) (p f : ℕ)
  | markDirty (a : Access) (p f : ℕ)
  | fpiCheck (p f : ℕ)
  | fpiGate (p f : ℕ) (needsFpi : Bool)
  | fpiAppend (p f : ℕ)
  | fpiMeta (p f lsn : ℕ)
  | reading (p f : ℕ)
  | writing (p f : ℕ)
  | dropMut (p f lsn : ℕ) (err : Option StorageError)
  | unpin (p f : ℕ) (err : Option StorageError)
  deriving DecidableEq

namespace Pc

def free : Pc → Bool
  | .idle | .returned _ => true
  | _ => false

def allocating : Pc → Bool
  | .resident .. | .absent .. | .scan .. | .probe .. | .flushClaim (.evict ..) _
  | .flushing (.evict ..) .. | .evictFailed .. | .unmap .. | .reset .. | .fill .. | .load ..
  | .sample .. | .install .. | .insert .. => true
  | _ => false

def writes : Pc → Option ℕ
  | .markDirty _ _ f | .fpiCheck _ f | .fpiGate _ f _ | .fpiAppend _ f | .fpiMeta _ f _
  | .writing _ f => some f
  | _ => none

def reads : Pc → Option ℕ
  | .reading _ f | .flushing _ f _ _ (.wal _) | .flushing _ f _ _ .write
  | .flushing _ f _ _ .bump | .flushing _ f _ _ (.mark _)
  | .flushing _ f _ _ (.failed _ true) => some f
  | _ => none

end Pc

structure Pool (C : Type) (n : ℕ) extends Shared C where
  threads : Fin n → Pc

variable {C : Type} {n : ℕ}

def Shared.onDisk (s : Shared C) : ℕ → C :=
  s.writes.foldl (fun file w => update file w.1 w.2) s.base

def Shared.setMeta (s : Shared C) (f : ℕ) (m : FrameMeta) : Shared C :=
  { s with frameMeta := update s.frameMeta f m }

def Shared.setContent (s : Shared C) (f : ℕ) (c : C) : Shared C :=
  { s with content := update s.content f c }

/-- Keep the older of the saved anchor and one that was installed meanwhile. -/
def restoreFirstDirtyLsn (current saved : ℕ) : ℕ :=
  if Lsn.isValid saved ∧ (current = Lsn.invalid ∨ saved < current) then saved else current

/-- `try_pin_resident`; a contended meta lock is a miss. -/
def tryPinResident (s : Shared C) (p : ℕ) (contended : Bool) : Option (ℕ × Shared C) :=
  match s.pageTable p with
  | none => none
  | some f =>
    let m := s.frameMeta f
    if contended ∨ m.pageId ≠ p ∨ m.evicting then none
    else some (f,s.setMeta f { m with pinCount := m.pinCount + 1, reference := true })

def afterPin (a : Access) (p f : ℕ) : Pc :=
  match a with
  | .newPage => .markNew p f
  | _ => .latch a p f

def afterFlush (o : Owner) (f : ℕ) (err : Option StorageError) : Pc :=
  match o,err with
  | .call,_ => .returned err
  | .evict a p old,none => .unmap a p f old
  | .evict a p _,some e => .evictFailed a p f e

def restored (m : FrameMeta) (saved : ℕ) : FrameMeta :=
  { m with
    dirty := true
    firstDirtyLsn := restoreFirstDirtyLsn m.firstDirtyLsn saved
    flushing := false }

/-- A step inside `flush_frame`; `writeLatched`: some thread has the content latched for writing. -/
def advanceFlush (fmt : PageFormat C) (s : Shared C) (writeLatched : Bool) (o : Owner)
    (f page saved : ℕ) (fault : Option StorageError) : Stage → Option (Shared C × Pc)
  | .latch =>
    if writeLatched then none
    else some (s,.flushing o f page saved (.wal (fmt.pdLsn (s.content f))))
  | .wal _ =>
    match fault with
    | none => some (s,.flushing o f page saved .write)
    | some e => some (s,.flushing o f page saved (.failed e true))
  | .write =>
    match fault with
    | none =>
      some ({ s with writes := s.writes ++ [(page,s.content f)] },.flushing o f page saved .bump)
    | some e => some (s,.flushing o f page saved (.failed e true))
  | .bump =>
    some ({ s with flushGen := s.flushGen + 1 },.flushing o f page saved (.mark (s.flushGen + 1)))
  | .mark gen =>
    some (s.setMeta f { s.frameMeta f with needsFpi := true },
      .flushing o f page saved (.check gen))
  | .check gen =>
    if s.syncedGen < gen then
      some (s,.flushing o f page saved (.sync s.flushGen s.writes.length))
    else some (s,.flushing o f page saved .done)
  | .sync covered upTo =>
    match fault with
    | none =>
      some ({ s with synced := max s.synced upTo },.flushing o f page saved (.publish covered))
    | some e => some (s,.flushing o f page saved (.failed e false))
  | .publish covered =>
    some ({ s with syncedGen := max s.syncedGen covered },.flushing o f page saved .done)
  | .done =>
    some (s.setMeta f { s.frameMeta f with flushing := false },afterFlush o f none)
  | .failed e _ =>
    some (s.setMeta f (restored (s.frameMeta f) saved),afterFlush o f (some e))

/-- A step inside `alloc_frame` and `evict_frame`, under the allocation lock. -/
def advanceAlloc (fmt : PageFormat C) (frameCount : ℕ) (s : Shared C)
    (latched writeLatched : ℕ → Bool) (fault : Option StorageError) : Pc → Option (Shared C × Pc)
  | .resident a p =>
    match tryPinResident s p fault.isSome with
    | some (f,s) => some (s,afterPin a p f)
    | none => some (s,.absent a p)
  | .absent a p =>
    if (s.pageTable p).isSome then some (s,.resident a p) else some (s,.scan a p (frameCount * 2))
  | .scan _ _ 0 => some (s,.returned (some .bufferPoolFull))
  | .scan a p (left + 1) =>
    some ({ s with clockHand := s.clockHand + 1 },.probe a p left (s.clockHand % frameCount))
  | .probe a p left f =>
    let m := s.frameMeta f
    if fault.isSome ∨ 0 < m.pinCount ∨ m.evicting then some (s,.scan a p left)
    else if m.reference then some (s.setMeta f { m with reference := false },.scan a p left)
    else
      let s := s.setMeta f { m with evicting := true }
      if m.dirty ∧ m.pageId ≠ PageId.invalid then some (s,.flushClaim (.evict a p m.pageId) f)
      else some (s,.unmap a p f m.pageId)
  | .evictFailed _ _ f e =>
    some (s.setMeta f { s.frameMeta f with evicting := false },.returned (some e))
  | .unmap a p f old =>
    if old = PageId.invalid then some (s,.reset a p f)
    else some ({ s with pageTable := update s.pageTable old none },.reset a p f)
  | .reset a p f => some (s.setMeta f FrameMeta.default,.fill a p f)
  | .fill a p f =>
    if latched f then none
    else some (s.setContent f fmt.zero,if a = .newPage then .sample a p f else .load a p f)
  | .load a p f =>
    if latched f then none
    else match fault with
      | none => some (s.setContent f (s.onDisk p),.sample a p f)
      | some e => some (s,.returned (some e))
  | .sample a p f =>
    if writeLatched f then none else some (s,.install a p f (fmt.pdLsn (s.content f)))
  | .install a p f lsn =>
    some (s.setMeta f { s.frameMeta f with
      pageId := p, pinCount := 1, reference := true, dirty := false, cachedLsn := lsn,
      firstDirtyLsn := Lsn.invalid, needsFpi := true },.insert a p f)
  | .insert a p f =>
    some ({ s with pageTable := update s.pageTable p (some f) },afterPin a p f)
  | _ => none

/-- A step of a thread that has its frame pinned. `lsn` is what an append returns. -/
def advanceGuard (fmt : PageFormat C) (s : Shared C) (latched writeLatched : ℕ → Bool)
    (fault : Option StorageError) (lsn : ℕ) : Pc → Option (Shared C × Pc)
  | .markNew p f =>
    some (s.setMeta f { s.frameMeta f with needsFpi := false, dirty := true },
      .latch .newPage p f)
  | .latch .pin p f => if writeLatched f then none else some (s,.reading p f)
  | .latch .newPage p f => if latched f then none else some (s,.writing p f)
  | .latch a p f => if latched f then none else some (s,.markDirty a p f)
  | .markDirty a p f =>
    some (s.setMeta f { s.frameMeta f with dirty := true },
      if a = .pinMut then .fpiCheck p f else .writing p f)
  | .fpiCheck p f => some (s,.fpiGate p f (s.frameMeta f).needsFpi)
  | .fpiGate p f needsFpi =>
    if needsFpi ∧ Lsn.isValid s.checkpointLsn ∧ fmt.pdLsn (s.content f) < s.checkpointLsn then
      some (s,.fpiAppend p f)
    else some (s,.writing p f)
  | .fpiAppend p f =>
    match fault with
    | none => some (s.setContent f (fmt.setPdLsn (s.content f) lsn),.fpiMeta p f lsn)
    | some e => some (s,.dropMut p f (fmt.pdLsn (s.content f)) (some e))
  | .fpiMeta p f lsn =>
    let m := s.frameMeta f
    some (s.setMeta f { m with
      cachedLsn := lsn
      firstDirtyLsn := if m.firstDirtyLsn = Lsn.invalid then lsn else m.firstDirtyLsn
      dirty := true },.writing p f)
  | .dropMut p f lsn err =>
    let m := s.frameMeta f
    some (if m.pageId = PageId.invalid then s else s.setMeta f { m with
      firstDirtyLsn := if m.firstDirtyLsn = Lsn.invalid then lsn else m.firstDirtyLsn
      dirty := true },.unpin p f err)
  | .unpin _ f err =>
    let m := s.frameMeta f
    some (s.setMeta f { m with pinCount := m.pinCount - 1 },.returned err)
  | _ => none

/-- The first section of `flush_frame`: wait for a flush in flight, then claim. -/
def claim (s : Shared C) (o : Owner) (f : ℕ) : Option (Shared C × Pc) :=
  let m := s.frameMeta f
  if m.flushing then none
  else if !m.dirty ∨ m.pageId = PageId.invalid then some (s,afterFlush o f none)
  else some (s.setMeta f { m with
    flushing := true, dirty := false, firstDirtyLsn := Lsn.invalid },
    .flushing o f m.pageId m.firstDirtyLsn .latch)

/-- `access` and `flush` start calls, `run` goes on; `modify` and `drop` use the guard held. -/
inductive Step (C : Type) (n : ℕ)
  | access (t : Fin n) (a : Access) (p : ℕ) (contended : Bool)
  | flush (t : Fin n) (p : ℕ)
  | run (t : Fin n) (fault : Option StorageError) (lsn : ℕ)
  | modify (t : Fin n) (c : C)
  | drop (t : Fin n)
  | setCheckpointLsn (lsn : ℕ)

def Pool.setThread (s : Pool C n) (t : Fin n) (r : Shared C × Pc) : Pool C n :=
  ⟨r.1,update s.threads t r.2⟩

def Pool.writeLatched (s : Pool C n) (f : ℕ) : Bool :=
  decide (∃ t, (s.threads t).writes = some f)

def Pool.latched (s : Pool C n) (f : ℕ) : Bool :=
  decide (∃ t, (s.threads t).writes = some f ∨ (s.threads t).reads = some f)

def advance (fmt : PageFormat C) (frameCount : ℕ) (s : Pool C n) (t : Fin n)
    (fault : Option StorageError) (lsn : ℕ) : Option (Shared C × Pc) :=
  match s.threads t with
  | .allocWait a p =>
    if ∃ u, (s.threads u).allocating then none else some (s.toShared,.resident a p)
  | .flushClaim o f => claim s.toShared o f
  | .flushing o f page saved st =>
    advanceFlush fmt s.toShared (s.writeLatched f) o f page saved fault st
  | pc =>
    if pc.allocating then advanceAlloc fmt frameCount s.toShared s.latched s.writeLatched fault pc
    else advanceGuard fmt s.toShared s.latched s.writeLatched fault lsn pc

def step (fmt : PageFormat C) (frameCount : ℕ) (s : Pool C n) : Step C n → Option (Pool C n)
  | .access t a p contended =>
    if (s.threads t).free then
      if a = .newPage then
        if p = PageId.invalid then none else some (s.setThread t (s.toShared,.allocWait a p))
      else if p = PageId.invalid then
        some (s.setThread t (s.toShared,.returned (some (.invalidConfig
          (if a = .pin then "cannot pin PageId::INVALID" else "cannot pin_mut PageId::INVALID")))))
      else match tryPinResident s.toShared p contended with
        | some (f,sh) => some (s.setThread t (sh,afterPin a p f))
        | none => some (s.setThread t (s.toShared,.allocWait a p))
    else none
  | .flush t p =>
    if (s.threads t).free then
      if p = PageId.invalid then
        some (s.setThread t (s.toShared,.returned (some (.invalidConfig
          "cannot flush PageId::INVALID"))))
      else match s.pageTable p with
        | none => some (s.setThread t (s.toShared,.returned (some (.pageNotFound p))))
        | some f => some (s.setThread t (s.toShared,.flushClaim .call f))
    else none
  | .run t fault lsn => (advance fmt frameCount s t fault lsn).map (s.setThread t)
  | .modify t c =>
    match s.threads t with
    | .writing _ f => some { s with toShared := s.setContent f c }
    | _ => none
  | .drop t =>
    match s.threads t with
    | .reading p f => some (s.setThread t (s.toShared,.unpin p f none))
    | .writing p f => some (s.setThread t (s.toShared,.dropMut p f (fmt.pdLsn (s.content f)) none))
    | _ => none
  | .setCheckpointLsn lsn => some { s with checkpointLsn := lsn }

def opened (base : ℕ → C) (fmt : PageFormat C) : Pool C n where
  frameMeta := fun _ => FrameMeta.default
  content := fun _ => fmt.zero
  pageTable := fun _ => none
  clockHand := 0
  checkpointLsn := Lsn.invalid
  flushGen := 0
  syncedGen := 0
  base := base
  writes := []
  synced := 0
  threads := fun _ => .idle

section Goes

variable (fmt : PageFormat C) (frameCount : ℕ) (s : Pool C n)
  (fault : Option StorageError) (lsn : ℕ)

/-- The sections of a thread one by one: where it stands, what it leaves and where it goes on. -/
inductive Goes : Pc → Shared C × Pc → Prop
  | lock {a p} (h : ∀ u, ¬(s.threads u).allocating = true) :
    Goes (.allocWait a p) (s.toShared,.resident a p)
  | clean {o f} (hf : ¬(s.frameMeta f).flushing = true)
      (h : (!(s.frameMeta f).dirty) = true ∨ (s.frameMeta f).pageId = PageId.invalid) :
    Goes (.flushClaim o f) (s.toShared,afterFlush o f none)
  | claim {o f} (hf : ¬(s.frameMeta f).flushing = true)
      (h : ¬((!(s.frameMeta f).dirty) = true ∨ (s.frameMeta f).pageId = PageId.invalid)) :
    Goes (.flushClaim o f) (s.setMeta f { s.frameMeta f with
        flushing := true, dirty := false, firstDirtyLsn := Lsn.invalid },
      .flushing o f (s.frameMeta f).pageId (s.frameMeta f).firstDirtyLsn .latch)
  | flush {o f page saved st r} (h : advanceFlush fmt s.toShared (s.writeLatched f) o f page saved
      fault st = some r) : Goes (.flushing o f page saved st) r
  | hit {a p f sh} (h : tryPinResident s.toShared p fault.isSome = some (f,sh)) :
    Goes (.resident a p) (sh,afterPin a p f)
  | miss {a p} : Goes (.resident a p) (s.toShared,.absent a p)
  | again {a p} : Goes (.absent a p) (s.toShared,.resident a p)
  | absent {a p} (h : ¬(s.pageTable p).isSome = true) :
    Goes (.absent a p) (s.toShared,.scan a p (frameCount * 2))
  | full {a p} : Goes (.scan a p 0) (s.toShared,.returned (some .bufferPoolFull))
  | scan {a p left} :
    Goes (.scan a p (left + 1)) ({ s.toShared with clockHand := s.clockHand + 1 },
      .probe a p left (s.clockHand % frameCount))
  | skip {a p left f} : Goes (.probe a p left f) (s.toShared,.scan a p left)
  | spare {a p left f} :
    Goes (.probe a p left f) (s.setMeta f { s.frameMeta f with reference := false },.scan a p left)
  | evictDirty {a p left f} (hf : ¬(fault.isSome = true ∨ 0 < (s.frameMeta f).pinCount ∨
        (s.frameMeta f).evicting = true))
      (h : (s.frameMeta f).dirty = true ∧ (s.frameMeta f).pageId ≠ PageId.invalid) :
    Goes (.probe a p left f) (s.setMeta f { s.frameMeta f with evicting := true },
      .flushClaim (.evict a p (s.frameMeta f).pageId) f)
  | evict {a p left f} (hf : ¬(fault.isSome = true ∨ 0 < (s.frameMeta f).pinCount ∨
        (s.frameMeta f).evicting = true)) (href : ¬(s.frameMeta f).reference = true)
      (h : ¬((s.frameMeta f).dirty = true ∧ (s.frameMeta f).pageId ≠ PageId.invalid)) :
    Goes (.probe a p left f) (s.setMeta f { s.frameMeta f with evicting := true },
      .unmap a p f (s.frameMeta f).pageId)
  | evictFailed {a p f e} :
    Goes (.evictFailed a p f e)
      (s.setMeta f { s.frameMeta f with evicting := false },.returned (some e))
  | unmapped {a p f old} (h : old = PageId.invalid) :
    Goes (.unmap a p f old) (s.toShared,.reset a p f)
  | unmap {a p f old} (h : old ≠ PageId.invalid) :
    Goes (.unmap a p f old)
      ({ s.toShared with pageTable := update s.pageTable old none },.reset a p f)
  | reset {a p f} : Goes (.reset a p f) (s.setMeta f FrameMeta.default,.fill a p f)
  | fillNew {a p f} (ha : a = .newPage) (h : ¬s.latched f = true) :
    Goes (.fill a p f) (s.setContent f fmt.zero,.sample a p f)
  | fill {a p f} (ha : ¬a = .newPage) (h : ¬s.latched f = true) :
    Goes (.fill a p f) (s.setContent f fmt.zero,.load a p f)
  | load {a p f} (h : ¬s.latched f = true) :
    Goes (.load a p f) (s.setContent f (s.onDisk p),.sample a p f)
  | loadFails {a p f e} : Goes (.load a p f) (s.toShared,.returned (some e))
  | sample {a p f} :
    Goes (.sample a p f) (s.toShared,.install a p f (fmt.pdLsn (s.content f)))
  | install {a p f lsn} :
    Goes (.install a p f lsn) (s.setMeta f { s.frameMeta f with
      pageId := p, pinCount := 1, reference := true, dirty := false, cachedLsn := lsn,
      firstDirtyLsn := Lsn.invalid, needsFpi := true },.insert a p f)
  | insert {a p f} :
    Goes (.insert a p f) ({ s.toShared with pageTable := update s.pageTable p (some f) },
      afterPin a p f)
  | markNew {p f} :
    Goes (.markNew p f) (s.setMeta f { s.frameMeta f with needsFpi := false, dirty := true },
      .latch .newPage p f)
  | pin {p f} (h : ¬s.writeLatched f = true) : Goes (.latch .pin p f) (s.toShared,.reading p f)
  | pinNew {p f} (h : ¬s.latched f = true) : Goes (.latch .newPage p f) (s.toShared,.writing p f)
  | pinMut {a p f} (ha : a ≠ .newPage) (h : ¬s.latched f = true) :
    Goes (.latch a p f) (s.toShared,.markDirty a p f)
  | markDirty {a p f} (ha : a = .pinMut) :
    Goes (.markDirty a p f) (s.setMeta f { s.frameMeta f with dirty := true },.fpiCheck p f)
  | markDirtyOnly {a p f} (ha : ¬a = .pinMut) :
    Goes (.markDirty a p f) (s.setMeta f { s.frameMeta f with dirty := true },.writing p f)
  | fpiCheck {p f} : Goes (.fpiCheck p f) (s.toShared,.fpiGate p f (s.frameMeta f).needsFpi)
  | fpiNeeded {p f b} : Goes (.fpiGate p f b) (s.toShared,.fpiAppend p f)
  | fpiSpared {p f b} : Goes (.fpiGate p f b) (s.toShared,.writing p f)
  | fpiAppend {p f} :
    Goes (.fpiAppend p f) (s.setContent f (fmt.setPdLsn (s.content f) lsn),.fpiMeta p f lsn)
  | fpiFails {p f e} :
    Goes (.fpiAppend p f) (s.toShared,.dropMut p f (fmt.pdLsn (s.content f)) (some e))
  | fpiMeta {p f l first} :
    Goes (.fpiMeta p f l) (s.setMeta f { s.frameMeta f with
      cachedLsn := l, firstDirtyLsn := first, dirty := true },.writing p f)
  | dropped {p f l err} (h : (s.frameMeta f).pageId = PageId.invalid) :
    Goes (.dropMut p f l err) (s.toShared,.unpin p f err)
  | dropMut {p f l err first} :
    Goes (.dropMut p f l err) (s.setMeta f { s.frameMeta f with
      firstDirtyLsn := first, dirty := true },.unpin p f err)
  | unpin {p f err} :
    Goes (.unpin p f err) (s.setMeta f { s.frameMeta f with
      pinCount := (s.frameMeta f).pinCount - 1 },.returned err)

end Goes

theorem goes {fmt : PageFormat C} {frameCount : ℕ} {s : Pool C n} {t : Fin n}
    {fault : Option StorageError} {lsn : ℕ} {r : Shared C × Pc}
    (h : advance fmt frameCount s t fault lsn = some r) :
    Goes fmt frameCount s fault lsn (s.threads t) r := by
  unfold advance at h
  generalize s.threads t = pc at h
  split at h
  · split at h <;> cases h
    rename_i hlock
    exact .lock fun u hu => hlock ⟨u,hu⟩
  · unfold BufferPool.claim at h
    dsimp only at h
    repeat' split at h
    all_goals cases h
    all_goals constructor <;> assumption
  · exact .flush h
  · split at h
    · unfold advanceAlloc at h
      split at h
      all_goals try dsimp only at h
      all_goals repeat' split at h
      all_goals cases h
      all_goals constructor <;> assumption
    · unfold advanceGuard at h
      split at h
      all_goals try dsimp only at h
      all_goals repeat' split at h
      all_goals cases h
      all_goals constructor <;> assumption

section Runs

variable {A : Type} (step : Step C n → A)

def runs (t : Fin n) (k : ℕ) : List A := List.replicate k (step (.run t none 0))

def useNewPage (t : Fin n) (changes : List A) : List A :=
  runs step t 13 ++ changes ++ step (.drop t) :: runs step t 2

end Runs

end BufferPool
end PgAm
