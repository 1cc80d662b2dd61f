import PgAm.ClogFile
import PgAm.Machine

/-! The commit log cache: clock-sweep frames over the pages of the commit log. Every call holds
the lock of the whole buffer, so a call is one step; its reads, writes and syncs may fail. A crash
in the middle of a call leaves the files as a failure at that point does. -/
namespace PgAm
namespace Clog

structure ClogFrame where
  pageNo : Option ℕ
  data : Page
  dirty : Bool
  referenced : Bool

structure Inner where
  frames : List ClogFrame
  pageTable : ℕ → Option ℕ
  clockHand : ℕ

/-- Which accesses of a call fail: a write, with the bytes it has written, a read, a sync. -/
structure Faults where
  write : ℕ → Option (ℕ → Bool)
  read : Bool
  sync : ℕ → Bool

def Faults.none : Faults := ⟨fun _ => .none,false,fun _ => false⟩

def Faults.badRead : Faults := { Faults.none with read := true }

def minFrames : ℕ := 4
def maxFrames : ℕ := 1024

def ClogFrame.unused : ClogFrame := ⟨none,fun _ => 0,false,false⟩

structure ClogBuffer where
  store : Store
  inner : Inner

def ClogBuffer.opened (linked : ℕ → Bool) (image : ℕ → Page) (clogBufferFrames : ℕ) : ClogBuffer :=
  ⟨.opened linked image,⟨List.replicate clogBufferFrames .unused,fun _ => none,0⟩⟩

namespace Inner

def setFrame (s : Inner) (i : ℕ) (frame : ClogFrame) : Inner :=
  { s with frames := s.frames.set i frame }

def moveHand (s : Inner) : Inner := { s with clockHand := (s.clockHand + 1) % s.frames.length }

/-- One revolution of the clock hand, for `n` frames. -/
def sweep (allowDirty : Bool) : ℕ → Inner → Inner × Option ℕ
  | 0, s => (s,none)
  | n + 1, s =>
    let i := s.clockHand
    match s.frames[i]? with
    | none => (s.moveHand,none)
    | some frame =>
      if frame.pageNo.isNone then (s.moveHand,some i)
      else if frame.referenced then
        sweep allowDirty n (s.moveHand.setFrame i { frame with referenced := false })
      else if frame.dirty && !allowDirty then sweep allowDirty n s.moveHand
      else (s.moveHand,some i)

/-- A revolution for clean frames, then one for all frames. -/
def findVictim (s : Inner) : Inner × Option ℕ :=
  match s.sweep false s.frames.length with
  | (s,some i) => (s,some i)
  | (s,none) => s.sweep true s.frames.length

end Inner

namespace ClogBuffer

/-- The second half of `locate_frame`: load the page into the frame of the victim. -/
def load (s : ClogBuffer) (pageNo victim : ℕ) (faults : Faults) : ClogBuffer × Option ℕ :=
  if faults.read then (s,none)
  else
    let frame : ClogFrame := ⟨some pageNo,s.store.file pageNo,false,true⟩
    ({ s with inner :=
        { s.inner.setFrame victim frame with
          pageTable := Function.update s.inner.pageTable pageNo (some victim) } },some victim)

def unmap (s : ClogBuffer) (pageNo : ℕ) : ClogBuffer :=
  { s with inner := { s.inner with pageTable := Function.update s.inner.pageTable pageNo none } }

/-- `none` is an error or, for the impossible case that no victim is found, a loop without end. -/
def locateFrame (s : ClogBuffer) (pageNo : ℕ) (faults : Faults) : ClogBuffer × Option ℕ :=
  match s.inner.pageTable pageNo with
  | some i =>
    match s.inner.frames[i]? with
    | none => (s,none)
    | some frame => ({ s with inner := s.inner.setFrame i { frame with referenced := true } },
      some i)
  | none =>
    match s.inner.findVictim with
    | (inner,none) => ({ s with inner },none)
    | (inner,some victim) =>
      let s := { s with inner }
      match inner.frames[victim]? with
      | none => (s,none)
      | some frame =>
        match frame.pageNo with
        | none => s.load pageNo victim faults
        | some old =>
          if frame.dirty then
            match s.store.writePage old frame.data (faults.write victim) with
            | (false,store) => ({ s with store },none)
            | (true,store) => (({ s with store } : ClogBuffer).unmap old).load pageNo victim faults
          else (s.unmap old).load pageNo victim faults

/-- `none` is a panic. -/
def getState (s : ClogBuffer) (xid : ℕ) (faults : Faults) : ClogBuffer × Option TxnState :=
  if xid = TxnId.invalid then (s,some .inProgress)
  else
    match s.locateFrame (pageNoOfXid xid) faults with
    | (s,none) => (s,none)
    | (s,some i) => (s,s.inner.frames[i]?.bind fun frame => stateIn frame.data xid)

/-- The second component says that the call returned. -/
def setState (s : ClogBuffer) (xid : ℕ) (state : TxnState) (faults : Faults) : ClogBuffer × Bool :=
  if xid = TxnId.invalid then (s,true)
  else
    match s.locateFrame (pageNoOfXid xid) faults with
    | (s,none) => (s,false)
    | (s,some i) =>
      match s.inner.frames[i]? with
      | none => (s,false)
      | some frame =>
        ({ s with inner :=
          s.inner.setFrame i { frame with data := setIn frame.data xid state, dirty := true } },
          true)

def flushFrames (faults : Faults) : ℕ → List ClogFrame → Store → Bool × List ClogFrame × Store
  | _, [], store => (true,[],store)
  | i, frame :: rest, store =>
    match frame.pageNo, frame.dirty with
    | some pageNo, true =>
      match store.writePage pageNo frame.data (faults.write i) with
      | (false,store) => (false,frame :: rest,store)
      | (true,store) =>
        let r := flushFrames faults (i + 1) rest store
        (r.1,{ frame with dirty := false } :: r.2.1,r.2.2)
    | _, _ =>
      let r := flushFrames faults (i + 1) rest store
      (r.1,frame :: r.2.1,r.2.2)

/-- `pending` is the order in which the set of unsynced segments is read. -/
def flushDirty (s : ClogBuffer) (pending : List ℕ) (faults : Faults) : ClogBuffer × Bool :=
  let r := flushFrames faults 0 s.inner.frames s.store
  let inner := { s.inner with frames := r.2.1 }
  if r.1 then
    let synced := r.2.2.syncUnsynced faults.sync pending
    (⟨synced.2,inner⟩,synced.1)
  else (⟨r.2.2,inner⟩,false)

def ReadAs (s : ClogBuffer) (pending : List ℕ) (faults : Faults) : Prop :=
  pending ⊆ (flushFrames faults 0 s.inner.frames s.store).2.2.unsyncedSegments ∧
    (flushFrames faults 0 s.inner.frames s.store).2.2.unsyncedSegments ⊆ pending

instance (s : ClogBuffer) (pending : List ℕ) (faults : Faults) :
    Decidable (s.ReadAs pending faults) :=
  inferInstanceAs (Decidable (_ ∧ _))

end ClogBuffer

/-- The buffer with the last state of each transaction and those since the last good flush. -/
structure Sys where
  buffer : ClogBuffer
  last : ℕ → TxnState
  since : ℕ → List TxnState

inductive Call
  | getState (xid : ℕ) (faults : Faults)
  | setState (xid : ℕ) (state : TxnState) (faults : Faults)
  | flushDirty (pending : List ℕ) (faults : Faults)

namespace Sys

def recorded (s : Sys) (xid : ℕ) (state : TxnState) : Sys :=
  if xid = TxnId.invalid then s
  else { s with
    last := Function.update s.last xid state
    since := Function.update s.since xid (state :: s.since xid) }

def step (s : Sys) : Call → Option Sys
  | .getState xid faults => some { s with buffer := (s.buffer.getState xid faults).1 }
  | .setState xid state faults =>
    let r := s.buffer.setState xid state faults
    let s := { s with buffer := r.1 }
    some (if r.2 then s.recorded xid state else s)
  | .flushDirty pending faults =>
    if s.buffer.ReadAs pending faults then
      let r := s.buffer.flushDirty pending faults
      let s := { s with buffer := r.1 }
      some (if r.2 then { s with since := fun x => [s.last x] } else s)
    else none

def Start (s : Sys) : Prop :=
  ∃ linked image frames, minFrames ≤ frames ∧ frames ≤ maxFrames ∧
    s.buffer = .opened linked image frames ∧
    (∀ p, linked (segmentIdOfPage p) = false → image p = fun _ => 0) ∧
    ∀ x, stateIn (image (pageNoOfXid x)) x = some (s.last x) ∧ s.since x = [s.last x]

end Sys
end Clog
end PgAm
