import PgAm.TxnSystem

/-! The files of the commit log. A transaction has a nibble of a byte of a page; pages are
written without a sync, and a segment whose pages were written is synced later. After a crash
each byte has its synced value or one that was written since. -/
namespace PgAm
namespace Clog

open Function

def clogSegmentBytes : ℕ := xidsPerSegment / 2
def clogPagesPerSegment : ℕ := clogSegmentBytes / clogPageBytes

def byteInPageOfXid (xid : ℕ) : ℕ := xid % xidsPerClogPage / 2
def segmentIdOfPage (pageNo : ℕ) : ℕ := pageNo / clogPagesPerSegment

/-- The high nibble belongs to the even transaction, the low one to the odd one. -/
def getNibble (byte : BitVec 8) (xid : ℕ) : BitVec 8 :=
  if xid % 2 = 0 then byte >>> 4 else byte &&& 0x0F

def setNibble (byte : BitVec 8) (xid : ℕ) (state : BitVec 8) : BitVec 8 :=
  if xid % 2 = 0 then (byte &&& 0x0F) ||| ((state &&& 0x0F) <<< 4)
  else (byte &&& 0xF0) ||| (state &&& 0x0F)

def toByte : TxnState → BitVec 8
  | .inProgress => 0
  | .committed => 1
  | .aborted => 2
  | .subCommitted => 3

/-- `none` is the panic on a nibble that is no state. -/
def txnStateFromNibble (nibble : BitVec 8) : Option TxnState :=
  if nibble = 0 then some .inProgress
  else if nibble = 1 then some .committed
  else if nibble = 2 then some .aborted
  else if nibble = 3 then some .subCommitted
  else none

abbrev Page := ℕ → BitVec 8

def stateIn (page : Page) (xid : ℕ) : Option TxnState :=
  txnStateFromNibble (getNibble (page (byteInPageOfXid xid)) xid)

def setIn (page : Page) (xid : ℕ) (state : TxnState) : Page :=
  update page (byteInPageOfXid xid)
    (setNibble (page (byteInPageOfXid xid)) xid (toByte state))

theorem getNibble_setNibble (byte : BitVec 8) (xid : ℕ) (state : TxnState) :
    getNibble (setNibble byte xid (toByte state)) xid = toByte state := by
  unfold getNibble setNibble
  split
  · revert byte
    cases state <;> decide +kernel
  · revert byte
    cases state <;> decide +kernel

theorem getNibble_setNibble_of_ne (byte : BitVec 8) {x y : ℕ} (h : x % 2 ≠ y % 2)
    (state : TxnState) : getNibble (setNibble byte x (toByte state)) y = getNibble byte y := by
  unfold getNibble setNibble
  by_cases hx : x % 2 = 0
  · rw [if_pos hx,if_neg (by omega),if_neg (by omega)]
    revert byte
    cases state <;> decide +kernel
  · rw [if_neg hx,if_pos (by omega),if_pos (by omega)]
    revert byte
    cases state <;> decide +kernel

theorem txnStateFromNibble_toByte (state : TxnState) :
    txnStateFromNibble (toByte state) = some state := by
  cases state <;> rfl

theorem stateIn_setIn_self (page : Page) (xid : ℕ) (state : TxnState) :
    stateIn (setIn page xid state) xid = some state := by
  rw [stateIn,setIn,update_self,getNibble_setNibble,txnStateFromNibble_toByte]

/-- Two transactions of a page that share a byte have different nibbles of it. -/
theorem stateIn_setIn_of_ne (page : Page) {x y : ℕ} (hpage : pageNoOfXid y = pageNoOfXid x)
    (hne : y ≠ x) (state : TxnState) : stateIn (setIn page x state) y = stateIn page y := by
  simp only [stateIn,setIn]
  by_cases hbyte : byteInPageOfXid y = byteInPageOfXid x
  · rw [hbyte,update_self,getNibble_setNibble_of_ne]
    simp only [pageNoOfXid,byteInPageOfXid,xidsPerClogPage,clogPageBytes] at hpage hbyte
    omega
  · rw [update_of_ne hbyte]

/-- `written` are the page images since the last sync of their segment, `durable` what it left.
`linked` are the files of the opening: `segment` creates others, and nothing syncs the directory. -/
structure Store where
  linked : ℕ → Bool
  file : ℕ → Page
  durable : ℕ → Page
  written : List (ℕ × Page)
  unsyncedSegments : List ℕ

namespace Store

def opened (linked : ℕ → Bool) (image : ℕ → Page) : Store := ⟨linked,image,image,[],[]⟩

def put (s : Store) (pageNo : ℕ) (image : Page) : Store :=
  { s with
    file := update s.file pageNo image
    written := (pageNo,image) :: s.written }

/-- A write that fails may have written some bytes, and does not register the segment. -/
def writePage (s : Store) (pageNo : ℕ) (data : Page) (fault : Option (ℕ → Bool)) : Bool × Store :=
  match fault with
  | none =>
    (true,{ s.put pageNo data with
      unsyncedSegments := segmentIdOfPage pageNo :: s.unsyncedSegments })
  | some done => (false,s.put pageNo fun i => if done i then data i else s.file pageNo i)

def syncSegment (s : Store) (segment : ℕ) : Store :=
  { s with
    durable := fun p => if segmentIdOfPage p = segment then s.file p else s.durable p
    written := s.written.filter fun w => decide (segmentIdOfPage w.1 ≠ segment)
    unsyncedSegments := s.unsyncedSegments.filter fun g => decide (g ≠ segment) }

/-- Sync the pending segments one after the other, up to the first failure. -/
def syncUnsynced (fails : ℕ → Bool) : List ℕ → Store → Bool × Store
  | [], s => (true,s)
  | segment :: pending, s =>
    if fails segment then (false,s) else syncUnsynced fails pending (s.syncSegment segment)

def KeptImage (s : Store) (p : ℕ) (page : Page) : Prop :=
  ∀ i, page i = s.durable p i ∨ ∃ w ∈ s.written, w.1 = p ∧ page i = w.2 i

/-- After a crash a segment file without a durable directory entry may be gone. -/
def CrashImage (s : Store) (image : ℕ → Page) : Prop :=
  ∃ gone : ℕ → Bool, (∀ g, gone g = true → s.linked g = false) ∧
    ∀ p, if gone (segmentIdOfPage p) then image p = fun _ => 0 else s.KeptImage p (image p)

end Store
end Clog
end PgAm
