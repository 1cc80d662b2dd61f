import Mathlib.Tactic
import Mathlib.Data.Prod.Lex

/-! Identifiers, alignment and the error type of the storage layer. LSNs are byte
positions of one WAL stream, so they are natural numbers; the stream is cut into
segment files of a fixed size. -/
namespace PgAm


def lsnAlignment : ℕ := 8

/-- On powers of two this is the source's mask `(n + a - 1) & !(a - 1)`. -/
def alignUp (n a : ℕ) : ℕ := (n + a - 1) / a * a

theorem le_alignUp_eight (n : ℕ) : n ≤ alignUp n 8 := by
  unfold alignUp
  omega

theorem dvd_alignUp (n a : ℕ) : a ∣ alignUp n a := Dvd.intro_left _ rfl

namespace Lsn

def invalid : ℕ := 0
def first : ℕ := lsnAlignment

def isValid (l : ℕ) : Bool := l != 0
def segmentId (l : ℕ) (segmentSize : ℕ) : ℕ := l / segmentSize
def segmentOffset (l : ℕ) (segmentSize : ℕ) : ℕ := l % segmentSize

def display (l : ℕ) : String := s!"Lsn({l})"

end Lsn

namespace PageId

def invalid : ℕ := 0
def first : ℕ := 1

def display (p : ℕ) : String := s!"PageId({p})"

end PageId

namespace TxnId

def invalid : ℕ := 0
def first : ℕ := 1

end TxnId

structure Tid where
  pageId : ℕ
  slotId : ℕ
  deriving DecidableEq

instance : LinearOrder Tid :=
  LinearOrder.lift' (fun t => toLex (t.pageId,t.slotId)) (by
    rintro ⟨a,b⟩ ⟨c,d⟩ h
    simpa using h)

/-- Errors of the storage layer; an I/O error carries the operating system's text. -/
inductive StorageError
  | io (message : String)
  | pageNotFound (page : ℕ)
  | bufferPoolFull
  | walCorrupted (lsn : ℕ)
  | walWriteFailed (message : String)
  | walReadFailed (message : String)
  | checkpointFailed (message : String)
  | metadataCorrupted (message : String)
  | lsnNotAvailable (lsn : ℕ)
  | invalidConfig (message : String)
  | invalidOperation (message : String)
  | serialize (message : String)
  | recoveryRequired (message : String)
  | unknownRecord (recordType : ℕ) (lsn : ℕ)
  deriving DecidableEq, Repr

def StorageError.display : StorageError → String
  | .io m => s!"I/O error: {m}"
  | .pageNotFound p => "page " ++ PageId.display p ++ " not found"
  | .bufferPoolFull => "buffer pool full, no evictable frame"
  | .walCorrupted l => "WAL corrupted at " ++ Lsn.display l
  | .walWriteFailed m => s!"WAL write failed: {m}"
  | .walReadFailed m => s!"WAL read failed: {m}"
  | .checkpointFailed m => s!"checkpoint failed: {m}"
  | .metadataCorrupted m => s!"metadata corrupted: {m}"
  | .lsnNotAvailable l => "LSN " ++ Lsn.display l ++ " not available"
  | .invalidConfig m => s!"invalid configuration: {m}"
  | .invalidOperation m => s!"invalid operation: {m}"
  | .serialize m => s!"serialization error: {m}"
  | .recoveryRequired m => s!"recovery required: {m}"
  | .unknownRecord t l =>
    s!"no redo handler registered for WAL record type {t} at " ++ Lsn.display l

end PgAm
