import PgAm.Search
import PgAm.Types
import Mathlib.Data.List.Lex
import Mathlib.Order.Fin.Basic

/-! Pages of the B+tree: entries in slot order, sibling links, level and flags, and the space
accounting of the slotted page they live in. -/
namespace PgAm
namespace Btree

/-- An encoded key; like a slice it carries its length. -/
structure Key where
  bytes : List (Fin 256)
  len : ℕ
  length_bytes : bytes.length = len
  deriving DecidableEq

theorem Key.bytes_injective : Function.Injective Key.bytes := by
  rintro ⟨a,l,h⟩ ⟨b,m,h'⟩ (rfl : a = b)
  subst h h'
  rfl

instance : LinearOrder Key := LinearOrder.lift' Key.bytes Key.bytes_injective

/-- A key with its trailer. The trailer of an internal entry is a child page. -/
structure Entry where
  key : Key
  trailer : Tid
  deriving DecidableEq

instance : LinearOrder Entry :=
  LinearOrder.lift' (fun e => toLex (e.key,e.trailer)) (by
    rintro ⟨a,b⟩ ⟨c,d⟩ h
    simpa using h)

inductive HeapError
  | pageFull (needed available : ℕ)
  | tupleTooLarge (len : ℕ)
  deriving DecidableEq

inductive BTreeError
  | pageFull (needed available : ℕ)
  | keyTooLarge (len : ℕ)
  | duplicateKey
  | entryNotFound
  | corrupted (message : String)
  | invalidArgument (message : String)
  | unsupported (message : String)
  | heap (e : HeapError)
  | storage (e : StorageError)
  deriving DecidableEq

def pageSize : ℕ := 8192
def pageHeaderSize : ℕ := 32
def linePointerSize : ℕ := 4
def btreeSpecialSize : ℕ := 16
def leafTrailerSize : ℕ := 10
def internalTrailerSize : ℕ := 8

def maxIndexKeyBytes : ℕ := (pageSize - 32 - 16) / 3 - 16

def btreePageCapacity : ℕ := pageSize - pageHeaderSize - btreeSpecialSize

/-- A page; a page that has never been written has `upper = 0`. -/
structure Page where
  level : ℕ
  leaf : Bool
  root : Bool
  splitIncomplete : Bool
  prev : ℕ
  next : ℕ
  entries : List Entry
  upper : ℕ
  deriving DecidableEq

namespace Page

def init (level : ℕ) (leaf root : Bool) : Page :=
  ⟨level,leaf,root,false,0,0,[],pageSize - btreeSpecialSize⟩

def slotCount (p : Page) : ℕ := p.entries.length

def lower (p : Page) : ℕ := pageHeaderSize + linePointerSize * p.slotCount

def freeSpace (p : Page) : ℕ := p.upper - p.lower

def Geometry (p : Page) : Prop := p.lower ≤ p.upper ∧ p.upper ≤ pageSize - btreeSpecialSize

instance (p : Page) : Decidable p.Geometry := inferInstanceAs (Decidable (_ ∧ _))

def checkedHeader (p : Page) : Except BTreeError Unit :=
  if p.Geometry then .ok ()
  else
    let lower := if p.upper = 0 then 0 else p.lower
    let special := if p.upper = 0 then 0 else pageSize - btreeSpecialSize
    let upper := p.upper
    .error (.corrupted
      s!"bad btree page geometry: pd_lower={lower} pd_upper={upper} pd_special={special}")

def entryLen (p : Page) (e : Entry) : ℕ :=
  e.key.len + if p.level = 0 then leafTrailerSize else internalTrailerSize

def cost (p : Page) (e : Entry) : ℕ := p.entryLen e + linePointerSize

def insertEntryAt (p : Page) (slot : ℕ) (e : Entry) : Except BTreeError Page := do
  p.checkedHeader
  let count := p.slotCount
  if count < slot then
    .error (.corrupted s!"insert slot {slot} beyond slot count {count}")
  else if pageSize - btreeSpecialSize - (pageHeaderSize + linePointerSize) < p.entryLen e then
    .error (.keyTooLarge (p.entryLen e))
  else if p.freeSpace < p.cost e then
    .error (.pageFull (p.cost e) p.freeSpace)
  else
    .ok { p with
      entries := p.entries.take slot ++ e :: p.entries.drop slot
      upper := p.upper - p.entryLen e }

/-- The heap's append; a B+tree page has no unused line pointers. -/
def addTuple (p : Page) (e : Entry) : Except BTreeError Page := do
  p.checkedHeader
  if pageSize - btreeSpecialSize - (pageHeaderSize + linePointerSize) < p.entryLen e then
    .error (.heap (.tupleTooLarge (p.entryLen e)))
  else if p.freeSpace < p.cost e then .error (.heap (.pageFull (p.cost e) p.freeSpace))
  else .ok { p with entries := p.entries ++ [e], upper := p.upper - p.entryLen e }

def addTuples (p : Page) : List Entry → Except BTreeError Page
  | [] => .ok p
  | e :: es => do
    let p ← p.addTuple e
    p.addTuples es

def initRightPage (left leftOldNext level : ℕ) : Page :=
  { init level (level = 0) false with prev := left, next := leftOldNext }

end Page

/-- Move the entries from `copyStartSlot` on to the right page and rebuild the left one. -/
def applySplitCopy (left right : Page) (copyStartSlot : ℕ) (moveToRight : Bool) :
    Except BTreeError (Page × Page) := do
  let count := left.slotCount
  if copyStartSlot = 0 ∨ count < copyStartSlot then
    .error (.corrupted s!"copy_start_slot {copyStartSlot} outside slot count {count}")
  else
    let right ← if moveToRight then right.addTuples (left.entries.drop copyStartSlot) else .ok right
    left.checkedHeader
    let fresh := { left with entries := [], upper := pageSize - btreeSpecialSize }
    let left ← fresh.addTuples (left.entries.take copyStartSlot)
    .ok (left,right)

def entryLowerBound (p : Page) (e : Entry) : ℕ := Search.partitionPoint (· < e) p.entries

/-- The slots in the order in which they are tried, from the median outwards. -/
def splitCandidates (count : ℕ) : List ℕ :=
  (List.range (count / 2 + 2)).flatMap fun d => [count / 2 + d,count / 2 - d]

/-- Both halves have room when the pending entry goes to the one it sorts into. -/
def splitFits (p : Page) (pending : Entry) (s : ℕ) : Bool :=
  let costs := p.entries.map p.cost
  let leftBytes := (costs.take s).sum
  let landsLeft := entryLowerBound p pending ≤ s
  let rightNeed := costs.sum - leftBytes + if landsLeft then 0 else p.cost pending
  let leftNeed := leftBytes + if landsLeft then p.cost pending else 0
  rightNeed ≤ btreePageCapacity ∧ leftNeed ≤ btreePageCapacity

def chooseSplitSlot (p : Page) (pending : Option Entry) : Except BTreeError ℕ :=
  let count := p.slotCount
  if count < 2 then .error (.corrupted s!"cannot split page with {count} entries")
  else match pending with
    | none => .ok (count / 2)
    | some e =>
      match (splitCandidates count).find? fun s => 1 ≤ s ∧ s < count ∧ splitFits p e s with
      | some s => .ok s
      | none => .error (.pageFull (p.cost e) 0)

end Btree
end PgAm
