import PgAm.PoolDurable

/-! Fuzzy checkpoints over the buffer pool: threads log and apply changes under their guards
while the coordinator appends its begin record, publishes its position, collects the dirty
pages frame by frame, flushes them and writes the superblock. Positions are record numbers;
only their order matters here. -/
namespace PgAm
namespace Checkpoint

open BufferPool

/-- A page image: its `pd_lsn` and the records that have been applied to it. -/
structure Image where
  pdLsn : ℕ
  changes : List ℕ
  deriving DecidableEq

def imageFormat : PageFormat Image where
  zero := ⟨Lsn.invalid,[]⟩
  pdLsn := Image.pdLsn
  setPdLsn := fun c l => { c with pdLsn := l }
  pdLsn_zero := rfl
  pdLsn_setPdLsn := fun _ _ => rfl

/-- A change names the pages it modifies and whether it re-initialises them. -/
inductive Rec
  | change (targets : List (ℕ × Bool))
  | fullPageImage (page : ℕ) (image : Image)
  | checkpointBegin
  | other
  deriving DecidableEq

/-- Where `trigger_checkpoint` is; `b` is the position of its begin record. -/
inductive Phase
  | idle
  | publish (b : ℕ)
  | examine (b i : ℕ) (found : List ℕ)
  | flush (b : ℕ) (todo : List ℕ)
  | wait (b page : ℕ) (todo : List ℕ)
  | complete (b : ℕ)
  | done (b : ℕ)
  deriving DecidableEq

/-- The pool, the log, the records logged and not applied yet, and the coordinator. -/
structure Sys (n : ℕ) where
  pool : Pool Image n
  log : List Rec
  unapplied : Fin n → List ℕ
  phase : Phase

structure Config (n : ℕ) where
  frameCount : ℕ
  coordinator : Fin n

inductive Step (n : ℕ)
  | pool (a : BufferPool.Step Image n)
  | append (targets : List (Fin n × Bool))
  | apply (t : Fin n) (l : ℕ)
  | fpiAppend (t : Fin n) (fault : Option StorageError)
  | other
  | begin
  | publish
  | examine
  | flushNext
  | flushed
  | writeSuperblock
  | abort

variable {n : ℕ} (cfg : Config n)

def nextLsn (s : Sys n) : ℕ := s.log.length + 1

def guardPage : Pc → Option ℕ
  | .writing p _ => some p
  | _ => none

/-- The coordinator takes a page that is gone for one that has been evicted and flushed. -/
def notFound : StorageError → Bool
  | .pageNotFound _ => true
  | _ => false

def atFpiAppend : Pc → Bool
  | .fpiAppend .. => true
  | _ => false

/-- Steps of the pool alone. A guard is dropped when all it has logged is applied. -/
def ordinary (s : Sys n) : BufferPool.Step Image n → Bool
  | .access t .. | .flush t _ => t ≠ cfg.coordinator
  | .run t fault _ => !atFpiAppend (s.pool.threads t) && !fault.any notFound
  | .drop t => s.unapplied t = []
  | .modify .. | .setCheckpointLsn _ => false

def poolStep (s : Sys n) (a : BufferPool.Step Image n) : Option (Sys n) :=
  (BufferPool.step imageFormat cfg.frameCount s.pool a).map fun q => { s with pool := q }

def appendChange (s : Sys n) (targets : List (Fin n × Bool)) : Sys n :=
  { s with
    log := s.log ++ [.change (targets.filterMap fun x =>
      (guardPage (s.pool.threads x.1)).map (·,x.2))]
    unapplied := fun t =>
      if t ∈ targets.map Prod.fst then nextLsn s :: s.unapplied t else s.unapplied t }

def examineFrame (m : FrameMeta) (found : List ℕ) : List ℕ :=
  if m.dirty ∧ m.pageId ≠ PageId.invalid then found ++ [m.pageId] else found

def flushedPhase (b : ℕ) (todo : List ℕ) : Option StorageError → Phase
  | none => .flush b todo
  | some e => if notFound e then .flush b todo else .idle

def step (s : Sys n) : Step n → Option (Sys n)
  | .pool a => if ordinary cfg s a then poolStep cfg s a else none
  | .append targets =>
    if ∀ x ∈ targets, (guardPage (s.pool.threads x.1)).isSome then some (appendChange s targets)
    else none
  | .apply t l =>
    match s.pool.threads t with
    | .writing _ f =>
      if l ∈ s.unapplied t then
        poolStep cfg { s with unapplied := Function.update s.unapplied t ((s.unapplied t).erase l) }
          (.modify t ⟨l,l :: (s.pool.content f).changes⟩)
      else none
    | _ => none
  | .fpiAppend t fault =>
    match s.pool.threads t, fault with
    | .fpiAppend p f, none =>
      poolStep cfg { s with log := s.log ++ [.fullPageImage p (s.pool.content f)] }
        (.run t none (nextLsn s))
    | .fpiAppend .., some e => if notFound e then none else poolStep cfg s (.run t (some e) 0)
    | _, _ => none
  | .other => some { s with log := s.log ++ [.other] }
  | .begin =>
    match s.phase with
    | .idle | .done _ =>
      some { s with log := s.log ++ [.checkpointBegin], phase := .publish (nextLsn s) }
    | _ => none
  | .publish =>
    match s.phase with
    | .publish b => poolStep cfg { s with phase := .examine b 0 [] } (.setCheckpointLsn b)
    | _ => none
  | .examine =>
    match s.phase with
    | .examine b i found =>
      if i < cfg.frameCount then
        some { s with phase := .examine b (i + 1) (examineFrame (s.pool.frameMeta i) found) }
      else some { s with phase := .flush b found }
    | _ => none
  | .flushNext =>
    match s.phase with
    | .flush b [] => some { s with phase := .complete b }
    | .flush b (p :: todo) =>
      poolStep cfg { s with phase := .wait b p todo } (.flush cfg.coordinator p)
    | _ => none
  | .flushed =>
    match s.phase, s.pool.threads cfg.coordinator with
    | .wait b _ todo, .returned err => some { s with phase := flushedPhase b todo err }
    | _, _ => none
  | .writeSuperblock =>
    match s.phase with
    | .complete b => some { s with phase := .done b }
    | _ => none
  | .abort =>
    match s.phase with
    | .examine .. | .flush .. | .complete _ => some { s with phase := .idle }
    | _ => none

/-- A pool that has just been opened over pages of an earlier log of `k` records. -/
def Fresh (s : Sys n) : Prop :=
  ∃ (k : ℕ) (pd : ℕ → ℕ), (∀ p, pd p ≤ k) ∧
    s = ⟨opened (fun p => ⟨pd p,[]⟩) imageFormat,List.replicate k .other,fun _ => [],.idle⟩

def recordAt (s : Sys n) (l : ℕ) : Option Rec := if l = 0 then none else s.log[l - 1]?

def Rec.targets : Rec → List (ℕ × Bool)
  | .change targets => targets
  | _ => []

def Modifies (s : Sys n) (p l : ℕ) : Prop := ∃ r ∈ recordAt s l, p ∈ r.targets.map Prod.fst

instance (s : Sys n) (p l : ℕ) : Decidable (Modifies s p l) :=
  inferInstanceAs (Decidable (∃ r ∈ recordAt s l, _))

def Applied (l : ℕ) (c : Image) : Prop := l ∈ c.changes

instance (l : ℕ) : DecidablePred (Applied l) := fun c => inferInstanceAs (Decidable (l ∈ c.changes))

end Checkpoint
end PgAm
