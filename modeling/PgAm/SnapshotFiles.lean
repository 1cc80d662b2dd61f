import Mathlib.Tactic

/-! The snapshot files of checkpoints in the `meta` directory. Their names carry the position of the
`CheckpointBegin` record in decimal; pruning reads it back from every name in the directory and
keeps the newest checkpoints and the one of the superblock. -/
namespace PgAm
namespace SnapshotFiles

open Function

abbrev Name := List Char

def decimalLoop : ℕ → ℕ → Name → Name
  | 0,_,acc => acc
  | fuel+1,n,acc => if n = 0 then acc else decimalLoop fuel (n / 10) (Nat.digitChar (n % 10) :: acc)

/-- The format `{:016}`. -/
def decimal (n : ℕ) : Name := List.leftpad 16 '0' (decimalLoop n n [])

def digitValue (v : ℕ) (c : Char) : ℕ := v * 10 + (c.toNat - '0'.toNat)

def isAsciiDigit (c : Char) : Bool := '0' ≤ c && c ≤ '9'

def u64Bound : ℕ := 18446744073709551616

def parseU64 (digits : Name) : Option ℕ :=
  let v := digits.foldl digitValue 0
  if v < u64Bound then some v else none

def stripPrefix : Name → Name → Option Name
  | [],l => some l
  | _ :: _,[] => none
  | a :: ps,c :: cs => if a = c then stripPrefix ps cs else none

def stripSuffix (suffix l : Name) : Option Name :=
  (stripPrefix suffix.reverse l.reverse).map List.reverse

/-- The two kinds of files: the active transactions and the dirty pages. -/
inductive Kind
  | att
  | dpt
  deriving DecidableEq

def Kind.tag : Kind → Name
  | .att => "att-".toList
  | .dpt => "dpt-".toList

def fileName (k : Kind) (lsn : ℕ) : Name := k.tag ++ (decimal lsn ++ ".snapshot".toList)

def filePath (k : Kind) (lsn : ℕ) : Name := "meta/".toList ++ fileName k lsn

def parseSnapshotFileLsn (name : Name) : Option ℕ := do
  let rest ← (stripPrefix Kind.att.tag name).or (stripPrefix Kind.dpt.tag name)
  let digits ← stripSuffix ".snapshot".toList rest
  if digits.isEmpty || !digits.all isAsciiDigit then none else parseU64 digits

theorem digitChar_value {d v : ℕ} (h : d < 10) : digitValue v (Nat.digitChar d) = v * 10 + d := by
  interval_cases d <;> rfl

theorem decimalLoop_value {fuel n : ℕ} (h : n ≤ fuel) (acc : Name) :
    (decimalLoop fuel n acc).foldl digitValue 0 = acc.foldl digitValue n := by
  induction fuel generalizing n acc with
  | zero =>
    rw [Nat.le_zero.1 h]
    rfl
  | succ fuel ih =>
    unfold decimalLoop
    split
    · rename_i hn
      rw [hn]
    · have hdiv : n / 10 ≤ fuel := by omega
      rw [ih hdiv,List.foldl_cons,digitChar_value (Nat.mod_lt n (by decide)),Nat.div_add_mod']

theorem zeros_value (k : ℕ) : (List.replicate k '0').foldl digitValue 0 = 0 := by
  induction k with
  | zero => rfl
  | succ k ih =>
    rw [List.replicate_succ,List.foldl_cons]
    exact ih

theorem decimal_value (n : ℕ) : (decimal n).foldl digitValue 0 = n := by
  rw [decimal,List.leftpad,List.foldl_append,zeros_value,decimalLoop_value le_rfl]
  rfl

@[simp] theorem stripPrefix_append (p l : Name) : stripPrefix p (p ++ l) = some l := by
  induction p with
  | nil => cases l <;> rfl
  | cons a p ih => rw [List.cons_append,stripPrefix,if_pos rfl,ih]

@[simp] theorem stripSuffix_append (s l : Name) : stripSuffix s (l ++ s) = some l := by
  simp [stripSuffix]

theorem parse_fileName {k : Kind} {lsn l : ℕ} (h : parseSnapshotFileLsn (fileName k lsn) = some l) :
    l = lsn := by
  have hrest : (stripPrefix Kind.att.tag (fileName k lsn)).or
      (stripPrefix Kind.dpt.tag (fileName k lsn)) = some (decimal lsn ++ ".snapshot".toList) := by
    cases k
    · rw [fileName,stripPrefix_append,Option.some_or]
    · rw [fileName,stripPrefix_append]
      rfl
  simp only [parseSnapshotFileLsn,hrest,bind,Option.bind_some,stripSuffix_append] at h
  split at h
  · cases h
  · unfold parseU64 at h
    rw [decimal_value] at h
    dsimp only at h
    split at h <;> cases h
    rfl

theorem fileName_injective {k k' : Kind} {lsn lsn' : ℕ} (h : fileName k lsn = fileName k' lsn') :
    k = k' ∧ lsn = lsn' := by
  have hk : k = k' := by
    cases k <;> cases k' <;> first | rfl | cases h
  subst hk
  have hdec := List.append_cancel_right (List.append_cancel_left h)
  refine ⟨rfl,?_⟩
  rw [← decimal_value lsn,hdec,decimal_value]

inductive Snapshot
  | att (xids : List ℕ)
  | dpt (pages : List (ℕ × ℕ))
  deriving DecidableEq

structure MetaDir where
  names : List Name
  file : Name → Option Snapshot
  present : ∀ x, x ∈ names ↔ (file x).isSome

namespace MetaDir

def write (d : MetaDir) (x : Name) (c : Snapshot) : MetaDir where
  names := if x ∈ d.names then d.names else x :: d.names
  file := update d.file x (some c)
  present y := by
    by_cases hy : y = x
    · subst hy
      simp only [update_self,Option.isSome_some,iff_true]
      split
      · assumption
      · exact List.mem_cons_self
    · rw [update_of_ne hy,← d.present y]
      split
      · rfl
      · exact ⟨fun h => (List.mem_cons.1 h).resolve_left hy,List.mem_cons_of_mem x⟩

def remove (d : MetaDir) (x : Name) : MetaDir where
  names := d.names.filter (· ≠ x)
  file := update d.file x none
  present y := by
    by_cases hy : y = x
    · subst hy
      simp
    · rw [update_of_ne hy,← d.present y]
      simp [hy]

theorem write_self (d : MetaDir) (x : Name) (c : Snapshot) : (d.write x c).file x = some c :=
  update_self ..

theorem write_other (d : MetaDir) {x y : Name} (c : Snapshot) (h : y ≠ x) :
    (d.write x c).file y = d.file y := update_of_ne h ..

def load (d : MetaDir) (path : Name) : Option Snapshot :=
  (stripPrefix "meta/".toList path).bind d.file

theorem load_filePath (d : MetaDir) (k : Kind) (lsn : ℕ) :
    d.load (filePath k lsn) = d.file (fileName k lsn) := by
  rw [load,filePath,stripPrefix_append,Option.bind_some]

end MetaDir

def retainedSnapshotCheckpoints : ℕ := 3

/-- The snapshot files in a listing of the directory, with their positions. -/
def snapshots (listing : List Name) : List (ℕ × Name) :=
  listing.filterMap fun x => (parseSnapshotFileLsn x).map (·,x)

/-- The positions whose files are kept: the newest ones and that of the superblock. -/
def keep (current : ℕ) (found : List (ℕ × Name)) : List ℕ :=
  (((found.map Prod.fst).insertionSort (· ≥ ·)).destutter (· ≠ ·)).take
    retainedSnapshotCheckpoints ++ [current]

/-- The deletions of `prune_snapshot_files`; a failing one is passed over. -/
def pruneLoop (kept : List ℕ) (fails : Name → Bool) (d : MetaDir) : List (ℕ × Name) → MetaDir
  | [] => d
  | (lsn,x) :: rest =>
    pruneLoop kept fails (if lsn ∈ kept ∨ fails x then d else d.remove x) rest

def pruneSnapshotFiles (current : ℕ) (listing : List Name) (fails : Name → Bool) (d : MetaDir) :
    MetaDir :=
  let found := snapshots listing
  pruneLoop (keep current found) fails d found

theorem pruneLoop_file {kept : List ℕ} {fails : Name → Bool} {x : Name}
    {found : List (ℕ × Name)} (h : ∀ lsn, (lsn,x) ∈ found → lsn ∈ kept) (d : MetaDir) :
    (pruneLoop kept fails d found).file x = d.file x := by
  induction found generalizing d with
  | nil => rfl
  | cons e found ih =>
    obtain ⟨lsn,y⟩ := e
    rw [pruneLoop,ih fun l hl => h l (List.mem_cons_of_mem _ hl)]
    split
    · rfl
    · rename_i hdel
      have hxy : x ≠ y := by
        rintro rfl
        exact hdel (.inl (h lsn List.mem_cons_self))
      exact update_of_ne hxy ..

/-- The files of the superblock's checkpoint survive, whatever else lies in the directory. -/
theorem prune_current (k : Kind) (current : ℕ) (listing : List Name) (fails : Name → Bool)
    (d : MetaDir) :
    (pruneSnapshotFiles current listing fails d).file (fileName k current) =
      d.file (fileName k current) := by
  refine pruneLoop_file (fun lsn hmem => ?_) d
  obtain ⟨y,-,hy⟩ := List.mem_filterMap.1 hmem
  obtain ⟨l,hl,heq⟩ := Option.map_eq_some_iff.1 hy
  cases heq
  rw [parse_fileName hl]
  exact List.mem_append_right _ List.mem_cons_self

end SnapshotFiles
end PgAm
