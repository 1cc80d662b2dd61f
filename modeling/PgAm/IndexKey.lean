import PgAm.BtreePage

/-! The encoding of index keys. Integers are written big-endian with the sign bit flipped, text and
binary values as their bytes, so that the order of the encoded bytes is the order of the values. -/
namespace PgAm
namespace Btree

inductive ColumnType
  | int4
  | int8
  | timestamptz
  | uuid
  | text
  | bytea
  deriving DecidableEq

/-- A column value; `external` is a TOAST pointer. -/
inductive Datum
  | int4 (v : Int32)
  | int8 (v : Int64)
  | timestamptz (v : Int64)
  | uuid (v : BitVec 128)
  | text (s : String)
  | bytea (b : List (Fin 256))
  | external (pointer : BitVec 160)
  deriving DecidableEq

def Datum.columnType : Datum → ColumnType
  | .int4 _ => .int4
  | .int8 _ => .int8
  | .timestamptz _ => .timestamptz
  | .uuid _ => .uuid
  | .text _ => .text
  | .bytea _ | .external _ => .bytea

def asBytes (s : String) : List (Fin 256) := s.toByteArray.data.toList.map UInt8.toFin

/-- `PartialOrd` of values: there is no order between different types. -/
def Datum.partialCmp : Datum → Datum → Option Ordering
  | .int4 a,.int4 b => some (cmp a.toInt b.toInt)
  | .int8 a,.int8 b | .timestamptz a,.timestamptz b => some (cmp a.toInt b.toInt)
  | .uuid a,.uuid b => some (cmp a.toNat b.toNat)
  | .text a,.text b => some (cmp (asBytes a) (asBytes b))
  | .bytea a,.bytea b => some (cmp a b)
  | _,_ => none

def beBytes : ℕ → ℕ → List (Fin 256)
  | 0,_ => []
  | width+1,n => Fin.ofNat 256 (n / 256 ^ width) :: beBytes width (n % 256 ^ width)

def fromBeBytes (bs : List (Fin 256)) : ℕ := bs.foldl (fun v b => v * 256 + b.val) 0

def flipSign {w : ℕ} (x : BitVec w) : BitVec w := x ^^^ BitVec.intMin w

def encodeInt (width : ℕ) (x : BitVec (8 * width)) : List (Fin 256) :=
  beBytes width (flipSign x).toNat

def decodeInt (width : ℕ) (bs : List (Fin 256)) : BitVec (8 * width) :=
  flipSign (BitVec.ofNat _ (fromBeBytes bs))

def encodeI32 (v : Int32) : List (Fin 256) := encodeInt 4 v.toBitVec
def encodeI64 (v : Int64) : List (Fin 256) := encodeInt 8 v.toBitVec
def decodeI32 (bs : List (Fin 256)) : Int32 := .ofBitVec (decodeInt 4 bs)
def decodeI64 (bs : List (Fin 256)) : Int64 := .ofBitVec (decodeInt 8 bs)

/-- What the messages show of a value and of a wrong byte sequence. -/
structure Render where
  datum : Datum → String
  utf8 : List (Fin 256) → String

variable (render : Render)

def encodeKey (d : Datum) : Except BTreeError Key := do
  let bytes ← match d with
    | .int4 v => .ok (encodeI32 v)
    | .int8 v => .ok (encodeI64 v)
    | .text s => .ok (asBytes s)
    | .bytea b => .ok b
    | other => .error (.invalidArgument ("unsupported index key datum: " ++ render.datum other))
  if maxIndexKeyBytes < bytes.length then .error (.keyTooLarge bytes.length)
  else .ok ⟨bytes,bytes.length,rfl⟩

def decodeKey (t : ColumnType) (bytes : List (Fin 256)) : Except BTreeError Datum :=
  let n := bytes.length
  match t with
  | .int4 =>
    if n = 4 then .ok (.int4 (decodeI32 bytes)) else .error (.corrupted s!"Int4 key of {n} bytes")
  | .int8 =>
    if n = 8 then .ok (.int8 (decodeI64 bytes)) else .error (.corrupted s!"Int8 key of {n} bytes")
  | .text =>
    match String.fromUTF8? ⟨(bytes.map UInt8.ofFin).toArray⟩ with
    | some s => .ok (.text s)
    | none => .error (.corrupted ("Text key is not valid UTF-8: " ++ render.utf8 bytes))
  | .bytea => .ok (.bytea bytes)
  | .timestamptz => .error (.invalidArgument "unsupported index key type: Timestamptz")
  | .uuid => .error (.invalidArgument "unsupported index key type: Uuid")

theorem beBytes_length (width n : ℕ) : (beBytes width n).length = width := by
  induction width generalizing n with
  | zero => rfl
  | succ width ih => rw [beBytes,List.length_cons,ih]

variable {width n : ℕ}

theorem digit_lt (h : n < 256 ^ (width + 1)) : n / 256 ^ width < 256 := by
  rw [Nat.div_lt_iff_lt_mul (by positivity),← pow_succ']
  exact h

theorem digit_eq (h : n < 256 ^ (width + 1)) :
    (Fin.ofNat 256 (n / 256 ^ width)).val = n / 256 ^ width := Nat.mod_eq_of_lt (digit_lt h)

theorem foldl_beBytes (h : n < 256 ^ width) (v : ℕ) :
    (beBytes width n).foldl (fun v b => v * 256 + b.val) v = v * 256 ^ width + n := by
  induction width generalizing n v with
  | zero =>
    have hn : n = 0 := by simpa using h
    simp [beBytes,hn]
  | succ width ih =>
    have hdiv := Nat.div_add_mod n (256 ^ width)
    rw [beBytes,List.foldl_cons,ih (Nat.mod_lt n (by positivity)),digit_eq h]
    calc (v * 256 + n / 256 ^ width) * 256 ^ width + n % 256 ^ width
        = v * 256 ^ (width + 1) + (256 ^ width * (n / 256 ^ width) + n % 256 ^ width) := by ring
      _ = v * 256 ^ (width + 1) + n := by rw [hdiv]

theorem fromBeBytes_beBytes (h : n < 256 ^ width) : fromBeBytes (beBytes width n) = n := by
  rw [fromBeBytes,foldl_beBytes h,Nat.zero_mul,Nat.zero_add]

theorem beBytes_lt {width m n : ℕ} (hm : m < 256 ^ width) (hn : n < 256 ^ width) :
    beBytes width m < beBytes width n ↔ m < n := by
  induction width generalizing m n with
  | zero =>
    have hm' : m = 0 := by simpa using hm
    have hn' : n = 0 := by simpa using hn
    simp [beBytes,hm',hn']
  | succ width ih =>
    have hpos : 0 < 256 ^ width := by positivity
    have hdm := Nat.div_add_mod m (256 ^ width)
    have hdn := Nat.div_add_mod n (256 ^ width)
    rw [beBytes,beBytes,List.cons_lt_cons_iff,ih (Nat.mod_lt m hpos) (Nat.mod_lt n hpos),
      Fin.lt_def,Fin.ext_iff,digit_eq hm,digit_eq hn]
    constructor
    · rintro (hlt | ⟨heq,hlt⟩)
      · exact Nat.lt_of_div_lt_div hlt
      · rw [heq] at hdm
        omega
    · intro hlt
      rcases (Nat.div_le_div_right (c := 256 ^ width) hlt.le).lt_or_eq with h | h
      · exact .inl h
      · refine .inr ⟨h,?_⟩
        rw [h] at hdm
        omega

theorem two_pow_xor {w n : ℕ} (h : n < 2 ^ w) : n ^^^ 2 ^ w = 2 ^ w + n := by
  have hor := Nat.two_pow_add_eq_or_of_lt h 1
  rw [Nat.mul_one] at hor
  rw [hor]
  refine Nat.eq_of_testBit_eq fun i => ?_
  rw [Nat.testBit_xor,Nat.testBit_or,Nat.testBit_two_pow]
  by_cases hi : w = i
  · subst hi
    simp [Nat.testBit_lt_two_pow h]
  · simp [hi]

theorem flipSign_toNat {w : ℕ} (x : BitVec (w + 1)) :
    ((flipSign x).toNat : ℤ) = x.toInt + 2 ^ w := by
  have hx := x.isLt
  have hpow : 2 ^ (w + 1) = 2 * 2 ^ w := pow_succ' 2 w
  have hmin : (BitVec.intMin (w + 1)).toNat = 2 ^ w := by
    rw [BitVec.toNat_intMin,Nat.add_sub_cancel]
    exact Nat.mod_eq_of_lt (by omega)
  have hcast : ((2 ^ w : ℕ) : ℤ) = 2 ^ w := by push_cast; rfl
  rw [flipSign,BitVec.toNat_xor,hmin,BitVec.toInt_eq_toNat_cond,← hcast]
  by_cases hlow : x.toNat < 2 ^ w
  · rw [two_pow_xor hlow,if_pos (by omega)]
    push_cast
    ring
  · obtain ⟨r,hr⟩ := Nat.exists_eq_add_of_le (not_lt.1 hlow)
    have hr' : r < 2 ^ w := by omega
    have hflip : x.toNat ^^^ 2 ^ w = r := by
      rw [hr,← two_pow_xor hr',Nat.xor_assoc,Nat.xor_self,Nat.xor_zero]
    rw [hflip,if_neg (by omega),hr]
    push_cast
    ring

theorem flipSign_flipSign {w : ℕ} (x : BitVec w) : flipSign (flipSign x) = x := by
  rw [flipSign,flipSign,BitVec.xor_assoc,BitVec.xor_self,BitVec.xor_zero]

theorem toNat_lt_pow {width : ℕ} (x : BitVec (8 * width)) : x.toNat < 256 ^ width := by
  have h := x.isLt
  rwa [pow_mul] at h

theorem encodeInt_lt {width : ℕ} (h : 0 < width) (x y : BitVec (8 * width)) :
    encodeInt width x < encodeInt width y ↔ x.toInt < y.toInt := by
  obtain ⟨w,hw⟩ : ∃ w, 8 * width = w + 1 := ⟨8 * width - 1,by omega⟩
  rw [encodeInt,encodeInt,beBytes_lt (toNat_lt_pow _) (toNat_lt_pow _)]
  generalize 8 * width = n at x y hw
  subst hw
  have hx := flipSign_toNat x
  have hy := flipSign_toNat y
  omega

theorem decodeInt_encodeInt {width : ℕ} (x : BitVec (8 * width)) :
    decodeInt width (encodeInt width x) = x := by
  rw [decodeInt,encodeInt,fromBeBytes_beBytes (toNat_lt_pow _),BitVec.ofNat_toNat,
    BitVec.setWidth_eq,flipSign_flipSign]

theorem cmp_of_lt_iff {α β : Type*} [LT α] [DecidableLT α] [LT β] [DecidableLT β] {a b : α}
    {x y : β} (h : a < b ↔ x < y) (h' : b < a ↔ y < x) : cmp a b = cmp x y := by
  simp only [cmp,cmpUsing,h,h']

theorem cmp_encodeInt (width : ℕ) (h : 0 < width) (x y : BitVec (8 * width)) :
    cmp (encodeInt width x) (encodeInt width y) = cmp x.toInt y.toInt :=
  cmp_of_lt_iff (encodeInt_lt h x y) (encodeInt_lt h y x)

theorem fromUTF8_asBytes (s : String) :
    String.fromUTF8? ⟨((asBytes s).map UInt8.ofFin).toArray⟩ = some s := by
  have hbytes : ((asBytes s).map UInt8.ofFin).toArray = s.toByteArray.data := by
    simp [asBytes,Function.comp_def]
  rw [hbytes]
  simp [String.fromUTF8?,String.fromUTF8,s.isValidUTF8]

variable {render} {a b : Datum} {ka kb : Key}

inductive Encodes : Datum → List (Fin 256) → Prop
  | int4 (v : Int32) : Encodes (.int4 v) (encodeI32 v)
  | int8 (v : Int64) : Encodes (.int8 v) (encodeI64 v)
  | text (s : String) : Encodes (.text s) (asBytes s)
  | bytea (b : List (Fin 256)) : Encodes (.bytea b) b

theorem encodeKey_ok (h : encodeKey render a = .ok ka) : Encodes a ka.bytes := by
  unfold encodeKey at h
  cases a with
  | int4 v | int8 v | text s | bytea b =>
    simp only [bind,Except.bind] at h
    split at h <;> cases h
    constructor
  | timestamptz v | uuid v | external p => cases h

theorem Encodes.cmp_eq {x y : List (Fin 256)} (ha : Encodes a x) (hb : Encodes b y)
    (ht : a.columnType = b.columnType) : a.partialCmp b = some (cmp x y) := by
  cases ha with
  | int4 v =>
    cases hb <;> try cases ht
    exact congrArg some (cmp_encodeInt 4 (by decide) _ _).symm
  | int8 v =>
    cases hb <;> try cases ht
    exact congrArg some (cmp_encodeInt 8 (by decide) _ _).symm
  | text s | bytea s =>
    cases hb <;> try cases ht
    rfl

theorem Encodes.decode {x : List (Fin 256)} (ha : Encodes a x) :
    decodeKey render a.columnType x = .ok a := by
  cases ha with
  | int4 v =>
    have hlen : (encodeI32 v).length = 4 := beBytes_length _ _
    have hdec : decodeI32 (encodeI32 v) = v := congrArg Int32.ofBitVec (decodeInt_encodeInt _)
    simp only [Datum.columnType,decodeKey,hlen,hdec,if_true]
  | int8 v =>
    have hlen : (encodeI64 v).length = 8 := beBytes_length _ _
    have hdec : decodeI64 (encodeI64 v) = v := congrArg Int64.ofBitVec (decodeInt_encodeInt _)
    simp only [Datum.columnType,decodeKey,hlen,hdec,if_true]
  | text s => simp only [Datum.columnType,decodeKey,fromUTF8_asBytes]
  | bytea b => rfl

theorem cmp_key (k k' : Key) : cmp k k' = cmp k.bytes k'.bytes :=
  cmp_of_lt_iff (a := k) (b := k') Iff.rfl Iff.rfl

def maxChainHops : ℕ := 2 ^ 16

/-- The entries that `range_scan` takes from a leaf, and whether it ends there. -/
def collect (stop : Option Key) : List Entry → List Entry × Bool
  | [] => ([],false)
  | e :: es =>
    if stop.any (· ≤ e.key) then ([],true)
    else (e :: (collect stop es).1,(collect stop es).2)

/-- The loop of `range_scan` along the leaf chain; `hops` right hops are left. -/
def walkRight (pages : ℕ → Page) (stop : Option Key) (hops leaf slot : ℕ) :
    Except BTreeError (List Entry) :=
  let (out,ended) := collect stop ((pages leaf).entries.drop slot)
  if ended = true ∨ (pages leaf).next = 0 then .ok out
  else match hops with
    | 0 => .error (.corrupted "leaf sibling chain exceeds hop bound (cycle?)")
    | hops+1 => (walkRight pages stop hops (pages leaf).next 0).map (out ++ ·)

def startSlot (p : Page) : Option Key → ℕ
  | some k => entryLowerBound p ⟨k,⟨0,0⟩⟩
  | none => 0

/-- `range_scan` from the leaf at which the descent arrives. -/
def rangeScan (pages : ℕ → Page) (leaf : ℕ) (start stop : Option Key) :
    Except BTreeError (List Entry) :=
  walkRight pages stop maxChainHops leaf (startSlot (pages leaf) start)

/-- The entries on the leaves to the right of `leaf`, and the hops to the last of them. -/
inductive RightOf (pages : ℕ → Page) : (leaf : ℕ) → List Entry → (hops : ℕ) → Prop
  | last {leaf : ℕ} (h : (pages leaf).next = 0) : RightOf pages leaf [] 0
  | hop {leaf hops : ℕ} {es : List Entry} (h : (pages leaf).next ≠ 0)
      (hr : RightOf pages (pages leaf).next es hops) :
      RightOf pages leaf ((pages (pages leaf).next).entries ++ es) (hops+1)

def keyInRange (start stop : Option Key) (k : Key) : Bool :=
  start.all (fun lo => lo ≤ k) && stop.all fun hi => k < hi

/-- The chain is sorted, left of the leaf all is below `start`, and right of it nothing is. -/
structure Arrives (pages : ℕ → Page) (leaf : ℕ) (start : Option Key) (left right : List Entry) :
    Prop where
  chain : ∃ hops ≤ maxChainHops, RightOf pages leaf right hops
  sorted : (left ++ ((pages leaf).entries ++ right)).Pairwise (· < ·)
  below : ∀ e ∈ left, e.key < start.getD ⟨[],0,rfl⟩
  above : ∀ e ∈ right, start.getD ⟨[],0,rfl⟩ ≤ e.key

section RangeScan

variable {pages : ℕ → Page} {leaf slot hops n : ℕ} {start stop : Option Key}
  {left right es : List Entry}

/-- One leaf of the scan: it goes on to the rest of the chain unless it ends on this leaf. -/
theorem takeWhile_leaf (stop : Option Key) (es rest : List Entry) :
    (es ++ rest).takeWhile (fun e => !stop.any (· ≤ e.key)) = (collect stop es).1 ++
      if (collect stop es).2 then [] else rest.takeWhile fun e => !stop.any (· ≤ e.key) := by
  induction es with
  | nil => rfl
  | cons e es ih =>
    rw [collect,List.cons_append,List.takeWhile_cons]
    cases stop.any (· ≤ e.key) with
    | true => rfl
    | false => exact congrArg (e :: ·) ih

theorem walkRight_eq (hr : RightOf pages leaf right hops) (hn : hops ≤ n) :
    walkRight pages stop n leaf slot = .ok (((pages leaf).entries.drop slot ++ right).takeWhile
      fun e => !stop.any (· ≤ e.key)) := by
  induction hr generalizing n slot with
  | last h =>
    rw [walkRight.eq_def,takeWhile_leaf]
    simp [h]
  | @hop leaf hops es h hr ih =>
    obtain ⟨n,rfl⟩ := Nat.exists_eq_add_of_le' (Nat.one_le_of_lt hn)
    have hrest := @ih 0 n (Nat.le_of_succ_le_succ hn)
    rw [List.drop_zero] at hrest
    rw [walkRight.eq_def,takeWhile_leaf]
    cases hended : (collect stop ((pages leaf).entries.drop slot)).2 with
    | true => simp [hended]
    | false => simp [hended,h,hrest,Except.map]

theorem lt_probe_iff {e : Entry} {k : Key} : e < ⟨k,⟨0,0⟩⟩ ↔ e.key < k := by
  have hmin : ¬ e.trailer < ⟨0,0⟩ := fun h => by
    rcases Prod.Lex.toLex_lt_toLex.1 h with h | ⟨-,h⟩ <;> exact Nat.not_lt_zero _ h
  refine Prod.Lex.toLex_lt_toLex.trans ⟨?_,.inl⟩
  rintro (h | ⟨-,h⟩)
  · exact h
  · exact absurd h hmin

theorem drop_lowerBound {p : Page} (h : p.entries.Pairwise (· < ·)) (k : Key) :
    p.entries.drop (entryLowerBound p ⟨k,⟨0,0⟩⟩) = p.entries.filter (fun e => k ≤ e.key) := by
  obtain ⟨hlow,hhigh⟩ := Search.lowerBound_spec h (⟨k,⟨0,0⟩⟩ : Entry)
  have htake : (p.entries.take (entryLowerBound p ⟨k,⟨0,0⟩⟩)).filter (fun e => k ≤ e.key) = [] :=
    List.filter_eq_nil_iff.2 fun e he => by simpa using lt_probe_iff.1 (hlow e he)
  have hdrop : (p.entries.drop (entryLowerBound p ⟨k,⟨0,0⟩⟩)).filter (fun e => k ≤ e.key) =
      p.entries.drop (entryLowerBound p ⟨k,⟨0,0⟩⟩) := List.filter_eq_self.2 fun e he =>
    decide_eq_true (not_lt.1 fun hlt => not_lt.2 (hhigh e he) (lt_probe_iff.2 hlt))
  conv_rhs => rw [← List.take_append_drop (entryLowerBound p ⟨k,⟨0,0⟩⟩) p.entries]
  rw [List.filter_append,htake,hdrop,List.nil_append]

/-- From the first slot of the scan on follow all entries that are not below `start`. -/
theorem Arrives.filter_start (ha : Arrives pages leaf start left right) :
    (left ++ ((pages leaf).entries ++ right)).filter (fun e => start.all (· ≤ e.key)) =
      (pages leaf).entries.drop (startSlot (pages leaf) start) ++ right := by
  have hsorted := (List.pairwise_append.1 (List.pairwise_append.1 ha.sorted).2.1).1
  cases start with
  | none =>
    have hleft : left = [] := List.eq_nil_iff_forall_not_mem.2 fun e he =>
      List.not_lt_nil _ (ha.below e he)
    simp [hleft,startSlot]
  | some k =>
    have hleft : left.filter (fun e => k ≤ e.key) = [] :=
      List.filter_eq_nil_iff.2 fun e he => by simpa using ha.below e he
    have hright : right.filter (fun e => k ≤ e.key) = right :=
      List.filter_eq_self.2 fun e he => decide_eq_true (ha.above e he)
    simp only [Option.all_some,List.filter_append,hleft,hright,List.nil_append,startSlot,
      drop_lowerBound hsorted]

theorem rangeScan_eq (ha : Arrives pages leaf start left right) :
    rangeScan pages leaf start stop =
      .ok ((left ++ ((pages leaf).entries ++ right)).filter (keyInRange start stop ·.key)) := by
  obtain ⟨hops,hle,hr⟩ := ha.chain
  have hkeys : (fun e : Entry => keyInRange start stop e.key) =
      fun e => (!stop.any (· ≤ e.key)) && start.all (· ≤ e.key) := by
    funext e
    cases stop <;> simp [keyInRange,← not_lt,Bool.and_comm]
  have hsorted := ha.sorted.sublist (List.filter_sublist (p := fun e => start.all (· ≤ e.key)))
  rw [ha.filter_start] at hsorted
  rw [rangeScan,walkRight_eq hr hle,Search.takeWhile_eq_filter,← ha.filter_start,
    List.filter_filter,hkeys]
  refine hsorted.imp fun {a b} hab hb => ?_
  have hle : a.key ≤ b.key := by
    rcases Prod.Lex.toLex_lt_toLex.1 hab with h | ⟨h,-⟩
    · exact h.le
    · exact h.le
  cases stop with
  | none => rfl
  | some hi =>
    simp only [Option.any_some,Bool.not_eq_true',decide_eq_false_iff_not,not_le] at hb ⊢
    exact hle.trans_lt hb

end RangeScan

def Datum.inRange (start stop : Option Datum) (d : Datum) : Bool :=
  start.all (fun lo => (lo.partialCmp d).any (· != .gt)) &&
    stop.all fun hi => d.partialCmp hi == some .lt

def encodeBound (render : Render) : Option Datum → Except BTreeError (Option Key)
  | none => .ok none
  | some d => (encodeKey render d).map some

theorem encodeBound_ok {bound : Option Datum} {kbound : Option Key}
    (h : encodeBound render bound = .ok kbound) : (bound = none ∧ kbound = none) ∨
      ∃ d k, bound = some d ∧ kbound = some k ∧ encodeKey render d = .ok k := by
  cases bound with
  | none => exact .inl ⟨rfl,by cases h; rfl⟩
  | some d =>
    simp only [encodeBound] at h
    cases hd : encodeKey render d with
    | error e =>
      rw [hd] at h
      cases h
    | ok k =>
      rw [hd] at h
      cases h
      exact .inr ⟨d,k,rfl,rfl,hd⟩

theorem cmp_of_encodeKey (ht : a.columnType = b.columnType) (ha : encodeKey render a = .ok ka)
    (hb : encodeKey render b = .ok kb) : a.partialCmp b = some (cmp ka kb) := by
  rw [(encodeKey_ok ha).cmp_eq (encodeKey_ok hb) ht,cmp_key]

theorem keyInRange_eq {start stop : Option Datum} {kstart kstop : Option Key}
    (hs : ∀ d ∈ start, d.columnType = a.columnType) (he : ∀ d ∈ stop, d.columnType = a.columnType)
    (hks : encodeBound render start = .ok kstart) (hke : encodeBound render stop = .ok kstop)
    (ha : encodeKey render a = .ok ka) : keyInRange kstart kstop ka = a.inRange start stop := by
  unfold keyInRange Datum.inRange
  congr 1
  · rcases encodeBound_ok hks with ⟨rfl,rfl⟩ | ⟨d,k,rfl,rfl,hk⟩
    · rfl
    · have hle : decide (k ≤ ka) = (cmp k ka != .gt) := by
        rw [Bool.eq_iff_iff,decide_eq_true_eq,bne_iff_ne,ne_eq,cmp_eq_gt_iff,not_lt]
      rw [Option.all_some,Option.all_some,cmp_of_encodeKey (hs d rfl) hk ha,Option.any_some,hle]
  · rcases encodeBound_ok hke with ⟨rfl,rfl⟩ | ⟨d,k,rfl,rfl,hk⟩
    · rfl
    · have hlt : decide (ka < k) = (some (cmp ka k) == some .lt) := by
        rw [Bool.eq_iff_iff,decide_eq_true_eq,beq_iff_eq,Option.some.injEq,cmp_eq_lt_iff]
      rw [Option.all_some,Option.all_some,cmp_of_encodeKey (he d rfl).symm ha hk,hlt]

def Entry.valueInRange (render : Render) (t : ColumnType) (start stop : Option Datum) (e : Entry) :
    Bool :=
  (decodeKey render t e.key.bytes).toOption.any (·.inRange start stop)

/-- Encoded keys compare as the values do and decode to them, and `range_scan` over encoded bounds,
in an index of values of one type, returns the entries of the range of values. -/
theorem keys_sort_like_values (ht : a.columnType = b.columnType)
    (ha : encodeKey render a = .ok ka) (hb : encodeKey render b = .ok kb) :
    a.partialCmp b = some (cmp ka kb) ∧ decodeKey render a.columnType ka.bytes = .ok a ∧
      ∀ start stop kstart kstop, (∀ d ∈ start, d.columnType = a.columnType) →
        (∀ d ∈ stop, d.columnType = a.columnType) → encodeBound render start = .ok kstart →
        encodeBound render stop = .ok kstop →
        keyInRange kstart kstop ka = a.inRange start stop ∧
        ∀ pages leaf left right, Arrives pages leaf kstart left right →
          (∀ e ∈ left ++ ((pages leaf).entries ++ right), ∃ d : Datum,
            d.columnType = a.columnType ∧ encodeKey render d = .ok e.key) →
          rangeScan pages leaf kstart kstop = .ok ((left ++ ((pages leaf).entries ++ right)).filter
            (·.valueInRange render a.columnType start stop)) := by
  refine ⟨cmp_of_encodeKey ht ha hb,(encodeKey_ok ha).decode,fun start stop ks ke hs he hks hke =>
    ⟨keyInRange_eq hs he hks hke ha,fun pages leaf left right harr hvalues => ?_⟩⟩
  rw [rangeScan_eq harr]
  refine congrArg Except.ok (List.filter_congr fun e hmem => ?_)
  obtain ⟨d,htype,hd⟩ := hvalues e hmem
  rw [Entry.valueInRange,← htype,(encodeKey_ok hd).decode]
  exact keyInRange_eq (htype ▸ hs) (htype ▸ he) hks hke hd

/-- A leaf with -1 and 0, scanned from 0 on. -/
theorem keys_sort_like_negative_values :
    let render : Render := ⟨fun _ => "",fun _ => ""⟩
    ∃ ka kb, encodeKey render (.int4 (-1)) = .ok ka ∧ encodeKey render (.int4 0) = .ok kb ∧
      cmp ka kb = .lt ∧
      let leaf := { Page.init 0 true true with entries := [⟨ka,⟨1,0⟩⟩,⟨kb,⟨1,1⟩⟩] }
      rangeScan (fun _ => leaf) 3 (some kb) none = .ok [⟨kb,⟨1,1⟩⟩] := by
  intro render
  obtain ⟨ka,ha⟩ : ∃ k, encodeKey render (.int4 (-1)) = .ok k := ⟨_,rfl⟩
  obtain ⟨kb,hb⟩ : ∃ k, encodeKey render (.int4 0) = .ok k := ⟨_,rfl⟩
  obtain ⟨hcmp,hdecode,hrange⟩ := keys_sort_like_values (a := .int4 (-1)) (b := .int4 0) rfl ha hb
  have hlt : cmp ka kb = .lt := (Option.some.inj hcmp).symm
  refine ⟨ka,kb,ha,hb,hlt,?_⟩
  intro leaf
  have hentries : (⟨ka,⟨1,0⟩⟩ : Entry) < ⟨kb,⟨1,1⟩⟩ :=
    Prod.Lex.toLex_lt_toLex.2 (.inl ((cmp_eq_lt_iff _ _).1 hlt))
  have harr : Arrives (fun _ => leaf) 3 (some kb) [] [] :=
    ⟨⟨0,Nat.zero_le _,.last rfl⟩,by simpa [leaf] using hentries,nofun,nofun⟩
  have hvalues : ∀ e ∈ leaf.entries, ∃ d : Datum, d.columnType = .int4 ∧
      encodeKey render d = .ok e.key := by
    intro e he
    rcases List.mem_pair.1 he with rfl | rfl
    · exact ⟨.int4 (-1),rfl,ha⟩
    · exact ⟨.int4 0,rfl,hb⟩
  obtain ⟨-,hscan⟩ := hrange (some (.int4 0)) none (some kb) none (by rintro d ⟨⟩; rfl) nofun
    (by rw [encodeBound,hb]; rfl) rfl
  have hzero : decodeKey render .int4 kb.bytes = .ok (.int4 0) := (encodeKey_ok hb).decode
  rw [hscan _ 3 [] [] harr (by simpa [Datum.columnType] using hvalues)]
  simp only [leaf,List.nil_append,List.append_nil,List.filter_cons,Entry.valueInRange,hdecode]
  rw [show decodeKey render (Datum.int4 (-1)).columnType kb.bytes = _ from hzero]
  rfl

end Btree
end PgAm
