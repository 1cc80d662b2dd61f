import PgAm.BtreePage
import PgAm.ByteArea

/-! Slotted heap pages: a header, an array of line pointers growing up, tuples growing down
and a special space at the end. A page refines a list of slots, each free or holding the bytes
added there. -/
namespace PgAm
namespace SlottedPage

open ByteArea
open Btree (pageHeaderSize linePointerSize)

inductive HeapError
  | pageFull (needed available : ℕ)
  | invalidSlot (slot : ℕ)
  | tupleTooLarge (len : ℕ)
  | corrupted (message : String)
  | invalidArgument (message : String)
  deriving DecidableEq

inductive LpFlags
  | unused | normal | redirect | dead
  deriving DecidableEq

def LpFlags.toBits : LpFlags → ℕ
  | unused => 0 | normal => 1 | redirect => 2 | dead => 3

def LpFlags.fromBits (bits : ℕ) : LpFlags :=
  match bits % 4 with
  | 0 => .unused
  | 1 => .normal
  | 2 => .redirect
  | _ => .dead

/-- The 32 bits of a line pointer: offset in bits 0 to 14, flags in 15 and 16, then length. -/
abbrev LinePointer := ℕ

namespace LinePointer

def new (off : ℕ) (flags : LpFlags) (len : ℕ) : LinePointer :=
  off % 2 ^ 15 + flags.toBits * 2 ^ 15 + len % 2 ^ 15 * 2 ^ 17

def off (lp : LinePointer) : ℕ := lp % 2 ^ 15
def flags (lp : LinePointer) : LpFlags := .fromBits (lp / 2 ^ 15)
def len (lp : LinePointer) : ℕ := lp / 2 ^ 17
def withFlags (lp : LinePointer) (flags : LpFlags) : LinePointer := new (off lp) flags (len lp)

variable {o n : ℕ} {f : LpFlags}

theorem new_lt : new o f n < 256 ^ 4 := by
  have hf : f.toBits < 4 := by cases f <;> decide
  change o % 2 ^ 15 + f.toBits * 2 ^ 15 + n % 2 ^ 15 * 2 ^ 17 < (256 ^ 4 : ℕ)
  omega

theorem off_new (h : o < 2 ^ 15) : off (new o f n) = o := by
  unfold off new
  omega

theorem len_new (h : n < 2 ^ 15) : len (new o f n) = n := by
  have hf : f.toBits < 4 := by cases f <;> decide
  unfold len new
  omega

theorem flags_new : flags (new o f n) = f := by
  have hf : f.toBits < 4 := by cases f <;> decide
  have h : new o f n / 2 ^ 15 % 4 = f.toBits := by
    unfold new
    omega
  rw [flags,LpFlags.fromBits,h]
  cases f <;> rfl

end LinePointer

structure PageHeader where
  pdLower : ℕ
  pdUpper : ℕ
  pdSpecial : ℕ
  deriving DecidableEq

def header (p : Area) : PageHeader := ⟨word 2 p 14,word 2 p 16,word 2 p 18⟩

def setPdLower (p : Area) (v : ℕ) : Area := write p 14 (leBytes 2 v)
def setPdUpper (p : Area) (v : ℕ) : Area := write p 16 (leBytes 2 v)

def initPage (p : Area) : Area :=
  write (write (setPdUpper (setPdLower p pageHeaderSize) Btree.pageSize) 18
    (leBytes 2 Btree.pageSize)) 20 (leBytes 2 1)

/-- The subtraction wraps and the cast keeps 16 bits, as in a release build. -/
def initWithSpecial (_page : Area) (specialSize : ℕ) : Area :=
  let pdSpecial := (2 ^ 64 + Btree.pageSize - specialSize) % 2 ^ 16
  write (setPdUpper (initPage fun _ => 0) pdSpecial) 18 (leBytes 2 pdSpecial)

def slotCount (p : Area) : ℕ := ((header p).pdLower - pageHeaderSize) / linePointerSize

def freeSpace (p : Area) : ℕ := (header p).pdUpper - (header p).pdLower

def checkedHeader (p : Area) : Except HeapError PageHeader :=
  let h := header p
  let lower := h.pdLower
  let upper := h.pdUpper
  let special := h.pdSpecial
  if lower < pageHeaderSize ∨ (lower - pageHeaderSize) % linePointerSize ≠ 0 ∨ lower > upper ∨
      upper > special ∨ special > Btree.pageSize then
    .error (.corrupted
      s!"bad page header geometry: pd_lower={lower} pd_upper={upper} pd_special={special}")
  else .ok h

def lpOffset (slot : ℕ) : ℕ := pageHeaderSize + slot * linePointerSize

def lpAt (p : Area) (slot : ℕ) : LinePointer := word 4 p (lpOffset slot)

def setLinePointer (p : Area) (slot : ℕ) (lp : LinePointer) : Area :=
  write p (lpOffset slot) (leBytes 4 lp)

def linePointer (p : Area) (slot : ℕ) : Except HeapError LinePointer := do
  let h ← checkedHeader p
  if slot ≥ (h.pdLower - pageHeaderSize) / linePointerSize then .error (.invalidSlot slot)
  else .ok (lpAt p slot)

def recycledSlot (p : Area) (count : ℕ) : Option ℕ :=
  (List.range count).find? fun slot => (lpAt p slot).flags = .unused

def addTuple (p : Area) (bytes : List UInt8) : Except HeapError ℕ × Area :=
  match checkedHeader p with
  | .error e => (.error e,p)
  | .ok h =>
    let len := bytes.length
    if len = 0 then (.error (.invalidArgument "cannot insert an empty tuple"),p)
    else if len > h.pdSpecial - (pageHeaderSize + linePointerSize) then
      (.error (.tupleTooLarge len),p)
    else
      let count := (h.pdLower - pageHeaderSize) / linePointerSize
      let recycled := recycledSlot p count
      let lpCost := if recycled.isSome then 0 else linePointerSize
      let free := h.pdUpper - h.pdLower
      if free < len + lpCost then (.error (.pageFull (len + lpCost) free),p)
      else
        let upper := h.pdUpper - len
        let lp := LinePointer.new upper .normal len
        let p := write p upper bytes
        match recycled with
        | some slot => (.ok slot,setPdUpper (setLinePointer p slot lp) upper)
        | none =>
          let p := setLinePointer p count lp
          (.ok count,setPdUpper (setPdLower p ((header p).pdLower + linePointerSize)) upper)

def deleteTuple (p : Area) (slot : ℕ) : Except HeapError Unit × Area :=
  match linePointer p slot with
  | .error e => (.error e,p)
  | .ok lp =>
    if lp.flags ≠ .normal then (.error (.invalidSlot slot),p)
    else (.ok (),setLinePointer p slot (lp.withFlags .unused))

/-- The loop of `tuple`: `fuel` hops are left and `cur` is the slot to look at. -/
def tupleFrom (p : Area) (slot : ℕ) : ℕ → ℕ → Except HeapError (Option (List UInt8))
  | 0, _ =>
    .error (.corrupted s!"slot {slot}: LP REDIRECT chain longer than the page's slot count")
  | fuel + 1, cur =>
    match linePointer p cur with
    | .error (.invalidSlot _) => .ok none
    | .error e => .error e
    | .ok lp =>
      if lp.flags = .redirect then tupleFrom p slot fuel lp.off
      else if lp.flags ≠ .normal then .ok none
      else do
        let h ← checkedHeader p
        let off := lp.off
        let stop := off + lp.len
        let upper := h.pdUpper
        let special := h.pdSpecial
        if off < upper ∨ stop > special then
          .error (.corrupted
            s!"slot {slot}: tuple region [{off}, {stop}) outside [{upper}, {special})")
        else .ok (some (read p off lp.len))

def tuple (p : Area) (slot : ℕ) : Except HeapError (Option (List UInt8)) :=
  tupleFrom p slot (slotCount p + 1) slot

/-- What a page is for: a list of slots, each free or holding a tuple. -/
abbrev Slots := List (Option (List UInt8))

namespace Slots

def put (ts : Slots) (slot : ℕ) (t : Option (List UInt8)) : Slots :=
  if slot < ts.length then ts.set slot t else ts ++ [t]

def lpCost (ts : Slots) : ℕ := if none ∈ ts then 0 else linePointerSize

variable {ts : Slots} {slot i : ℕ} {t : Option (List UInt8)}

theorem getElem?_put (h : slot ≤ ts.length) :
    (ts.put slot t)[i]? = if i = slot then some t else ts[i]? := by
  unfold put
  split
  · grind
  · have : slot = ts.length := by omega
    grind

theorem length_put (h : slot ≤ ts.length) : (ts.put slot t).length = max ts.length (slot + 1) := by
  unfold put
  split
  · rw [List.length_set]
    omega
  · rw [List.length_append,List.length_singleton]
    omega

end Slots

/-- Slot `i` of a page is as the list says; a tuple lies between `pd_upper` and `pd_special`. -/
def Holds (p : Area) (i : ℕ) : Option (List UInt8) → Prop
  | none => (lpAt p i).flags = .unused
  | some bs => (lpAt p i).flags = .normal ∧ (lpAt p i).len = bs.length ∧
      (header p).pdUpper ≤ (lpAt p i).off ∧
      (lpAt p i).off + bs.length ≤ (header p).pdSpecial ∧ read p (lpAt p i).off bs.length = bs

/-- The page shows the list `ts`: the areas follow one another and tuples do not overlap. -/
structure Shows (p : Area) (ts : Slots) : Prop where
  lower : (header p).pdLower = pageHeaderSize + linePointerSize * ts.length
  lower_le : (header p).pdLower ≤ (header p).pdUpper
  upper_le : (header p).pdUpper ≤ (header p).pdSpecial
  special_le : (header p).pdSpecial ≤ Btree.pageSize
  slot : ∀ i t, ts[i]? = some t → Holds p i t
  apart : ∀ i j b c, i ≠ j → ts[i]? = some (some b) → ts[j]? = some (some c) →
    (lpAt p i).off + b.length ≤ (lpAt p j).off ∨ (lpAt p j).off + c.length ≤ (lpAt p i).off

/-- `p'` is `p` with slot `slot` made `t`; nothing from `pd_upper` on is written. -/
structure Puts (p p' : Area) (ts : Slots) (slot : ℕ) (t : Option (List UInt8)) : Prop where
  le : slot ≤ ts.length
  lower : (header p').pdLower = pageHeaderSize + linePointerSize * (ts.put slot t).length
  special : (header p').pdSpecial = (header p).pdSpecial
  lower_le : (header p').pdLower ≤ (header p').pdUpper
  upper_le : (header p').pdUpper ≤ (header p).pdUpper
  others : ∀ j < ts.length, j ≠ slot → lpAt p' j = lpAt p j
  frame : ∀ k, (header p).pdUpper ≤ k → p' k = p k
  here : Holds p' slot t
  below : ∀ bs, t = some bs → (lpAt p' slot).off + bs.length ≤ (header p).pdUpper

section Refinement

variable {p p' : Area} {slot : ℕ} {ts : Slots} {t : Option (List UInt8)}
  {bs : List UInt8}

theorem Holds.of_puts {i : ℕ} {u : Option (List UInt8)} (hp : Puts p p' ts slot t)
    (hi : i < ts.length) (hne : i ≠ slot) (h : Holds p i u) : Holds p' i u := by
  have hlp := hp.others i hi hne
  cases u with
  | none => rwa [Holds,hlp]
  | some b =>
    obtain ⟨hf,hl,hu,hsp,hr⟩ := h
    refine ⟨hlp ▸ hf,hlp ▸ hl,hlp ▸ hp.upper_le.trans hu,by rw [hlp,hp.special]; exact hsp,?_⟩
    rw [hlp]
    exact (read_congr fun k hk _ => hp.frame k (hu.trans hk)).trans hr

theorem Shows.puts (h : Shows p ts) (hp : Puts p p' ts slot t) :
    Shows p' (ts.put slot t) := by
  have hget := fun i => Slots.getElem?_put (i := i) (t := t) hp.le
  have old : ∀ i u, i ≠ slot → (ts.put slot t)[i]? = some u → ts[i]? = some u := by
    intro i u hne hi
    rwa [hget,if_neg hne] at hi
  have lt : ∀ i u, ts[i]? = some u → i < ts.length := fun i u hi =>
    (List.getElem?_eq_some_iff.1 hi).1
  have new : ∀ i b c, i ≠ slot → ts[i]? = some (some b) → t = some c →
      (lpAt p' slot).off + c.length ≤ (lpAt p' i).off := by
    intro i b c hne hi ht
    rw [hp.others i (lt _ _ hi) hne]
    exact (hp.below c ht).trans (h.slot i _ hi).2.2.1
  refine ⟨hp.lower,hp.lower_le,hp.special ▸ hp.upper_le.trans h.upper_le,
    hp.special ▸ h.special_le,?_,?_⟩
  · intro i u hi
    by_cases hne : i = slot
    · rw [hget,if_pos hne] at hi
      obtain rfl : t = u := Option.some.inj hi
      exact hne ▸ hp.here
    · have hu := old i u hne hi
      exact (h.slot i u hu).of_puts hp (lt _ _ hu) hne
  · intro i j b c hij hi hj
    by_cases hni : i = slot
    · subst hni
      have ht := (hget i).symm.trans hi
      rw [if_pos rfl] at ht
      exact .inl (new j c b hij.symm (old j _ hij.symm hj) (Option.some.inj ht))
    · by_cases hnj : j = slot
      · subst hnj
        have ht := (hget j).symm.trans hj
        rw [if_pos rfl] at ht
        exact .inr (new i b c hij (old i _ hij hi) (Option.some.inj ht))
      · have hi' := old i _ hni hi
        have hj' := old j _ hnj hj
        rw [hp.others i (lt _ _ hi') hni,hp.others j (lt _ _ hj') hnj]
        exact h.apart i j b c hij hi' hj'

theorem Shows.checkedHeader (h : Shows p ts) : checkedHeader p = .ok (header p) := by
  obtain ⟨h₁,h₂,h₃,h₄,-,-⟩ := h
  rw [SlottedPage.checkedHeader,if_neg]
  simp only [linePointerSize] at h₁ ⊢
  omega

theorem Shows.count (h : Shows p ts) :
    ((header p).pdLower - pageHeaderSize) / linePointerSize = ts.length := by
  rw [h.lower,linePointerSize]
  omega

theorem Shows.linePointer (h : Shows p ts) (i : ℕ) : linePointer p i =
    if ts.length ≤ i then .error (.invalidSlot i) else .ok (lpAt p i) := by
  rw [SlottedPage.linePointer,h.checkedHeader]
  simp [bind,Except.bind,h.count]

theorem Shows.tuple (h : Shows p ts) (i : ℕ) : tuple p i = .ok ts[i]?.join := by
  rw [SlottedPage.tuple,tupleFrom,h.linePointer]
  by_cases hi : ts.length ≤ i
  · rw [if_pos hi,List.getElem?_eq_none hi]
    rfl
  · rw [if_neg hi]
    have hget : ts[i]? = some ts[i] := List.getElem?_eq_getElem (by omega)
    have hh := h.slot i _ hget
    rw [hget]
    cases ht : ts[i] with
    | none =>
      rw [ht] at hh
      simp [show (lpAt p i).flags = .unused from hh]
    | some b =>
      rw [ht] at hh
      obtain ⟨hf,hl,hu,hsp,hr⟩ := hh
      have hin : ¬((lpAt p i).off < (header p).pdUpper ∨
          (lpAt p i).off + b.length > (header p).pdSpecial) := by omega
      simp [hf,hl,hr,h.checkedHeader,bind,Except.bind,hin]

theorem Shows.flags_unused (h : Shows p ts) {i : ℕ} (hi : ts[i]? = some t) :
    (lpAt p i).flags = .unused ↔ t = none := by
  have hh := h.slot i t hi
  cases t with
  | none => exact iff_of_true hh rfl
  | some b => simp [hh.1]

theorem lpAt_congr {q : Area} {i : ℕ} (h : ∀ k, pageHeaderSize ≤ k → p k = q k) :
    lpAt p i = lpAt q i :=
  congrArg fromLe (read_congr fun k hk _ => h k ((Nat.le_add_right ..).trans hk))

theorem header_write {off : ℕ} (h : 20 ≤ off) : header (write p off bs) = header p := by
  simp (disch := omega) only [header,word_write_of_disjoint]

theorem header_setPdUpper {v : ℕ} (h : v < 256 ^ 2) :
    header (setPdUpper p v) = {header p with pdUpper := v} := by
  have hlen := leBytes_length 2 v
  simp (disch := omega) only [header,setPdUpper,word_write h,word_write_of_disjoint]

theorem header_setPdLower {v : ℕ} (h : v < 256 ^ 2) :
    header (setPdLower p v) = {header p with pdLower := v} := by
  have hlen := leBytes_length 2 v
  simp (disch := omega) only [header,setPdLower,word_write h,word_write_of_disjoint]

theorem header_write_special {v : ℕ} (h : v < 256 ^ 2) :
    header (write p 18 (leBytes 2 v)) = {header p with pdSpecial := v} := by
  simp (disch := omega) only [header,word_write h,word_write_of_disjoint]

theorem lpAt_setLinePointer {lp : LinePointer} (h : lp < 256 ^ 4) (j : ℕ) :
    lpAt (setLinePointer p slot lp) j = if j = slot then lp else lpAt p j := by
  split
  · next hj => exact hj ▸ word_write h
  · next hj =>
    refine word_write_of_disjoint ?_
    simp only [leBytes_length,lpOffset,linePointerSize]
    omega

theorem Shows.puts_some (h : Shows p ts) (hs : slot ≤ ts.length)
    (hroom : pageHeaderSize + linePointerSize * (ts.put slot (some bs)).length + bs.length ≤
      (header p).pdUpper)
    (hh : header p' = ⟨pageHeaderSize + linePointerSize * (ts.put slot (some bs)).length,
      (header p).pdUpper - bs.length,(header p).pdSpecial⟩)
    (hp : ∀ k, pageHeaderSize ≤ k → p' k = setLinePointer (write p ((header p).pdUpper - bs.length)
      bs) slot (.new ((header p).pdUpper - bs.length) .normal bs.length) k) :
    Puts p p' ts slot (some bs) := by
  have hup := h.upper_le.trans h.special_le
  have hlen := Slots.length_put (t := some bs) hs
  have hlow := h.lower
  have hle := h.lower_le
  simp only [Btree.pageSize,pageHeaderSize,linePointerSize] at hup hroom hlow
  have hlp : lpAt p' slot = .new ((header p).pdUpper - bs.length) .normal bs.length := by
    rw [lpAt_congr hp,lpAt_setLinePointer LinePointer.new_lt,if_pos rfl]
  have hoff := LinePointer.off_new (o := (header p).pdUpper - bs.length) (f := .normal)
    (n := bs.length) (by omega)
  refine ⟨hs,by rw [hh],by rw [hh],?_,by rw [hh]; exact Nat.sub_le ..,?_,?_,?_,?_⟩
  · rw [hh]
    simp only [pageHeaderSize,linePointerSize]
    omega
  · intro j hj hne
    rw [lpAt_congr hp,lpAt_setLinePointer LinePointer.new_lt,if_neg hne]
    refine word_write_of_disjoint (.inl ?_)
    simp only [lpOffset,pageHeaderSize,linePointerSize]
    omega
  · intro k hk
    rw [hp k (by simp only [pageHeaderSize]; omega),setLinePointer,write_of_outside,
      write_of_outside (by omega)]
    simp only [leBytes_length,lpOffset,pageHeaderSize,linePointerSize]
    omega
  · refine ⟨hlp ▸ LinePointer.flags_new,hlp ▸ LinePointer.len_new (by omega),?_,?_,?_⟩
    · rw [hlp,hoff,hh]
    · have := h.upper_le
      rw [hlp,hoff,hh]
      simp only
      omega
    · rw [hlp,hoff,read_congr fun k hk _ => hp k (by simp only [pageHeaderSize]; omega),
        setLinePointer,read_write_of_disjoint,read_write]
      simp only [leBytes_length,lpOffset,pageHeaderSize,linePointerSize]
      omega
  · intro b hb
    obtain rfl := Option.some.inj hb
    rw [hlp,hoff]
    omega

theorem Shows.puts_none (h : Shows p ts) (hs : slot < ts.length) :
    Puts p (setLinePointer p slot ((lpAt p slot).withFlags .unused)) ts slot none := by
  have hlow := h.lower
  have hle := h.lower_le
  simp only [pageHeaderSize,linePointerSize] at hlow
  unfold LinePointer.withFlags
  have hh : header (setLinePointer p slot (.new (lpAt p slot).off .unused (lpAt p slot).len)) =
      header p := header_write (by simp only [lpOffset,pageHeaderSize]; omega)
  refine ⟨hs.le,?_,by rw [hh],by rw [hh]; exact hle,by rw [hh],?_,?_,?_,fun _ hb => by cases hb⟩
  · rw [hh,Slots.length_put hs.le,max_eq_left hs,h.lower]
  · intro j _ hne
    rw [lpAt_setLinePointer LinePointer.new_lt,if_neg hne]
  · intro k hk
    refine write_of_outside (.inr ?_)
    simp only [leBytes_length,lpOffset,pageHeaderSize,linePointerSize]
    omega
  · rw [Holds,lpAt_setLinePointer LinePointer.new_lt,if_pos rfl]
    exact LinePointer.flags_new

theorem Shows.recycledSlot (h : Shows p ts) {r : Option ℕ} (hr : recycledSlot p ts.length = r) :
    ts.lpCost = (if r.isSome then 0 else linePointerSize) ∧ r.getD ts.length ≤ ts.length ∧
      ts[r.getD ts.length]?.join = none ∧
      linePointerSize * max ts.length (r.getD ts.length + 1) =
        linePointerSize * ts.length + ts.lpCost := by
  cases r with
  | none =>
    have hmem : none ∉ ts := by
      intro hmem
      obtain ⟨i,hi,hn⟩ := List.getElem_of_mem hmem
      have hget : ts[i]? = some none := hn ▸ List.getElem?_eq_getElem hi
      exact List.find?_eq_none.1 hr i (List.mem_range.2 hi)
        (decide_eq_true ((h.flags_unused hget).2 rfl))
    simp [Slots.lpCost,hmem,Nat.mul_add]
  | some slot =>
    have hlt := List.mem_range.1 (List.mem_of_find?_eq_some hr)
    have hget : ts[slot]? = some ts[slot] := List.getElem?_eq_getElem hlt
    have hfree : ts[slot] = none := (h.flags_unused hget).1 (by simpa using List.find?_some hr)
    have hmem : none ∈ ts := hfree ▸ List.getElem_mem hlt
    simp [Slots.lpCost,hmem,hget,hfree,hlt.le,max_eq_left (Nat.succ_le_of_lt hlt)]

/-- `add_tuple` fails exactly when the tuple is empty or too long, and otherwise fills a free
slot. -/
theorem Shows.addTuple (h : Shows p ts) (bs : List UInt8) :
    (bs = [] ∨ freeSpace p < bs.length + ts.lpCost) ∧ (∃ e, addTuple p bs = (.error e,p)) ∨
    ¬(bs = [] ∨ freeSpace p < bs.length + ts.lpCost) ∧ ∃ slot p',
      addTuple p bs = (.ok slot,p') ∧ ts[slot]?.join = none ∧ Puts p p' ts slot (some bs) := by
  have hlow := h.lower
  have hle := h.lower_le
  have hupper := h.upper_le
  have hspecial := h.special_le
  simp only [Btree.pageSize,pageHeaderSize,linePointerSize] at hlow hspecial
  generalize hout : SlottedPage.addTuple p bs = out
  generalize hr : SlottedPage.recycledSlot p ts.length = r
  obtain ⟨hcost,hs,hfree,hmax⟩ := h.recycledSlot hr
  have hlen := Slots.length_put (t := some bs) hs
  simp only [SlottedPage.addTuple,h.checkedHeader,h.count,hr,← hcost] at hout
  simp only [linePointerSize] at hmax
  rw [freeSpace]
  by_cases hne : bs.length = 0
  · rw [if_pos hne] at hout
    exact .inl ⟨.inl (List.length_eq_zero_iff.1 hne),_,hout.symm⟩
  by_cases hbig : bs.length > (header p).pdSpecial - (pageHeaderSize + linePointerSize)
  · rw [if_neg hne,if_pos hbig] at hout
    simp only [pageHeaderSize,linePointerSize] at hbig
    exact .inl ⟨.inr (by omega),_,hout.symm⟩
  by_cases hfull : (header p).pdUpper - (header p).pdLower < bs.length + ts.lpCost
  · rw [if_neg hne,if_neg hbig,if_pos hfull] at hout
    exact .inl ⟨.inr hfull,_,hout.symm⟩
  rw [if_neg hne,if_neg hbig,if_neg hfull] at hout
  have hroom : pageHeaderSize + linePointerSize *
      (ts.put (r.getD ts.length) (some bs)).length + bs.length ≤ (header p).pdUpper := by
    simp only [pageHeaderSize,linePointerSize]
    omega
  refine .inr ⟨by simpa [List.length_eq_zero_iff.not.1 hne] using hfull,r.getD ts.length,out.2,
    ?_,hfree,?_⟩
  · subst hout
    cases r <;> rfl
  have hq : header (setLinePointer (write p ((header p).pdUpper - bs.length) bs)
      (r.getD ts.length) (.new ((header p).pdUpper - bs.length) .normal bs.length)) =
      header p := by
    rw [setLinePointer,header_write (by simp only [lpOffset,pageHeaderSize]; omega),
      header_write (by omega)]
  subst hout
  cases r with
  | none =>
    simp only [Option.getD_none] at hq hroom hmax hlen ⊢
    refine h.puts_some le_rfl hroom ?_ fun k hk => ?_
    · rw [header_setPdUpper (by omega),header_setPdLower (by rw [hq]; omega),hq]
      simp only [pageHeaderSize,linePointerSize,PageHeader.mk.injEq,and_true]
      omega
    · rw [setPdUpper,write_of_outside,setPdLower,write_of_outside] <;>
        exact .inr (le_trans (by simp [leBytes_length,pageHeaderSize]) hk)
  | some slot =>
    simp only [Option.getD_some,Option.isSome_some,if_true] at hcost hq hroom hmax hlen hs ⊢
    refine h.puts_some hs hroom ?_ fun k hk => ?_
    · rw [header_setPdUpper (by omega),hq]
      simp only [pageHeaderSize,linePointerSize,PageHeader.mk.injEq,and_true]
      omega
    · rw [setPdUpper,write_of_outside]
      exact .inr (le_trans (by simp [leBytes_length,pageHeaderSize]) hk)

/-- `delete_tuple` fails, leaving the page alone, exactly on slots that hold no tuple. -/
theorem Shows.deleteTuple (h : Shows p ts) (slot : ℕ) :
    ts[slot]?.join = none ∧ (∃ e, deleteTuple p slot = (.error e,p)) ∨
    ts[slot]?.join ≠ none ∧ ∃ p', deleteTuple p slot = (.ok (),p') ∧ Puts p p' ts slot none := by
  rw [SlottedPage.deleteTuple,h.linePointer]
  by_cases hi : ts.length ≤ slot
  · rw [if_pos hi,List.getElem?_eq_none hi]
    exact .inl ⟨rfl,_,rfl⟩
  · have hget : ts[slot]? = some ts[slot] := List.getElem?_eq_getElem (by omega)
    have hh := h.slot slot _ hget
    rw [if_neg hi,hget]
    cases ht : ts[slot] with
    | none =>
      rw [ht] at hh
      simp [show (lpAt p slot).flags = .unused from hh]
    | some b =>
      rw [ht] at hh
      exact .inr ⟨by simp,_,by simp [hh.1],h.puts_none (by omega)⟩

theorem shows_initWithSpecial {n : ℕ} (hn : n ≤ Btree.pageSize - pageHeaderSize) :
    Shows (initWithSpecial p n) [] := by
  simp only [Btree.pageSize,pageHeaderSize] at hn
  have hh : header (initWithSpecial p n) = ⟨32,8192 - n,8192 - n⟩ := by
    have hmod : (2 ^ 64 + Btree.pageSize - n) % 2 ^ 16 = 8192 - n := by
      simp only [Btree.pageSize]
      omega
    rw [initWithSpecial,hmod,header_write_special (by omega),header_setPdUpper (by omega),
      initPage,header_write le_rfl,header_write_special (by decide),
      header_setPdUpper (by decide),header_setPdLower (by decide)]
    rfl
  refine ⟨by rw [hh]; rfl,by rw [hh]; simp only; omega,by rw [hh],
    by rw [hh]; exact Nat.sub_le ..,?_,?_⟩ <;> simp

end Refinement

structure Sys where
  page : Area
  tuples : Slots

inductive Call
  | initWithSpecial (specialSize : ℕ)
  | addTuple (bytes : List UInt8)
  | deleteTuple (slot : ℕ)

/-- The `debug_assert` of `init_with_special`. -/
def Call.Fits : Call → Prop
  | .initWithSpecial n => n ≤ Btree.pageSize - pageHeaderSize
  | _ => True

def step (s : Sys) : Call → Sys
  | .initWithSpecial n => ⟨initWithSpecial s.page n,[]⟩
  | .addTuple bs =>
    match addTuple s.page bs with
    | (.ok slot,p) => ⟨p,s.tuples.put slot (some bs)⟩
    | (.error _,p) => ⟨p,s.tuples⟩
  | .deleteTuple slot =>
    match deleteTuple s.page slot with
    | (.ok _,p) => ⟨p,s.tuples.put slot none⟩
    | (.error _,p) => ⟨p,s.tuples⟩

def run (s : Sys) (cs : List Call) : Sys := cs.foldl step s

def Keeps (p p' : Area) : Prop :=
  (header p').pdSpecial = (header p).pdSpecial ∧ ∀ k, (header p).pdUpper ≤ k → p' k = p k

section Runs

variable {s : Sys} {c : Call}

theorem step_shows (h : Shows s.page s.tuples) (hc : c.Fits) :
    Shows (step s c).page (step s c).tuples ∧
      ((∀ n, c ≠ .initWithSpecial n) → Keeps s.page (step s c).page) := by
  cases c with
  | initWithSpecial n => exact ⟨shows_initWithSpecial (p := s.page) hc,fun hn => absurd rfl (hn n)⟩
  | addTuple bs =>
    rcases h.addTuple bs with ⟨-,e,he⟩ | ⟨-,slot,p',he,-,hp⟩
    · simp only [step,he]
      exact ⟨h,fun _ => ⟨rfl,fun _ _ => rfl⟩⟩
    · simp only [step,he]
      exact ⟨h.puts hp,fun _ => ⟨hp.special,hp.frame⟩⟩
  | deleteTuple slot =>
    rcases h.deleteTuple slot with ⟨-,e,he⟩ | ⟨-,p',he,hp⟩
    · simp only [step,he]
      exact ⟨h,fun _ => ⟨rfl,fun _ _ => rfl⟩⟩
    · simp only [step,he]
      exact ⟨h.puts hp,fun _ => ⟨hp.special,hp.frame⟩⟩

theorem run_shows {cs : List Call} (h : Shows s.page s.tuples) (hc : ∀ c ∈ cs, c.Fits) :
    Shows (run s cs).page (run s cs).tuples := by
  induction cs generalizing s with
  | nil => exact h
  | cons c cs ih =>
    exact ih (step_shows h (hc c List.mem_cons_self)).1 fun d hd => hc d (List.mem_cons_of_mem _ hd)

/-- After any calls that start with an initialisation the page shows the list of tuples: `tuple`
reads the list, other slots and the special space are left alone, and `add_tuple` fails exactly
where the list says. -/
theorem page_refines_slots (p : Area) (n : ℕ) (cs : List Call)
    (hc : ∀ c ∈ Call.initWithSpecial n :: cs, c.Fits) :
    let s := run ⟨p,[]⟩ (.initWithSpecial n :: cs)
    checkedHeader s.page = .ok (header s.page) ∧ Shows s.page s.tuples ∧
    (∀ i, tuple s.page i = .ok s.tuples[i]?.join) ∧
    (∀ c, (∀ n, c ≠ .initWithSpecial n) → Keeps s.page (step s c).page) ∧
    ∀ bs, ((∃ e, addTuple s.page bs = (.error e,s.page)) ↔
        bs = [] ∨ freeSpace s.page < bs.length + s.tuples.lpCost) ∧
      ∀ slot p', addTuple s.page bs = (.ok slot,p') → s.tuples[slot]?.join = none := by
  intro s
  have h : Shows s.page s.tuples :=
    run_shows (s := step ⟨p,[]⟩ (.initWithSpecial n))
      (shows_initWithSpecial (p := p) (hc _ List.mem_cons_self))
      fun d hd => hc d (List.mem_cons_of_mem _ hd)
  refine ⟨h.checkedHeader,h,h.tuple,fun c hn => (step_shows h ?_).2 hn,fun bs => ?_⟩
  · cases c with
    | initWithSpecial m => exact absurd rfl (hn m)
    | addTuple | deleteTuple => trivial
  · rcases h.addTuple bs with ⟨hb,e,he⟩ | ⟨hb,slot,p',he,hfree,-⟩
    · exact ⟨iff_of_true ⟨e,he⟩ hb,fun _ _ h' => by cases he.symm.trans h'⟩
    · refine ⟨iff_of_false (fun h' => by cases he.symm.trans h'.choose_spec) hb,?_⟩
      rintro _ _ h'
      cases he.symm.trans h'
      exact hfree

theorem page_refines_slots_recycled :
    tuple (run ⟨fun _ => 0,[]⟩ [.initWithSpecial 16,.addTuple [1,2],.addTuple [3],
      .deleteTuple 0,.addTuple [4]]).page 0 = .ok (some [4]) :=
  ((page_refines_slots (fun _ => 0) 16 [.addTuple [1,2],.addTuple [3],.deleteTuple 0,.addTuple [4]]
    (by simp [Call.Fits,Btree.pageSize,pageHeaderSize])).2.2.1 0).trans (by decide +kernel)

/-- In a release build the special space may reach into the header, and the page is refused. -/
theorem checkedHeader_special_over_header :
    checkedHeader (run ⟨fun _ => 0,[]⟩ [.initWithSpecial 8161]).page = .error (.corrupted
      "bad page header geometry: pd_lower=32 pd_upper=31 pd_special=31") := by
  decide +kernel

end Runs

end SlottedPage
end PgAm
