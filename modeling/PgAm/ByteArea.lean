import PgAm.WalRecord

/-! Areas of bytes with reads and writes of ranges, and little-endian numbers in them. -/
namespace PgAm
namespace ByteArea

abbrev Area := ℕ → UInt8

def read (a : Area) (off n : ℕ) : List UInt8 := (List.range n).map fun i => a (off + i)

def write (a : Area) (off : ℕ) (bs : List UInt8) : Area := fun i =>
  if off ≤ i ∧ i < off + bs.length then bs.getD (i - off) 0 else a i

def word (w : ℕ) (a : Area) (off : ℕ) : ℕ := fromLe (read a off w)

variable {a b : Area} {bs : List UInt8} {i off o n w v : ℕ}

theorem write_of_outside (h : i < off ∨ off + bs.length ≤ i) : write a off bs i = a i :=
  if_neg (by omega)

theorem read_congr (h : ∀ i, off ≤ i → i < off + n → a i = b i) : read a off n = read b off n :=
  List.map_congr_left fun _ hi =>
    h _ (Nat.le_add_right ..) (Nat.add_lt_add_left (List.mem_range.1 hi) _)

theorem read_write : read (write a off bs) off bs.length = bs := by
  refine List.ext_getElem (by simp [read]) fun i hi hi' => ?_
  simp [read,write,List.getD_eq_getElem?_getD,hi']

theorem read_write_of_disjoint (h : o + n ≤ off ∨ off + bs.length ≤ o) :
    read (write a off bs) o n = read a o n :=
  read_congr fun _ _ _ => write_of_outside (by omega)

theorem word_write (h : v < 256 ^ w) : word w (write a off (leBytes w v)) off = v := by
  have hread := @read_write a (leBytes w v) off
  rw [leBytes_length] at hread
  rw [word,hread,fromLe_leBytes h]

theorem word_write_of_disjoint (h : o + w ≤ off ∨ off + bs.length ≤ o) :
    word w (write a off bs) o = word w a o := by
  rw [word,read_write_of_disjoint h,word]

end ByteArea
end PgAm
