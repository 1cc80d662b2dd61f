import Mathlib.Tactic

/-! Records of different sizes one after another in a stream of bytes. A reader decodes what
stands at a position and goes on behind it; at the start of a record it gets that record and all
later ones. What the bytes inside a record decode to is arbitrary. -/
namespace PgAm
namespace RecordStream

variable {R : Type*}

structure Item (R : Type*) where
  pos : ℕ
  size : ℕ
  value : R

def stop (start : ℕ) : List (Item R) → ℕ
  | [] => start
  | a :: l => stop (start + a.size) l

/-- The items follow each other without a gap. -/
def Contiguous (start : ℕ) : List (Item R) → Prop
  | [] => True
  | a :: l => a.pos = start ∧ 0 < a.size ∧ Contiguous (start + a.size) l

def decodeAt (inside : ℕ → Option (R × ℕ)) (start : ℕ) (l : List (Item R)) (p : ℕ) :
    Option (R × ℕ) :=
  match l.find? fun a => a.pos = p with
  | some a => some (a.value,a.pos + a.size)
  | none => if p < stop start l then inside p else none

def readFrom (decode : ℕ → Option (R × ℕ)) : (fuel : ℕ) → ℕ → List (ℕ × R)
  | 0,_ => []
  | fuel + 1,p =>
    match decode p with
    | none => []
    | some (r,next) => (p,r) :: readFrom decode fuel next

variable {start : ℕ} {l l₁ l₂ : List (Item R)} {a b : Item R}

@[simp] theorem stop_append : stop start (l₁ ++ l₂) = stop (stop start l₁) l₂ := by
  induction l₁ generalizing start with
  | nil => rfl
  | cons a l ih => exact ih

@[simp] theorem contiguous_append :
    Contiguous start (l₁ ++ l₂) ↔ Contiguous start l₁ ∧ Contiguous (stop start l₁) l₂ := by
  induction l₁ generalizing start with
  | nil => simp only [List.nil_append,Contiguous,stop,true_and]
  | cons a l ih => simp only [List.cons_append,Contiguous,stop,ih,and_assoc]

theorem start_le_stop : start ≤ stop start l := by
  induction l generalizing start with
  | nil => exact le_rfl
  | cons a l ih => exact (Nat.le_add_right _ _).trans ih

theorem Contiguous.bounds (h : Contiguous start l) (ha : a ∈ l) :
    start ≤ a.pos ∧ 0 < a.size ∧ a.pos + a.size ≤ stop start l := by
  induction l generalizing start with
  | nil => cases ha
  | cons b l ih =>
    obtain ⟨hpos,hsize,hl⟩ := h
    rcases List.mem_cons.1 ha with rfl | ha
    · exact ⟨hpos.ge,hsize,by rw [hpos]; exact start_le_stop⟩
    · obtain ⟨h₁,h₂,h₃⟩ := ih hl ha
      exact ⟨(Nat.le_add_right _ _).trans h₁,h₂,h₃⟩

theorem Contiguous.length_le (h : Contiguous start l) : start + l.length ≤ stop start l := by
  induction l generalizing start with
  | nil => exact le_rfl
  | cons b l ih =>
    obtain ⟨-,hsize,hl⟩ := h
    refine le_trans ?_ (ih hl)
    rw [List.length_cons]
    omega

theorem dvd_stop {k : ℕ} (hs : k ∣ start) (hl : ∀ a ∈ l, k ∣ a.size) : k ∣ stop start l := by
  induction l generalizing start with
  | nil => exact hs
  | cons a l ih =>
    obtain ⟨ha,hl⟩ := List.forall_mem_cons.1 hl
    exact ih (Nat.dvd_add hs ha) hl

theorem Contiguous.pos_eq (h : Contiguous start (l₁ ++ a :: l₂)) : a.pos = stop start l₁ :=
  (contiguous_append.1 h).2.1

theorem Contiguous.before (h : Contiguous start (l₁ ++ a :: l₂)) (hb : b ∈ l₁) :
    b.pos + b.size ≤ a.pos := by
  rw [h.pos_eq]
  exact ((contiguous_append.1 h).1.bounds hb).2.2

theorem Contiguous.after (h : Contiguous start (l₁ ++ l₂)) (hb : b ∈ l₂) :
    stop start l₁ ≤ b.pos := ((contiguous_append.1 h).2.bounds hb).1

variable {inside : ℕ → Option (R × ℕ)}

theorem Contiguous.decodeAt_eq (h : Contiguous start (l₁ ++ a :: l₂)) :
    decodeAt inside start (l₁ ++ a :: l₂) a.pos = some (a.value,a.pos + a.size) := by
  have hnone : l₁.find? (fun b => b.pos = a.pos) = none := by
    refine List.find?_eq_none.2 fun b hb => ?_
    have hle := h.before hb
    have hsize := ((contiguous_append.1 h).1.bounds hb).2.1
    rw [decide_eq_true_eq]
    omega
  have hfind : (l₁ ++ a :: l₂).find? (fun b => b.pos = a.pos) = some a := by
    rw [List.find?_append,hnone,Option.none_or,List.find?_cons_of_pos]
    exact decide_eq_true rfl
  rw [decodeAt,hfind]

theorem Contiguous.decodeAt_stop (h : Contiguous start l) :
    decodeAt inside start l (stop start l) = none := by
  have hnone : l.find? (fun b => b.pos = stop start l) = none := by
    refine List.find?_eq_none.2 fun b hb => ?_
    obtain ⟨-,hsize,hle⟩ := h.bounds hb
    rw [decide_eq_true_eq]
    omega
  rw [decodeAt,hnone]
  exact if_neg (lt_irrefl _)

theorem decodeAt_eq_none {p : ℕ} (hl : ∀ a ∈ l, a.pos ≠ p) (hp : inside p = none) :
    decodeAt inside start l p = none := by
  have hnone : l.find? (fun a => a.pos = p) = none :=
    List.find?_eq_none.2 fun a ha => by
      rw [decide_eq_true_eq]
      exact hl a ha
  rw [decodeAt,hnone]
  exact (ite_eq_right_iff.2 fun _ => hp)

/-- A reader that starts between two items reads the later ones to the end. -/
theorem Contiguous.readFrom_eq (h : Contiguous start (l₁ ++ l₂)) {fuel : ℕ}
    (hfuel : l₂.length ≤ fuel) :
    readFrom (decodeAt inside start (l₁ ++ l₂)) fuel (stop start l₁) =
      l₂.map fun a => (a.pos,a.value) := by
  induction l₂ generalizing l₁ fuel with
  | nil =>
    cases fuel with
    | zero => rfl
    | succ fuel =>
      rw [List.append_nil] at h ⊢
      rw [readFrom,h.decodeAt_stop]
      rfl
  | cons a l ih =>
    cases fuel with
    | zero => simp at hfuel
    | succ fuel =>
      have hl : l₁ ++ a :: l = (l₁ ++ [a]) ++ l := by simp
      have hpos := h.pos_eq
      rw [readFrom,← hpos,h.decodeAt_eq]
      rw [hl] at h ⊢
      have hrest := ih h (Nat.le_of_succ_le_succ hfuel)
      rw [stop_append] at hrest
      change _ :: _ = (a.pos,a.value) :: _
      rw [← hrest,hpos]
      rfl

theorem exists_split (bound : ℕ) (h : Contiguous start l) :
    ∃ l₁ l₂, l = l₁ ++ l₂ ∧ (∀ a ∈ l₁, a.pos < bound) ∧ ∀ a ∈ l₂, bound ≤ a.pos := by
  induction l generalizing start with
  | nil => exact ⟨[],[],rfl,nofun,nofun⟩
  | cons b l ih =>
    by_cases hb : b.pos < bound
    · obtain ⟨l₁,l₂,rfl,h₁,h₂⟩ := ih h.2.2
      exact ⟨b :: l₁,l₂,rfl,List.forall_mem_cons.2 ⟨hb,h₁⟩,h₂⟩
    · refine ⟨[],b :: l,rfl,nofun,List.forall_mem_cons.2 ⟨not_lt.1 hb,fun a ha => ?_⟩⟩
      have := (h.2.2.bounds ha).1
      have hpos := h.1
      omega

end RecordStream
end PgAm
