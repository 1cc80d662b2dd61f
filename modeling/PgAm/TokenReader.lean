import PgAm.Action

/-! Readers of token lists. A reader takes tokens from the front of its input; `Reads x P w` says
that it returns exactly the values with `P`, each after its text `w a`. -/
namespace PgAm
namespace TokenReader

variable {τ ε α β : Type} {x : Action (List τ) ε α} {ts rest : List τ}

@[simp] theorem bind_eq_ok {f : α → Action (List τ) ε β} {b : β} : (x >>= f) ts = (.ok b,rest) ↔
    ∃ a mid, x ts = (.ok a,mid) ∧ f a mid = (.ok b,rest) := by
  simp only [bind]
  rcases h : x ts with ⟨_ | a,mid⟩ <;> simp

@[simp] theorem pure_eq_ok {a b : α} :
    (pure a : Action (List τ) ε α) ts = (.ok b,rest) ↔ b = a ∧ ts = rest := by
  simp [pure,eq_comm]

@[simp] theorem fail_ne_ok {e : ε} {a : α} :
    ¬(Action.fail e : Action (List τ) ε α) ts = (.ok a,rest) := by
  simp [Action.fail]

/-- The next token; `none` stands for the end mark after the last one. -/
def peek : Action (List τ) ε (Option τ) := fun ts => (.ok ts.head?,ts)

def bump : Action (List τ) ε (Option τ) := fun ts => (.ok ts.head?,ts.tail)

@[simp] theorem peek_bind {f : Option τ → Action (List τ) ε β} :
    (peek >>= f) ts = f ts.head? ts := rfl

@[simp] theorem bump_bind {f : Option τ → Action (List τ) ε β} :
    (bump >>= f) ts = f ts.head? ts.tail := rfl

abbrev Reads (x : Action (List τ) ε α) (P : α → Prop) (w : α → List τ) : Prop :=
  ∀ ts a rest, x ts = (.ok a,rest) ↔ P a ∧ ts = w a ++ rest

def expect (f : τ → Option α) (e : Option τ → ε) : Action (List τ) ε α := do
  let t ← bump
  match t.bind f with
  | some a => pure a
  | none => Action.fail (e t)

theorem expect_reads {f : τ → Option α} {e : Option τ → ε} {P : α → Prop} {w : α → τ}
    (h : ∀ t a, f t = some a ↔ P a ∧ t = w a) : Reads (expect f e) P fun a => [w a] := by
  intro ts a rest
  cases ts with
  | nil => simp [expect]
  | cons t ts =>
    have := h t a
    cases hf : f t <;> simp [expect,hf] <;> grind

variable {k sep : τ} {P : α → Prop} {w : α → List τ}

def clause (k : τ) (w : α → List τ) (o : Option α) : List τ := o.elim [] (k :: w ·)

@[simp] theorem head?_clause {o : Option α} : (clause k w o).head? = o.map fun _ => k := by
  cases o <;> rfl

def joined (sep : τ) (w : α → List τ) (as : List α) : List τ := [sep].intercalate (as.map w)

@[simp] theorem joined_singleton {a : α} : joined sep w [a] = w a := List.intercalate_singleton

@[simp] theorem joined_cons_cons {a b : α} {as : List α} :
    joined sep w (a :: b :: as) = w a ++ sep :: joined sep w (b :: as) := by
  simp [joined,List.intercalate_cons_cons]

variable [DecidableEq τ] {e : Option τ → ε} {u : Unit}

def demand (t : Option τ) (e : Option τ → ε) : Action (List τ) ε Unit := do
  let got ← peek
  if got = t then
    let _ ← bump
  else
    Action.fail (e got)

@[simp] theorem demand_some : demand (some k) e ts = (.ok u,rest) ↔ ts = k :: rest := by
  cases ts with
  | nil => simp [demand]
  | cons t ts => by_cases ht : t = k <;> simp [demand,ht]

@[simp] theorem demand_none : demand none e ts = (.ok u,rest) ↔ ts = [] ∧ rest = [] := by
  cases ts <;> simp [demand,@eq_comm _ [] rest]

def optionally (k : τ) (body : Action (List τ) ε α) : Action (List τ) ε (Option α) := do
  if (← peek) = some k then
    let _ ← bump
    let a ← body
    pure (some a)
  else
    pure none

theorem optionally_eq_ok {o : Option α} : optionally k x ts = (.ok o,rest) ↔
    (o = none ∧ ts = rest ∧ ts.head? ≠ some k) ∨
      ∃ a mid, o = some a ∧ ts = k :: mid ∧ x mid = (.ok a,rest) := by
  cases ts with
  | nil => simp [optionally]
  | cons t ts => by_cases ht : t = k <;> simp [optionally,ht]; grind

theorem Reads.optionally (h : Reads x P w) {o : Option α} : optionally k x ts = (.ok o,rest) ↔
    (∀ a ∈ o, P a) ∧ ts = clause k w o ++ rest ∧ (o = none → rest.head? ≠ some k) := by
  cases o with
  | none => grind [optionally_eq_ok,clause]
  | some a => simp [optionally_eq_ok,clause,h _,and_comm]

/-- Another item follows as long as `sep` is next; the number of tokens bounds the turns. -/
def itemsLoop (sep : τ) (item : Action (List τ) ε α) : ℕ → Action (List τ) ε (List α)
  | 0 => pure []
  | n + 1 => do
    let a ← item
    if (← peek) = some sep then
      let _ ← bump
      let as ← itemsLoop sep item n
      pure (a :: as)
    else
      pure [a]

def items (sep : τ) (item : Action (List τ) ε α) : Action (List τ) ε (List α) :=
  fun ts => itemsLoop sep item (ts.length + 1) ts

/-- The loop returns a list exactly when the input starts with it and does not go on with `sep`. -/
theorem itemsLoop_eq_ok (h : Reads x P w) {n : ℕ} {as : List α} (hn : ts.length < n) :
    itemsLoop sep x n ts = (.ok as,rest) ↔ as ≠ [] ∧ (∀ a ∈ as, P a) ∧
      ts = joined sep w as ++ rest ∧ rest.head? ≠ some sep := by
  induction n generalizing ts as with
  | zero => omega
  | succ n ih =>
    rw [itemsLoop,bind_eq_ok]
    simp only [h,peek_bind]
    constructor
    · rintro ⟨a,mid,⟨ha,rfl⟩,hif⟩
      split at hif
      next hsep =>
        obtain ⟨more,rfl⟩ : ∃ more, mid = sep :: more := ⟨_,(List.cons_head?_tail hsep).symm⟩
        have hlen : more.length < n := by
          simp at hn
          omega
        simp [ih hlen] at hif
        obtain ⟨as,⟨hne,hP,rfl,hrest⟩,rfl⟩ := hif
        obtain ⟨b,bs,rfl⟩ := List.exists_cons_of_ne_nil hne
        exact ⟨by simp,by simpa [ha] using hP,by simp,hrest⟩
      next hsep =>
        obtain ⟨rfl,rfl⟩ := pure_eq_ok.1 hif
        exact ⟨by simp,by simpa using ha,by simp,hsep⟩
    · rintro ⟨hne,hP,rfl,hrest⟩
      match as with
      | [a] => exact ⟨a,rest,by simpa using hP,by simp [hrest]⟩
      | a :: b :: as =>
        refine ⟨a,sep :: (joined sep w (b :: as) ++ rest),⟨hP a (by simp),by simp⟩,?_⟩
        have hlen : (joined sep w (b :: as) ++ rest).length < n := by
          simp at hn ⊢
          omega
        simpa [ih hlen,hrest] using fun c hc => hP c (List.mem_cons_of_mem a hc)

theorem items_eq_ok (h : Reads x P w) {as : List α} :
    items sep x ts = (.ok as,rest) ↔ as ≠ [] ∧ (∀ a ∈ as, P a) ∧
      ts = joined sep w as ++ rest ∧ rest.head? ≠ some sep :=
  itemsLoop_eq_ok h (Nat.lt_succ_self _)

end TokenReader
end PgAm
