import PgAm.TokenReader
import PgAm.IndexKey

/-! The statements of the SQL subset and the recursive-descent parser over tokens. `Token::Eof` is
always the last token and never passed, so it is not an element of the list but its end, the `none`
of `peek`. The parser accepts exactly the token lists of complete statements. -/
namespace PgAm
namespace Sql
open Btree TokenReader

abbrev Name := List Char

inductive Literal
  | int (n : Int64)
  | str (s : List Char)
  | null

inductive CmpOp
  | eq | lt | gt

structure Filter where
  column : Name
  op : CmpOp
  value : Literal

structure OrderBy where
  column : Name
  desc : Bool

inductive LockClause
  | forUpdate | forShare

inductive SelectCols
  | all
  | cols (names : List Name)

structure ColumnSpec where
  name : Name
  colType : ColumnType

inductive Statement
  | begin | commit | rollback
  | createTable (name : Name) (columns : List ColumnSpec)
  | insert (table : Name) (columns : Option (List Name)) (rows : List (List Literal))
  | select (columns : SelectCols) (table : Name) (filter : Option Filter)
      (orderBy : Option OrderBy) (limit : Option ℕ) (lock : Option LockClause)
  | update (table : Name) (sets : List (Name × Literal)) (filter : Option Filter)
  | delete (table : Name) (filter : Option Filter)
  | createIndex (table column : Name)

inductive Token
  | begin | commit | rollback | create | table | insert | into | values | select | from_ | where_
  | order | by_ | asc | desc | limit | for_ | share | update | set | delete | index | on | null
  | type (t : ColumnType)
  | int (n : Int64)
  | str (s : List Char)
  | eq | lt | gt | comma | semicolon | lParen | rParen | star
  | ident (s : Name)
  deriving DecidableEq

/-- `InvalidArgument` with its text: `expected e, got g` for a token or a phrase `e`. -/
inductive SqlError
  | unexpectedToken (got : Option Token)
  | expectedToken (expected got : Option Token)
  | expected (what : String) (got : Option Token)

abbrev Parser := Action (List Token) SqlError

variable {α : Type}

/-- `Parser::eat`; `none` is `Token::Eof`. -/
abbrev eat (t : Option Token) : Parser Unit := demand t (.expectedToken t)

def eatIdent : Parser Name :=
  expect (fun | .ident s => some s | _ => none) (.expected "identifier")

def parseLiteral : Parser Literal :=
  expect (fun | .int n => some (.int n) | .str s => some (.str s) | .null => some .null | _ => none)
    (.expected "literal")

def parseList (item : Parser α) : Parser (List α) := do
  let as ← items .comma item
  demand (some .rParen) (.expected "',' or ')'")
  pure as

def parseColType : Parser ColumnType :=
  expect (fun | .type t => some t | _ => none) (.expected "column type")

def parseColumnSpec : Parser ColumnSpec := do
  let name ← eatIdent
  let colType ← parseColType
  pure ⟨name,colType⟩

def parseCreateTable : Parser Statement := do
  let _ ← bump
  let name ← eatIdent
  eat (some .lParen)
  let columns ← parseList parseColumnSpec
  eat none
  pure (.createTable name columns)

def parseCreateIndex : Parser Statement := do
  let _ ← bump
  eat (some .on)
  let table ← eatIdent
  eat (some .lParen)
  let column ← eatIdent
  eat (some .rParen)
  eat none
  pure (.createIndex table column)

def parseCreate : Parser Statement := do
  let _ ← bump
  match ← peek with
  | some .table => parseCreateTable
  | some .index => parseCreateIndex
  | other => Action.fail (.expected "TABLE or INDEX after CREATE" other)

def parseRow : Parser (List Literal) := do
  eat (some .lParen)
  parseList parseLiteral

def parseInsert : Parser Statement := do
  let _ ← bump
  eat (some .into)
  let table ← eatIdent
  let columns ← optionally .lParen (parseList eatIdent)
  eat (some .values)
  let rows ← items .comma parseRow
  demand none (.expected "',' or end")
  eat none
  pure (.insert table columns rows)

def parseCmpOp : Parser CmpOp :=
  expect (fun | .eq => some .eq | .lt => some .lt | .gt => some .gt | _ => none)
    (.expected "comparison operator")

def parseFilter : Parser Filter := do
  let column ← eatIdent
  let op ← parseCmpOp
  let value ← parseLiteral
  pure ⟨column,op,value⟩

def parseDirection (column : Name) : Parser OrderBy := do
  match ← peek with
  | some .asc => do
    let _ ← bump
    pure ⟨column,false⟩
  | some .desc => do
    let _ ← bump
    pure ⟨column,true⟩
  | _ => pure ⟨column,false⟩

def parseOrder : Parser OrderBy := do
  eat (some .by_)
  let column ← eatIdent
  parseDirection column

def parseLimit : Parser ℕ :=
  expect (fun | .int n => (if 0 ≤ n.toInt then some n.toInt.toNat else none) | _ => none)
    (.expected "non-negative integer after LIMIT")

def parseLock : Parser LockClause :=
  expect (fun | .update => some .forUpdate | .share => some .forShare | _ => none)
    (.expected "UPDATE or SHARE after FOR")

def parseSelectCols : Parser SelectCols := do
  match ← peek with
  | some .star => do
    let _ ← bump
    pure .all
  | some (.ident _) => do
    let cols ← items .comma eatIdent
    pure (.cols cols)
  | other => Action.fail (.expected "column list or '*'" other)

def parseSelect : Parser Statement := do
  let _ ← bump
  let columns ← parseSelectCols
  eat (some .from_)
  let table ← eatIdent
  let filter ← optionally .where_ parseFilter
  let orderBy ← optionally .order parseOrder
  let limit ← optionally .limit parseLimit
  let lock ← optionally .for_ parseLock
  eat none
  pure (.select columns table filter orderBy limit lock)

def parseSet : Parser (Name × Literal) := do
  let col ← eatIdent
  eat (some .eq)
  let val ← parseLiteral
  pure (col,val)

def parseUpdate : Parser Statement := do
  let _ ← bump
  let table ← eatIdent
  eat (some .set)
  let sets ← items .comma parseSet
  let filter ← optionally .where_ parseFilter
  eat none
  pure (.update table sets filter)

def parseDelete : Parser Statement := do
  let _ ← bump
  eat (some .from_)
  let table ← eatIdent
  let filter ← optionally .where_ parseFilter
  eat none
  pure (.delete table filter)

def parseWord (st : Statement) : Parser Statement := do
  let _ ← bump
  eat none
  pure st

def parseStatement : Parser Statement := do
  match ← peek with
  | some .begin => parseWord .begin
  | some .commit => parseWord .commit
  | some .rollback => parseWord .rollback
  | some .create => parseCreate
  | some .insert => parseInsert
  | some .select => parseSelect
  | some .update => parseUpdate
  | some .delete => parseDelete
  | other => Action.fail (.unexpectedToken other)

def Literal.token : Literal → Token
  | .int n => .int n
  | .str s => .str s
  | .null => .null

def CmpOp.token : CmpOp → Token
  | .eq => .eq
  | .lt => .lt
  | .gt => .gt

def LockClause.token : LockClause → Token
  | .forUpdate => .update
  | .forShare => .share

def ColumnSpec.tokens (c : ColumnSpec) : List Token := [.ident c.name,.type c.colType]

def Filter.tokens (f : Filter) : List Token := [.ident f.column,f.op.token,f.value.token]

/-- The ascending order is the default; `asc` says that it is written out. -/
def OrderBy.direction (asc : Bool) (o : OrderBy) : List Token :=
  if o.desc then [.desc] else if asc then [.asc] else []

def OrderBy.tokens (asc : Bool) (o : OrderBy) : List Token :=
  [.by_,.ident o.column] ++ o.direction asc

def listTokens (w : α → List Token) (as : List α) : List Token := joined .comma w as ++ [.rParen]

def rowTokens (row : List Literal) : List Token :=
  .lParen :: listTokens (fun l => [l.token]) row

def setTokens (s : Name × Literal) : List Token := [.ident s.1,.eq,s.2.token]

def SelectCols.tokens : SelectCols → List Token
  | .all => [.star]
  | .cols names => joined .comma (fun s => [.ident s]) names

def Statement.tokens (asc : Bool) : Statement → List Token
  | .begin => [.begin]
  | .commit => [.commit]
  | .rollback => [.rollback]
  | .createTable name columns =>
    [.create,.table,.ident name,.lParen] ++ listTokens ColumnSpec.tokens columns
  | .insert table columns rows =>
    [.insert,.into,.ident table] ++ clause .lParen (listTokens fun s => [.ident s]) columns ++
      .values :: joined .comma rowTokens rows
  | .select columns table filter orderBy limit lock =>
    .select :: columns.tokens ++ [.from_,.ident table] ++ clause .where_ Filter.tokens filter ++
      clause .order (OrderBy.tokens asc) orderBy ++
      clause .limit (fun n => [.int (.ofNat n)]) limit ++ clause .for_ (fun l => [l.token]) lock
  | .update table sets filter =>
    [.update,.ident table,.set] ++ joined .comma setTokens sets ++
      clause .where_ Filter.tokens filter
  | .delete table filter => [.delete,.from_,.ident table] ++ clause .where_ Filter.tokens filter
  | .createIndex table column =>
    [.create,.index,.on,.ident table,.lParen,.ident column,.rParen]

/-- No list of the statement is empty, and the limit is a literal. -/
def Statement.Complete : Statement → Prop
  | .createTable _ columns => columns ≠ []
  | .insert _ columns rows =>
    (∀ names ∈ columns, names ≠ []) ∧ rows ≠ [] ∧ ∀ row ∈ rows, row ≠ []
  | .select columns _ _ _ limit _ => columns ≠ .cols [] ∧ ∀ n ∈ limit, n < 2 ^ 63
  | .update _ sets _ => sets ≠ []
  | _ => True

section Readers
variable {ts rest : List Token} {k : Token} {st : Statement}

@[simp] theorem eatIdent_reads : Reads eatIdent (fun _ => True) fun s => [.ident s] :=
  expect_reads fun t a => by cases t <;> simp [eq_comm]

@[simp] theorem parseLiteral_reads : Reads parseLiteral (fun _ => True) fun l => [l.token] :=
  expect_reads fun t a => by cases t <;> cases a <;> simp [Literal.token,eq_comm]

@[simp] theorem parseColType_reads : Reads parseColType (fun _ => True) fun t => [.type t] :=
  expect_reads fun t a => by cases t <;> simp [eq_comm]

@[simp] theorem parseCmpOp_reads : Reads parseCmpOp (fun _ => True) fun o => [o.token] :=
  expect_reads fun t a => by cases t <;> cases a <;> simp [CmpOp.token]

theorem parseLock_reads : Reads parseLock (fun _ => True) fun l => [l.token] :=
  expect_reads fun t a => by cases t <;> cases a <;> simp [LockClause.token]

theorem parseLimit_reads : Reads parseLimit (· < 2 ^ 63) fun n => [.int (.ofNat n)] := by
  refine expect_reads fun t a => ?_
  cases t with
  | int n =>
    have := n.toInt_lt
    have hofNat (b : ℕ) : Int64.ofNat b = Int64.ofInt b := rfl
    simp only [Option.ite_none_right_eq_some,Option.some.injEq,Token.int.injEq,hofNat]
    constructor
    · rintro ⟨hn,rfl⟩
      rw [Int.toNat_of_nonneg hn,Int64.ofInt_toInt]
      exact ⟨by omega,rfl⟩
    · rintro ⟨ha,rfl⟩
      simp [Int64.toInt_ofInt_of_le (n := a) (by omega) (by omega)]
  | _ => simp

theorem parseColumnSpec_reads : Reads parseColumnSpec (fun _ => True) ColumnSpec.tokens := by
  rintro ts ⟨name,t⟩ rest
  simp [parseColumnSpec,ColumnSpec.tokens]

theorem parseSet_reads : Reads parseSet (fun _ => True) setTokens := by
  rintro ts ⟨col,val⟩ rest
  simp [parseSet,setTokens]

theorem parseFilter_reads : Reads parseFilter (fun _ => True) Filter.tokens := by
  rintro ts ⟨column,op,value⟩ rest
  simp [parseFilter,Filter.tokens]

theorem parseList_reads {x : Parser α} {P : α → Prop} {w : α → List Token} (h : Reads x P w) :
    Reads (parseList x) (fun as => as ≠ [] ∧ ∀ a ∈ as, P a) (listTokens w) := by
  intro ts as rest
  simp [parseList,items_eq_ok h,listTokens,and_assoc]

theorem parseRow_reads : Reads parseRow (· ≠ []) rowTokens := by
  intro ts row rest
  simp [parseRow,parseList_reads parseLiteral_reads _,rowTokens,and_comm]

theorem parseDirection_eq_ok {s : Name} {o : OrderBy} : parseDirection s ts = (.ok o,rest) ↔
    o.column = s ∧ ∃ asc, ts = o.direction asc ++ rest ∧
      (o.desc = false → asc = false → rest.head? ≠ some .asc ∧ rest.head? ≠ some .desc) := by
  obtain ⟨column,desc⟩ := o
  match ts with
  | [] => cases desc <;> simp [parseDirection,OrderBy.direction]; grind
  | t :: ts => cases t <;> cases desc <;> simp [parseDirection,OrderBy.direction] <;> grind

theorem parseOrderBy_eq_ok {o : Option OrderBy} : optionally .order parseOrder ts = (.ok o,rest) ↔
    ∃ asc, ts = clause .order (OrderBy.tokens asc) o ++ rest ∧
      (o = none → rest.head? ≠ some .order) ∧ ∀ b ∈ o, b.desc = false → asc = false →
        rest.head? ≠ some .asc ∧ rest.head? ≠ some .desc := by
  cases o with
  | none =>
    simp [optionally_eq_ok,clause]
    grind
  | some b =>
    simp [optionally_eq_ok,clause,parseOrder,parseDirection_eq_ok,OrderBy.tokens,-Bool.exists_bool]

theorem parseSelectCols_eq_ok {c : SelectCols} : parseSelectCols ts = (.ok c,rest) ↔
    c ≠ .cols [] ∧ ts = c.tokens ++ rest ∧ (c ≠ .all → rest.head? ≠ some .comma) := by
  match ts with
  | [] => rcases c with _ | (_ | ⟨s,_ | ⟨s',names⟩⟩) <;> simp [parseSelectCols,SelectCols.tokens]
  | t :: ts =>
    rcases c with _ | (_ | ⟨s,_ | ⟨s',names⟩⟩) <;> cases t <;>
      simp [parseSelectCols,items_eq_ok eatIdent_reads,SelectCols.tokens]

theorem parseCreate_eq_ok : parseCreate (k :: ts) = (.ok st,rest) ↔
    (∃ name columns, ts = .table :: .ident name :: .lParen :: listTokens ColumnSpec.tokens columns ∧
      columns ≠ [] ∧ rest = [] ∧ st = .createTable name columns) ∨
    ∃ table column, ts = [.index,.on,.ident table,.lParen,.ident column,.rParen] ∧ rest = [] ∧
      st = .createIndex table column := by
  match ts with
  | [] => simp [parseCreate]
  | t :: ts =>
    cases t <;> simp [parseCreate,parseCreateTable,parseCreateIndex,
      parseList_reads parseColumnSpec_reads _]

attribute [local simp] parseStatement parseWord parseCreate_eq_ok parseInsert parseSelect
  parseUpdate parseDelete parseSelectCols_eq_ok parseOrderBy_eq_ok

/-- The parser accepts exactly the tokens of the complete statements. -/
theorem parseStatement_eq_ok : parseStatement ts = (.ok st,rest) ↔
    st.Complete ∧ rest = [] ∧ ∃ asc, ts = st.tokens asc := by
  constructor
  · intro h
    match ts with
    | [] => simp at h
    | t :: ts =>
      cases t <;> simp [items_eq_ok parseSet_reads,items_eq_ok parseRow_reads,
        parseFilter_reads.optionally,parseLimit_reads.optionally,parseLock_reads.optionally,
        (parseList_reads eatIdent_reads).optionally,-Bool.exists_bool] at h
      case create =>
        rcases h with ⟨name,columns,rfl,hc,rfl,rfl⟩ | ⟨table,column,rfl,rfl,rfl⟩
        · exact ⟨hc,rfl,false,rfl⟩
        · exact ⟨trivial,rfl,false,rfl⟩
      case insert =>
        obtain ⟨table,columns,rows,rfl,hc,hr,rfl,rfl⟩ := h
        exact ⟨⟨hc,hr⟩,rfl,false,by simp [Statement.tokens]⟩
      case select =>
        obtain ⟨columns,table,filter,orderBy,limit,lock,⟨hc,asc,rfl⟩,hl,rfl,rfl⟩ := h
        exact ⟨⟨hc,hl⟩,rfl,asc,by simp [Statement.tokens]⟩
      case update =>
        obtain ⟨table,sets,filter,rfl,hs,rfl,rfl⟩ := h
        exact ⟨hs,rfl,false,by simp [Statement.tokens]⟩
      case delete =>
        obtain ⟨table,filter,rfl,rfl,rfl⟩ := h
        exact ⟨trivial,rfl,false,by simp [Statement.tokens]⟩
      all_goals
        obtain ⟨⟨rfl,rfl⟩,rfl⟩ := h
        exact ⟨trivial,rfl,false,rfl⟩
  · rintro ⟨hc,rfl,asc,rfl⟩
    cases st <;> simp_all [Statement.tokens,Statement.Complete,items_eq_ok parseSet_reads,
      items_eq_ok parseRow_reads,parseFilter_reads.optionally,parseLimit_reads.optionally,
      parseLock_reads.optionally,(parseList_reads eatIdent_reads).optionally,-Bool.exists_bool]
    exact ⟨asc,rfl⟩

def stripSemicolon (tokens : List Token) : List Token :=
  if tokens.getLast? = some .semicolon then tokens.dropLast else tokens

/-- `parse` from the tokens on. -/
def parse (tokens : List Token) : Except SqlError Statement :=
  (parseStatement (stripSemicolon tokens)).1

/-- What is accepted are the tokens of the complete statements, each read as its statement. -/
theorem parse_eq_ok_iff : parse ts = .ok st ↔
    st.Complete ∧ ∃ asc, stripSemicolon ts = st.tokens asc := by
  constructor
  · intro h
    obtain ⟨hc,-,htok⟩ := parseStatement_eq_ok.1 (Prod.ext h rfl)
    exact ⟨hc,htok⟩
  · intro h
    rw [parse,parseStatement_eq_ok.2 ⟨h.1,rfl,h.2⟩]

end Readers

end Sql
end PgAm
