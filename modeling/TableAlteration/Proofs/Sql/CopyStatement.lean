import TableAlteration.Proofs.Sql.Literals
import TableAlteration.Sql.Statement

namespace TableAlteration.Sql

inductive Expression where
  | column (name : String)
  /-- As it is written. -/
  | value (text : String)
  deriving DecidableEq, Repr

namespace Expression

def token : Expression → Token
  | column name => .name name
  | value text => .word text

def ofToken? : Token → Option Expression
  | .name name => some (column name)
  | .word text => some (value text)
  | .symbol _ => none

theorem ofToken?_token (e : Expression) : ofToken? e.token = some e := by cases e <;> rfl

/-- Where a plan takes the column's values from. -/
def of (d : Dialect) (c : CopyColumn) : Expression :=
  match c.source with
  | .column name => column name
  | .default v | .empty v | .notEmpty v => value (valueLiteral d c.type v)

end Expression

structure CopyStatement where
  destination : String
  columns : List String
  expressions : List Expression
  source : String
  deriving DecidableEq, Repr

namespace CopyStatement

def expect? (t : Token) : List Token → Option (List Token)
  | u :: rest => if u = t then some rest else none
  | [] => none

def name? : Token → Option String
  | .name name => some name
  | .word _ | .symbol _ => none

/-- One item, and as many more as there are commas. -/
def readList? {α : Type} (item? : Token → Option α) : List Token → Option (List α × List Token)
  | [] => none
  | [t] => do some ([← item? t], [])
  | t :: u :: rest => do
    let a ← item? t
    if u = .symbol ',' then
      let (as, rest) ← readList? item? rest
      some (a :: as, rest)
    else some ([a], u :: rest)

def readName? : List Token → Option (String × List Token)
  | t :: rest => do some (← name? t, rest)
  | [] => none

def ofTokens? (tokens : List Token) : Option CopyStatement := do
  let rest ← expect? (.word "INSERT") tokens
  let rest ← expect? (.word "INTO") rest
  let (destination, rest) ← readName? rest
  let rest ← expect? (.symbol '(') rest
  let (columns, rest) ← readList? name? rest
  let rest ← expect? (.symbol ')') rest
  let rest ← expect? (.word "SELECT") rest
  let (expressions, rest) ← readList? Expression.ofToken? rest
  let rest ← expect? (.word "FROM") rest
  let (source, rest) ← readName? rest
  if rest.isEmpty ∧ columns.length = expressions.length then
    some ⟨destination, columns, expressions, source⟩
  else none

def read? (d : Dialect) (s : String) : Option CopyStatement :=
  ((Lexer.run d ⟨[], .outside []⟩ s.toList).tokens?).bind ofTokens?

@[simp]
theorem expect?_cons (t : Token) (rest : List Token) : expect? t (t :: rest) = some rest := by
  simp [expect?]

@[simp]
theorem readName?_cons (name : String) (rest : List Token) :
    readName? (.name name :: rest) = some (name, rest) := rfl

theorem readList?_intersperse {α β : Type} {item? : Token → Option β} {token : α → Token}
    {f : α → β} (h : ∀ a, item? (token a) = some (f a)) {l : List α} (hl : l ≠ []) {t : Token}
    (ht : t ≠ .symbol ',') (rest : List Token) :
    readList? item? ((l.map token).intersperse (.symbol ',') ++ t :: rest) =
      some (l.map f, t :: rest) := by
  induction l with
  | nil => exact absurd rfl hl
  | cons a l ih =>
    cases l with
    | nil => simp [readList?, h, ht]
    | cons b l =>
      have ih := ih (List.cons_ne_nil _ _)
      simp only [List.map_cons] at ih ⊢
      simp [readList?, h, ih]

end CopyStatement

theorem reads_commaSeparated {d : Dialect} {α : Type} {write : α → String} {token : α → Token}
    (h : ∀ a, Reads d (write a).toList [token a]) (l : List α) :
    Reads d (commaSeparated (l.map write)).toList ((l.map token).intersperse (.symbol ',')) := by
  induction l with
  | nil => exact .nil
  | cons a l ih =>
    cases l with
    | nil => simpa [commaSeparated] using h a
    | cons b l =>
      have hcomma := (h a).append (c := ',') (by decide) (Reads.nil.blank ih)
      simpa [commaSeparated, Lexer.symbol, Lexer.symbols] using hcomma

theorem reads_sourceExpression (d : Dialect) (c : CopyColumn) :
    Reads d (sourceExpression d c).toList [(Expression.of d c).token] := by
  obtain ⟨_, type, source⟩ := c
  cases source with
  | column name => exact reads_identifier d name
  | default v => exact reads_valueLiteral d type v
  | empty v => exact reads_valueLiteral d type v
  | notEmpty v => exact reads_valueLiteral d type v

/-- The tokens of the statement that a plan is carried out by. -/
def planTokens (d : Dialect) (p : CopyPlan) : List Token :=
  [.word "INSERT", .word "INTO", .name p.destination, .symbol '('] ++
    (p.columns.map fun c => .name c.destination).intersperse (.symbol ',') ++
    [.symbol ')', .word "SELECT"] ++
    (p.columns.map fun c => (Expression.of d c).token).intersperse (.symbol ',') ++
    [.word "FROM", .name p.source]

theorem reads_insertSelect (d : Dialect) (p : CopyPlan) :
    Reads d (insertSelect d p).toList (planTokens d p) := by
  have hname : ∀ c : CopyColumn, Reads d (identifier d c.destination).toList
      [.name c.destination] := fun c => reads_identifier d c.destination
  have hcolumns := reads_commaSeparated hname p.columns
  have hsources := reads_commaSeparated (reads_sourceExpression d) p.columns
  -- from left to right, each step behind a separator
  have hinsert := (reads_keyword d (w := "INSERT") (by decide) (by decide)).blank
    (reads_keyword d (w := "INTO") (by decide) (by decide))
  have hinto := (hinsert.blank (reads_identifier d p.destination)).blank .nil
  have hopen := hinto.append (c := '(') (by decide) hcolumns
  have hclose := hopen.append (c := ')') (by decide) .nil
  have hselect := hclose.blank (reads_keyword d (w := "SELECT") (by decide) (by decide))
  have hvalues := hselect.blank hsources
  have hfrom := hvalues.blank (reads_keyword d (w := "FROM") (by decide) (by decide))
  have hsource := hfrom.blank (reads_identifier d p.source)
  unfold insertSelect
  simpa [planTokens, Lexer.symbol, Lexer.symbols] using hsource

theorem ofTokens?_planTokens (d : Dialect) {p : CopyPlan} (hp : p.columns ≠ []) :
    CopyStatement.ofTokens? (planTokens d p) =
      some {
        destination := p.destination
        columns := p.columns.map fun c => c.destination
        expressions := p.columns.map (Expression.of d)
        source := p.source } := by
  have hname : ∀ c : CopyColumn, CopyStatement.name? (.name c.destination) = some c.destination :=
    fun _ => rfl
  have hcolumns : ∀ rest,
      CopyStatement.readList? CopyStatement.name?
        ((p.columns.map fun c => .name c.destination).intersperse (.symbol ',') ++
          .symbol ')' :: rest) =
        some (p.columns.map fun c => c.destination, .symbol ')' :: rest) :=
    CopyStatement.readList?_intersperse hname hp (by decide)
  have hsources : ∀ rest,
      CopyStatement.readList? Expression.ofToken?
        ((p.columns.map fun c => (Expression.of d c).token).intersperse (.symbol ',') ++
          .word "FROM" :: rest) =
        some (p.columns.map (Expression.of d), .word "FROM" :: rest) :=
    CopyStatement.readList?_intersperse (fun c => Expression.ofToken?_token _) hp (by decide)
  simp [planTokens, CopyStatement.ofTokens?, hcolumns, hsources]

/-- Whatever the names, texts and bytes of a plan have in them, its statement is read as its own
tables, columns and sources, and as nothing else. -/
theorem insertSelect_reads_back (d : Dialect) (p : CopyPlan) (hp : p.columns ≠ []) :
    CopyStatement.read? d (insertSelect d p) =
      some {
        destination := p.destination
        columns := p.columns.map fun c => c.destination
        expressions := p.columns.map (Expression.of d)
        source := p.source } := by
  rw [CopyStatement.read?, reads_insertSelect d p []]
  exact ofTokens?_planTokens d hp

/-- Names and texts that look like the end of what they stand in. -/
def disguised : CopyPlan where
  source := "t; DROP TABLE \""
  destination := "\x60new\x60"
  columns := [
    ⟨"a, b) SELECT", .integer, .column "\x60 FROM \x60"⟩,
    ⟨"\"", .text, .default (.text "', NULL FROM \\' --")⟩,
    ⟨"", .blob, .empty (.bytes [0x27, 0xFF])⟩,
    ⟨"c", .integer, .notEmpty (.int (-1))⟩]

theorem insertSelect_reads_back_of_disguised :
    disguised.columns ≠ [] ∧
      CopyStatement.read? .mysql (insertSelect .mysql disguised) =
        some {
          destination := "\x60new\x60"
          columns := ["a, b) SELECT", "\"", "", "c"]
          expressions := [.column "\x60 FROM \x60", .value "''', NULL FROM \\\\'' --'",
            .value "X'27FF'", .value "-1"]
          source := "t; DROP TABLE \"" } := by
  have hne : disguised.columns ≠ [] := by decide
  refine ⟨hne, ?_⟩
  rw [insertSelect_reads_back .mysql disguised hne]
  decide

end TableAlteration.Sql
