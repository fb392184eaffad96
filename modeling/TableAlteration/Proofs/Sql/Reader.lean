import TableAlteration.Sql.Quote

namespace TableAlteration.Sql

/-- In MySQL a backslash in a text takes the next character with it. -/
def Dialect.escapes : Dialect → Bool
  | .mysql => true
  | .sqlite | .postgres => false

inductive Token where
  /-- A quoted name, as what it stands for. -/
  | name (n : String)
  /-- Anything else, as it is written; texts keep their quotes and are never broken. -/
  | word (w : String)
  | symbol (c : Char)
  deriving DecidableEq, Repr

/-- Each mode has what was read of the token that is being read. -/
inductive Mode where
  | outside (read : List Char)
  | text (read : List Char)
  /-- Behind a backslash in a text. -/
  | escaped (read : List Char)
  | name (read : List Char)
  /-- Behind a quote in a name, which is its end or the first of two. -/
  | quote (read : List Char)

/-- A machine that takes one character after the other. It knows how a dialect quotes, and nothing
of how statements are written. -/
structure Lexer where
  tokens : List Token
  mode : Mode

namespace Lexer

def symbols : List Char := [',', '(', ')', ';']

/-- What ends a word. -/
def separates (c : Char) : Bool := c ∈ symbols || c.isWhitespace

def symbol (c : Char) : List Token := if c ∈ symbols then [.symbol c] else []

def word : List Char → List Token
  | [] => []
  | read => [.word (String.ofList read)]

def stepOutside (d : Dialect) (tokens : List Token) (read : List Char) (c : Char) : Lexer :=
  if separates c then ⟨tokens ++ word read ++ symbol c, .outside []⟩
  else if c = d.identifierQuote then ⟨tokens ++ word read, .name []⟩
  else if c = '\'' then ⟨tokens, .text (read ++ [c])⟩
  else ⟨tokens, .outside (read ++ [c])⟩

def step (d : Dialect) : Lexer → Char → Lexer
  | ⟨tokens, .outside read⟩, c => stepOutside d tokens read c
  | ⟨tokens, .text read⟩, c =>
    if c = '\'' then ⟨tokens, .outside (read ++ [c])⟩
    else if d.escapes ∧ c = '\\' then ⟨tokens, .escaped (read ++ [c])⟩
    else ⟨tokens, .text (read ++ [c])⟩
  | ⟨tokens, .escaped read⟩, c => ⟨tokens, .text (read ++ [c])⟩
  | ⟨tokens, .name read⟩, c =>
    if c = d.identifierQuote then ⟨tokens, .quote read⟩ else ⟨tokens, .name (read ++ [c])⟩
  | ⟨tokens, .quote read⟩, c =>
    if c = d.identifierQuote then ⟨tokens, .name (read ++ [c])⟩
    else stepOutside d (tokens ++ [.name (String.ofList read)]) [] c

def run (d : Dialect) (s : Lexer) (w : List Char) : Lexer := w.foldl (step d) s

/-- The tokens if the text ends here; `none` inside of quotes. -/
def tokens? : Lexer → Option (List Token)
  | ⟨tokens, .outside read⟩ => some (tokens ++ word read)
  | ⟨tokens, .quote read⟩ => some (tokens ++ [.name (String.ofList read)])
  | ⟨_, .text _⟩ | ⟨_, .escaped _⟩ | ⟨_, .name _⟩ => none

@[simp]
theorem run_nil (d : Dialect) (s : Lexer) : run d s [] = s := rfl

@[simp]
theorem run_cons (d : Dialect) (s : Lexer) (c : Char) (w : List Char) :
    run d s (c :: w) = run d (step d s c) w := rfl

@[simp]
theorem run_append (d : Dialect) (s : Lexer) (v w : List Char) :
    run d s (v ++ w) = run d (run d s v) w := List.foldl_append

theorem separates_identifierQuote (d : Dialect) : separates d.identifierQuote = false := by
  cases d <;> decide

/-- Wherever the text may end, a separator ends it. -/
theorem step_of_separates {d : Dialect} {s : Lexer} {tokens : List Token} {c : Char}
    (hc : separates c) (h : s.tokens? = some tokens) :
    step d s c = ⟨tokens ++ symbol c, .outside []⟩ := by
  have hq : c ≠ d.identifierQuote := by
    rintro rfl
    simp [separates_identifierQuote] at hc
  obtain ⟨before, mode⟩ := s
  cases mode with
  | outside read =>
    cases h
    simp [step, stepOutside, hc]
  | quote read =>
    cases h
    simp [step, stepOutside, hc, hq, word]
  | text read => cases h
  | escaped read => cases h
  | name read => cases h

theorem tokens_stepOutside (d : Dialect) (tokens : List Token) (read : List Char) (c : Char) :
    tokens <+: (stepOutside d tokens read c).tokens := by
  unfold stepOutside
  split
  · exact (List.prefix_append _ _).trans (List.prefix_append _ _)
  · split
    · exact List.prefix_append _ _
    · split <;> exact List.prefix_refl _

/-- What is finished is not given up again. -/
theorem tokens_step (d : Dialect) (s : Lexer) (c : Char) : s.tokens <+: (step d s c).tokens := by
  obtain ⟨tokens, mode⟩ := s
  cases mode with
  | outside read => exact tokens_stepOutside d tokens read c
  | text read =>
    simp only [step]
    split
    · exact List.prefix_refl _
    · split <;> exact List.prefix_refl _
  | escaped read => exact List.prefix_refl _
  | name read =>
    simp only [step]
    split <;> exact List.prefix_refl _
  | quote read =>
    simp only [step]
    split
    · exact List.prefix_refl _
    · exact (List.prefix_append _ _).trans (tokens_stepOutside d _ _ c)

theorem tokens_run (d : Dialect) (s : Lexer) (w : List Char) :
    s.tokens <+: (run d s w).tokens := by
  induction w generalizing s with
  | nil => exact List.prefix_refl _
  | cons c w ih => exact (tokens_step d s c).trans (ih (step d s c))

end Lexer

open Lexer

/-- Between separators the text is read as these tokens. -/
def Reads (d : Dialect) (w : List Char) (tokens : List Token) : Prop :=
  ∀ before, (run d ⟨before, .outside []⟩ w).tokens? = some (before ++ tokens)

namespace Reads

variable {d : Dialect} {v w : List Char} {x y : List Token}

theorem nil : Reads d [] [] := by
  intro before
  simp [tokens?, word]

theorem append (hv : Reads d v x) {c : Char} (hc : separates c) (hw : Reads d w y) :
    Reads d (v ++ c :: w) (x ++ symbol c ++ y) := by
  intro before
  rw [run_append, run_cons, step_of_separates hc (hv before), hw]
  simp

/-- A text is read as its own tokens, whatever stands behind the separator that ends it. -/
theorem tokens_prefix (hv : Reads d v x) {c : Char} (hc : separates c) (rest : List Char) :
    x <+: (run d ⟨[], .outside []⟩ (v ++ c :: rest)).tokens := by
  rw [run_append, run_cons, step_of_separates hc (hv [])]
  exact (List.prefix_append _ _).trans (tokens_run d ⟨_, .outside []⟩ rest)

theorem blank (hv : Reads d v x) (hw : Reads d w y) : Reads d (v ++ ' ' :: w) (x ++ y) := by
  simpa [symbol, symbols] using hv.append (c := ' ') (by decide) hw

end Reads

end TableAlteration.Sql
