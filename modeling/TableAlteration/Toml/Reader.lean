import TableAlteration.Toml.Scalar

namespace TableAlteration.Toml.Reader

/-- What is read, and the text behind it. -/
abbrev Read (α : Type) := List Char → Option (α × List Char)

def skipBlanks (s : List Char) : List Char := s.dropWhile fun c => c = ' ' || c = '\t'

def isControl (c : Char) : Bool := (c.toNat < 32 && c ≠ '\t') || c.toNat = 127

/-- The text behind the end of a line. -/
def newline? : List Char → Option (List Char)
  | '\n' :: rest => some rest
  | '\r' :: '\n' :: rest => some rest
  | _ => none

/-- Blanks and a comment, up to the end of the line. -/
def skipComment (s : List Char) : Option (List Char) :=
  match skipBlanks s with
  | '#' :: rest =>
    let rest := rest.dropWhile fun c => !isControl c
    if rest.isEmpty ∨ (newline? rest).isSome then some rest else none
  | rest => some rest

/-- The rest of a line that has nothing more to say. -/
def endLine (s : List Char) : Option (List Char) := do
  let s ← skipComment s
  if s.isEmpty then some [] else newline? s

/-- Blanks, comments and ends of lines. -/
def skipLines : Nat → List Char → Option (List Char)
  | 0, _ => none
  | fuel + 1, s => do
    let s ← skipComment s
    match newline? s with
    | some rest => skipLines fuel rest
    | none => some s

def codePoint (width : Nat) : Read Char := fun s => do
  let ds ← (s.take width).mapM (digitValue? 16)
  let n := value 16 ds
  if ds.length = width ∧ n.isValidChar then some (Char.ofNat n, s.drop width) else none

/-- Behind the backslash. -/
def escape : Read Char
  | 'b' :: s => some ('\x08', s)
  | 't' :: s => some ('\t', s)
  | 'n' :: s => some ('\n', s)
  | 'f' :: s => some ('\x0c', s)
  | 'r' :: s => some ('\r', s)
  | 'e' :: s => some ('\x1b', s)
  | '"' :: s => some ('"', s)
  | '\\' :: s => some ('\\', s)
  | 'x' :: s => codePoint 2 s
  | 'u' :: s => codePoint 4 s
  | 'U' :: s => codePoint 8 s
  | _ => none

/-- The rest of a string on one line, behind its opening quote. -/
def lineString (q : Char) : Nat → List Char → Read String
  | 0, _, _ => none
  | _, _, [] => none
  | fuel + 1, done, c :: s =>
    if c = q then some (String.ofList done.reverse, s)
    else if c = '\\' ∧ q = '"' then do
      let (d, s) ← escape s
      lineString q fuel (d :: done) s
    else if isControl c then none
    else lineString q fuel (c :: done) s

/-- Blanks and ends of lines. -/
def skipGap : List Char → List Char
  | ' ' :: s | '\t' :: s | '\n' :: s | '\r' :: '\n' :: s => skipGap s
  | s => s

/-- Behind a backslash that stands last on its line, the text goes on where the next one begins. -/
def continuation? (s : List Char) : Option (List Char) := (newline? (skipBlanks s)).map skipGap

/-- The rest of a string over several lines. Up to two quotes may stand before the closing three. -/
def blockString (q : Char) : Nat → List Char → Read String
  | 0, _, _ => none
  | _, _, [] => none
  | fuel + 1, done, c :: s =>
    if c = q then
      let quotes := (c :: s).takeWhile (· = q)
      if quotes.length < 3 then blockString q fuel (c :: done) s
      else if 5 < quotes.length then none
      else
        let text := List.replicate (quotes.length - 3) q ++ done
        some (String.ofList text.reverse, (c :: s).drop quotes.length)
    else if c = '\\' ∧ q = '"' then
      match continuation? s with
      | some rest => blockString q fuel done rest
      | none => do
        let (d, s) ← escape s
        blockString q fuel (d :: done) s
    else if c = '\r' then
      if s.head? = some '\n' then blockString q fuel (c :: done) s else none
    else if c ≠ '\n' ∧ isControl c then none
    else blockString q fuel (c :: done) s

/-- A quoted text of one or several lines; a line that ends right behind the opening quotes does
not count. -/
def string : Read String := fun s =>
  match s with
  | a :: b :: c :: rest =>
    if (a = '"' ∨ a = '\'') ∧ b = a ∧ c = a then
      blockString a (rest.length + 1) [] ((newline? rest).getD rest)
    else if a = '"' ∨ a = '\'' then lineString a (rest.length + 3) [] (b :: c :: rest)
    else none
  | a :: rest => if a = '"' ∨ a = '\'' then lineString a (rest.length + 1) [] rest else none
  | [] => none

/-- Arrays and tables in braces are nested so deep at most, and keys have so many parts. -/
def maxDepth : Nat := 80

def isBare (c : Char) : Bool := c.isAlphanum || c = '_' || c = '-'

def simpleKey : Read String := fun s =>
  match s with
  | '"' :: rest => lineString '"' (rest.length + 1) [] rest
  | '\'' :: rest => lineString '\'' (rest.length + 1) [] rest
  | s =>
    let name := s.takeWhile isBare
    if name.isEmpty then none else some (String.ofList name, s.drop name.length)

/-- At most `parts` keys between dots: those before the last one, and the last one. -/
def keyParts : (parts : Nat) → Read (List String × String)
  | 0, _ => none
  | parts + 1, s => do
    let (k, s) ← simpleKey (skipBlanks s)
    match skipBlanks s with
    | '.' :: rest => do
      let ((path, last), s) ← keyParts parts rest
      return ((k :: path, last), s)
    | s => return (([], k), s)

def key : Read (List String × String) := keyParts maxDepth

/-- A word that ends where punctuation or a blank follows. A date may go on behind a blank with a
time of day. -/
def word (s : List Char) : List Char × List Char :=
  let isPart : Char → Bool := fun c => isBare c || c = '+' || c = '.' || c = ':'
  let first := s.takeWhile isPart
  let rest := s.drop first.length
  match date? first, rest with
  | some [], ' ' :: d :: _ =>
    if isDecimal d then
      let second := (rest.drop 1).takeWhile isPart
      (first ++ ' ' :: second, rest.drop (second.length + 1))
    else (first, rest)
  | _, _ => (first, rest)

mutual

/-- A value with brackets and braces nested `depth` deep at most. -/
def value : Nat → (depth : Nat) → Read Toml
  | 0, _, _ => none
  | fuel + 1, depth, s =>
    match s, depth with
    | '"' :: _, _ | '\'' :: _, _ => (string s).map fun (t, r) => (Toml.string t, r)
    | '[' :: _, 0 | '\x7b' :: _, 0 => none
    | '[' :: rest, depth + 1 => (items fuel depth rest).map fun (l, r) => (array l, r)
    | '\x7b' :: rest, depth + 1 =>
      (entries fuel depth true [] rest).map fun (es, r) => (table .inline es, r)
    | s, _ =>
      let (w, rest) := word s
      (scalar? w).map fun v => (v, rest)

def items : Nat → (depth : Nat) → Read (List Toml)
  | 0, _, _ => none
  | fuel + 1, depth, s => do
    match ← skipLines (s.length + 1) s with
    | ']' :: rest => return ([], rest)
    | s =>
      let (v, s) ← value fuel depth s
      match ← skipLines (s.length + 1) s with
      | ',' :: rest => do
        let (l, s) ← items fuel depth rest
        return (v :: l, s)
      | ']' :: rest => return ([v], rest)
      | _ => none

/-- The entries of a table in braces, after those read so far. Lines may end anywhere between
them, and before and behind the sign of equality. -/
def entries : Nat → (depth : Nat) → Bool → Entries → Read Entries
  | 0, _, _, _, _ => none
  | fuel + 1, depth, expected, es, s => do
    match ← skipLines (s.length + 1) s with
    | '\x7d' :: rest => return (es, rest)
    | s =>
      if !expected then none
      else
        let ((path, k), s) ← key s
        let '=' :: s ← skipLines (s.length + 1) s | none
        let s ← skipLines (s.length + 1) s
        let (v, s) ← value fuel depth s
        let es ← assign path k v es
        match ← skipLines (s.length + 1) s with
        | ',' :: rest => entries fuel depth true es rest
        | s => entries fuel depth false es s

end

/-- One line, given the current header: its effect on the header and on the document. -/
def line (header : List String) (root : Entries) : Read (List String × Entries) := fun s =>
  match skipBlanks s with
  | '[' :: '[' :: rest => do
    let ((path, k), s) ← key rest
    let ']' :: ']' :: s := s | none
    let root ← openElement path k root
    let s ← endLine s
    return ((path ++ [k], root), s)
  | '[' :: rest => do
    let ((path, k), s) ← key rest
    let ']' :: s := s | none
    let root ← openTable path k root
    let s ← endLine s
    return ((path ++ [k], root), s)
  | s => do
    let ((path, k), s) ← key s
    let '=' :: s := s | none
    let (v, s) ← value (s.length + 1) maxDepth (skipBlanks s)
    let root ← assignUnder header path k v root
    let s ← endLine s
    return ((header, root), s)

def document : Nat → List String → Entries → List Char → Option Entries
  | 0, _, _, _ => none
  | fuel + 1, header, root, s => do
    match ← skipLines (s.length + 1) s with
    | [] => return root
    | s =>
      let ((header, root), rest) ← line header root s
      document fuel header root rest

end Reader

/-- The top-level entries of a document; a byte order mark in front of it is skipped. -/
def read? (text : String) : Option Entries :=
  let s := match text.toList with
    | '\ufeff' :: rest => rest
    | s => s
  Reader.document (s.length + 1) [] [] s

end TableAlteration.Toml
