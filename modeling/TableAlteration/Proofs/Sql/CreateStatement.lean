import TableAlteration.Proofs.Sql.Literals
import TableAlteration.Sql.Statement

namespace TableAlteration.Sql

/-- The table that a statement creates; the blank behind the statement ends its last token. -/
def createdTable? (d : Dialect) (s : String) : Option String :=
  match (Lexer.run d ⟨[], .outside []⟩ (s.toList ++ [' '])).tokens with
  | .word "CREATE" :: .word "TABLE" :: .name n :: _ => some n
  | _ => none

/-- Only one dialect has columns that it cannot number. -/
theorem Column.write?_isSome {d : Dialect} (h : d ≠ .postgres) (c : Column) :
    (c.write? d).isSome := by
  have htype : c.type? d = some (c.type.write d) := if_neg fun hd => h hd.1
  rw [write?, htype]
  rfl

theorem mapM_isSome {α β : Type} {f : α → Option β} {l : List α} (h : ∀ a ∈ l, (f a).isSome) :
    (l.mapM f).isSome := by
  induction l with
  | nil => rfl
  | cons a l ih =>
    obtain ⟨b, hb⟩ := Option.isSome_iff_exists.1 (h a List.mem_cons_self)
    have hrest := ih fun x hx => h x (List.mem_cons_of_mem a hx)
    obtain ⟨bs, hbs⟩ := Option.isSome_iff_exists.1 hrest
    rw [List.mapM_cons, hb, hbs]
    rfl

theorem createTable?_eq_some {d : Dialect} (h : d ≠ .postgres) (t : Table) :
    ∃ s, createTable? d t = some s := by
  obtain ⟨cs, hcs⟩ := Option.isSome_iff_exists.1
    (mapM_isSome fun c (_ : c ∈ columns t) => Column.write?_isSome h c)
  unfold createTable?
  rw [hcs]
  exact ⟨_, rfl⟩

/-- Behind the name the statement ends, or a list in brackets follows. -/
theorem toList_createTable? {d : Dialect} {t : Table} {s : String}
    (h : createTable? d t = some s) : ∃ rest, s.toList ++ [' '] =
      "CREATE".toList ++ ' ' :: "TABLE".toList ++ ' ' :: (identifier d t.name).toList ++
        ' ' :: rest := by
  obtain ⟨cs, -, hs⟩ := Option.map_eq_some_iff.1 h
  split at hs <;> subst hs
  · exact ⟨[], by simp⟩
  · exact ⟨"( ".toList ++ (commaSeparated (cs ++ keyClause d t)).toList ++ " ) ".toList, by simp⟩

/-- The statement is read as one that creates the table, whatever characters the name has and
whatever is said of the columns. -/
theorem createdTable?_createTable? {d : Dialect} {t : Table} {s : String}
    (h : createTable? d t = some s) : createdTable? d s = some t.name := by
  have hkeywords := (reads_keyword d (w := "CREATE") (by decide) (by decide)).blank
    (reads_keyword d (w := "TABLE") (by decide) (by decide))
  have hhead := hkeywords.blank (reads_identifier d t.name)
  obtain ⟨rest, hrest⟩ := toList_createTable? h
  obtain ⟨more, hmore⟩ := hhead.tokens_prefix (c := ' ') (by decide) rest
  unfold createdTable?
  rw [hrest, ← hmore]
  rfl

end TableAlteration.Sql
