import TableAlteration.Proofs.Table
import TableAlteration.Sql.Statement

namespace TableAlteration

/-- The index is on that column and on no other. -/
def Index.Covers (x : Index) (column : String) : Prop :=
  x.columns.map Text.fold = [Text.fold column]

instance (x : Index) (column : String) : Decidable (x.Covers column) :=
  inferInstanceAs (Decidable (_ = _))

namespace Table

variable {t : Table} {f g : Field} {x : Index}

theorem isCovered_iff {column : String} :
    t.isCovered column ↔ ∃ x ∈ t.indexes, x.Covers column := by
  unfold isCovered
  rw [List.any_eq_true]
  refine exists_congr fun x => and_congr_right fun _ => ?_
  unfold Index.Covers
  match x.columns with
  | [] => simp
  | [c] => simp [Text.sameName_iff]
  | _ :: _ :: _ => simp

/-- The field asks for an index, is no primary key, and has no declared index of its own. -/
def NeedsIndex (t : Table) (f : Field) : Prop :=
  f.constraints.indexed ∧ f.constraints.primaryKey = false ∧ ∀ x ∈ t.indexes, ¬x.Covers f.name

instance (t : Table) (f : Field) : Decidable (t.NeedsIndex f) :=
  inferInstanceAs (Decidable (_ ∧ _ ∧ _))

def impliedIndexes (t : Table) : List Index :=
  (t.fields.filter (t.NeedsIndex ·)).map t.impliedIndex

theorem effectiveIndexes_eq (t : Table) : t.effectiveIndexes = t.indexes ++ t.impliedIndexes := by
  unfold effectiveIndexes impliedIndexes
  congr 2
  refine List.filter_congr fun f _ => ?_
  rw [Bool.eq_iff_iff, decide_eq_true_iff, NeedsIndex, Bool.and_eq_true, Bool.and_eq_true,
    Bool.not_eq_true', Bool.not_eq_true', Bool.eq_false_iff (b := t.isCovered f.name), Ne,
    isCovered_iff, and_assoc]
  simp

theorem impliedIndex_covers (t : Table) (f : Field) : (t.impliedIndex f).Covers f.name := rfl

theorem mem_impliedIndexes : x ∈ t.impliedIndexes ↔
    ∃ f ∈ t.fields, t.NeedsIndex f ∧ t.impliedIndex f = x := by
  simp [impliedIndexes, and_assoc]

/-- Each field that asks for an index has one in effect. -/
theorem exists_covers (hf : f ∈ t.fields) (hi : f.constraints.indexed)
    (hk : f.constraints.primaryKey = false) : ∃ x ∈ t.effectiveIndexes, x.Covers f.name := by
  rw [effectiveIndexes_eq]
  by_cases h : t.NeedsIndex f
  · exact ⟨_, List.mem_append_right _ (mem_impliedIndexes.2 ⟨f, hf, h, rfl⟩),
      t.impliedIndex_covers f⟩
  · have hdeclared : ∃ x ∈ t.indexes, x.Covers f.name := by
      by_contra hno
      exact h ⟨hi, hk, fun x hx hc => hno ⟨x, hx, hc⟩⟩
    obtain ⟨x, hx, hc⟩ := hdeclared
    exact ⟨x, List.mem_append_left _ hx, hc⟩

/-- Once the indexes in effect are declared, none is missing. -/
theorem effectiveIndexes_declared (t : Table) :
    { t with indexes := t.effectiveIndexes }.effectiveIndexes = t.effectiveIndexes := by
  have hnone : { t with indexes := t.effectiveIndexes }.impliedIndexes = [] := by
    unfold impliedIndexes
    rw [List.filter_eq_nil_iff.2, List.map_nil]
    intro f hf h
    obtain ⟨hi, hk, hno⟩ := of_decide_eq_true h
    obtain ⟨x, hx, hc⟩ := exists_covers (t := t) hf hi hk
    exact hno x hx hc
  rw [effectiveIndexes_eq, hnone, List.append_nil]

/-- What is told apart for fields of different names does not repeat among the implied indexes. -/
theorem NamesDistinct.nodup_implied {α : Type} {φ : Index → α} (h : t.NamesDistinct)
    (hφ : ∀ f g, φ (t.impliedIndex f) = φ (t.impliedIndex g) → Text.sameName f.name g.name) :
    (t.impliedIndexes.map φ).Nodup := by
  have hnames : ((t.fields.filter (t.NeedsIndex ·)).map fun f => Text.fold f.name).Nodup :=
    h.sublist (List.filter_sublist.map _)
  unfold impliedIndexes
  rw [List.map_map]
  refine List.pairwise_map.2 ((List.pairwise_map.1 hnames).imp ?_)
  intro f g hne e
  exact hne (Text.sameName_iff.1 (hφ f g e))

/-- Without one of the implied indexes some field would have none. -/
theorem NamesDistinct.not_covered {a b : List Index} (h : t.NamesDistinct)
    (hx : t.impliedIndexes = a ++ x :: b) :
    ∃ f ∈ t.fields, t.NeedsIndex f ∧ ∀ y ∈ t.indexes ++ (a ++ b), ¬y.Covers f.name := by
  have hmem : x ∈ t.impliedIndexes := by simp [hx]
  obtain ⟨f, hf, hneeds, rfl⟩ := mem_impliedIndexes.1 hmem
  refine ⟨f, hf, hneeds, ?_⟩
  intro y hy hc
  rcases List.mem_append.1 hy with hy | hy
  · exact hneeds.2.2 y hy hc
  · have hcolumns : (t.impliedIndexes.map fun x => x.columns.map Text.fold).Nodup :=
      h.nodup_implied fun f g e => Text.sameName_iff.2 (List.singleton_inj.1 e)
    rw [hx, List.map_append, List.map_cons, List.nodup_middle, List.nodup_cons,
      ← List.map_append] at hcolumns
    apply hcolumns.1
    rw [t.impliedIndex_covers f, ← hc]
    exact List.mem_map_of_mem hy

/-- The declared indexes come first, and behind them, in the order of the fields, one for each
field that asks for an index and is neither a primary key nor the one column of a declared index.
Each field that asks for an index and is no primary key is covered so, with different names by no
more indexes than needed, and nothing is missing once all of them are declared. -/
theorem effectiveIndexes_minimal_cover (t : Table) :
    ∃ implied, t.effectiveIndexes = t.indexes ++ implied ∧
      List.Forall₂ (fun f x => x = ⟨t.name ++ "_" ++ f.name ++ "_idx", [f.name], false⟩)
        (t.fields.filter (t.NeedsIndex ·)) implied ∧
      (∀ f ∈ t.fields, f.constraints.indexed → f.constraints.primaryKey = false →
        ∃ x ∈ t.effectiveIndexes, x.Covers f.name) ∧
      (t.NamesDistinct → ∀ a x b, implied = a ++ x :: b →
        ∃ f ∈ t.fields, t.NeedsIndex f ∧ ∀ y ∈ t.indexes ++ (a ++ b), ¬y.Covers f.name) ∧
      { t with indexes := t.effectiveIndexes }.effectiveIndexes = t.effectiveIndexes := by
  refine ⟨t.impliedIndexes, t.effectiveIndexes_eq, ?_, ?_, ?_, t.effectiveIndexes_declared⟩
  · exact List.forall₂_map_right_iff.2 (List.forall₂_same.2 fun f _ => rfl)
  · intro f hf hi hk
    exact exists_covers hf hi hk
  · intro h a x b hx
    exact h.not_covered hx

/-- All fields but the last ask for an index: the key, one that shares its index with another
field, and one whose index is declared in other letters. -/
def sharedIndex : Table where
  name := "t"
  fields := [
    { name := "id", type := .integer, constraints := { primaryKey := true, indexed := true } },
    { name := "a", type := .integer, constraints := { indexed := true } },
    { name := "b", type := .text, constraints := { indexed := true } },
    { name := "c", type := .text }]
  indexes := [⟨"t_ab", ["a", "b"], false⟩, ⟨"t_b", ["B"], true⟩]

theorem effectiveIndexes_minimal_cover_of_shared :
    sharedIndex.effectiveIndexes = sharedIndex.indexes ++ [⟨"t_a_idx", ["a"], false⟩] ∧
    (∃ x ∈ sharedIndex.effectiveIndexes, x.Covers "b") ∧
    (∃ f ∈ sharedIndex.fields, sharedIndex.NeedsIndex f ∧
      ∀ y ∈ sharedIndex.indexes, ¬y.Covers f.name) ∧
    { sharedIndex with indexes := sharedIndex.effectiveIndexes }.effectiveIndexes =
      sharedIndex.effectiveIndexes := by
  obtain ⟨implied, he, hall, hcovered, hleast, hagain⟩ := effectiveIndexes_minimal_cover sharedIndex
  have himplied : implied = [⟨"t_a_idx", ["a"], false⟩] := by
    cases hall with
    | cons hx hrest =>
      cases hrest
      exact congrArg (· :: []) hx
  obtain ⟨f, hf, hneeds, hnone⟩ := hleast (by decide) [] _ [] himplied
  rw [himplied] at he
  rw [List.append_nil, List.append_nil] at hnone
  exact ⟨he, hcovered sharedIndex.fields[2] (by decide) rfl rfl, ⟨f, hf, hneeds, hnone⟩, hagain⟩

theorem sameName_of_impliedIndex
    (h : Text.sameName (t.impliedIndex f).name (t.impliedIndex g).name) :
    Text.sameName f.name g.name := by
  have hfold := Text.sameName_iff.1 h
  simp only [impliedIndex, Text.fold_append] at hfold
  exact Text.sameName_iff.2 ((String.append_right_inj _).1 ((String.append_left_inj _).1 hfold))

/-- With different names of fields and of declared indexes, the indexes in effect have different
names exactly if no declared one bears the name that is made for a field. -/
theorem effectiveIndexes_names_distinct_iff (h : t.NamesDistinct)
    (hx : (t.indexes.map fun x => Text.fold x.name).Nodup) :
    (t.effectiveIndexes.map fun x => Text.fold x.name).Nodup ↔
      ∀ f ∈ t.fields, t.NeedsIndex f → ∀ x ∈ t.indexes,
        Text.sameName x.name (t.name ++ "_" ++ f.name ++ "_idx") = false := by
  have himplied : (t.impliedIndexes.map fun x => Text.fold x.name).Nodup :=
    h.nodup_implied fun f g e => sameName_of_impliedIndex (Text.sameName_iff.2 e)
  rw [effectiveIndexes_eq, List.map_append, List.nodup_append]
  constructor
  · intro hall f hf hneeds x hxt
    have hy : t.impliedIndex f ∈ t.impliedIndexes := mem_impliedIndexes.2 ⟨f, hf, hneeds, rfl⟩
    have hne := hall.2.2 _ (List.mem_map_of_mem hxt) _ (List.mem_map_of_mem hy)
    rw [impliedIndex] at hne
    exact Text.sameName_eq_false_iff.2 hne
  · intro hall
    refine ⟨hx, himplied, ?_⟩
    intro n hn m hm e
    obtain ⟨x, hxt, rfl⟩ := List.mem_map.1 hn
    obtain ⟨y, hy, rfl⟩ := List.mem_map.1 hm
    obtain ⟨f, hf, hneeds, rfl⟩ := mem_impliedIndexes.1 hy
    rw [impliedIndex] at e
    exact Text.sameName_eq_false_iff.1 (hall f hf hneeds x hxt) e

theorem effectiveIndexes_names_distinct_iff_of_shared :
    sharedIndex.NamesDistinct ∧ (sharedIndex.indexes.map fun x => Text.fold x.name).Nodup ∧
    (sharedIndex.effectiveIndexes.map fun x => Text.fold x.name).Nodup := by
  have hn : sharedIndex.NamesDistinct := by decide
  have hx : (sharedIndex.indexes.map fun x => Text.fold x.name).Nodup := by decide
  exact ⟨hn, hx, (effectiveIndexes_names_distinct_iff hn hx).2 (by decide)⟩

/-- An index of another column bears the name that is made for the first one. -/
def borrowedName : Table where
  name := "t"
  fields := [{ name := "a", type := .integer, constraints := { indexed := true } },
    { name := "b", type := .integer }]
  indexes := [⟨"t_a_idx", ["b"], false⟩]

/-- Two statements create an index of one name. A field that is renamed leaves its index the name
that is made for the next field of its old name. -/
theorem effectiveIndexes_names_clash :
    ((⟨"t", [{ name := "a", type := .integer }], [⟨"t_a_idx", ["a"], false⟩]⟩ : Table).renameField?
      0 "b").map (fun t => t.insertField 0 borrowedName.fields[0]) = some borrowedName ∧
    borrowedName.NamesDistinct ∧ (borrowedName.indexes.map fun x => Text.fold x.name).Nodup ∧
    ¬(borrowedName.effectiveIndexes.map fun x => Text.fold x.name).Nodup ∧
    Sql.createIndexes .sqlite borrowedName =
      ["CREATE INDEX \"t_a_idx\" ON \"t\" (\"b\")",
        "CREATE INDEX \"t_a_idx\" ON \"t\" (\"a\")"] := by
  decide +kernel

end Table

end TableAlteration
