import TableAlteration.Proofs.Store.Catalog

namespace TableAlteration

section Lists

variable {α β : Type} [DecidableEq β] {key : α → β} {l : List α}

/-- Without a repetition the first element with a key is the only one. -/
theorem eraseP_eq_filter (h : (l.map key).Nodup) (k : β) :
    (l.eraseP fun x => key x == k) = l.filter fun x => key x != k := by
  induction l with
  | nil => rfl
  | cons x l ih =>
    rw [List.map_cons, List.nodup_cons] at h
    rw [List.eraseP_cons, List.filter_cons]
    by_cases hx : key x = k
    · have hrest : l.filter (fun y => key y != k) = l := by
        refine List.filter_eq_self.2 ?_
        intro y hy
        refine bne_iff_ne.2 fun e => h.1 ?_
        rw [hx, ← e]
        exact List.mem_map_of_mem hy
      simp [hx, hrest]
    · have hne : (key x == k) = false := beq_eq_false_iff_ne.2 hx
      simp [hne, bne, ih h.2]

end Lists

namespace Table

variable {t : Table} {f : Field} {l done rest : List Field}

theorem storeField_eq (t : Table) (i : Nat) (f : Field) :
    let others := t.fields.eraseP fun g => Text.sameName g.name f.name
    t.storeField i f = { t with fields := others.insertIdx (min i others.length) f } := by
  intro others
  have hothers : others = match t.fieldIndex? f.name with
      | none => t.fields
      | some i => t.fields.eraseIdx i := List.eraseP_eq_eraseIdx
  rw [hothers]
  unfold storeField insertField insertPosition
  cases t.fieldIndex? f.name <;> rfl

/-- Behind rows of other names the new row takes its place, and the old one is gone. -/
theorem storeField_behind (ht : t.fields = done ++ rest)
    (hdone : ∀ g ∈ done, Text.sameName g.name f.name = false) :
    t.storeField done.length f =
      { t with fields := done ++ f :: rest.eraseP fun g => Text.sameName g.name f.name } := by
  have hkept : ∀ g ∈ done, ¬Text.sameName g.name f.name = true := by
    intro g hg
    simp [hdone g hg]
  have hothers := List.eraseP_append_right rest hkept
  have hlen : min done.length
      (done ++ rest.eraseP fun g => Text.sameName g.name f.name).length = done.length := by
    rw [List.length_append]
    omega
  rw [storeField_eq, ht, hothers, hlen, insertIdx_append]

/-- The fields that have none of the names of `l`. -/
def unnamed (l rest : List Field) : List Field :=
  rest.filter fun g => l.all fun f => !Text.sameName g.name f.name

/-- One name less is left for the rows to come. -/
theorem unnamed_eraseP (h : (rest.map fun f => Text.fold f.name).Nodup) :
    unnamed l (rest.eraseP fun g => Text.sameName g.name f.name) = unnamed (f :: l) rest := by
  have herase : (rest.eraseP fun g => Text.sameName g.name f.name) =
      rest.filter fun g => !Text.sameName g.name f.name := eraseP_eq_filter h _
  unfold unnamed
  rw [herase, List.filter_filter]
  refine List.filter_congr fun g _ => ?_
  rw [List.all_cons, Bool.and_comm]

/-- The rows of `l` written behind those of `done`. By induction on what is still to be written:
what is written begins the table, and its names are gone from the rest. -/
theorem storeFields_behind (ht : t.fields = done ++ rest)
    (hrest : (rest.map fun f => Text.fold f.name).Nodup)
    (hl : (l.map fun f => Text.fold f.name).Nodup)
    (hdone : ∀ g ∈ done, ∀ f ∈ l, Text.sameName g.name f.name = false) :
    t.storeFields ((l.zipIdx done.length).map Prod.swap) =
      { t with fields := done ++ l ++ unnamed l rest } := by
  induction l generalizing t done rest with
  | nil =>
    have hall : unnamed [] rest = rest := List.filter_eq_self.2 fun _ _ => rfl
    rw [hall, List.append_nil, ← ht]
    rfl
  | cons f l ih =>
    rw [List.map_cons, List.nodup_cons] at hl
    have hrow := storeField_behind ht fun g hg => hdone g hg f List.mem_cons_self
    have hnext : ∀ g ∈ done ++ [f], ∀ h ∈ l, Text.sameName g.name h.name = false := by
      intro g hg h hh
      rcases List.mem_append.1 hg with hg | hg
      · exact hdone g hg h (List.mem_cons_of_mem f hh)
      · obtain rfl := List.mem_singleton.1 hg
        refine Text.sameName_eq_false_iff.2 fun e => hl.1 ?_
        rw [e]
        exact List.mem_map_of_mem hh
    have hsplit : (t.storeField done.length f).fields =
        done ++ [f] ++ rest.eraseP fun g => Text.sameName g.name f.name := by
      rw [hrow, List.append_assoc, List.singleton_append]
    have hlater := ih hsplit (hrest.sublist (List.eraseP_sublist.map _)) hl.2 hnext
    rw [List.length_append, List.length_singleton, unnamed_eraseP hrest, List.append_assoc done,
      List.singleton_append] at hlater
    rw [List.zipIdx_cons, List.map_cons]
    change (t.storeField done.length f).storeFields _ = _
    rw [hlater, hrow]

end Table

/-- Written from the first to the last, rows among which there is one for each field of the table
become its fields, however they stood before and whatever they were; nothing else changes. -/
theorem Catalog.rows_rewritten {c : Catalog} {table : String} {t : Table} {l : List Field}
    (ht : c.table? table = some t) (hn : t.NamesDistinct)
    (hl : (l.map fun f => Text.fold f.name).Nodup)
    (hall : ∀ g ∈ t.fields, ∃ f ∈ l, Text.sameName g.name f.name) :
    ∃ c', c.storeFields? table (l.zipIdx.map Prod.swap) = some c' ∧
      c'.table? table = some { t with fields := l } ∧
      (∀ other, Text.sameName other table = false → c'.table? other = c.table? other) ∧
      c'.extended = c.extended := by
  have hnone : Table.unnamed l t.fields = [] := by
    refine List.filter_eq_nil_iff.2 ?_
    intro g hg h
    obtain ⟨f, hf, hsame⟩ := hall g hg
    have hne := List.all_eq_true.1 h f hf
    rw [hsame] at hne
    cases hne
  have hrows : t.storeFields (l.zipIdx.map Prod.swap) = { t with fields := l } := by
    have hwritten := Table.storeFields_behind (List.nil_append t.fields).symm hn hl (by simp)
    rwa [hnone, List.append_nil] at hwritten
  have hstored := storeFields?_eq ht (l.zipIdx.map Prod.swap)
  refine ⟨_, hstored, ?_, ?_, extended_storeFields? hstored⟩
  · rw [table?_storeFields? ht hstored, hrows]
  · intro other hne
    exact table?_storeFields?_of_ne hne hstored

/-- Two tables, of which the first has three fields and an index. -/
def twoTables : Catalog :=
  (({} : Catalog).register ⟨"t", [{ name := "a", type := .integer },
    { name := "b", type := .integer }, { name := "c", type := .text }], [⟨"t_a", ["a"], true⟩]⟩)
    |>.register ⟨"u", [{ name := "c", type := .date }], []⟩

/-- The fields of the first table turned round, one of another type and one spelled otherwise. -/
def turnedRound : List Field :=
  [{ name := "c", type := .text, caption := some "Third" }, { name := "B", type := .integer },
    { name := "a", type := .bigInteger }]

theorem Catalog.rows_rewritten_of_turned_round :
    (twoTables.table? "T").map Table.names = some ["a", "b", "c"] ∧
    ∃ c', twoTables.storeFields? "T" (turnedRound.zipIdx.map Prod.swap) = some c' ∧
      c'.table? "T" = some ⟨"t", turnedRound, [⟨"t_a", ["a"], true⟩]⟩ ∧
      c'.table? "u" = twoTables.table? "u" := by
  have ht : twoTables.table? "T" = some _ := rfl
  obtain ⟨c', hc, ht', hother, -⟩ :=
    rows_rewritten ht (l := turnedRound) (by decide) (by decide) (by decide)
  exact ⟨rfl, c', hc, ht', hother "u" (by decide)⟩

end TableAlteration
