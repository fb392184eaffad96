import TableAlteration.Proofs.Edit.IndexNames

namespace TableAlteration

namespace Table

variable {t : Table} {i : Nat} {f : Field}

theorem renameField?_eq (hf : t.fields[i]? = some f) (hx : ∀ x ∈ t.indexes, x.columns ≠ [])
    (name : String) : t.renameField? i name = some { t with
      fields := t.fields.set i { f with name := name }
      indexes := Index.carry (Index.exchangeName f.name (some name)) t.indexes } := by
  have htotal : ∀ c, Index.exchangeName f.name (some name) c =
      some (if Text.sameName c f.name then name else c) := by
    intro c
    unfold Index.exchangeName
    split <;> rfl
  rw [renameField?, hf, Index.carry_of_total hx fun _ _ c _ => htotal c]
  rfl

theorem removeField?_eq (hf : t.fields[i]? = some f) :
    t.removeField? i = some (f, { t with
      fields := t.fields.eraseIdx i
      indexes := Index.carry (Index.exchangeName f.name none) t.indexes }) := by
  have hkeep : ∀ cs : List String, (cs.filter fun c => !Text.sameName c f.name) =
      cs.filterMap (Index.exchangeName f.name none) := by
    intro cs
    rw [← List.filterMap_eq_filter]
    refine congrArg (fun s => cs.filterMap s) (funext fun c => ?_)
    cases hs : Text.sameName c f.name <;> simp [Index.exchangeName, Option.guard, hs]
  rw [removeField?, hf]
  simp only [Option.map_some, hkeep]
  rfl

/-- The field at the position is renamed, or another of its properties is set. -/
def changeField? (t : Table) (i : Nat) (a : Action) : Option Table :=
  match a with
  | .change _ _ property v =>
    match a.newName? with
    | some name => t.renameField? i name
    | none => do
      let f ← t.fields[i]?
      let g ← (f.setNamed property v).toOption
      return { t with fields := t.fields.set i g }
  | _ => none

/-- The edit made on the table itself, at the position where the draft finds its row. -/
def replay? (t : Table) (d : Draft) (p : Planned) : Option Table := do
  match p.action with
  | .insert _ j f => return t.insertField j f
  | .change u name _ _ =>
    let (i, _) ← (d.resolve u name).toOption
    t.changeField? i p.action
  | .remove u name =>
    let (i, _) ← (d.resolve u name).toOption
    let (_, rest) ← t.removeField? i
    return rest
  | .move u name j =>
    let (i, _) ← (d.resolve u name).toOption
    let (_, moved) ← t.moveField? i j
    return moved

/-- All edits, one after another, beside a draft that takes them too. -/
def replayAll? (t : Table) (d : Draft) : List Planned → Option Table
  | [] => some t
  | p :: l =>
    match d.apply p with
    | .ok d' => (t.replay? d p).bind fun s => s.replayAll? d' l
    | .error _ => none

end Table

/-- The table is what the draft would be if it were finished now. -/
structure Table.Mirrors (t : Table) (d : Draft) : Prop where
  name : t.name = d.name
  fields : t.fields = d.fields
  indexes : t.indexes.map Index.folded = d.finalIndexes.map Index.folded
  origins : d.OriginsDistinct

namespace Table.Mirrors

variable {s t : Table} {d d' : Draft} {p : Planned} {l : List Planned}

/-- At the start: every index column names a field. -/
theorem of_table (hn : t.NamesDistinct) (hx : ∀ x ∈ t.indexes, x.columns ≠ [])
    (hc : ∀ x ∈ t.indexes, ∀ c ∈ x.columns, (t.fieldIndex? c).isSome) :
    t.Mirrors (Draft.of t) := by
  have ho := Draft.originsDistinct_of_table hn
  refine ⟨rfl, (Draft.fields_of t).symm, ?_, ho⟩
  have hname : ∀ x ∈ t.indexes, ∀ c ∈ x.columns, ∃ m, (Draft.of t).finalName? c = some m ∧
      Text.fold m = Text.fold c := by
    intro x hxt c hcx
    obtain ⟨i, hi⟩ := Option.isSome_iff_exists.1 (hc x hxt c hcx)
    obtain ⟨f, hf, hsame⟩ := hn.fieldIndex?_eq_some.1 hi
    refine ⟨f.name, (Draft.finalName?_eq_some_iff ho).2 ⟨⟨f, none, some ⟨f.name, i⟩⟩, ?_, hsame, rfl⟩,
      Text.sameName_iff.1 hsame⟩
    exact List.mem_map.2 ⟨(f, i), List.mk_mem_zipIdx_iff_getElem?.2 hf, rfl⟩
  have htotal : ∀ x ∈ t.indexes, ∀ c ∈ x.columns,
      (Draft.of t).finalName? c = some (((Draft.of t).finalName? c).getD c) := by
    intro x hxt c hcx
    obtain ⟨m, hm, -⟩ := hname x hxt c hcx
    rw [hm]
    rfl
  rw [Draft.finalIndexes_eq_carry]
  have hindexes : (Draft.of t).indexes = t.indexes := rfl
  rw [hindexes, Index.carry_of_total hx htotal, List.map_map]
  refine List.map_congr_left fun x hxt => ?_
  have hfold : x.columns.map Text.fold =
      (x.columns.map fun c => ((Draft.of t).finalName? c).getD c).map Text.fold := by
    rw [List.map_map]
    refine List.map_congr_left fun c hcx => ?_
    obtain ⟨m, hm, e⟩ := hname x hxt c hcx
    simp only [Function.comp_apply, hm, Option.getD_some, e]
  simp only [Index.folded, Function.comp_apply, hfold]

theorem columns_ne_nil (h : s.Mirrors d) : ∀ x ∈ s.indexes, x.columns ≠ [] := by
  intro x hx hnil
  have hmem : x.folded ∈ d.finalIndexes.map Index.folded := by
    rw [← h.indexes]
    exact List.mem_map_of_mem hx
  obtain ⟨y, hy, e⟩ := List.mem_map.1 hmem
  have hempty := Index.isEmpty_of_folded e
  rw [hnil, List.isEmpty_nil, List.isEmpty_iff] at hempty
  exact Draft.columns_ne_nil_of_mem_finalIndexes hy hempty

section Steps

variable {u : Uid} {name n : String} {v : Value} {i j : Nat} {f : Field} {q : Row}

theorem fields_getElem? (h : s.Mirrors d) (hq : d.rows[i]? = some q) :
    s.fields[i]? = some q.field := by
  rw [h.fields, Draft.fields, List.getElem?_map, hq]
  rfl

theorem fields_set (h : s.Mirrors d) (f : Field) (u : Uid) :
    s.fields.set i f = (d.rows.set i ⟨f, some u, q.origin⟩).map (·.field) := by
  rw [h.fields, Draft.fields, List.map_set]

theorem rename (h : s.Mirrors d) (hn : d.table.NamesDistinct) (hq : d.rows[i]? = some q)
    (ha : p.action = .change u name n v) (hr : p.action.isRename)
    (hf : q.field.setNamed n v = .ok f) (changed : List Uid) :
    ∃ s', s.changeField? i p.action = some s' ∧ s'.Mirrors { d with
      rows := d.rows.set i ⟨f, some p.uid, q.origin⟩
      changed := changed } := by
  have hchange : Record.applyChange q.field p = .ok f := by
    rw [Record.applyChange_of_change ha]
    exact hf
  have hfield : { q.field with name := f.name } = f := by
    obtain ⟨u', name', n', v', ha', hname⟩ := Record.isRename_iff.1 hr
    rw [ha] at ha'
    cases ha'
    obtain ⟨s, hs, hset⟩ := Field.setNamed_eq_ok.1 hf
    rw [hname] at hs
    cases hs
    obtain ⟨m, rfl⟩ := Field.alters_of_set hset
    rfl
  have hex := Draft.exchanges_of_set (y := ⟨f, some p.uid, q.origin⟩) hq rfl (.refl _) changed
    d.moved
  have hrename : s.changeField? i p.action = s.renameField? i f.name := by
    have hname := Record.name_of_rename hr hchange
    rw [ha] at hname ⊢
    rw [changeField?, hname]
  have hrenamed := renameField?_eq (h.fields_getElem? hq) h.columns_ne_nil f.name
  rw [hfield] at hrenamed
  refine ⟨_, hrename.trans hrenamed, h.name, ?_, ?_, hex.originsDistinct h.origins⟩
  · exact h.fields_set f p.uid
  · rw [hex.finalIndexes hn h.origins]
    exact Index.folded_carry h.indexes fun _ _ => Index.fold_exchangeName

theorem set (h : s.Mirrors d) (hn : d.table.NamesDistinct) (hq : d.rows[i]? = some q)
    (ha : p.action = .change u name n v) (hr : p.action.isRename = false)
    (hf : q.field.setNamed n v = .ok f) (changed : List Uid) :
    ∃ s', s.changeField? i p.action = some s' ∧ s'.Mirrors { d with
      rows := d.rows.set i ⟨f, some p.uid, q.origin⟩
      changed := changed } := by
  have hchange : Record.applyChange q.field p = .ok f := by
    rw [Record.applyChange_of_change ha]
    exact hf
  have hex := Draft.exchanges_of_set (y := ⟨f, some p.uid, q.origin⟩) hq rfl (.refl _) changed
    d.moved
  refine ⟨{ s with fields := s.fields.set i f }, ?_, ?_⟩
  · rw [ha] at hr ⊢
    rw [changeField?, Action.newName?, if_neg (by simpa [Action.isRename] using hr)]
    simp [h.fields_getElem? hq, hf, Except.toOption]
  · refine ⟨h.name, h.fields_set f p.uid, ?_, hex.originsDistinct h.origins⟩
    · have hname := Record.name_of_not_rename hr hchange
      rw [hex.folded_finalIndexes hname hn h.origins]
      exact h.indexes

theorem remove (h : s.Mirrors d) (hn : d.table.NamesDistinct) (hq : d.rows[i]? = some q) :
    ∃ s', s.removeField? i = some (q.field, s') ∧
      s'.Mirrors { d with rows := d.rows.eraseIdx i } := by
  have hex := Draft.exchanges_of_erase hq
  refine ⟨_, removeField?_eq (h.fields_getElem? hq), h.name, ?_, ?_,
    hex.originsDistinct h.origins⟩
  · rw [h.fields]
    exact List.eraseIdx_map ..
  · rw [hex.finalIndexes hn h.origins]
    exact Index.folded_carry h.indexes fun _ _ => Index.fold_exchangeName

theorem insert (h : s.Mirrors d) (f : Field) (u : Uid) (j : Nat) :
    (s.insertField j f).Mirrors { d with
      rows := d.rows.insertIdx (min j d.rows.length) { field := f, uid := some u } } := by
  have hperm := List.perm_insertIdx ({ field := f, uid := some u } : Row) d.rows
    (Nat.min_le_right j d.rows.length)
  obtain ⟨ho, hindexes⟩ := Draft.finalIndexes_of_insertion h.origins rfl hperm
  refine ⟨h.name, ?_, ?_, ho⟩
  · simp only [insertField, insertPosition, h.fields, Draft.fields, List.length_map,
      List.map_insertIdx]
  · rw [hindexes]
    exact h.indexes

theorem move (h : s.Mirrors d) (hn : d.table.NamesDistinct) (hq : d.rows[i]? = some q)
    (u : Uid) (j : Nat) (changed : List Uid) :
    ∃ k s', s.moveField? i j = some (k, s') ∧ s'.Mirrors { d with
      rows := moveWithin (d.rows.set i { q with uid := some u }) i j
      changed := changed
      moved := true } := by
  have hex := Draft.exchanges_of_set (y := { q with uid := some u }) hq rfl
    (moveWithin_perm _ i j) changed true
  have hi : i < s.fields.length := by
    rw [h.fields, Draft.fields, List.length_map]
    exact (List.getElem?_eq_some_iff.1 hq).1
  refine ⟨_, _, if_pos hi, h.name, ?_, ?_, hex.originsDistinct h.origins⟩
  · have hset := map_set_of_eq (f := fun r : Row => r.field) (b := { q with uid := some u }) hq rfl
    simp only [h.fields, Draft.fields, map_moveWithin, hset]
  · rw [hex.folded_finalIndexes rfl hn h.origins]
    exact h.indexes

end Steps

/-- An edit that the draft takes can be made on the table, and to the same effect. -/
theorem replay (h : s.Mirrors d) (hn : d.table.NamesDistinct) (hd : d.apply p = .ok d') :
    ∃ s', s.replay? d p = some s' ∧ s'.Mirrors d' := by
  unfold replay?
  cases Draft.apply_eq_ok.1 hd with
  | @change u name n v i r f ha hr hf =>
    obtain ⟨q, hq, rfl, -⟩ := Draft.resolve_eq_ok hr
    have hone : ∃ s', s.changeField? i p.action = some s' ∧ s'.Mirrors { d with
        rows := d.rows.set i ⟨f, some p.uid, q.origin⟩
        changed := if p.requirements.main then p.uid :: d.changed else d.changed } := by
      by_cases hren : p.action.isRename
      · exact h.rename hn hq ha hren hf _
      · exact h.set hn hq ha (by simpa using hren) hf _
    obtain ⟨s', hs', hm⟩ := hone
    refine ⟨s', ?_, hm⟩
    rw [Planned.uid, ha] at hr
    rw [ha] at hs' ⊢
    simpa [show d.resolve u name = _ from hr, Except.toOption] using hs'
  | @remove u name i r ha hr =>
    obtain ⟨q, hq, -, -⟩ := Draft.resolve_eq_ok hr
    obtain ⟨s', hs', hm⟩ := h.remove hn hq
    refine ⟨s', ?_, hm⟩
    rw [Planned.uid, ha] at hr
    rw [ha]
    simp [show d.resolve u name = _ from hr, Except.toOption, hs']
  | insert ha =>
    rw [ha]
    exact ⟨_, rfl, h.insert ..⟩
  | @move u name j i r ha hr =>
    obtain ⟨q, hq, rfl, -⟩ := Draft.resolve_eq_ok hr
    obtain ⟨k, s', hs', hm⟩ := h.move hn hq p.uid j (p.uid :: d.changed)
    refine ⟨s', ?_, hm⟩
    rw [Planned.uid, ha] at hr
    rw [ha]
    simp [show d.resolve u name = _ from hr, Except.toOption, hs']

/-- And so can a run of edits, as long as the names stay distinct. -/
theorem replayAll (h : s.Mirrors d)
    (hn : ∀ k d1, d.applyAll (l.take k) = .ok d1 → d1.table.NamesDistinct)
    (hd : d.applyAll l = .ok d') : ∃ s', s.replayAll? d l = some s' ∧ s'.Mirrors d' := by
  induction l generalizing s d with
  | nil =>
    cases hd
    exact ⟨s, rfl, h⟩
  | cons p l ih =>
    obtain ⟨d1, h1, h2⟩ := foldlM_cons_eq_ok.1 hd
    obtain ⟨s1, hs1, hm⟩ := h.replay (hn 0 d rfl) h1
    have hn' : ∀ k d2, d1.applyAll (l.take k) = .ok d2 → d2.table.NamesDistinct := fun k d2 hk =>
      hn (k + 1) d2 (foldlM_cons_eq_ok.2 ⟨d1, h1, hk⟩)
    obtain ⟨s', hs', hm'⟩ := ih hm hn' h2
    refine ⟨s', ?_, hm'⟩
    rw [replayAll?, h1, hs1]
    exact hs'

end Table.Mirrors

variable {t : Table} {d : Draft} {l : List Planned}

/-- However the edits are mixed: a table edited directly, wherever the draft finds its rows, has the
fields of the finished draft in the same order and the same indexes, but for the case of their
columns. -/
theorem Draft.finish_eq_replayed (hn : t.NamesDistinct) (hx : ∀ x ∈ t.indexes, x.columns ≠ [])
    (hc : ∀ x ∈ t.indexes, ∀ c ∈ x.columns, (t.fieldIndex? c).isSome)
    (hd : (Draft.of t).applyAll l = .ok d)
    (hsteps : ∀ k d', (Draft.of t).applyAll (l.take k) = .ok d' → d'.table.NamesDistinct) :
    ∃ s e, t.replayAll? (Draft.of t) l = some s ∧ d.finish = .ok e ∧
      s.name = e.table.name ∧ s.fields = e.table.fields ∧
      s.indexes.map Index.folded = e.table.indexes.map Index.folded := by
  obtain ⟨s, hs, hm⟩ := (Table.Mirrors.of_table hn hx hc).replayAll hsteps hd
  have hlast : d.table.NamesDistinct := by
    refine hsteps l.length d ?_
    rwa [List.take_length]
  exact ⟨s, _, hs, Draft.finish_eq_ok.2 ⟨hlast, rfl⟩, hm.name, hm.fields, hm.indexes⟩

def indexed : Table :=
  ⟨"t", [{ name := "a", type := .integer }, { name := "b", type := .text },
    { name := "c", type := .date }], [⟨"t_ab", ["A", "b"], true⟩, ⟨"t_c", ["c"], false⟩,
    ⟨"t_cba", ["c", "B", "a"], false⟩]⟩

def takeover : List Planned :=
  [⟨0, {}, .remove ⟨2⟩ "c"⟩, ⟨1, {}, .rename ⟨1⟩ "b" " C "⟩,
    ⟨2, {}, .insert ⟨3⟩ 0 { name := "b", type := .byte }⟩, ⟨3, {}, .move ⟨1⟩ "c" 0⟩,
    ⟨4, {}, .change ⟨0⟩ "A" "type" (.text "text")⟩]

/-- A field is removed, another one takes its name, and a new one takes that one's. What is not
renamed keeps its spelling in the table's indexes. -/
theorem Draft.finish_eq_replayed_of_takeover :
    ∃ d, (Draft.of indexed).applyAll takeover = .ok d ∧
      ∃ s e, indexed.replayAll? (Draft.of indexed) takeover = some s ∧ d.finish = .ok e ∧
        (s.name = e.table.name ∧ s.fields = e.table.fields ∧
          s.indexes.map Index.folded = e.table.indexes.map Index.folded) ∧
        s.indexes = [⟨"t_ab", ["A", "C"], true⟩, ⟨"t_cba", ["C", "a"], false⟩] := by
  obtain ⟨d, hd⟩ : ∃ d, (Draft.of indexed).applyAll takeover = .ok d := ⟨_, rfl⟩
  have hsteps : ∀ k d', (Draft.of indexed).applyAll (takeover.take k) = .ok d' →
      d'.table.NamesDistinct := by
    intro k d' hk
    match k with
    | 0 | 1 | 2 | 3 | 4 =>
      cases hk
      decide
    | n + 5 =>
      rw [List.take_of_length_le (by simp [takeover])] at hk
      cases hk
      decide
  obtain ⟨s, e, hs, he, hsame⟩ :=
    finish_eq_replayed (by decide) (by decide) (by decide) hd hsteps
  refine ⟨d, hd, s, e, hs, he, hsame, ?_⟩
  cases hs
  rfl

end TableAlteration
