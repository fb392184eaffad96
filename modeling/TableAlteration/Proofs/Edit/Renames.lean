import TableAlteration.Proofs.Edit.Indexes
import TableAlteration.Proofs.Edit.LastEdits
import TableAlteration.Proofs.Edit.Plans

namespace TableAlteration

/-- A field of the table, the number under which it is renamed, and its new name. -/
structure Renaming where
  uid : Uid
  name : String
  target : String
  deriving DecidableEq

namespace Renaming

def action (x : Renaming) : Action := .rename x.uid x.name x.target

/-- Whether the new name is the old one, whatever its case. -/
def isIdle (x : Renaming) : Bool := Text.sameName x.target x.name

def find? (l : List Renaming) (name : String) : Option Renaming := l.find? (·.name = name)

/-- The new name that is assigned to the field, or its old one. -/
def targetOf (l : List Renaming) (name : String) : String :=
  ((find? l name).map (·.target)).getD name

/-- A change of case alone is given up. -/
def finalName (l : List Renaming) (name : String) : String :=
  if Text.sameName (targetOf l name) name then name else targetOf l name

/-- New names are assigned to fields of the table, none to a field twice; they are neither empty
nor surrounded by blanks. -/
structure Assigns (t : Table) (l : List Renaming) : Prop where
  uids : (l.map (·.uid)).Nodup
  names : (l.map (·.name)).Nodup
  known : ∀ x ∈ l, x.name ∈ t.names
  targets : ∀ x ∈ l, x.target ≠ "" ∧ Text.trim x.target = x.target

end Renaming

/-- The table with the new names. Index columns that no field has are left out. -/
def Table.renamed (t : Table) (l : List Renaming) : Table where
  name := t.name
  fields := t.fields.map fun f => { f with name := Renaming.finalName l f.name }
  indexes := (t.indexes.map fun x => { x with
      columns := x.columns.filterMap fun c =>
        (t.field? c).map fun f => Renaming.finalName l f.name }).filter
    fun x => !x.columns.isEmpty

/-- The row of a field of the table, renamed if the list has it. -/
def Row.renamed (l : List Renaming) (r : Row) : Row :=
  match Renaming.find? l r.field.name with
  | some x => { r with field := { r.field with name := x.target }, uid := some x.uid }
  | none => r

namespace Renaming

section Assignments

variable {t : Table} {l l' : List Renaming} {x : Renaming} {name : String}

theorem Assigns.of_perm (h : Assigns t l) (hl : l'.Perm l) : Assigns t l' where
  uids := (hl.map _).nodup_iff.2 h.uids
  names := (hl.map _).nodup_iff.2 h.names
  known x hx := h.known x (hl.mem_iff.1 hx)
  targets x hx := h.targets x (hl.mem_iff.1 hx)

theorem Assigns.of_sublist (h : Assigns t l) (hl : l'.Sublist l) : Assigns t l' where
  uids := h.uids.sublist (hl.map _)
  names := h.names.sublist (hl.map _)
  known x hx := h.known x (hl.subset hx)
  targets x hx := h.targets x (hl.subset hx)

/-- The last one renames a field that the others do not. -/
theorem Assigns.fresh {done : List Renaming} (h : Assigns t (done ++ [x])) :
    x.name ∉ done.map (·.name) ∧ x.uid ∉ done.map (·.uid) := by
  have hnames := h.names
  have huids := h.uids
  rw [List.map_append] at hnames huids
  exact ⟨fun hmem => List.disjoint_of_nodup_append hnames hmem (by simp),
    fun hmem => List.disjoint_of_nodup_append huids hmem (by simp)⟩

theorem find?_eq_some (h : (l.map (·.name)).Nodup) :
    find? l name = some x ↔ x ∈ l ∧ x.name = name := by
  unfold find?
  constructor
  · intro hx
    exact ⟨List.mem_of_find?_eq_some hx, by simpa using List.find?_some hx⟩
  · rintro ⟨hx, rfl⟩
    cases hy : l.find? (·.name = x.name) with
    | none => simpa using List.find?_eq_none.1 hy x hx
    | some y =>
      have hname : y.name = x.name := by simpa using List.find?_some hy
      rw [List.inj_on_of_nodup_map h (List.mem_of_find?_eq_some hy) hx hname]

theorem find?_eq_none : find? l name = none ↔ name ∉ l.map (·.name) := by
  simp [find?]

/-- It does not matter in which order the new names are listed. -/
theorem find?_perm (h : (l.map (·.name)).Nodup) (hl : l'.Perm l) (name : String) :
    find? l' name = find? l name := by
  refine Option.ext fun x => ?_
  rw [find?_eq_some h, find?_eq_some ((hl.map _).nodup_iff.2 h), hl.mem_iff]

theorem renamed_perm (h : (l.map (·.name)).Nodup) (hl : l'.Perm l) : t.renamed l' = t.renamed l := by
  have hfinal : finalName l' = finalName l := by
    funext name
    rw [finalName, finalName, targetOf, targetOf, find?_perm h hl]
  rw [Table.renamed, Table.renamed, hfinal]

/-- With the idle ones left out, the renamings lead to the final names. -/
theorem name_renamed (h : (l.map (·.name)).Nodup) (r : Row) :
    (r.renamed (l.filter (!·.isIdle))).field =
      { r.field with name := finalName l r.field.name } := by
  have hsub : ((l.filter (!·.isIdle)).map (·.name)).Nodup := h.sublist (List.filter_sublist.map _)
  cases hx : find? l r.field.name with
  | none =>
    have hnone : find? (l.filter (!·.isIdle)) r.field.name = none :=
      find?_eq_none.2 fun hmem => find?_eq_none.1 hx ((List.filter_sublist.map _).subset hmem)
    simp [Row.renamed, hnone, finalName, targetOf, hx]
  | some x =>
    obtain ⟨hmem, hname⟩ := (find?_eq_some h).1 hx
    cases hi : x.isIdle with
    | true =>
      have hnone : find? (l.filter (!·.isIdle)) r.field.name = none := by
        refine Option.eq_none_iff_forall_ne_some.2 fun y hy => ?_
        obtain ⟨hy, hyname⟩ := (find?_eq_some hsub).1 hy
        obtain ⟨hy, hidle⟩ := List.mem_filter.1 hy
        rw [List.inj_on_of_nodup_map h hy hmem (hyname.trans hname.symm), hi] at hidle
        cases hidle
      rw [isIdle, hname] at hi
      simp [Row.renamed, hnone, finalName, targetOf, hx, hi]
    | false =>
      have hsome : find? (l.filter (!·.isIdle)) r.field.name = some x :=
        (find?_eq_some hsub).2 ⟨List.mem_filter.2 ⟨hmem, by rw [hi]; rfl⟩, hname⟩
      rw [isIdle, hname] at hi
      simp [Row.renamed, hsome, finalName, targetOf, hx, hi]

theorem origin_renamed (l : List Renaming) (r : Row) : (r.renamed l).origin = r.origin := by
  unfold Row.renamed
  split <;> rfl

end Assignments

section Applying

variable {t : Table} {done xs l : List Renaming} {x : Renaming} {p : Planned} {ps : List Planned}
  {d : Draft}

theorem setNamed_name {s : String} (h : s ≠ "" ∧ Text.trim s = s) (f : Field) :
    f.setNamed "name" (.text s) = .ok { f with name := s } := by
  refine Field.setNamed_eq_ok.2 ⟨.name, by decide, bind_eq_ok.2 ⟨s, ?_, rfl⟩⟩
  have hname : ((Value.text s).text?.map Text.trim).filter (· ≠ "") = some s := by
    rw [Value.text?, Option.map_some, h.2, Option.filter_some, if_pos (by simpa using h.1)]
  rw [Value.asName, hname]

theorem rows_of (t : Table) (i : Nat) :
    (Draft.of t).rows[i]? = t.fields[i]?.map fun f => ⟨f, none, some ⟨f.name, i⟩⟩ := by
  simp [Draft.of, List.getElem?_zipIdx, Option.map_map, Function.comp_def]

theorem renamed_concat_of_eq {r : Row} (h : x.name ∉ done.map (·.name))
    (hr : r.field.name = x.name) :
    r.renamed (done ++ [x]) =
      { r with field := { r.field with name := x.target }, uid := some x.uid } := by
  have hdone : find? done x.name = none := find?_eq_none.2 h
  have hfind : find? (done ++ [x]) x.name = some x := by
    rw [find?, List.find?_append, ← find?, hdone]
    simp
  rw [Row.renamed, hr, hfind]

theorem renamed_concat_of_ne {r : Row} (hr : r.field.name ≠ x.name) :
    r.renamed (done ++ [x]) = r.renamed done := by
  have hfind : find? (done ++ [x]) r.field.name = find? done r.field.name := by
    rw [find?, List.find?_append, ← find?]
    simp [hr.symm]
  rw [Row.renamed, Row.renamed, hfind]

/-- A field whose turn has not come has its old name and no number, so that its own renaming finds
it, whatever the others are called by then. -/
theorem resolve_renaming (hn : t.NamesDistinct) (hx : Assigns t (done ++ [x]))
    (hd : d.rows = (Draft.of t).rows.map (Row.renamed done)) :
    ∃ i f, t.fields[i]? = some f ∧ f.name = x.name ∧
      d.resolve x.uid x.name = .ok (i, ⟨f, some x.uid, some ⟨f.name, i⟩⟩) := by
  obtain ⟨hname, huid⟩ := hx.fresh
  -- a row is unbound as long as its field has its old name
  have hrow : ∀ {j : Nat} {q : Row}, d.rows[j]? = some q → q.uid ≠ some x.uid ∧
      (q.uid = none → ∃ f, t.fields[j]? = some f ∧ q = ⟨f, none, some ⟨f.name, j⟩⟩) := by
    intro j q hq
    rw [hd, List.getElem?_map, rows_of, Option.map_map, Option.map_eq_some_iff] at hq
    obtain ⟨f, hf, rfl⟩ := hq
    rw [Function.comp_apply, Row.renamed]
    split
    · rename_i y hy
      have hy : y ∈ done := List.mem_of_find?_eq_some hy
      refine ⟨fun h => huid ?_, fun h => by cases h⟩
      rw [← Option.some.inj h]
      exact List.mem_map_of_mem hy
    · exact ⟨by simp, fun _ => ⟨f, hf, rfl⟩⟩
  obtain ⟨f, hf, hfname⟩ := List.mem_map.1 (hx.known x (by simp))
  obtain ⟨i, hi⟩ := List.mem_iff_getElem?.1 hf
  have hstart : d.rows[i]? = some ⟨f, none, some ⟨f.name, i⟩⟩ := by
    rw [hd, List.getElem?_map, rows_of, hi, Option.map_some, Option.map_some, Row.renamed, hfname,
      find?_eq_none.2 hname]
  obtain ⟨j, r, hr⟩ := Draft.resolve_ok (u := x.uid) (List.mem_of_getElem? hstart)
    (.inr ⟨rfl, by rw [hfname]; exact Text.sameName_refl x.name⟩)
  obtain ⟨q, hq, rfl, hbound | ⟨-, hunbound, hsame⟩⟩ := Draft.resolve_eq_ok hr
  · exact absurd hbound (hrow hq).1
  · obtain ⟨f', hf', rfl⟩ := (hrow hq).2 hunbound
    rw [← hfname] at hsame
    obtain rfl := hn.eq_of_sameName hf' hi hsame
    rw [hi] at hf'
    cases hf'
    exact ⟨j, f, hi, hfname, hr⟩

theorem apply_renaming (hn : t.NamesDistinct) (hx : Assigns t (done ++ [x]))
    (hd : d.rows = (Draft.of t).rows.map (Row.renamed done)) (hp : p.action = x.action) :
    ∃ d', d.apply p = .ok d' ∧ d'.name = d.name ∧
      d'.rows = (Draft.of t).rows.map (Row.renamed (done ++ [x])) := by
  obtain ⟨i, f, hi, hf, hr⟩ := resolve_renaming hn hx hd
  have hr' : d.resolve p.uid p.action.fieldName = .ok (i, ⟨f, some x.uid, some ⟨f.name, i⟩⟩) := by
    rwa [Planned.uid, hp]
  have hset := setNamed_name (hx.targets x (by simp)) f
  refine ⟨_, Draft.apply_eq_ok.2 (.change hp hr' hset), rfl, ?_⟩
  refine List.ext_getElem? fun k => ?_
  rw [hd, List.getElem?_set, List.length_map, List.getElem?_map, List.getElem?_map, rows_of]
  split
  · rename_i hk
    subst hk
    have hlt : i < (Draft.of t).rows.length := by
      have hlt := (List.getElem?_eq_some_iff.1 hi).1
      simpa [Draft.of] using hlt
    rw [if_pos hlt, hi, Option.map_some, Option.map_some, renamed_concat_of_eq hx.fresh.1 hf]
  · rename_i hk
    cases hfk : t.fields[k]? with
    | none => rfl
    | some f' =>
      have hne : f'.name ≠ x.name := fun h =>
        hk (hn.eq_of_sameName hi hfk (by rw [hf, h]; exact Text.sameName_refl _))
      rw [Option.map_some, Option.map_some, Option.map_some, renamed_concat_of_ne hne]

/-- All renamings are taken, one after another. -/
theorem applyAll_renamings (hn : t.NamesDistinct) (hx : Assigns t (done ++ xs))
    (hd : d.rows = (Draft.of t).rows.map (Row.renamed done))
    (hps : ps.map Planned.action = xs.map Renaming.action) :
    ∃ d', d.applyAll ps = .ok d' ∧ d'.name = d.name ∧
      d'.rows = (Draft.of t).rows.map (Row.renamed (done ++ xs)) := by
  induction xs generalizing done d ps with
  | nil =>
    rw [List.map_nil, List.map_eq_nil_iff] at hps
    subst hps
    exact ⟨d, rfl, rfl, by rw [hd, List.append_nil]⟩
  | cons x xs ih =>
    obtain ⟨p, ps', rfl, hp, hps'⟩ := List.map_eq_cons_iff.1 hps
    have happend : done ++ x :: xs = (done ++ [x]) ++ xs := by simp
    rw [happend] at hx ⊢
    obtain ⟨d1, h1, hname1, hd1⟩ :=
      apply_renaming hn (hx.of_sublist (List.sublist_append_left _ _)) hd hp
    obtain ⟨d', h', hname', hd'⟩ := ih hx hd1 hps'
    exact ⟨d', foldlM_cons_eq_ok.2 ⟨d1, h1, h'⟩, hname'.trans hname1, hd'⟩

end Applying

section Reducing

variable {t : Table} {xs : List Renaming} {x : Renaming} {p : Planned} {ps : List Planned}

theorem isIdleRename_action (h : Text.trim x.target = x.target) :
    x.action.isIdleRename = x.isIdle := by
  rw [Action.isIdleRename, action, Action.rename, Action.newName?, if_pos (Text.sameName_refl _),
    Value.text?, Option.map_some, h, Option.any_some]
  rfl

/-- What is left of a renaming: nothing if it is idle, and otherwise itself. -/
theorem history_of_renaming (hp : p.action = x.action) :
    Record.ofHistory [p] = .ok { rename := some p } ∧
      Record.toList (Record.settled { rename := some p }) =
        [p].filter (!·.action.isIdleRename) := by
  constructor
  · refine Record.ofHistory_cons.2 ⟨{}, rfl, ?_⟩
    have habsorbs := Record.Absorbs.rename (p := p) (r := {}) hp (Text.sameName_refl "name") rfl rfl
    have hself : p.withFieldName x.name = p := Planned.withFieldName_self (by rw [hp]; rfl)
    have hrecord : Record.withFieldName x.name { rename := some p } = { rename := some p } := by
      rw [Record.withFieldName, Option.map_some, hself]
      rfl
    rwa [hrecord] at habsorbs
  · rw [Record.settled, Record.renamesIdly, Option.any_some, List.filter_cons]
    cases p.action.isIdleRename <;> rfl

/-- Every field has one renaming at most. -/
theorem editsOf_renamings (hx : Assigns t xs) (hps : ps.map Planned.action = xs.map Renaming.action)
    (u : Uid) :
    editsOf u ps = [] ∨
      ∃ (p : Planned) (x : Renaming), editsOf u ps = [p] ∧ p.action = x.action := by
  have huids : (ps.map Planned.uid).Nodup := by
    have h : ps.map Planned.uid = xs.map (·.uid) := by
      have h := congrArg (List.map Action.uid) hps
      rwa [List.map_map, List.map_map] at h
    rw [h]
    exact hx.uids
  match h : editsOf u ps with
  | [] => exact .inl rfl
  | [p] =>
    have hp : p ∈ ps := (mem_editsOf.1 (h ▸ List.mem_singleton_self p)).1
    have hact : p.action ∈ xs.map Renaming.action := hps ▸ List.mem_map_of_mem hp
    obtain ⟨x, -, e⟩ := List.mem_map.1 hact
    exact .inr ⟨p, x, rfl, e.symm⟩
  | p :: q :: rest =>
    have hsub : [p.uid, q.uid].Sublist (ps.map Planned.uid) := by
      have hsub : (p :: q :: rest).Sublist ps := h ▸ List.filter_sublist
      exact ((List.sublist_append_left [p, q] rest).trans hsub).map Planned.uid
    have hp : p.uid = u := (mem_editsOf.1 (h ▸ List.mem_cons_self)).2
    have hq : q.uid = u := (mem_editsOf.1 (h ▸ List.mem_cons_of_mem p List.mem_cons_self)).2
    have hnodup := huids.sublist hsub
    rw [hp, hq] at hnodup
    simp at hnodup

/-- The reduction of the renamings leaves the idle ones out. -/
theorem ordered_of_renamings (hx : Assigns t xs)
    (hp : planAll (xs.map Renaming.action) = .ok ps) :
    ∃ r, Reduction.of ps = .ok r ∧ r.ordered = ps.filter (!·.action.isIdleRename) := by
  have hps := planAll_actions hp
  have hhistory : ∀ u, ∃ s, Record.ofHistory (editsOf u ps) = .ok s ∧
      inOrder s.settled.toList = (editsOf u ps).filter (!·.action.isIdleRename) := by
    intro u
    rcases editsOf_renamings hx hps u with h | ⟨p, x, h, hpx⟩
    · exact ⟨{}, by rw [h]; rfl, by rw [h]; rfl⟩
    · obtain ⟨hs, hlist⟩ := history_of_renaming hpx
      refine ⟨_, by rw [h]; exact hs, ?_⟩
      rw [hlist, h]
      exact inOrder_eq_self ((List.pairwise_singleton _ p).filter _)
  obtain ⟨r, hr⟩ := Reduction.of_ok (l := ps) fun u => by
    rw [inOrder_of_planAll hp]
    obtain ⟨s, hs, -⟩ := hhistory u
    exact ⟨s, hs⟩
  refine ⟨r, hr, eq_of_perm_of_ascending (perm_of_editsOf fun u => ?_) (inOrder_pairwise _)
    ((planAll_ascending hp).filter _)⟩
  obtain ⟨s, hs, hlist⟩ := hhistory u
  obtain ⟨s', hs', hordered⟩ := Reduction.editsOf_ordered hr u
  rw [inOrder_of_planAll hp, hs] at hs'
  cases hs'
  rw [hordered, hlist, editsOf, editsOf, List.filter_filter, List.filter_filter]
  refine List.Perm.of_eq (List.filter_congr fun p _ => Bool.and_comm ..)

theorem actions_of_ordered (hx : Assigns t xs)
    (hps : ps.map Planned.action = xs.map Renaming.action) :
    (ps.filter (!·.action.isIdleRename)).map Planned.action =
      (xs.filter (!·.isIdle)).map Renaming.action := by
  have hidle : xs.filter (!·.isIdle) = xs.filter (!·.action.isIdleRename) :=
    List.filter_congr fun x hmem => by rw [isIdleRename_action (hx.targets x hmem).2]
  rw [hidle]
  calc (ps.filter (!·.action.isIdleRename)).map Planned.action
      = (ps.map Planned.action).filter (!·.isIdleRename) := by
        rw [List.filter_map, Function.comp_def]
    _ = (xs.map Renaming.action).filter (!·.isIdleRename) := by rw [hps]
    _ = (xs.filter (!·.action.isIdleRename)).map Renaming.action := by
        rw [List.filter_map, Function.comp_def]

end Reducing

section Finishing

variable {t : Table} {l : List Renaming} {d e : Draft}

theorem fold_finalName (l : List Renaming) (name : String) :
    Text.fold (finalName l name) = Text.fold (targetOf l name) := by
  unfold finalName
  split
  · rename_i h
    exact (Text.sameName_iff.1 h).symm
  · rfl

theorem fields_renamed (h : (l.map (·.name)).Nodup)
    (hd : d.rows = (Draft.of t).rows.map (Row.renamed (l.filter (!·.isIdle)))) :
    d.fields = (t.renamed l).fields := by
  refine List.ext_getElem? fun i => ?_
  rw [Draft.fields, hd, Table.renamed, List.getElem?_map, List.getElem?_map, List.getElem?_map,
    rows_of]
  cases t.fields[i]? with
  | none => rfl
  | some f => exact congrArg some (name_renamed h _)

theorem origins_renamed (hd : d.rows = (Draft.of t).rows.map (Row.renamed l)) :
    d.rows.map (·.origin) = (List.range t.fields.length).map t.originAt := by
  have horigin : (fun r : Row => r.origin) ∘ Row.renamed l = fun r => r.origin :=
    funext fun r => origin_renamed l r
  rw [hd, List.map_map, horigin]
  exact (Ledger.Accounts.of_table t).origins

/-- An index column is called what its field is called. -/
theorem finalName?_renamed (h : (l.map (·.name)).Nodup)
    (hd : d.rows = (Draft.of t).rows.map (Row.renamed (l.filter (!·.isIdle)))) (c : String) :
    d.finalName? c = (t.field? c).map fun f => finalName l f.name := by
  have hfields : t.fields = t.fields.zipIdx.map (·.1) := (List.zipIdx_map_fst ..).symm
  have hfind : t.field? c =
      (t.fields.zipIdx.find? fun x => Text.sameName x.1.name c).map (·.1) := by
    rw [Table.field?]
    conv_lhs => rw [hfields]
    rw [List.find?_map, Function.comp_def]
  have hcolumn : (fun r : Row => r.origin.any fun o => Text.sameName o.column c) ∘
      Row.renamed (l.filter (!·.isIdle)) =
      fun r => r.origin.any fun o => Text.sameName o.column c :=
    funext fun r => by rw [Function.comp_apply, origin_renamed]
  rw [hfind, Draft.finalName?, hd, List.find?_map, hcolumn, Draft.of, List.find?_map]
  simp only [Function.comp_def, Option.any_some, Option.map_map]
  refine Option.map_congr fun x _ => ?_
  rw [name_renamed h]

theorem finish_renamed (h : (l.map (·.name)).Nodup) (hname : d.name = t.name)
    (hindexes : d.indexes = t.indexes)
    (hd : d.rows = (Draft.of t).rows.map (Row.renamed (l.filter (!·.isIdle))))
    (he : d.finish = .ok e) :
    e.table = t.renamed l ∧ e.rows = d.rows := by
  obtain ⟨-, rfl⟩ := Draft.finish_eq_ok.1 he
  refine ⟨?_, rfl⟩
  have hfinal : d.finalName? = fun c => (t.field? c).map fun f => finalName l f.name :=
    funext (finalName?_renamed h hd)
  have hall : d.finalIndexes = (t.renamed l).indexes := by
    rw [Draft.finalIndexes, hindexes, hfinal]
    rfl
  calc Draft.table { d with indexes := d.finalIndexes }
      = ⟨d.name, d.fields, d.finalIndexes⟩ := rfl
    _ = t.renamed l := by rw [hname, fields_renamed h hd, hall, Table.renamed]

theorem namesDistinct_renamed :
    (t.renamed l).NamesDistinct ↔
      (t.fields.map fun f => Text.fold (targetOf l f.name)).Nodup := by
  have hfold : ((t.renamed l).fields.map fun f => Text.fold f.name) =
      t.fields.map fun f => Text.fold (targetOf l f.name) := by
    rw [Table.renamed, List.map_map]
    exact List.map_congr_left fun f _ => fold_finalName l f.name
  rw [Table.NamesDistinct, hfold]

end Finishing

end Renaming

/-- The renamings act at once: whatever their order, they are taken, the fields have the assigned
names in the end, and these are only refused if two fields have the same. -/
theorem Table.renamed_in_any_order {t : Table} {l l' : List Renaming} (hn : t.NamesDistinct)
    (hl : Renaming.Assigns t l) (horder : l'.Perm l) :
    ∃ ps r d, planAll (l'.map Renaming.action) = .ok ps ∧ Reduction.of ps = .ok r ∧
      (Draft.of t).applyAll r.ordered = .ok d ∧
      d.fields = (t.renamed l).fields ∧
      d.rows.map (·.origin) = (List.range t.fields.length).map t.originAt ∧
      ((∃ e, d.finish = .ok e) ↔
        (t.fields.map fun f => Text.fold (Renaming.targetOf l f.name)).Nodup) ∧
      ∀ e, d.finish = .ok e → e.table = t.renamed l ∧
        e.rows.map (·.origin) = (List.range t.fields.length).map t.originAt := by
  have hl' := hl.of_perm horder
  have hsame : t.renamed l' = t.renamed l := Renaming.renamed_perm hl.names horder
  have hknown : ∀ a ∈ l'.map Renaming.action, ∃ r, a.requirements = .ok r := by
    intro a ha
    obtain ⟨x, -, rfl⟩ := List.mem_map.1 ha
    exact ⟨_, rfl⟩
  obtain ⟨ps, hp⟩ := planFrom_ok hknown 0
  obtain ⟨r, hr, hordered⟩ := Renaming.ordered_of_renamings hl' hp
  have hactions := Renaming.actions_of_ordered hl' (planAll_actions hp)
  rw [← hordered] at hactions
  have hstart : (Draft.of t).rows = (Draft.of t).rows.map (Row.renamed []) :=
    (List.map_id' _).symm
  have hassigns : Renaming.Assigns t ([] ++ l'.filter (!·.isIdle)) :=
    hl'.of_sublist List.filter_sublist
  obtain ⟨d, hd, hname, hrows⟩ := Renaming.applyAll_renamings hn hassigns hstart hactions
  rw [List.nil_append] at hrows
  have hindexes := Draft.indexes_of_applyAll hd
  have hfields := Renaming.fields_renamed hl'.names hrows
  have horigins := Renaming.origins_renamed hrows
  refine ⟨ps, r, d, hp, hr, hd, hfields.trans (congrArg _ hsame), horigins, ?_, fun e he => ?_⟩
  · have hdistinct : d.table.NamesDistinct ↔ (t.renamed l).NamesDistinct := by
      rw [← hsame, Table.NamesDistinct, Table.NamesDistinct, ← hfields]
      rfl
    rw [← Renaming.namesDistinct_renamed, ← hdistinct]
    exact ⟨fun ⟨e, he⟩ => (Draft.finish_eq_ok.1 he).1,
      fun h => ⟨_, Draft.finish_eq_ok.2 ⟨h, rfl⟩⟩⟩
  · obtain ⟨htable, herows⟩ := Renaming.finish_renamed hl'.names hname hindexes hrows he
    exact ⟨htable.trans hsame, by rw [herows, horigins]⟩

/-- Three names go round, one changes its case only; the renames come in another order. -/
theorem Table.renamed_in_any_order_of_cycle :
    ∃ ps r d e, planAll (([⟨⟨3⟩, "c", "a"⟩, ⟨⟨4⟩, "d", "D"⟩, ⟨⟨1⟩, "a", "b"⟩,
        ⟨⟨2⟩, "b", "c"⟩] : List Renaming).map Renaming.action) = .ok ps ∧
      Reduction.of ps = .ok r ∧
      (Draft.of ⟨"t", [{ name := "a", type := .integer }, { name := "b", type := .text },
          { name := "c", type := .date }, { name := "d", type := .byte }],
          [⟨"i", ["B", "d"], true⟩]⟩).applyAll r.ordered = .ok d ∧
      d.finish = .ok e ∧
      e.table = ⟨"t", [{ name := "b", type := .integer }, { name := "c", type := .text },
          { name := "a", type := .date }, { name := "d", type := .byte }],
          [⟨"i", ["c", "d"], true⟩]⟩ := by
  have horder : List.Perm ([⟨⟨3⟩, "c", "a"⟩, ⟨⟨4⟩, "d", "D"⟩, ⟨⟨1⟩, "a", "b"⟩,
      ⟨⟨2⟩, "b", "c"⟩] : List Renaming)
      [⟨⟨1⟩, "a", "b"⟩, ⟨⟨2⟩, "b", "c"⟩, ⟨⟨3⟩, "c", "a"⟩, ⟨⟨4⟩, "d", "D"⟩] := by decide
  obtain ⟨ps, r, d, hp, hr, hd, -, -, hfinish, htable⟩ := Table.renamed_in_any_order
    (t := ⟨"t", [{ name := "a", type := .integer }, { name := "b", type := .text },
      { name := "c", type := .date }, { name := "d", type := .byte }],
      [⟨"i", ["B", "d"], true⟩]⟩)
    (by decide) ⟨by decide, by decide, by decide, by decide⟩ horder
  obtain ⟨e, he⟩ := hfinish.2 (by decide)
  exact ⟨ps, r, d, e, hp, hr, hd, he, (htable e he).1⟩

end TableAlteration
