import Mathlib.Data.List.Pairwise
import TableAlteration.Proofs.Edit.Indexes

namespace TableAlteration

namespace Index

/-- Its columns are told apart by their folded names. -/
def folded (x : Index) : Index := { x with columns := x.columns.map Text.fold }

/-- The columns go under their new names or are left out, and indexes without columns are dropped. -/
def carry (s : String → Option String) (xs : List Index) : List Index :=
  (xs.map fun x => { x with columns := x.columns.filterMap s }).filter fun x => !x.columns.isEmpty

section Carry

variable {s s' : String → Option String} {xs ys : List Index}

theorem carry_cons (s : String → Option String) (x : Index) (xs : List Index) :
    carry s (x :: xs) =
      if (x.columns.filterMap s).isEmpty then carry s xs
      else { x with columns := x.columns.filterMap s } :: carry s xs := by
  unfold carry
  rw [List.map_cons, List.filter_cons]
  cases (x.columns.filterMap s).isEmpty <;> rfl

theorem columns_ne_nil_of_mem_carry {x : Index} (h : x ∈ carry s xs) : x.columns ≠ [] := by
  have hx := (List.mem_filter.1 h).2
  intro e
  rw [e] at hx
  cases hx

theorem carry_carry (s s' : String → Option String) (xs : List Index) :
    carry s' (carry s xs) = carry (fun c => (s c).bind s') xs := by
  induction xs with
  | nil => rfl
  | cons x xs ih =>
    rw [carry_cons, carry_cons, ← List.filterMap_filterMap, ← ih]
    by_cases he : x.columns.filterMap s = []
    · simp [he]
    · rw [if_neg (by simpa using he), carry_cons]

/-- If no column is left out, no index is dropped. -/
theorem carry_of_total {f : String → String} (hx : ∀ x ∈ xs, x.columns ≠ [])
    (hs : ∀ x ∈ xs, ∀ c ∈ x.columns, s c = some (f c)) :
    carry s xs = xs.map fun x => { x with columns := x.columns.map f } := by
  induction xs with
  | nil => rfl
  | cons x xs ih =>
    have hmap : x.columns.filterMap s = x.columns.map f := by
      rw [← List.filterMap_eq_map]
      exact List.filterMap_congr (hs x List.mem_cons_self)
    have hne : ¬ (x.columns.map f).isEmpty := by simpa using hx x List.mem_cons_self
    rw [carry_cons, hmap, if_neg hne, List.map_cons]
    rw [ih (fun y hy => hx y (List.mem_cons_of_mem x hy))
      fun y hy => hs y (List.mem_cons_of_mem x hy)]

theorem isEmpty_of_folded {x y : Index} (e : x.folded = y.folded) :
    x.columns.isEmpty = y.columns.isEmpty := by
  have h : x.columns.map Text.fold = y.columns.map Text.fold := congrArg columns e
  rw [← List.isEmpty_map (f := Text.fold), h, List.isEmpty_map]

theorem folded_filterMap {x y : Index} (e : x.folded = y.folded)
    (h : ∀ a b, Text.fold a = Text.fold b → (s a).map Text.fold = (s' b).map Text.fold) :
    folded { x with columns := x.columns.filterMap s } =
      folded { y with columns := y.columns.filterMap s' } := by
  have hcolumns : ∀ as bs : List String, as.map Text.fold = bs.map Text.fold →
      (as.filterMap s).map Text.fold = (bs.filterMap s').map Text.fold := by
    intro as
    induction as with
    | nil =>
      intro bs hb
      rw [List.map_nil, eq_comm, List.map_eq_nil_iff] at hb
      rw [hb]
      rfl
    | cons a as ih =>
      intro bs hb
      obtain ⟨b, bs', rfl, hab, hrest⟩ := List.map_eq_cons_iff.1 hb.symm
      have hone := h a b hab.symm
      have hall := ih bs' hrest.symm
      rw [List.filterMap_cons, List.filterMap_cons]
      cases ha : s a with
      | none =>
        rw [ha, Option.map_none, eq_comm, Option.map_eq_none_iff] at hone
        rw [hone]
        exact hall
      | some m =>
        rw [ha, Option.map_some, eq_comm, Option.map_eq_some_iff] at hone
        obtain ⟨n, hn, hmn⟩ := hone
        rw [hn]
        simp only [List.map_cons, hmn, hall]
  have hx := congrArg Index.name e
  have hu := congrArg Index.unique e
  have hc := hcolumns x.columns y.columns (congrArg columns e)
  simp only [folded] at hx hu ⊢
  rw [hx, hu, hc]

/-- Where the case of the old names does not matter to the new ones, it does not matter to the
indexes. -/
theorem folded_carry (e : xs.map folded = ys.map folded)
    (h : ∀ a b, Text.fold a = Text.fold b → (s a).map Text.fold = (s' b).map Text.fold) :
    (carry s xs).map folded = (carry s' ys).map folded := by
  induction xs generalizing ys with
  | nil =>
    rw [List.map_nil, eq_comm, List.map_eq_nil_iff] at e
    rw [e]
    rfl
  | cons x xs ih =>
    obtain ⟨y, ys', rfl, hxy, hrest⟩ := List.map_eq_cons_iff.1 e.symm
    have hone := folded_filterMap hxy.symm h
    have hempty := isEmpty_of_folded hone
    have hall := ih hrest.symm
    rw [carry_cons, carry_cons, ← hempty]
    split
    · exact hall
    · rw [List.map_cons, List.map_cons, hone, hall]

end Carry

/-- What an edit makes of the names when the field called `old` gets the name `new`, or none. -/
def exchangeName (old : String) (new : Option String) (c : String) : Option String :=
  if Text.sameName c old then new else some c

theorem fold_exchangeName {old : String} {new : Option String} {a b : String}
    (e : Text.fold a = Text.fold b) :
    (exchangeName old new a).map Text.fold = (exchangeName old new b).map Text.fold := by
  unfold exchangeName Text.sameName
  rw [e]
  split
  · rfl
  · simp [e]

end Index

/-- Whether the row has its data from the column. -/
def Row.comesFrom (c : String) (r : Row) : Bool := r.origin.any fun o => Text.sameName o.column c

/-- The rows do not have their data from the same column. -/
def Row.Apart (r s : Row) : Prop :=
  ∀ a ∈ r.origin, ∀ b ∈ s.origin, ¬ Text.sameName a.column b.column

theorem Row.Apart.symm {r s : Row} (h : r.Apart s) : s.Apart r := by
  intro b hb a ha hsame
  rw [Text.sameName_comm] at hsame
  exact h a ha b hb hsame

theorem Row.Apart.not_comesFrom {r s : Row} (h : r.Apart s) {c : String} (hr : r.comesFrom c) :
    s.comesFrom c = false := by
  rw [Bool.eq_false_iff]
  intro hs
  obtain ⟨a, ha, hac⟩ := (Option.any_eq_true ..).1 hr
  obtain ⟨b, hb, hbc⟩ := (Option.any_eq_true ..).1 hs
  rw [Text.sameName_comm] at hbc
  exact h a ha b hb (Text.sameName_trans hac hbc)

namespace Draft

/-- No two rows have their data from the same column. -/
def OriginsDistinct (d : Draft) : Prop := d.rows.Pairwise Row.Apart

variable {d d' : Draft} {q : Row} {x : Option Row} {rest : List Row} {c m n : String}

theorem originsDistinct_of_table {t : Table} (h : t.NamesDistinct) :
    (Draft.of t).OriginsDistinct := by
  have hnames : ((Draft.of t).fields.map fun f => Text.fold f.name).Nodup := by
    rw [fields_of]
    exact h
  rw [fields, List.map_map, List.nodup_iff_pairwise_ne, List.pairwise_map] at hnames
  refine hnames.imp_of_mem fun hr hs hne a ha b hb hsame => ?_
  obtain ⟨⟨f, i⟩, -, rfl⟩ := List.mem_map.1 hr
  obtain ⟨⟨g, j⟩, -, rfl⟩ := List.mem_map.1 hs
  cases ha
  cases hb
  exact hne (Text.sameName_iff.1 hsame)

/-- Which row has its data from a column does not depend on the order of the rows. -/
theorem finalName?_eq_some_iff (h : d.OriginsDistinct) :
    d.finalName? c = some n ↔ ∃ r ∈ d.rows, r.comesFrom c ∧ r.field.name = n := by
  have hfind : d.finalName? c = (d.rows.find? (Row.comesFrom c)).map (·.field.name) := rfl
  rw [hfind, Option.map_eq_some_iff]
  constructor
  · rintro ⟨r, hr, rfl⟩
    exact ⟨r, List.mem_of_find?_eq_some hr, List.find?_some hr, rfl⟩
  · rintro ⟨r, hr, hc, rfl⟩
    obtain ⟨s, hs⟩ := Option.isSome_iff_exists.1 (List.find?_isSome.2 ⟨r, hr, hc⟩)
    refine ⟨s, hs, ?_⟩
    by_contra hne
    have : Std.Symm Row.Apart := ⟨fun _ _ => Row.Apart.symm⟩
    have hapart := h.forall hr (List.mem_of_find?_eq_some hs) fun e => hne (by rw [e])
    have hs' := List.find?_some hs
    rw [hapart.not_comesFrom hc] at hs'
    cases hs'

theorem finalIndexes_eq_carry (d : Draft) : d.finalIndexes = Index.carry d.finalName? d.indexes :=
  rfl

theorem columns_ne_nil_of_mem_finalIndexes {y : Index} (h : y ∈ d.finalIndexes) :
    y.columns ≠ [] := by
  rw [finalIndexes_eq_carry] at h
  exact Index.columns_ne_nil_of_mem_carry h

/-- The row `q` is exchanged for one with the same origin, or removed; rows may have moved. -/
structure Exchanges (d d' : Draft) (q : Row) (x : Option Row) : Prop where
  indexes : d'.indexes = d.indexes
  rows : ∃ rest, d.rows.Perm (q :: rest) ∧ d'.rows.Perm (x.toList ++ rest)
  origin : ∀ y ∈ x, y.origin = q.origin

namespace Exchanges

theorem originsDistinct (h : d.Exchanges d' q x) (ho : d.OriginsDistinct) :
    d'.OriginsDistinct := by
  obtain ⟨rest, hd, hd'⟩ := h.rows
  have hrest := hd.pairwise ho Row.Apart.symm
  refine hd'.symm.pairwise ?_ Row.Apart.symm
  obtain ⟨hq, hrest⟩ := List.pairwise_cons.1 hrest
  cases x with
  | none => exact hrest
  | some y =>
    refine List.pairwise_cons.2 ⟨fun r hr a ha => ?_, hrest⟩
    rw [h.origin y rfl] at ha
    exact hq r hr a ha

/-- No other row is called as the row was. -/
theorem name_of_other (hn : d.table.NamesDistinct) {rest : List Row}
    (hd : d.rows.Perm (q :: rest)) {r : Row} (hr : r ∈ rest) :
    Text.sameName r.field.name q.field.name = false := by
  have hnodup : (d.rows.map fun r => Text.fold r.field.name).Nodup := by
    have hn' : (d.fields.map fun f => Text.fold f.name).Nodup := hn
    rwa [fields, List.map_map] at hn'
  have hcons := (hd.map _).nodup_iff.1 hnodup
  rw [Bool.eq_false_iff]
  intro hsame
  exact (List.nodup_cons.1 hcons).1 (List.mem_map.2 ⟨r, hr, Text.sameName_iff.1 hsame⟩)

theorem finalName? (h : d.Exchanges d' q x) (hn : d.table.NamesDistinct)
    (ho : d.OriginsDistinct) (c : String) :
    d'.finalName? c =
      (d.finalName? c).bind (Index.exchangeName q.field.name (x.map (·.field.name))) := by
  have ho' := h.originsDistinct ho
  obtain ⟨rest, hd, hd'⟩ := h.rows
  have hrest := List.pairwise_cons.1 (hd.pairwise ho Row.Apart.symm)
  refine Option.ext fun n => ?_
  rw [finalName?_eq_some_iff ho', Option.bind_eq_some_iff]
  simp only [finalName?_eq_some_iff ho, hd.mem_iff, hd'.mem_iff, List.mem_cons, List.mem_append,
    Option.mem_toList]
  constructor
  · rintro ⟨r, hr | hr, hc, rfl⟩
    · refine ⟨q.field.name, ⟨q, .inl rfl, ?_, rfl⟩, ?_⟩
      · rwa [Row.comesFrom, ← h.origin r hr]
      · rw [Index.exchangeName, if_pos (Text.sameName_refl _), hr]
        rfl
    · refine ⟨r.field.name, ⟨r, .inr hr, hc, rfl⟩, ?_⟩
      rw [Index.exchangeName, name_of_other hn hd hr]
      rfl
  · rintro ⟨m, ⟨r, rfl | hr, hc, rfl⟩, hm⟩
    · rw [Index.exchangeName, if_pos (Text.sameName_refl _), Option.map_eq_some_iff] at hm
      obtain ⟨y, hy, rfl⟩ := hm
      refine ⟨y, .inl hy, ?_, rfl⟩
      rwa [Row.comesFrom, h.origin y hy]
    · rw [Index.exchangeName, name_of_other hn hd hr] at hm
      cases hm
      exact ⟨r, .inr hr, hc, rfl⟩

/-- The exchange is carried over to the indexes as the table would do it. -/
theorem finalIndexes (h : d.Exchanges d' q x) (hn : d.table.NamesDistinct)
    (ho : d.OriginsDistinct) :
    d'.finalIndexes =
      Index.carry (Index.exchangeName q.field.name (x.map (·.field.name))) d.finalIndexes := by
  rw [finalIndexes_eq_carry, finalIndexes_eq_carry, Index.carry_carry, h.indexes]
  exact congrArg (fun s => Index.carry s d.indexes) (funext (h.finalName? hn ho))

/-- Where no name changes the indexes stay as they are. -/
theorem folded_finalIndexes {y : Row} (h : d.Exchanges d' q (some y))
    (hy : y.field.name = q.field.name) (hn : d.table.NamesDistinct) (ho : d.OriginsDistinct) :
    d'.finalIndexes.map Index.folded = d.finalIndexes.map Index.folded := by
  have hsame : ∀ a b, Text.fold a = Text.fold b →
      (Index.exchangeName q.field.name (some y.field.name) a).map Text.fold =
        (some b).map Text.fold := by
    intro a b e
    rw [hy, Index.exchangeName]
    split
    · rename_i ha
      rw [Text.sameName_iff, e] at ha
      rw [Option.map_some, Option.map_some, ha]
    · rw [Option.map_some, Option.map_some, e]
  have hkept : Index.carry some d.finalIndexes = d.finalIndexes := by
    rw [Index.carry_of_total (fun _ => columns_ne_nil_of_mem_finalIndexes)
      fun _ _ c _ => congrArg some (id_eq c).symm]
    simp
  rw [h.finalIndexes hn ho]
  calc (Index.carry (Index.exchangeName q.field.name (some y.field.name)) d.finalIndexes).map
          Index.folded
      = (Index.carry some d.finalIndexes).map Index.folded := Index.folded_carry rfl hsame
    _ = d.finalIndexes.map Index.folded := by rw [hkept]

end Exchanges

/-- A row that is put into the place of another has its origin. -/
theorem exchanges_of_set {i : Nat} {y : Row} {rows : List Row} (hq : d.rows[i]? = some q)
    (hy : y.origin = q.origin) (hrows : rows.Perm (d.rows.set i y)) (changed : List Uid)
    (moved : Bool) :
    d.Exchanges { d with rows := rows, changed := changed, moved := moved } q (some y) := by
  obtain ⟨hi, rfl⟩ := List.getElem?_eq_some_iff.1 hq
  refine ⟨rfl, ⟨d.rows.eraseIdx i, ?_, ?_⟩, ?_⟩
  · exact (List.getElem_cons_eraseIdx_perm hi).symm
  · exact hrows.trans (List.set_perm_cons_eraseIdx hi y)
  · rintro _ ⟨⟩
    exact hy

theorem exchanges_of_erase {i : Nat} (hq : d.rows[i]? = some q) :
    d.Exchanges { d with rows := d.rows.eraseIdx i } q none := by
  obtain ⟨hi, rfl⟩ := List.getElem?_eq_some_iff.1 hq
  refine ⟨rfl, ⟨d.rows.eraseIdx i, ?_, .refl _⟩, ?_⟩
  · exact (List.getElem_cons_eraseIdx_perm hi).symm
  · rintro _ ⟨⟩

/-- A row without an origin has no index column. -/
theorem finalIndexes_of_insertion {y : Row} {rows : List Row} (ho : d.OriginsDistinct)
    (hy : y.origin = none) (hrows : rows.Perm (y :: d.rows)) :
    OriginsDistinct { d with rows := rows } ∧
      finalIndexes { d with rows := rows } = d.finalIndexes := by
  have ho' : OriginsDistinct { d with rows := rows } := by
    refine hrows.symm.pairwise (List.pairwise_cons.2 ⟨fun r _ a ha => ?_, ho⟩) Row.Apart.symm
    rw [hy] at ha
    cases ha
  have hfinal : finalName? { d with rows := rows } = d.finalName? := by
    refine funext fun c => Option.ext fun n => ?_
    simp only [finalName?_eq_some_iff ho', finalName?_eq_some_iff ho, hrows.mem_iff,
      List.mem_cons]
    constructor
    · rintro ⟨r, rfl | hr, hc, rfl⟩
      · rw [Row.comesFrom, hy] at hc
        cases hc
      · exact ⟨r, hr, hc, rfl⟩
    · rintro ⟨r, hr, hc, rfl⟩
      exact ⟨r, .inr hr, hc, rfl⟩
  refine ⟨ho', ?_⟩
  rw [finalIndexes_eq_carry, hfinal]
  rfl

end Draft

end TableAlteration
