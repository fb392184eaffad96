import TableAlteration.Proofs.Edit.Indexes
import TableAlteration.Proofs.Edit.Slots

namespace TableAlteration

/-- Every insertion uses a number that no edit before it has. -/
def InsertsNew (l : List Planned) : Prop :=
  l.Pairwise fun q p => p.action.isInsertion → q.uid ≠ p.uid

instance (l : List Planned) : Decidable (InsertsNew l) :=
  inferInstanceAs (Decidable (List.Pairwise ..))

/-- The rows are not bound to the same number. -/
def Row.OtherUid (r s : Row) : Prop := ∀ u, r.uid = some u → s.uid ≠ some u

theorem Row.OtherUid.symm {r s : Row} (h : r.OtherUid s) : s.OtherUid r :=
  fun u hs hr => h u hr hs

namespace Draft

variable {t : Table} {d d' : Draft} {k l : List Planned} {p : Planned} {u : Uid} {r q : Row}
  {i j : Nat}

section Unbound

theorem uid_of_resolve {name : String} (h : d.resolve u name = .ok (i, r)) : r.uid = some u := by
  obtain ⟨q, -, rfl, -⟩ := resolve_eq_ok h
  rfl

/-- A bound row that is put in is not the unbound one. -/
theorem mem_of_unbound_of_set {rows : List Row} (hq : q.uid = some u) (hr : r ∈ rows.set i q)
    (hu : r.uid = none) : r ∈ rows := by
  rcases List.mem_or_eq_of_mem_set hr with hr | rfl
  · exact hr
  · rw [hu] at hq
    cases hq

/-- An unbound row has been there before. -/
theorem mem_rows_of_unbound (h : d.apply p = .ok d') (hr : r ∈ d'.rows) (hu : r.uid = none) :
    r ∈ d.rows := by
  cases apply_eq_ok.1 h with
  | @change v name n x i q f ha hres hf =>
    have hbound := uid_of_resolve hres
    exact mem_of_unbound_of_set (q := { q with field := f }) hbound hr hu
  | remove ha hres => exact List.mem_of_mem_eraseIdx hr
  | insert ha =>
    rcases (List.mem_insertIdx (Nat.min_le_right ..)).1 hr with rfl | hr
    · cases hu
    · exact hr
  | move ha hres =>
    have hset := (moveWithin_perm ..).mem_iff.1 hr
    exact mem_of_unbound_of_set (uid_of_resolve hres) hset hu

theorem mem_rows_of_unbound_run (h : d.applyAll l = .ok d') (hr : r ∈ d'.rows)
    (hu : r.uid = none) : r ∈ d.rows := by
  induction l generalizing d with
  | nil =>
    cases h
    exact hr
  | cons p l ih =>
    obtain ⟨d1, h1, h2⟩ := foldlM_cons_eq_ok.1 h
    exact mem_rows_of_unbound h1 (ih h2) hu

/-- An unbound row is one of the table. -/
theorem unbound_of_table (h : (Draft.of t).applyAll l = .ok d) (hr : r ∈ d.rows)
    (hu : r.uid = none) :
    ∃ i, t.fields[i]? = some r.field ∧ r.origin = some ⟨r.field.name, i⟩ := by
  have hold := mem_rows_of_unbound_run h hr hu
  obtain ⟨⟨f, i⟩, hf, rfl⟩ := List.mem_map.1 hold
  exact ⟨i, List.mk_mem_zipIdx_iff_getElem?.1 hf, rfl⟩

end Unbound

section Numbers

/-- The numbers of the rows are those of edits, and no two rows have the same one. -/
structure Numbered (k : List Planned) (d : Draft) : Prop where
  used : ∀ r ∈ d.rows, ∀ u, r.uid = some u → ∃ p ∈ k, p.uid = u
  distinct : d.rows.Pairwise Row.OtherUid

theorem numbered_of (t : Table) : Numbered [] (Draft.of t) := by
  have hrows : ∀ r ∈ (Draft.of t).rows, r.uid = none := by
    intro r hr
    obtain ⟨⟨f, i⟩, -, rfl⟩ := List.mem_map.1 hr
    rfl
  refine ⟨fun r hr u hu => ?_, ?_⟩
  · rw [hrows r hr] at hu
    cases hu
  · refine List.pairwise_of_forall_mem_list fun r hr s _ u hu => ?_
    rw [hrows r hr] at hu
    cases hu

/-- A row with a number that no other row has. -/
theorem pairwise_cons_bound {rows : List Row} (h : rows.Pairwise Row.OtherUid)
    (hu : r.uid = some u) (hfree : ∀ s ∈ rows, s.uid ≠ some u) :
    (r :: rows).Pairwise Row.OtherUid := by
  refine List.pairwise_cons.2 ⟨fun s hs v hv => ?_, h⟩
  rw [hu] at hv
  cases hv
  exact hfree s hs

/-- The rows that stay and the one that an edit puts in. -/
theorem Numbered.of_perm (h : Numbered k d) {rest : List Row} (hrest : ∀ s ∈ rest, s ∈ d.rows)
    (hdistinct : rest.Pairwise Row.OtherUid) (hu : r.uid = some p.uid)
    (hfree : ∀ s ∈ rest, s.uid ≠ some p.uid) (hnew : d'.rows.Perm (r :: rest)) :
    Numbered (k ++ [p]) d' := by
  constructor
  · intro x hx v hv
    rcases List.mem_cons.1 (hnew.mem_iff.1 hx) with rfl | hx
    · rw [hu] at hv
      cases hv
      exact ⟨p, by simp, rfl⟩
    · obtain ⟨q, hq, hqu⟩ := h.used x (hrest x hx) v hv
      exact ⟨q, List.mem_append_left _ hq, hqu⟩
  · exact (hnew.pairwise_iff Row.OtherUid.symm).2 (pairwise_cons_bound hdistinct hu hfree)

theorem Numbered.apply (h : Numbered k d) (hp : p.action.isInsertion → ∀ q ∈ k, q.uid ≠ p.uid)
    (ha : d.apply p = .ok d') : Numbered (k ++ [p]) d' := by
  cases hi : p.action.isInsertion with
  | true =>
    obtain ⟨u, j, f, -, hnew⟩ := insertion_of_apply hi ha
    refine h.of_perm (fun s hs => hs) h.distinct rfl (fun s hs hu => ?_) hnew
    obtain ⟨q, hq, hqu⟩ := h.used s hs p.uid hu
    exact hp hi q hq hqu
  | false =>
    cases hr : p.action.isRemoval with
    | true =>
      obtain ⟨q, hold, -⟩ := removal_of_apply hr ha
      constructor
      · intro r hr u hu
        obtain ⟨x, hx, hxu⟩ := h.used r (hold.mem_iff.2 (List.mem_cons_of_mem q hr)) u hu
        exact ⟨x, List.mem_append_left _ hx, hxu⟩
      · exact (List.pairwise_cons.1 ((hold.pairwise_iff Row.OtherUid.symm).1 h.distinct)).2
    | false =>
      obtain ⟨q, f, rest, hold, hnew, -, hfound⟩ := exchange_of_apply hi hr ha
      have hrest : ∀ s ∈ rest, s ∈ d.rows := fun s hs => hold.mem_iff.2 (List.mem_cons_of_mem q hs)
      obtain ⟨hq, hdistinct⟩ :=
        List.pairwise_cons.1 ((hold.pairwise_iff Row.OtherUid.symm).1 h.distinct)
      refine h.of_perm hrest hdistinct rfl (fun s hs => ?_) hnew
      rcases hfound with hu | ⟨hfree, -⟩
      · exact hq s hs p.uid hu
      · exact hfree s (hrest s hs)

theorem Numbered.applyAll (h : Numbered k d) (hl : InsertsNew (k ++ l))
    (ha : d.applyAll l = .ok d') : Numbered (k ++ l) d' := by
  induction l generalizing k d with
  | nil =>
    cases ha
    rwa [List.append_nil]
  | cons p l ih =>
    obtain ⟨d1, h1, ha⟩ := foldlM_cons_eq_ok.1 ha
    have hstep := h.apply
      (fun hi q hq => (List.pairwise_append.1 hl).2.2 q hq p List.mem_cons_self hi) h1
    rw [← List.singleton_append, ← List.append_assoc] at hl ⊢
    exact ih hstep hl ha

theorem eq_of_uid (hd : d.rows.Pairwise Row.OtherUid) (hi : d.rows[i]? = some r)
    (hj : d.rows[j]? = some q) (hr : r.uid = some u) (hq : q.uid = some u) : i = j := by
  obtain ⟨hilt, rfl⟩ := List.getElem?_eq_some_iff.1 hi
  obtain ⟨hjlt, rfl⟩ := List.getElem?_eq_some_iff.1 hj
  have hother := List.pairwise_iff_getElem.1 hd
  rcases Nat.lt_trichotomy i j with hlt | heq | hlt
  · exact absurd hq (hother i j hilt hjlt hlt u hr)
  · exact heq
  · exact absurd hr (hother j i hjlt hilt hlt u hq)

/-- The only row of a number is found under every name. -/
theorem resolve_of_bound (hd : d.rows.Pairwise Row.OtherUid) (hr : d.rows[i]? = some r)
    (hu : r.uid = some u) (name : String) : d.resolve u name = .ok (i, r) := by
  have hmem := List.mem_of_getElem? hr
  obtain ⟨j, q, hj⟩ : ∃ j q, d.resolve u name = .ok (j, q) := resolve_ok hmem (.inl hu)
  obtain ⟨x, hx, rfl, hfound⟩ := resolve_eq_ok hj
  have hxu : x.uid = some u := by
    rcases hfound with hxu | ⟨hfree, -⟩
    · exact hxu
    · exact absurd hu (hfree r hmem)
  obtain rfl := eq_of_uid hd hr hx hu hxu
  rw [hr] at hx
  cases hx
  rw [hj, ← hu]

end Numbers

end Draft

namespace Ledger

/-- The account after the edits. -/
def after (t : Table) (l : List Planned) : Ledger := (Ledger.of t).trace (Draft.of t) l

variable {t : Table} {d d' : Draft} {g : Ledger} {k l : List Planned} {p : Planned} {u : Uid}
  {name : String} {r : Row} {n i : Nat} {b : Nat → Option Uid}

/-- The field with the number `n` stands in a row that is bound to `u`. -/
def Bound (g : Ledger) (d : Draft) (u : Uid) (n : Nat) : Prop :=
  ∃ (i : Nat) (r : Row), g.kept[i]? = some n ∧ d.rows[i]? = some r ∧ r.uid = some u

/-- Under every name `u` finds the row in which the field with the number `n` stands. -/
def Finds (g : Ledger) (d : Draft) (u : Uid) (n : Nat) : Prop :=
  ∀ name, ∃ i r, d.resolve u name = .ok (i, r) ∧ d.rows[i]? = some r ∧ g.kept[i]? = some n

/-- The rows are bound as `b` says of the fields that stand in them. -/
def Binds (g : Ledger) (d : Draft) (b : Nat → Option Uid) : Prop :=
  d.rows.map (·.uid) = g.kept.map b

theorem Binds.of_bound (h : g.Binds d b) (hn : g.Bound d u n) : b n = some u := by
  obtain ⟨i, r, hi, hr, hu⟩ := hn
  have hget : (d.rows.map (·.uid))[i]? = (g.kept.map b)[i]? := congrArg (·[i]?) h
  simpa [hr, hi, hu] using hget.symm

theorem Bound.mem_kept (h : g.Bound d u n) : n ∈ g.kept := by
  obtain ⟨i, r, hi, -⟩ := h
  exact List.mem_of_getElem? hi

namespace Accounts

theorem binds_of_table (t : Table) : (Ledger.of t).Binds (Draft.of t) fun _ => none := by
  refine List.ext_getElem (by simp [Draft.of, Ledger.of]) fun i hi hi' => ?_
  simp [Draft.of, Ledger.of]

/-- An edit binds the row that it finds, and no row is bound anew. -/
theorem binds_set (h : Accounts t d g) (hb : g.Binds d b) (hr : d.resolve u name = .ok (i, r))
    {x : Row} (hx : x.uid = some u) :
    ∃ b', (d.rows.set i x).map (·.uid) = g.kept.map b' ∧ ∀ n v, b n = some v → b' n = some v := by
  obtain ⟨q, hq, rfl, hfound⟩ := Draft.resolve_eq_ok hr
  obtain ⟨hlt, rfl⟩ := List.getElem?_eq_some_iff.1 hq
  have hlt' : i < g.kept.length := h.length_rows ▸ hlt
  have hold : (d.rows[i]).uid = b g.kept[i] := by
    have hget := congrArg (·[i]?) hb
    simpa [hlt, hlt'] using hget
  refine ⟨Function.update b g.kept[i] (some u), ?_, fun n v hv => ?_⟩
  · rw [h.kept_nodup.map_update, if_pos (List.getElem_mem hlt'), h.kept_nodup.idxOf_getElem,
      List.map_set, hb, hx]
  · by_cases hn : n = g.kept[i]
    · rw [hn, ← hold] at hv
      rw [hn, Function.update_self]
      rcases hfound with hu | ⟨-, hnone, -⟩
      · rw [← hu, hv]
      · rw [hv] at hnone
        cases hnone
    · rw [Function.update_of_ne hn, hv]

theorem binds_apply (h : Accounts t d g) (hb : g.Binds d b) (hd : d.apply p = .ok d') :
    ∃ b', (g.enter d p).Binds d' b' ∧ ∀ n < g.size, ∀ v, b n = some v → b' n = some v := by
  cases Draft.apply_eq_ok.1 hd with
  | @change u name n v i r f ha hr hf =>
    have hbound := Draft.uid_of_resolve hr
    obtain ⟨b', e, hext⟩ := h.binds_set hb hr (x := { r with field := f }) hbound
    rw [Ledger.enter_of_change ha]
    exact ⟨b', e, fun n _ => hext n⟩
  | remove ha hr =>
    refine ⟨b, ?_, fun n _ v hv => hv⟩
    rw [Ledger.enter_of_remove ha hr, Binds, ← List.eraseIdx_map, hb, List.eraseIdx_map]
  | insert ha =>
    refine ⟨Function.update b g.size (some p.uid), ?_, fun n hn v hv => ?_⟩
    · have hnew : g.size ∉ g.kept :=
        fun hm => Nat.lt_irrefl _ (h.mem_iff_lt_size.1 (List.mem_append_left _ hm))
      rw [Ledger.enter_of_insert ha, Binds, List.map_insertIdx, List.map_insertIdx,
        h.kept_nodup.map_update, if_neg hnew, Function.update_self, hb, h.length_rows]
    · rw [Function.update_of_ne (Nat.ne_of_lt hn), hv]
  | move ha hr =>
    obtain ⟨b', e, hext⟩ := h.binds_set hb hr (Draft.uid_of_resolve hr)
    refine ⟨b', ?_, fun n _ => hext n⟩
    rw [Ledger.enter_of_move ha hr, Binds, map_moveWithin, map_moveWithin, e]

/-- A field that is bound stays bound to the same number. -/
theorem binds_applyAll (h : Accounts t d g) (hb : g.Binds d b) (hd : d.applyAll l = .ok d') :
    ∃ b', (g.trace d l).Binds d' b' ∧ g.size ≤ (g.trace d l).size ∧
      ∀ n < g.size, ∀ v, b n = some v → b' n = some v := by
  induction l generalizing d g b with
  | nil =>
    cases hd
    exact ⟨b, hb, Nat.le_refl _, fun n _ v hv => hv⟩
  | cons p l ih =>
    obtain ⟨d1, h1, h2⟩ := foldlM_cons_eq_ok.1 hd
    obtain ⟨b1, hb1, hext1⟩ := h.binds_apply hb h1
    obtain ⟨b2, hb2, hsize2, hext2⟩ := ih (h.apply h1) hb1 h2
    have hsize := g.size_le_enter d p
    rw [Ledger.trace_cons h1]
    refine ⟨b2, hb2, Nat.le_trans hsize hsize2, fun n hn v hv => ?_⟩
    exact hext2 n (Nat.lt_of_lt_of_le hn hsize) v (hext1 n hn v hv)

/-- A field that is not removed is found by the number that it is bound to. -/
theorem finds (h : Accounts t d g) (hb : g.Binds d b) (hd : d.rows.Pairwise Row.OtherUid)
    (hn : n < g.size) (hremoved : n ∉ g.removed) (hu : b n = some u) : g.Finds d u n := by
  intro name
  have hmem := h.mem_iff_lt_size.2 hn
  obtain ⟨i, hi⟩ := List.mem_iff_getElem?.1 ((List.mem_append.1 hmem).resolve_right hremoved)
  have huid : (d.rows.map (·.uid))[i]? = some (some u) := by
    rw [hb, List.getElem?_map, hi, Option.map_some, hu]
  rw [List.getElem?_map] at huid
  obtain ⟨r, hr, hru⟩ := Option.map_eq_some_iff.1 huid
  exact ⟨i, r, Draft.resolve_of_bound hd hr hru name, hr, hi⟩

end Accounts

end Ledger

namespace SlottedTable

/-- What holds of the slots of the table `t`, whatever was applied to it. -/
structure Sound (t : Table) (s : SlottedTable) : Prop where
  parallel : s.slots.length = s.table.fields.length
  /-- A slot has the name and the position of a field of `t`, or neither. -/
  sources : ∀ x ∈ s.slots, x.source = none ∧ x.position = none ∨
    ∃ i f, t.fields[i]? = some f ∧ x.source = some f.name ∧ x.position = some i
  positions : s.slots.Pairwise fun x y => ∀ i, x.position = some i → y.position ≠ some i
  inserted : ∀ x ∈ s.slots, x.source = none → ∃ u, x.uid = some u
  unbound : ∀ (j : Nat) (x : Slot), s.slots[j]? = some x → x.uid = none →
    ∃ i f, x.position = some i ∧ t.fields[i]? = some f ∧ s.table.fields[j]? = some f
  indexes : s.table.indexes = t.indexes

/-- No two slots are bound to the same number. -/
def UidsDistinct (s : SlottedTable) : Prop :=
  s.slots.Pairwise fun x y => ∀ u, x.uid = some u → y.uid ≠ some u

end SlottedTable

section Sound

variable {t : Table} {d : Draft} {g : Ledger} {k : List Planned} {n i : Nat}

theorem Table.position_originAt (h : (t.originAt n).map (·.position) = some i) : n = i := by
  rw [Table.originAt, Option.map_map] at h
  obtain ⟨f, -, e⟩ := Option.map_eq_some_iff.1 h
  exact e

theorem Ledger.Accounts.positions_apart (h : Accounts t d g) :
    d.split.slots.Pairwise fun x y => ∀ i, x.position = some i → y.position ≠ some i := by
  have horigins : (d.rows.map (·.origin)).Pairwise fun a b =>
      ∀ i, a.map (·.position) = some i → b.map (·.position) ≠ some i := by
    rw [h.origins]
    refine List.pairwise_map.2 (h.kept_nodup.imp fun hne i ha hb => hne ?_)
    rw [Table.position_originAt ha, Table.position_originAt hb]
  exact List.pairwise_map.2 (List.pairwise_map.1 horigins)

theorem Draft.sound_of_applyAll (hd : (Draft.of t).applyAll k = .ok d) : d.split.Sound t := by
  have haccounts := (Ledger.Accounts.of_table t).applyAll hd
  have hslot : ∀ x ∈ d.split.slots, ∃ r ∈ d.rows, r.slot = x := fun x hx => List.mem_map.1 hx
  refine ⟨d.length_slots, fun x hx => ?_, haccounts.positions_apart, fun x hx hs => ?_,
    fun j x hx hu => ?_, indexes_of_applyAll hd⟩
  · obtain ⟨r, hr, rfl⟩ := hslot x hx
    obtain ⟨j, hj⟩ := List.mem_iff_getElem?.1 hr
    obtain ⟨i, -, ho⟩ := haccounts.origin_of_kept hj
    cases hf : t.fields[i]? with
    | none => exact .inl (by simp [Row.slot, ho, Table.originAt, hf])
    | some f => exact .inr ⟨i, f, hf, by simp [Row.slot, ho, Table.originAt, hf]⟩
  · obtain ⟨r, hr, rfl⟩ := hslot x hx
    cases hu : r.uid with
    | some u => exact ⟨u, hu⟩
    | none =>
      -- the row would still be one of the table
      obtain ⟨i, -, ho⟩ := unbound_of_table hd hr hu
      simp [Row.slot, ho] at hs
  · rw [split, List.getElem?_map] at hx
    obtain ⟨r, hr, rfl⟩ := Option.map_eq_some_iff.1 hx
    obtain ⟨i, hf, ho⟩ := unbound_of_table hd (List.mem_of_getElem? hr) hu
    refine ⟨i, r.field, by simp [Row.slot, ho], hf, ?_⟩
    rw [split, table, fields, List.getElem?_map, hr]
    rfl

/-- The two lists keep step, slots that no edit has taken have the fields that they had, and, if
insertions use new numbers, a number that is bound finds its slot until the slot is removed. -/
theorem Draft.slots_sound (hd : (Draft.of t).applyAll k = .ok d) :
    (SlottedTable.of t).applyAll k = .mk (some (.ok d.split)) ∧ d.split.Sound t ∧
      Ledger.Accounts t d (Ledger.after t k) ∧ (InsertsNew k → d.split.UidsDistinct) ∧
      ∀ (l : List Planned) (e : Draft) (u : Uid) (n : Nat), InsertsNew (k ++ l) →
        d.applyAll l = .ok e → (Ledger.after t k).Bound d u n →
        n ∉ (Ledger.after t (k ++ l)).removed → (Ledger.after t (k ++ l)).Finds e u n := by
  have hstart := Ledger.Accounts.of_table t
  have haccounts : Ledger.Accounts t d (Ledger.after t k) := hstart.applyAll hd
  refine ⟨?_, sound_of_applyAll hd, haccounts, fun hk => ?_,
    fun l e u n hl he hbound hremoved => ?_⟩
  · rw [← split_of, applyAll_split, hd]
    rfl
  · exact List.pairwise_map.2 ((numbered_of t).applyAll hk hd).distinct
  · have hrun : (Draft.of t).applyAll (k ++ l) = .ok e := foldlM_append_eq_ok.2 ⟨d, hd, he⟩
    have hdistinct := ((numbered_of t).applyAll hl hrun).distinct
    obtain ⟨b, hb, -, -⟩ := hstart.binds_applyAll (Ledger.Accounts.binds_of_table t) hd
    obtain ⟨b', hb', hsize, hext⟩ := haccounts.binds_applyAll hb he
    have hn : n < (Ledger.after t k).size :=
      haccounts.mem_iff_lt_size.1 (List.mem_append_left _ hbound.mem_kept)
    have hu : b' n = some u := hext n hn u (hb.of_bound hbound)
    rw [Ledger.after, Ledger.trace_append hd] at hremoved ⊢
    exact (haccounts.applyAll he).finds hb' hdistinct (Nat.lt_of_lt_of_le hn hsize) hremoved hu

def threeFields : Table :=
  ⟨"t", [{ name := "a", type := .integer }, { name := "b", type := .text },
    { name := "c", type := .date }], [⟨"i", ["b", "a"], true⟩]⟩

def firstEdits : List Planned :=
  [⟨0, {}, .move ⟨3⟩ "C" 0⟩, ⟨1, {}, .insert ⟨9⟩ 7 { name := "d", type := .text }⟩,
    ⟨2, {}, .rename ⟨1⟩ "a" "b"⟩, ⟨3, {}, .remove ⟨2⟩ "b"⟩]

def laterEdits : List Planned :=
  [⟨4, {}, .rename ⟨9⟩ "c" "a"⟩, ⟨5, {}, .move ⟨9⟩ "b" 0⟩, ⟨6, {}, .remove ⟨1⟩ "a"⟩]

/-- A name is taken before its field is removed, and later edits use the names of other fields. -/
theorem Draft.slots_sound_of_wrong_names :
    ∃ d e, (Draft.of threeFields).applyAll firstEdits = .ok d ∧ d.applyAll laterEdits = .ok e ∧
      InsertsNew (firstEdits ++ laterEdits) ∧
      (SlottedTable.of threeFields).applyAll firstEdits = .mk (some (.ok d.split)) ∧
      d.split.Sound threeFields ∧ d.split.UidsDistinct ∧
      d.split.slots = [⟨some ⟨3⟩, some "c", some 2⟩, ⟨some ⟨1⟩, some "a", some 0⟩,
        ⟨some ⟨9⟩, none, none⟩] ∧
      d.fields.map (·.name) = ["c", "b", "d"] ∧ e.fields.map (·.name) = ["a", "c"] ∧
      (Ledger.after threeFields firstEdits).Bound d ⟨9⟩ 3 ∧
      (Ledger.after threeFields (firstEdits ++ laterEdits)).Finds e ⟨9⟩ 3 := by
  obtain ⟨d, hd, hslots, hnames, hbound, e, he, henames⟩ :
      ∃ d, (Draft.of threeFields).applyAll firstEdits = .ok d ∧
        d.split.slots = [⟨some ⟨3⟩, some "c", some 2⟩, ⟨some ⟨1⟩, some "a", some 0⟩,
          ⟨some ⟨9⟩, none, none⟩] ∧
        d.fields.map (·.name) = ["c", "b", "d"] ∧
        (Ledger.after threeFields firstEdits).Bound d ⟨9⟩ 3 ∧
        ∃ e, d.applyAll laterEdits = .ok e ∧ e.fields.map (·.name) = ["a", "c"] :=
    ⟨_, rfl, rfl, rfl, ⟨2, _, rfl, rfl, rfl⟩, _, rfl, rfl⟩
  have hnew : InsertsNew (firstEdits ++ laterEdits) := by decide
  obtain ⟨hlists, hsound, -, hdistinct, hfinds⟩ := Draft.slots_sound hd
  have hremoved : 3 ∉ (Ledger.after threeFields (firstEdits ++ laterEdits)).removed := by decide
  exact ⟨d, e, hd, he, hnew, hlists, hsound, hdistinct (by decide), hslots, hnames, henames, hbound,
    hfinds laterEdits e ⟨9⟩ 3 hnew he hbound hremoved⟩

end Sound

end TableAlteration
