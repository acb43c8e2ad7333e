import Fedb.Codec.RowProject
import Fedb.Codec.RowRoundTrip

/-! # Projection is faithful across schema versions

The versions of a table (`Versions`): version `1` holds the first schema
`S1`, no version lies below `1`, and every version's schema is `S1` with
columns appended. A projection list is non-empty, and each index is a column
of `S1`. Then `Init` succeeds with the projected columns of `S1` as the
output schema, and leaves a `RowProject` that is `Ready`: a builder of the
output schema, `cur_rv_` at the view of `cur_ver_`, and a valid view for
every version (`init_ready`).

`Project` keeps `Ready` on every row of a version of the map whose
projection is shorter than `2^32` bytes. It returns a row that holds the
projected cells in the row format (`project_ready`), so `RowView` reads the
columns of the projection list back from it (`Projects`). By induction over
the rows, this holds for every run of `Project` (`projectAll_ready`), through
any sequence of version switches.

A version below `1` breaks this: it is the map's first entry, so `Init`
points `cur_rv_` at it while `cur_ver_` is `1`. Rows of version `1` are then
read with that version's layout and projected wrongly.
-/

namespace Fedb.Codec

open ByteBuffer

namespace RowProject

/-! ## What a projection is -/

/-- The projected columns of a schema, in the order of the projection list. -/
def projectSchema (schema : Schema) (plist : List Nat) : Schema :=
  plist.filterMap fun idx => schema[idx]?

/-- The projected cells of a row. -/
def projectCells (cells : List Cell) (plist : List Nat) : List Cell :=
  plist.filterMap fun idx => cells[idx]?

/-- `out` is a projection of `row`: read under the output schema, position
`i` of `out` has the NULL flag and the value that column `plist[i]` of `row`
has, read under the schema of the row's version. -/
def Projects (vs : SortedMap Int Schema) (outSchema : Schema) (plist : List Nat)
    (row out : List UInt8) : Prop :=
  ∀ s, vs.find? ((byteAt row 1).toNat : Int) = some s →
    ∀ i idx col, plist[i]? = some idx → s[idx]? = some col →
      RowView.isNULL out i = RowView.isNULL row idx ∧
      (RowView.new outSchema out out.length).readCell i col =
        (RowView.new s row row.length).readCell idx col

section Select

variable {α : Type*} {xs : List α}

theorem getElem?_select :
    ∀ {l : List Nat}, (∀ i ∈ l, i < xs.length) →
      ∀ k : Nat, (l.filterMap fun i => xs[i]?)[k]? = l[k]?.bind fun i => xs[i]?
  | [], _, k => by simp
  | i :: l, h, k => by
    have hlt : i < xs.length := h i List.mem_cons_self
    have hi : xs[i]? = some xs[i] := List.getElem?_eq_getElem hlt
    rw [List.filterMap_cons, hi]
    cases k with
    | zero => simp [hi]
    | succ k =>
      simpa using getElem?_select (fun j hj => h j (List.mem_cons_of_mem _ hj)) k

theorem length_select :
    ∀ {l : List Nat}, (∀ i ∈ l, i < xs.length) → (l.filterMap fun i => xs[i]?).length = l.length
  | [], _ => rfl
  | i :: l, h => by
    have hlt : i < xs.length := h i List.mem_cons_self
    have hi : xs[i]? = some xs[i] := List.getElem?_eq_getElem hlt
    rw [List.filterMap_cons, hi, List.length_cons, List.length_cons,
      length_select fun j hj => h j (List.mem_cons_of_mem _ hj)]

theorem getElem?_of_prefix {ys : List α} (hpre : xs <+: ys) {i : Nat} (h : i < xs.length) :
    xs[i]? = ys[i]? := by
  rw [List.getElem?_eq_getElem h, List.getElem?_eq_getElem (lt_of_lt_of_le h hpre.length_le),
    hpre.getElem]

theorem ne_nil_of_select {l : List Nat} (hl : l ≠ []) (h : ∀ i ∈ l, i < xs.length) : xs ≠ [] := by
  obtain ⟨i, hi⟩ := List.exists_mem_of_ne_nil l hl
  exact List.ne_nil_of_length_pos (by have := h i hi; omega)

theorem select_ne_nil {l : List Nat} (hl : l ≠ []) (h : ∀ i ∈ l, i < xs.length) :
    (l.filterMap fun i => xs[i]?) ≠ [] := by
  intro he
  have hlen := length_select h
  rw [he, List.length_nil] at hlen
  exact hl (List.length_eq_zero_iff.1 hlen.symm)

end Select

/-! ## Views and builders the way `Init` leaves them -/

/-- A valid view of `schema` with the layout `Init` computes. -/
structure ViewOf (schema : Schema) (v : RowView) : Prop where
  isValid : v.isValid = true
  schema_eq : v.schema = schema
  offsetVec_eq : v.offsetVec = (layout schema).1
  stringFieldCnt_eq : v.stringFieldCnt = strCount schema
  strFieldStartOffset_eq : v.strFieldStartOffset = strTableStart schema

/-- A builder of `schema` with the layout of its constructor; `SetBuffer` and
the appends change nothing else that `SetBuffer` reads. -/
structure BuilderOf (schema : Schema) (b : RowBuilder) : Prop where
  schema_eq : b.schema = schema
  offsetVec_eq : b.offsetVec = (layout schema).1
  strFieldCnt_eq : b.strFieldCnt = strCount schema
  strFieldStartOffset_eq : b.strFieldStartOffset = strTableStart schema

theorem viewOf_ofSchema (schema : Schema) : ViewOf schema (RowView.ofSchema schema) := by
  unfold RowView.ofSchema
  rw [RowView.initOffsets_eq]
  exact ⟨rfl, rfl, rfl, by simp [RowBuilder.initOffsets_strCnt],
    by simp [RowBuilder.initOffsets_end, strTableStart]⟩

theorem builderOf_new (schema : Schema) : BuilderOf schema (RowBuilder.new schema) :=
  ⟨rfl, rfl, by simp [RowBuilder.new, RowBuilder.initOffsets_strCnt],
    by simp [RowBuilder.new, RowBuilder.initOffsets_end, strTableStart]⟩

theorem Built.builderOf {schema : Schema} {cells : List Cell} {size k : Nat} {b : RowBuilder}
    (hb : Built schema cells size k b) : BuilderOf schema b :=
  ⟨hb.schema_eq, hb.offsetVec_eq, hb.strFieldCnt_eq, hb.strFieldStartOffset_eq⟩

section Reset

variable {schema : Schema} {cells : List Cell} {row : List UInt8} {size : Nat} {v : RowView}

theorem ViewOf.resetOk (hv : ViewOf schema v) (h : Encodes schema cells row size)
    (hne : schema ≠ []) : v.resetOk row size = true := by
  have hlen : schema.length ≠ 0 := by simpa using hne
  have := h.header_lt
  simp [RowView.resetOk, hv.schema_eq, hlen, h.header, Nat.not_le.2 this]

/-- `Reset` of a view of `schema` on a row of `schema` gives the view the
constructor `RowView(schema, row, size)` makes. -/
theorem ViewOf.reset_eq (hv : ViewOf schema v) (h : Encodes schema cells row size)
    (hne : schema ≠ []) : v.reset row size = RowView.new schema row size := by
  have hlen : schema.length ≠ 0 := by simpa using hne
  have := h.header_lt
  rw [RowView.new_of_encodes h hne]
  obtain ⟨a, valid, c, d, e, f, g, o⟩ := v
  obtain ⟨hvalid, hschema, hoff, hcnt, hstart⟩ := hv
  simp only at hvalid hschema hoff hcnt hstart
  subst hvalid hschema hoff hcnt hstart
  simp [RowView.reset, hlen, h.header, Nat.not_le.2 this]

end Reset

section Builder

variable {schema : Schema} {b : RowBuilder}

/-- `SetBuffer` reads only the layout and the version of a builder. -/
theorem BuilderOf.setBuffer_eq (hb : BuilderOf schema b) (buf : List UInt8) (size : Nat) :
    b.setBuffer buf size =
      ((RowBuilder.new schema).setSchemaVersion b.schemaVersion).setBuffer buf size := by
  obtain ⟨s, buf0, cnt, size0, strCnt, addr, start, off, ver, offs⟩ := b
  obtain ⟨hschema, hoff, hcnt, hstart⟩ := hb
  simp only at hschema hoff hcnt hstart
  subst hschema hoff hcnt hstart
  have hn := builderOf_new s
  simp only [RowBuilder.setBuffer, RowBuilder.setSchemaVersion, hn.strFieldCnt_eq,
    hn.strFieldStartOffset_eq]
  rfl

theorem BuilderOf.calTotalLength_eq (hb : BuilderOf schema b) (l : Nat) :
    b.calTotalLength l = (RowBuilder.new schema).calTotalLength l := by
  have hn := builderOf_new schema
  simp only [RowBuilder.calTotalLength, hb.schema_eq, hb.strFieldCnt_eq, hb.strFieldStartOffset_eq,
    hn.schema_eq, hn.strFieldCnt_eq, hn.strFieldStartOffset_eq]

end Builder

/-! ## The versions of a table, and `Init` -/

/-- The version map of a table as `Table::AddVersionSchema` builds it:
version `1` holds `S1`, no key lies below `1`, and every schema is `S1` with
columns appended. -/
structure Versions (vs : SortedMap Int Schema) (S1 : Schema) : Prop where
  first : vs.find? 1 = some S1
  one_le : ∀ k s, vs.find? k = some s → 1 ≤ k
  appends : ∀ k s, vs.find? k = some s → S1 <+: s

/-- A `RowProject` that `Init` has made ready for the versions `vs` and the
projection list `plist`: the output schema is the projected columns of `S1`
with a builder for it, `cur_rv_` points at the view of `cur_ver_`, whose
schema is `cur_schema_`, and every version has a valid view. -/
structure Ready (vs : SortedMap Int Schema) (S1 : Schema) (plist : List Nat) (p : RowProject) :
    Prop where
  plist_eq : p.plist = plist
  versSchema_eq : p.versSchema = vs
  outputSchema_eq : p.outputSchema = projectSchema S1 plist
  builder : ∃ b, p.rowBuilder = some b ∧ BuilderOf (projectSchema S1 plist) b
  curRv_eq : p.curRv = some (p.curVer : Int)
  curSchema_eq : vs.find? p.curVer = some p.curSchema
  views : ∀ k s, vs.find? k = some s → ∃ v, p.versViews.find? k = some v ∧ ViewOf s v

theorem maxIndex_cons (i : Nat) (l : List Nat) (m : Nat) :
    maxIndex (i :: l) m = maxIndex l (if i ≥ m then i else m) := rfl

theorem maxIndex_lt {n : Nat} :
    ∀ {l : List Nat} {m : Nat}, (∀ i ∈ l, i < n) → m < n → maxIndex l m < n
  | [], _, _, hm => hm
  | i :: l, m, h, hm => by
    rw [maxIndex_cons]
    refine maxIndex_lt (fun j hj => h j (List.mem_cons_of_mem _ hj)) ?_
    split
    · exact h i List.mem_cons_self
    · exact hm

/-- When every schema has the projected columns, `Init` has a view of
every schema of the map, made by `RowView(schema)`. -/
theorem find?_initViews {maxIdx : Nat} (k : Int) :
    ∀ {l : List (Int × Schema)} (views : SortedMap Int RowView), (∀ e ∈ l, maxIdx < e.2.length) →
      (initViews maxIdx l views).find? k = (views.find? k).or ((l.lookup k).map RowView.ofSchema)
  | [], views, _ => by simp [initViews]
  | (k', s) :: rest, views, h => by
    have hs : ¬ maxIdx ≥ s.length := Nat.not_le.2 (h (k', s) List.mem_cons_self)
    rw [initViews, if_neg hs, find?_initViews k _ (fun e he => h e (List.mem_cons_of_mem _ he)),
      SortedMap.find?_insert, SortedMap.lookup_cons]
    by_cases hk : k = k'
    · rw [if_pos hk, if_pos hk]
      cases views.find? k <;> rfl
    · rw [if_neg hk, if_neg hk]

section Init

variable {vs : SortedMap Int Schema} {S1 : Schema} {plist : List Nat}

/-- `Init` on the versions of a table and a non-empty projection list of
columns of `S1` succeeds, with the projected columns of `S1` as the output
schema, and makes the projection ready. -/
theorem init_ready (hv : Versions vs S1) (hp : plist ≠ []) (hidx : ∀ i ∈ plist, i < S1.length) :
    ∃ p, (RowProject.new vs plist).init = (p, true) ∧ Ready vs S1 plist p := by
  have hlen : ¬ plist.length ≤ 0 := by simpa [Nat.le_zero] using hp
  obtain ⟨i, hi⟩ := List.exists_mem_of_ne_nil plist hp
  have hmax : maxIndex plist 0 < S1.length := maxIndex_lt hidx (by have := hidx i hi; omega)
  -- every schema of the map is long enough for a view
  have hlong : ∀ e ∈ vs.entries, maxIndex plist 0 < e.2.length := fun e he =>
    lt_of_lt_of_le hmax (hv.appends e.1 e.2 (vs.find?_of_mem he)).length_le
  have hfind : ∀ k, (initViews (maxIndex plist 0) vs.entries .empty).find? k =
      (vs.find? k).map RowView.ofSchema := by
    intro k
    rw [find?_initViews k _ hlong]
    rfl
  -- version `1` is the least key, so `begin()` is its view
  have hfirst : (initViews (maxIndex plist 0) vs.entries .empty).first? =
      some (1, RowView.ofSchema S1) := by
    refine SortedMap.first?_eq_of_le (by rw [hfind, hv.first]; rfl) fun k' v' h => ?_
    rw [hfind] at h
    obtain ⟨s, hs, -⟩ := Option.map_eq_some_iff.1 h
    exact hv.one_le k' s hs
  refine ⟨{ new vs plist with
      maxIdx := maxIndex plist 0
      versViews := initViews (maxIndex plist 0) vs.entries .empty
      curSchema := S1
      curRv := some 1
      outputSchema := projectSchema S1 plist
      rowBuilder := some (RowBuilder.new (projectSchema S1 plist)) }, ?_, ?_⟩
  · simp only [init, new, hlen, if_false, hfirst, hv.first, Option.getD_some, List.nil_append]
    rfl
  · refine ⟨rfl, rfl, rfl, ⟨_, rfl, builderOf_new _⟩, rfl, by simpa [new] using hv.first, ?_⟩
    intro k s hs
    exact ⟨_, by rw [hfind, hs]; rfl, viewOf_ofSchema s⟩

end Init

/-! ## The two loops of `Project` on a row of a version -/

/-- A row of the version its version byte names in `vs`: in format version 1
it holds cells that fit that version's schema `s`, and its projection is
shorter than `2^32` bytes. -/
structure VersionRow (vs : SortedMap Int Schema) (S1 : Schema) (plist : List Nat)
    (row : List UInt8) (s : Schema) (cells : List Cell) : Prop where
  find : vs.find? ((byteAt row 1).toNat : Int) = some s
  fits : Fits s cells
  encodes : Encodes s cells row row.length
  bound : rowLength (projectSchema S1 plist) (strLength (projectCells cells plist)) < 2 ^ 32

theorem strLength_cons (c : Cell) (cells : List Cell) :
    strLength (c :: cells) = c.bodyLen + strLength cells := by
  simp [strLength]

section Loops

variable {s : Schema} {cells : List Cell} {row : List UInt8} {size : Nat}

theorem projectCells_cons {i : Nat} (hi : i < cells.length) (l : List Nat) :
    projectCells cells (i :: l) = cells[i] :: projectCells cells l := by
  simp [projectCells, List.getElem?_eq_getElem hi]

/-- The first loop sums the bodies of the projected cells. -/
theorem strSizeLoop_eq (h : Encodes s cells row size) (hfits : Fits s cells) (hne : s ≠ []) :
    ∀ {l : List Nat} {acc : Nat}, (∀ i ∈ l, i < s.length) →
      acc + strLength (projectCells cells l) < 2 ^ 32 →
      strSizeLoop (RowView.new s row size) s l acc = some (acc + strLength (projectCells cells l))
  | [], acc, _, _ => by simp [strSizeLoop, projectCells, strLength]
  | i :: l, acc, hl, hb => by
    have hi : i < s.length := hl i List.mem_cons_self
    have hci : i < cells.length := hfits.length_eq ▸ hi
    have hcol : s[i]? = some s[i] := List.getElem?_eq_getElem hi
    have hc : cells[i]? = some cells[i] := List.getElem?_eq_getElem hci
    have hrest : ∀ j ∈ l, j < s.length := fun j hj => hl j (List.mem_cons_of_mem _ hj)
    have hrow : (RowView.new s row size).row = row := by rw [RowView.new_of_encodes h hne]
    rw [projectCells_cons hci, strLength_cons] at hb ⊢
    rw [strSizeLoop, hcol]
    dsimp only
    generalize cells[i] = c at hc hb ⊢
    have hfit := hfits.cell i _ c hcol hc
    by_cases hs : isStringType s[i].dataType
    · by_cases hnull : c = .null
      · -- a NULL string adds nothing
        have hn : RowView.isNULL (RowView.new s row size).row i = true := by
          rw [hrow, h.nullBit i c hc, hnull]
          rfl
        rw [if_neg (by simp [hs]), if_pos hn, strSizeLoop_eq h hfits hne hrest (by omega), hnull]
        simp [Cell.bodyLen]
      · -- a string is read and its length added, which stays in 32 bits
        obtain ⟨v, rfl⟩ := fits_null hnull hfit hs
        have hn : RowView.isNULL (RowView.new s row size).row i = false := by
          rw [hrow, h.nullBit i _ hc]
          rfl
        simp only [Cell.bodyLen] at hb ⊢
        rw [if_neg (by simp [hs]), if_neg (by simp [hn]), getString_of_encodes h hne hcol hc hs]
        simp only [ne_eq, not_true_eq_false, if_false, Option.getD_some]
        rw [u32_of_lt (by omega), strSizeLoop_eq h hfits hne hrest (by omega), Nat.add_assoc]
    · -- a column that is not a string is skipped, and has no body
      rw [if_pos (by simp [hs]), strSizeLoop_eq h hfits hne hrest (by omega),
        Cell.bodyLen_of_not_string hfit (by simpa using hs), Nat.zero_add]

/-- The projected cells fit the projected columns of `S1`, which are the
columns of `s` at the same indices. -/
theorem fits_project {S1 : Schema} {plist : List Nat} (hfits : Fits s cells) (hpre : S1 <+: s)
    (hidx : ∀ i ∈ plist, i < S1.length) :
    Fits (projectSchema S1 plist) (projectCells cells plist) := by
  have hidx' : ∀ i ∈ plist, i < cells.length := fun i hi =>
    lt_of_lt_of_le (hidx i hi) (hfits.length_eq ▸ hpre.length_le)
  refine ⟨by rw [projectCells, projectSchema, length_select hidx', length_select hidx], ?_⟩
  intro j col c hcol hc
  rw [projectSchema, getElem?_select hidx] at hcol
  rw [projectCells, getElem?_select hidx'] at hc
  obtain ⟨idx, hj, hcol⟩ := Option.bind_eq_some_iff.1 hcol
  obtain ⟨idx', hj', hc⟩ := Option.bind_eq_some_iff.1 hc
  rw [hj, Option.some.injEq] at hj'
  subst hj'
  have hs : s[idx]? = some col := by
    rw [← hcol, List.getElem?_eq_getElem (lt_of_lt_of_le (hidx idx (List.mem_of_getElem? hj))
      hpre.length_le), List.getElem?_eq_getElem (hidx idx (List.mem_of_getElem? hj)),
      hpre.getElem]
  exact hfits.cell idx col c hs hc

/-- The second loop appends the projected cells, one per index: the run
lemma over the projection list, from any number `k` of appends done. -/
theorem appendLoop_built {S1 : Schema} {plist : List Nat} {osize : Nat}
    (h : Encodes s cells row size) (hfits : Fits s cells) (hne : s ≠ []) (hpre : S1 <+: s)
    (hidx : ∀ i ∈ plist, i < S1.length)
    (hr : RowShape (projectSchema S1 plist) (projectCells cells plist) osize) :
    ∀ m k (b : RowBuilder), k + m = plist.length →
      Built (projectSchema S1 plist) (projectCells cells plist) osize k b →
      ∃ b', appendLoop (RowView.new s row size) s (plist.drop k) b = (b', true) ∧
        Built (projectSchema S1 plist) (projectCells cells plist) osize plist.length b' := by
  have hidx' : ∀ i ∈ plist, i < cells.length := fun i hi =>
    lt_of_lt_of_le (hidx i hi) (hfits.length_eq ▸ hpre.length_le)
  have hplen : (projectCells cells plist).length = plist.length := length_select hidx'
  have hrow : (RowView.new s row size).row = row := by rw [RowView.new_of_encodes h hne]
  intro m
  induction m with
  | zero =>
    intro k b hkm hb
    rw [List.drop_of_length_le (by omega)]
    exact ⟨b, rfl, by rwa [← hkm]⟩
  | succ m ih =>
    intro k b hkm hb
    have hk : k < plist.length := by omega
    have hi : plist[k] < S1.length := hidx _ (List.getElem_mem hk)
    have hi' : plist[k] < s.length := lt_of_lt_of_le hi hpre.length_le
    -- column `plist[k]` of `s` is column `plist[k]` of `S1`, and its cell is the `k`-th projected one
    have hcol : s[plist[k]]? = some S1[plist[k]] := by
      rw [List.getElem?_eq_getElem hi', hpre.getElem hi]
    have hc : cells[plist[k]]? = some (projectCells cells plist)[k] := by
      rw [← List.getElem?_eq_getElem (hplen ▸ hk), projectCells, getElem?_select hidx',
        List.getElem?_eq_getElem hk]
      rfl
    obtain ⟨b1, hb1, hbuilt1⟩ := built_appendCell hr hb (hplen ▸ hk)
    obtain ⟨b', hb', hbuilt'⟩ := ih (k + 1) b1 (by omega) hbuilt1
    refine ⟨b', ?_, hbuilt'⟩
    rw [List.drop_eq_getElem_cons hk, appendLoop, hcol]
    dsimp only
    generalize (projectCells cells plist)[k] = c at hc hb1
    by_cases hnull : c = .null
    · -- a NULL column: `AppendNULL`, the append of its cell
      subst hnull
      rw [if_pos (by rw [hrow, h.nullBit _ _ hc]; rfl)]
      rw [show b.appendNULL = some b1 from hb1, Option.getD_some]
      exact hb'
    · -- any other: the getter reads the cell, which is appended
      have hfit : c.fits S1[plist[k]] = true := hfits.cell _ _ c hcol hc
      rw [if_neg (by rw [hrow, h.nullBit _ _ hc]; simpa using hnull),
        readCell_of_encodes h hne hcol hc hfit hnull]
      simp only [ne_eq, not_true_eq_false, if_false, hb1, Option.getD_some]
      exact hb'

end Loops

/-! ## One call of `Project` -/

section Step

variable {vs : SortedMap Int Schema} {S1 : Schema} {plist : List Nat} {p : RowProject}

/-- The switch to a version of the map keeps the projection ready, with
`cur_ver_` at that version. -/
theorem switchVersion_ready (hr : Ready vs S1 plist p) {version : Nat} {s : Schema}
    (hs : vs.find? version = some s) :
    ∃ p1, p.switchVersion version = some p1 ∧ Ready vs S1 plist p1 ∧ p1.curVer = version ∧
      p1.curSchema = s ∧ p1.plist = p.plist ∧ p1.rowBuilder = p.rowBuilder := by
  unfold switchVersion
  by_cases hv : version = p.curVer
  · -- the row's version is the last one: nothing moves
    rw [if_neg (not_not.2 hv)]
    have hcur := hr.curSchema_eq
    rw [← hv, hs, Option.some.injEq] at hcur
    exact ⟨p, rfl, hr, hv.symm, hcur.symm, rfl, rfl⟩
  · obtain ⟨v, hfind, -⟩ := hr.views _ _ hs
    rw [if_pos hv, hfind]
    refine ⟨_, rfl, ⟨hr.plist_eq, hr.versSchema_eq, hr.outputSchema_eq, hr.builder, rfl, ?_,
      hr.views⟩, rfl, ?_, rfl, rfl⟩
    · simp [hr.versSchema_eq, hs]
    · simp [hr.versSchema_eq, hs]

/-- `Project` on a row of a version of the map: it returns a row that holds
the projected cells in the format of the output schema, and the projection
stays ready. -/
theorem project_ready (hv : Versions vs S1) (hp : plist ≠ []) (hidx : ∀ i ∈ plist, i < S1.length)
    (hr : Ready vs S1 plist p) {row : List UInt8} {s : Schema} {cells : List Cell}
    (hrow : VersionRow vs S1 plist row s cells) (mem : List UInt8) :
    ∃ p' out, p.project row row.length mem = (p', some out) ∧ Ready vs S1 plist p' ∧
      Encodes (projectSchema S1 plist) (projectCells cells plist) out out.length := by
  have hpre : S1 <+: s := hv.appends _ s hrow.find
  have hidx' : ∀ i ∈ plist, i < s.length := fun i hi => lt_of_lt_of_le (hidx i hi) hpre.length_le
  have hne : s ≠ [] := ne_nil_of_select hp hidx'
  have hfits' := fits_project hrow.fits hpre hidx
  have hout : projectSchema S1 plist ≠ [] := select_ne_nil hp hidx
  -- the switch, then the view of the row's version reset on the row
  obtain ⟨p1, hp1, hr1, hver1, hschema1, hplist1, hbuilder1⟩ :=
    switchVersion_ready hr hrow.find
  obtain ⟨b, hb, hbuilder⟩ := hr1.builder
  obtain ⟨v, hfind, hview⟩ := hr1.views _ _ hrow.find
  have hkey : p1.curRv = some ((byteAt row 1).toNat : Int) := by rw [hr1.curRv_eq, hver1]
  have hreset := hview.reset_eq hrow.encodes hne
  -- the size of the output, as the first loop and `CalTotalLength` find it
  have hlen := hrow.bound
  have hL : strLength (projectCells cells plist) < 2 ^ 32 := by
    have := rowLength_eq (projectSchema S1 plist) (strLength (projectCells cells plist))
    omega
  have hsize : strSizeLoop (RowView.new s row row.length) s plist 0 =
      some (0 + strLength (projectCells cells plist)) :=
    strSizeLoop_eq hrow.encodes hrow.fits hne hidx' (by omega)
  rw [Nat.zero_add] at hsize
  have htotal : b.calTotalLength (strLength (projectCells cells plist)) =
      rowLength (projectSchema S1 plist) (strLength (projectCells cells plist)) := by
    rw [hbuilder.calTotalLength_eq, calTotalLength_new hout hlen]
  have hshape := rowShape_rowLength hfits' hout hlen
  obtain ⟨b0, hb0, hbuilt0, -⟩ := built_setBuffer_version hshape
    (ByteBuffer.length_resize mem _) b.schemaVersion
  obtain ⟨b', hb', hbuilt'⟩ := appendLoop_built hrow.encodes hrow.fits hne hpre hidx hshape
    plist.length 0 b0 (by omega) hbuilt0
  rw [List.drop_zero] at hb'
  refine ⟨{ p1 with
      versViews := p1.versViews.modify ((byteAt row 1).toNat : Int) fun v => v.reset row row.length
      rowBuilder := some b' }, b'.buf, ?_, ?_, ?_⟩
  · simp only [project, hp1, hkey, hb, hfind, hview.resetOk hrow.encodes hne, Bool.not_true,
      Bool.false_eq_true, if_false, hreset]
    simp only [projectWith, hschema1, hplist1, hr.plist_eq, hsize, htotal,
      hbuilder.setBuffer_eq, hb0, hb', Bool.not_true, Bool.false_eq_true, if_false, if_true]
  · -- the projection is still ready: the view of the row's version was reset on a row
    -- of its schema, and the builder holds the output
    refine ⟨hr1.plist_eq, hr1.versSchema_eq, hr1.outputSchema_eq,
      ⟨b', rfl, Built.builderOf hbuilt'⟩, hr1.curRv_eq, hr1.curSchema_eq, ?_⟩
    intro k s' hs'
    by_cases hk : k = ((byteAt row 1).toNat : Int)
    · subst hk
      rw [hrow.find, Option.some.injEq] at hs'
      subst hs'
      refine ⟨_, by rw [SortedMap.find?_modify_self, hfind]; rfl, ?_⟩
      show ViewOf s (v.reset row row.length)
      rw [hreset, RowView.new_of_encodes hrow.encodes hne]
      exact ⟨rfl, rfl, rfl, rfl, rfl⟩
    · obtain ⟨v', hv', hview'⟩ := hr1.views k s' hs'
      exact ⟨v', by rw [SortedMap.find?_modify_of_ne _ hk, hv'], hview'⟩
  · have hplen : (projectCells cells plist).length = plist.length :=
      length_select fun i hi => lt_of_lt_of_le (hidx i hi) (hrow.fits.length_eq ▸ hpre.length_le)
    have henc := Built.encodes hshape (hplen ▸ hbuilt')
    rwa [hbuilt'.length_eq]

/-- Two encoded rows that hold one cell under one column read it alike, NULL
or not. -/
theorem readCell_eq_of_encodes {s1 s2 : Schema} {cells1 cells2 : List Cell}
    {buf1 buf2 : List UInt8} {size1 size2 : Nat} (h1 : Encodes s1 cells1 buf1 size1)
    (h2 : Encodes s2 cells2 buf2 size2) (hne1 : s1 ≠ []) (hne2 : s2 ≠ []) {j1 j2 : Nat}
    {col : ColumnDesc} {c : Cell} (hcol1 : s1[j1]? = some col) (hcol2 : s2[j2]? = some col)
    (hc1 : cells1[j1]? = some c) (hc2 : cells2[j2]? = some c) (hfit : c.fits col = true) :
    (RowView.new s1 buf1 size1).readCell j1 col = (RowView.new s2 buf2 size2).readCell j2 col := by
  by_cases hnull : c = .null
  · subst hnull
    rw [readCell_of_encodes_null h1 hne1 hcol1 hc1, readCell_of_encodes_null h2 hne2 hcol2 hc2]
  · rw [readCell_of_encodes h1 hne1 hcol1 hc1 hfit hnull,
      readCell_of_encodes h2 hne2 hcol2 hc2 hfit hnull]

/-- A row that holds the projected cells under the output schema is a
projection of the row they came from. -/
theorem projects_of_encodes (hv : Versions vs S1) (hp : plist ≠ [])
    (hidx : ∀ i ∈ plist, i < S1.length) {row out : List UInt8} {s : Schema} {cells : List Cell}
    (hrow : VersionRow vs S1 plist row s cells)
    (hout : Encodes (projectSchema S1 plist) (projectCells cells plist) out out.length) :
    Projects vs (projectSchema S1 plist) plist row out := by
  intro s' hs' i idx col hi hcol
  rw [hrow.find, Option.some.injEq] at hs'
  subst hs'
  have hpre := hv.appends _ _ hrow.find
  have hidx' : ∀ i ∈ plist, i < cells.length := fun i hi =>
    lt_of_lt_of_le (hidx i hi) (hrow.fits.length_eq ▸ hpre.length_le)
  have hS : idx < S1.length := hidx idx (List.mem_of_getElem? hi)
  obtain ⟨c, hc⟩ : ∃ c, cells[idx]? = some c :=
    ⟨_, List.getElem?_eq_getElem (hidx' idx (List.mem_of_getElem? hi))⟩
  -- position `i` of the output holds column `idx` of `S1`, which is that of `s`, and its cell
  have hocol : (projectSchema S1 plist)[i]? = some col := by
    rw [projectSchema, getElem?_select hidx, hi, Option.bind_some, getElem?_of_prefix hpre hS, hcol]
  have hoc : (projectCells cells plist)[i]? = some c := by
    rw [projectCells, getElem?_select hidx', hi, Option.bind_some, hc]
  have hne : s ≠ [] := ne_nil_of_select hp fun i hi => lt_of_lt_of_le (hidx i hi) hpre.length_le
  refine ⟨by rw [hout.nullBit i c hoc, hrow.encodes.nullBit idx c hc], ?_⟩
  exact readCell_eq_of_encodes hout hrow.encodes (select_ne_nil hp hidx) hne hocol hcol hoc hc
    (hrow.fits.cell idx col c hcol hc)

/-- The run lemma: `Project` on rows of versions of the map, one after
another, returns a projection of each and keeps the projection ready. -/
theorem projectAll_ready (hv : Versions vs S1) (hp : plist ≠ [])
    (hidx : ∀ i ∈ plist, i < S1.length) :
    ∀ (rows : List (List UInt8 × List UInt8)) (p : RowProject), Ready vs S1 plist p →
      (∀ r ∈ rows, ∃ s cells, VersionRow vs S1 plist r.1 s cells) →
      Ready vs S1 plist (p.projectAll rows).1 ∧
        List.Forall₂ (fun r out => ∃ bytes, out = some bytes ∧
          Projects vs (projectSchema S1 plist) plist r.1 bytes) rows (p.projectAll rows).2
  | [], _, hr, _ => ⟨hr, .nil⟩
  | (row, mem) :: rows, p, hr, hrows => by
    obtain ⟨s, cells, hrow⟩ := hrows (row, mem) List.mem_cons_self
    obtain ⟨p', out, hproj, hr', henc⟩ := project_ready hv hp hidx hr hrow mem
    obtain ⟨hrest, hall⟩ :=
      projectAll_ready hv hp hidx rows p' hr' fun r hr => hrows r (List.mem_cons_of_mem _ hr)
    simp only [projectAll, hproj]
    exact ⟨hrest, .cons ⟨out, rfl, projects_of_encodes hv hp hidx hrow henc⟩ hall⟩

end Step

/-! ## Projection across versions -/

/-- **Row projection is faithful.** For the versions of a table and a
non-empty projection list of columns of `S1`, `Init` succeeds with the
projected columns of `S1` as the output schema. Then on every sequence of
rows of versions of the map, each with its projection shorter than `2^32`
bytes, every `Project` returns `true` and a row from which `RowView` reads,
at each position `i`, the NULL flag and the value of column `plist[i]` of
the input row. -/
theorem rowProject_faithful (vs : SortedMap Int Schema) (S1 : Schema) (plist : List Nat)
    (hv : Versions vs S1) (hp : plist ≠ []) (hidx : ∀ i ∈ plist, i < S1.length) :
    ∃ p, (RowProject.new vs plist).init = (p, true) ∧ p.outputSchema = projectSchema S1 plist ∧
      ∀ rows : List (List UInt8 × List UInt8),
        (∀ r ∈ rows, ∃ s cells, VersionRow vs S1 plist r.1 s cells) →
        List.Forall₂ (fun r out => ∃ bytes, out = some bytes ∧
          Projects vs (projectSchema S1 plist) plist r.1 bytes) rows (p.projectAll rows).2 := by
  obtain ⟨p, hinit, hr⟩ := init_ready hv hp hidx
  exact ⟨p, hinit, hr.outputSchema_eq, fun rows hrows => (projectAll_ready hv hp hidx rows p hr hrows).2⟩

/-- The projection `[1, 0, 1]` of a table whose second version appends a
nullable `int` column. -/
theorem rowProject_faithful_two_versions :
    Versions ⟨[(1, [⟨.kInt, false⟩, ⟨.kVarchar, false⟩]),
        (2, [⟨.kInt, false⟩, ⟨.kVarchar, false⟩, ⟨.kInt, true⟩])], by decide⟩
      [⟨.kInt, false⟩, ⟨.kVarchar, false⟩] ∧
    [1, 0, 1] ≠ [] ∧ (∀ i ∈ [1, 0, 1], i < ([⟨.kInt, false⟩, ⟨.kVarchar, false⟩] : Schema).length) ∧
    ∃ p, (RowProject.new ⟨[(1, [⟨.kInt, false⟩, ⟨.kVarchar, false⟩]),
        (2, [⟨.kInt, false⟩, ⟨.kVarchar, false⟩, ⟨.kInt, true⟩])], by decide⟩ [1, 0, 1]).init = (p, true) ∧
      p.outputSchema = projectSchema [⟨.kInt, false⟩, ⟨.kVarchar, false⟩] [1, 0, 1] ∧
      ∀ rows : List (List UInt8 × List UInt8),
        (∀ r ∈ rows, ∃ s cells, VersionRow ⟨[(1, [⟨.kInt, false⟩, ⟨.kVarchar, false⟩]),
        (2, [⟨.kInt, false⟩, ⟨.kVarchar, false⟩, ⟨.kInt, true⟩])], by decide⟩
          [⟨.kInt, false⟩, ⟨.kVarchar, false⟩] [1, 0, 1] r.1 s cells) →
        List.Forall₂ (fun r out => ∃ bytes, out = some bytes ∧
          Projects ⟨[(1, [⟨.kInt, false⟩, ⟨.kVarchar, false⟩]),
        (2, [⟨.kInt, false⟩, ⟨.kVarchar, false⟩, ⟨.kInt, true⟩])], by decide⟩
            (projectSchema [⟨.kInt, false⟩, ⟨.kVarchar, false⟩] [1, 0, 1]) [1, 0, 1] r.1 bytes)
          rows (p.projectAll rows).2 := by
  have hv : Versions ⟨[(1, [⟨.kInt, false⟩, ⟨.kVarchar, false⟩]),
        (2, [⟨.kInt, false⟩, ⟨.kVarchar, false⟩, ⟨.kInt, true⟩])], by decide⟩
      [⟨.kInt, false⟩, ⟨.kVarchar, false⟩] := by
    refine ⟨rfl, fun k s h => ?_, fun k s h => ?_⟩
    · unfold SortedMap.find? at h
      rw [SortedMap.lookup_cons, SortedMap.lookup_cons] at h
      split_ifs at h with h1 h2 <;> first | omega | simp [List.lookup] at h
    · unfold SortedMap.find? at h
      rw [SortedMap.lookup_cons, SortedMap.lookup_cons] at h
      split_ifs at h with h1 h2
      · cases h
        exact List.prefix_refl _
      · cases h
        exact List.prefix_append _ _
      · simp [List.lookup] at h
  exact ⟨hv, by decide, by decide, rowProject_faithful _ _ _ hv (by decide) (by decide)⟩

/-- A projection that reads the wrong schema: a version `0` below version `1`. The map sends
`0` to the schema of version `1` with an `int` column appended, so every
schema extends that of version `1`, and the projection `[1]` takes a column
of both. `Init` points `cur_rv_` at version `0`, the first key, while
`cur_ver_` is `1`, so a row that `RowBuilder` built under version `1` is
read with the layout of version `0`: its string offset table starts four
bytes later, and the string `[1, 2, 3, 13, 5, 6]` comes out as
`[2, 3, 13, 5, 6]`. -/
theorem rowProject_misreads_version_zero :
    (⟨[(0, [⟨.kInt, false⟩, ⟨.kVarchar, false⟩, ⟨.kInt, false⟩]),
        (1, [⟨.kInt, false⟩, ⟨.kVarchar, false⟩])], by decide⟩ : SortedMap Int Schema).find? 1 =
      some [⟨.kInt, false⟩, ⟨.kVarchar, false⟩] ∧
    ([⟨.kInt, false⟩, ⟨.kVarchar, false⟩] : Schema) <+:
      [⟨.kInt, false⟩, ⟨.kVarchar, false⟩, ⟨.kInt, false⟩] ∧
    (buildRow [⟨.kInt, false⟩, ⟨.kVarchar, false⟩] (List.replicate 18 0)
        [.int 5, .str [1, 2, 3, 13, 5, 6]]).map RowBuilder.buf =
      some [1, 1, 18, 0, 0, 0, 252, 5, 0, 0, 0, 12, 1, 2, 3, 13, 5, 6] ∧
    ((RowProject.new ⟨[(0, [⟨.kInt, false⟩, ⟨.kVarchar, false⟩, ⟨.kInt, false⟩]),
        (1, [⟨.kInt, false⟩, ⟨.kVarchar, false⟩])], by decide⟩ [1]).init).2 = true ∧
    (((RowProject.new ⟨[(0, [⟨.kInt, false⟩, ⟨.kVarchar, false⟩, ⟨.kInt, false⟩]),
        (1, [⟨.kInt, false⟩, ⟨.kVarchar, false⟩])], by decide⟩ [1]).init).1.project
        [1, 1, 18, 0, 0, 0, 252, 5, 0, 0, 0, 12, 1, 2, 3, 13, 5, 6] 18 []).2 =
      some [1, 1, 13, 0, 0, 0, 254, 8, 2, 3, 13, 5, 6] ∧
    (RowView.new [⟨.kVarchar, false⟩] [1, 1, 13, 0, 0, 0, 254, 8, 2, 3, 13, 5, 6] 13).readCell 0
        ⟨.kVarchar, false⟩ = (0, some (.str [2, 3, 13, 5, 6])) ∧
    (RowView.new [⟨.kInt, false⟩, ⟨.kVarchar, false⟩]
        [1, 1, 18, 0, 0, 0, 252, 5, 0, 0, 0, 12, 1, 2, 3, 13, 5, 6] 18).readCell 1
        ⟨.kVarchar, false⟩ = (0, some (.str [1, 2, 3, 13, 5, 6])) :=
  ⟨rfl, ⟨_, rfl⟩, by decide, by decide, by decide, by decide, by decide⟩

end RowProject

end Fedb.Codec
