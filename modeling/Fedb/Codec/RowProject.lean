import Fedb.Lib.SortedMap
import Fedb.Codec.RowWriter

/-! # `RowProject`: the columns of a row that a read asks for

`RowProject` (`src/codec/codec.cc`) serves a read with a projection list
`plist`: it copies the columns `plist` of a stored row, in that order, into a
row of their own. The rows of a table are written under several schema
versions, each the one before with columns appended; byte `1` of a row is its
version. `TabletImpl::GetIndex` makes one `RowProject` for a read and calls
`Project` on every row the read returns.

`Init` keeps a `RowView` for every version whose schema has all projected
columns, and takes the output schema from the first version of the map.
`Project` switches to the view of the row's version when it is not the last
one (`cur_ver_`, `1` at the start), resets the view on the row, sums the
lengths of the projected strings, asks `CalTotalLength` for the size and
appends every projected column to the `RowBuilder` over a fresh buffer. The
results of `SetBuffer` and of the appends are not looked at.

`cur_rv_` and `cur_schema_` are `shared_ptr`s into the two maps. The model
keeps the key of the view `cur_rv_` points at (`curRv`), so that a `Reset`
through it changes the entry of the map as it does in C++: a failed `Reset`
leaves that view invalid for every later row, since `is_valid_` is only ever
set to `false`.
-/

namespace Fedb.Codec

open ByteBuffer

/-- `RowView(schema)`: the layout of `Init` and no row yet. -/
def RowView.ofSchema (schema : Schema) : RowView :=
  let v : RowView :=
    { strAddrLength := 0
      isValid := true
      stringFieldCnt := 0
      strFieldStartOffset := 0
      size := 0
      row := []
      schema := schema
      offsetVec := [] }
  match RowView.initOffsets schema 0 (headerLength + bitMapSize schema.length) with
  | none => { v with isValid := false }
  | some r => { v with offsetVec := r.1, stringFieldCnt := r.2.1, strFieldStartOffset := r.2.2 }

/-- What `Reset(row, size)` returns. -/
def RowView.resetOk (v : RowView) (row : List UInt8) (size : Nat) : Bool :=
  !decide (v.schema.length = 0 ∨ size ≤ headerLength ∨ readLE row versionLength sizeLength ≠ size)

/-- The members of `RowProject`. `curRv` is the key of the entry of
`vers_views_` that `cur_rv_` points at, `none` while it is `nullptr`;
`rowBuilder` is `none` while `row_builder_` is `NULL`. -/
structure RowProject where
  plist : List Nat
  outputSchema : Schema
  rowBuilder : Option RowBuilder
  curSchema : Schema
  curRv : Option Int
  maxIdx : Nat
  versViews : SortedMap Int RowView
  versSchema : SortedMap Int Schema
  curVer : Nat

namespace RowProject

/-- `RowProject(vers_schema, plist)`. -/
def new (versSchema : SortedMap Int Schema) (plist : List Nat) : RowProject :=
  { plist := plist
    outputSchema := []
    rowBuilder := none
    curSchema := []
    curRv := none
    maxIdx := 0
    versViews := .empty
    versSchema := versSchema
    curVer := 1 }

/-- The first loop of `Init`: the largest projected index. -/
def maxIndex (plist : List Nat) (maxIdx : Nat) : Nat :=
  plist.foldl (fun m idx => if idx ≥ m then idx else m) maxIdx

/-- The second loop of `Init`: a view for every schema with more columns
than the largest index. `insert` leaves a view already in the map. -/
def initViews (maxIdx : Nat) : List (Int × Schema) → SortedMap Int RowView → SortedMap Int RowView
  | [], views => views
  | (k, s) :: rest, views =>
    initViews maxIdx rest (if maxIdx ≥ s.length then views else views.insert k (RowView.ofSchema s))

/-- `Init()`: `false` for an empty projection list, or when no schema has
every projected column. The output schema is the projected columns of the
first version's schema. -/
def init (p : RowProject) : RowProject × Bool :=
  if p.plist.length ≤ 0 then (p, false)
  else
    let maxIdx := maxIndex p.plist p.maxIdx
    let views := initViews maxIdx p.versSchema.entries p.versViews
    match views.first? with
    | none => ({ p with maxIdx := maxIdx, versViews := views }, false)
    | some (key, _) =>
      let curSchema := (p.versSchema.find? key).getD []
      -- `cur_schema_->Get(idx)`; the schema of a view has every projected column
      let outputSchema := p.outputSchema ++ p.plist.filterMap fun idx => curSchema[idx]?
      ({ p with maxIdx := maxIdx, versViews := views, curSchema := curSchema, curRv := some key,
                outputSchema := outputSchema, rowBuilder := some (RowBuilder.new outputSchema) },
        true)

/-- The first loop of `Project`: the total length of the projected strings
that are not NULL, as `uint32_t`; `none` when a `GetString` fails. -/
def strSizeLoop (v : RowView) (schema : Schema) : List Nat → Nat → Option Nat
  | [], strSize => some strSize
  | idx :: rest, strSize =>
    match schema[idx]? with
    | none => none
    | some column =>
      if !isStringType column.dataType then strSizeLoop v schema rest strSize
      else if RowView.isNULL v.row idx then strSizeLoop v schema rest strSize
      else
        let r := v.getString idx
        if r.1 ≠ 0 then none
        else strSizeLoop v schema rest (u32 (strSize + (r.2.getD []).length))

/-- The second loop of `Project`: `AppendNULL` for a NULL column, and
otherwise the getter of the column's type and the append of the value it
read. A failed append is not noticed; a failed getter stops the loop with
`false`. -/
def appendLoop (v : RowView) (schema : Schema) : List Nat → RowBuilder → RowBuilder × Bool
  | [], b => (b, true)
  | idx :: rest, b =>
    match schema[idx]? with
    | none => (b, false)
    | some column =>
      if RowView.isNULL v.row idx then appendLoop v schema rest (b.appendNULL.getD b)
      else
        let r := v.readCell idx column
        if r.1 ≠ 0 then (b, false)
        else
          match r.2 with
          | some c => appendLoop v schema rest ((b.appendCell c).getD b)
          | none => appendLoop v schema rest b

/-- The start of `Project`: for a row of a version other than `cur_ver_`,
`cur_rv_`, `cur_ver_` and `cur_schema_` move to that version; `none` when
the map has no view of it. -/
def switchVersion (p : RowProject) (version : Nat) : Option RowProject :=
  if version ≠ p.curVer then
    match p.versViews.find? version with
    | none => none
    | some _ =>
      some { p with curRv := some version, curVer := version,
                    curSchema := (p.versSchema.find? version).getD [] }
  else some p

/-- The rest of `Project`, once the view is reset on the row: the size of
the output from the first loop, `SetBuffer` over the fresh memory `mem`, and
the second loop. When `SetBuffer` fails the appends go to the buffer the
builder had, and the fresh memory is returned as it is. -/
def projectWith (p : RowProject) (view : RowView) (builder : RowBuilder) (mem : List UInt8) :
    RowProject × Option (List UInt8) :=
  match strSizeLoop view p.curSchema p.plist 0 with
  | none => (p, none)
  | some strSize =>
    let totalSize := builder.calTotalLength strSize
    let ptr := resize mem totalSize
    let start := match builder.setBuffer ptr totalSize with
      | some b => (b, true)
      | none => (builder, false)
    let r := appendLoop view p.curSchema p.plist start.1
    let p := { p with rowBuilder := some r.1 }
    if !r.2 then (p, none)
    else (p, some (if start.2 then r.1.buf else ptr))

/-- `Project(row_ptr, size, &output_ptr, &out_size)`, with `mem` the bytes
of the `new char[total_size]` it writes into. Returns the state after the
call, and `none` for `false` or the `out_size` bytes at `output_ptr`.
`Reset` is called through `cur_rv_`, so it changes the view in the map even
when it fails. Before `Init` (undefined in C++) the model returns `none`. -/
def project (p : RowProject) (row : List UInt8) (size : Nat) (mem : List UInt8) :
    RowProject × Option (List UInt8) :=
  match p.switchVersion (byteAt row 1).toNat with
  | none => (p, none)
  | some p =>
    match p.curRv, p.rowBuilder with
    | some key, some builder =>
      match p.versViews.find? key with
      | none => (p, none)
      | some view =>
        let p := { p with versViews := p.versViews.modify key fun v => v.reset row size }
        if !view.resetOk row size then (p, none)
        else p.projectWith (view.reset row size) builder mem
    | _, _ => (p, none)

/-- `Project` on one row after another, each with the fresh memory of its
own output: the state after the last row and the results in order. -/
def projectAll (p : RowProject) : List (List UInt8 × List UInt8) →
    RowProject × List (Option (List UInt8))
  | [] => (p, [])
  | (row, mem) :: rows =>
    let r := p.project row row.length mem
    let rs := projectAll r.1 rows
    (rs.1, r.2 :: rs.2)

end RowProject

end Fedb.Codec
