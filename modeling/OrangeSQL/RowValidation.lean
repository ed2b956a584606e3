import OrangeSQL.TableStore

/-! The two validators of a row: that of a table, which every write passes, and that of a schema.
They test NULL and the length of a text by different means. -/
namespace OrangeSQL

def Value.isNull (val : Value) : Bool := val.type = .nullType

namespace TableSchema

/-- One round of the loop: that the validator goes on. -/
def validateColumn (col : ColumnSchema) (val : Value) : Bool :=
  if val.isNull && !col.nullable then false
  else if !val.isNull && decide (val.type ≠ col.type) then false
  else !(!val.isNull && decide (col.type = .varchar ∨ col.type = .char) &&
    decide (col.length.toNat < val.strVal.length))

def validateRecord (schema : TableSchema) (record : List Value) : Bool :=
  decide (record.length = schema.columns.length) &&
    (record.zip schema.columns).all fun (val,col) => validateColumn col val

end TableSchema

namespace RowValidation

section Columns

variable (val : Value) (col : ColumnSchema)

/-- A NULL in a column for NULLs only that does not take any, or a text that is too long. -/
def TableOnly : Prop :=
  val.type = col.type ∧ (col.type = .nullType ∧ col.nullable = false ∨
    (col.type = .varchar ∨ col.type = .char) ∧ col.length.toNat < val.strVal.length)

/-- A NULL in a nullable column of another type, or a zero in an integer column that is not. -/
def SchemaOnly : Prop :=
  val.type = .nullType ∧ col.type ≠ .nullType ∧ col.nullable = true ∨
  val.type = .integer ∧ col.type = .integer ∧ col.nullable = false ∧
    val.data.toUInt32 = 0 ∧ val.strVal = []

/-- A value of another type that is not a NULL in a nullable column. -/
def Mismatch : Prop :=
  val.type ≠ col.type ∧ (val.type = .nullType → col.nullable = false)

/-- The test of a table for one value. -/
def tableAccepts : Bool :=
  if val.type ≠ col.type then false
  else !(!col.nullable && decide (val.type = .integer) && decide (val.data.toUInt32 = 0) &&
    val.strVal.isEmpty)

variable {val col}

theorem tableAccepts_eq_false :
    tableAccepts val col = false ↔ Mismatch val col ∨ SchemaOnly val col := by
  unfold tableAccepts Mismatch SchemaOnly
  by_cases htype : val.type = col.type
  · cases hnull : col.nullable <;> cases hcol : col.type <;> simp [htype,hcol]
  · have hne := Ne.symm htype
    cases hnull : col.nullable <;> cases hval : val.type <;> simp_all

theorem validateColumn_eq_false :
    TableSchema.validateColumn col val = false ↔ Mismatch val col ∨ TableOnly val col := by
  unfold TableSchema.validateColumn Mismatch TableOnly Value.isNull
  by_cases htype : val.type = col.type
  · cases hnull : col.nullable <;> cases hcol : col.type <;> simp [htype,hcol]
  · cases hnull : col.nullable <;> cases hval : val.type <;> simp_all

end Columns

section Rows

variable (t : OpenTable) (row : List Value)

theorem table_validateRecord_eq_false :
    t.validateRecord row = false ↔ row.length ≠ t.schema.columns.length ∨
      ∃ p ∈ row.zip t.schema.columns, Mismatch p.1 p.2 ∨ SchemaOnly p.1 p.2 := by
  rw [OpenTable.validateRecord,Bool.and_eq_false_iff,decide_eq_false_iff_not]
  by_cases hlength : row.length = t.schema.columns.length
  · have hcolumn : ∀ {val col i}, t.schema.columns[i]? = some col →
        t.validateColumn i val = tableAccepts val col := by
      intro val col i hcol
      rw [OpenTable.validateColumn,hcol,tableAccepts]
    simp only [hlength,not_true_eq_false,false_or,ne_eq,List.all_eq_false,Bool.not_eq_true,
      ← tableAccepts_eq_false]
    constructor
    · rintro ⟨⟨val,i⟩,hmem,hfalse⟩
      have hval := List.mem_zipIdx_iff_getElem?.mp hmem
      obtain ⟨hi,_⟩ := List.getElem?_eq_some_iff.mp hval
      have hcol := List.getElem?_eq_getElem (hlength ▸ hi)
      refine ⟨(val,_),List.mem_iff_getElem?.mpr ⟨i,?_⟩,(hcolumn hcol).symm.trans hfalse⟩
      exact List.getElem?_zip_eq_some.mpr ⟨hval,hcol⟩
    · rintro ⟨⟨val,col⟩,hmem,hfalse⟩
      obtain ⟨i,hi⟩ := List.mem_iff_getElem?.mp hmem
      obtain ⟨hval,hcol⟩ := List.getElem?_zip_eq_some.mp hi
      exact ⟨(val,i),List.mem_zipIdx_iff_getElem?.mpr hval,(hcolumn hcol).trans hfalse⟩
  · simp [hlength]

theorem schema_validateRecord_eq_false (schema : TableSchema) :
    schema.validateRecord row = false ↔ row.length ≠ schema.columns.length ∨
      ∃ p ∈ row.zip schema.columns, Mismatch p.1 p.2 ∨ TableOnly p.1 p.2 := by
  rw [TableSchema.validateRecord,Bool.and_eq_false_iff,decide_eq_false_iff_not]
  simp only [List.all_eq_false,Bool.not_eq_true,validateColumn_eq_false,ne_eq]

/-- The validators disagree on a row just when one of them alone refuses some of its values. -/
theorem validateRecord_eq_iff : t.validateRecord row = t.schema.validateRecord row ↔
    row.length ≠ t.schema.columns.length ∨
    (∃ p ∈ row.zip t.schema.columns, Mismatch p.1 p.2) ∨
    ((∃ p ∈ row.zip t.schema.columns, TableOnly p.1 p.2) ↔
      ∃ p ∈ row.zip t.schema.columns, SchemaOnly p.1 p.2) := by
  have htable := table_validateRecord_eq_false t row
  have hschema := schema_validateRecord_eq_false row t.schema
  simp only [and_or_left,exists_or] at htable hschema
  have heq : t.validateRecord row = t.schema.validateRecord row ↔
      (t.validateRecord row = false ↔ t.schema.validateRecord row = false) := by
    cases t.validateRecord row <;> cases t.schema.validateRecord row <;> simp
  rw [heq,htable,hschema]
  by_cases hlength : row.length = t.schema.columns.length
  · by_cases hmismatch : ∃ p ∈ row.zip t.schema.columns, Mismatch p.1 p.2
    · simp only [hmismatch,true_or,or_true]
    · simp only [hlength,hmismatch,ne_eq,not_true_eq_false,false_or]
      exact iff_comm
  · simp only [hlength,ne_eq,not_false_eq_true,true_or]

/-- A table of one column, which the default constructor makes: a nullable INTEGER. -/
def oneColumn : OpenTable := ⟨{ TableSchema.new with columns := [ColumnSchema.new] },0,0⟩

/-- A row with a NULL is legal by the schema and refused by the table. -/
theorem null_refused : ¬ ∀ (t : OpenTable) (row : List Value),
    t.validateRecord row = t.schema.validateRecord row := by
  intro h
  exact absurd (h oneColumn [Value.null]) (by decide)

end Rows

end RowValidation
end OrangeSQL
