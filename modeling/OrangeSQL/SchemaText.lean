import OrangeSQL.CheckpointReading
import OrangeSQL.SqlParser
import OrangeSQL.Library.SeparatedFields

/-! The text of a column of the schema: its fields with bars between them. A bar inside a field is not
marked, and the reader takes it for the end of the field. -/
namespace OrangeSQL
namespace Schema

open SeparatedFields

/-- The enumeration `ExtendedDataType`, and the integers that no enumerator stands for. -/
inductive ExtendedDataType
  | INTEGER | BIGINT | SMALLINT | VARCHAR | CHAR | TEXT | BOOLEAN | DATE | TIME | TIMESTAMP | DECIMAL
  | FLOAT | DOUBLE | BLOB | JSON | UUID | ARRAY | ENUM
  | unnamed (code : Int32) (h : code < 0 ∨ 17 < code)
  deriving DecidableEq, Repr

namespace ExtendedDataType

def code : ExtendedDataType → Int32
  | INTEGER => 0 | BIGINT => 1 | SMALLINT => 2 | VARCHAR => 3 | CHAR => 4 | TEXT => 5 | BOOLEAN => 6
  | DATE => 7 | TIME => 8 | TIMESTAMP => 9 | DECIMAL => 10 | FLOAT => 11 | DOUBLE => 12 | BLOB => 13
  | JSON => 14 | UUID => 15 | ARRAY => 16 | ENUM => 17 | unnamed code _ => code

def ofCode (code : Int32) : ExtendedDataType :=
  if h : code < 0 ∨ 17 < code then unnamed code h
  else
    match code.toInt.toNat with
    | 0 => INTEGER | 1 => BIGINT | 2 => SMALLINT | 3 => VARCHAR | 4 => CHAR | 5 => TEXT | 6 => BOOLEAN
    | 7 => DATE | 8 => TIME | 9 => TIMESTAMP | 10 => DECIMAL | 11 => FLOAT | 12 => DOUBLE | 13 => BLOB
    | 14 => JSON | 15 => UUID | 16 => ARRAY | _ => ENUM

theorem ofCode_code (type : ExtendedDataType) : ofCode type.code = type := by
  cases type with
  | unnamed code h => exact dif_pos h
  | _ => rfl

end ExtendedDataType

structure ColumnAttributes where
  nullable : Bool
  unique : Bool
  primaryKey : Bool
  autoIncrement : Bool
  defaultValue : Text
  checkExpr : Text
  comment : Text
  deriving DecidableEq, Repr

def ColumnAttributes.new : ColumnAttributes := ⟨true,false,false,false,[],[],[]⟩

structure Column where
  id : UInt16
  name : Text
  type : ExtendedDataType
  length : UInt64
  precision : Int32
  scale : Int32
  attributes : ColumnAttributes
  deriving DecidableEq, Repr

namespace Column

/-- The constructor from a name and a type. -/
def new (name : Text) (type : ExtendedDataType) : Column :=
  let length := match type with
    | .VARCHAR => 255
    | .CHAR => 1
    | _ => 0
  ⟨0,name,type,length,10,0,.new⟩

def setPrimaryKey (col : Column) : Column :=
  { col with attributes := { col.attributes with primaryKey := true } }

/-- What a stream prints for a truth value, for an unsigned and for a signed integer. -/
def boolText (b : Bool) : Text := if b then ['1'] else ['0']
def digits (n : ℕ) : Text := Nat.toDigits 10 n
def intText (v : Int32) : Text :=
  if v.toInt < 0 then '-'::digits v.toInt.natAbs else digits v.toInt.natAbs

def fields (col : Column) : List Text :=
  [digits col.id.toNat,col.name,intText col.type.code,digits col.length.toNat,intText col.precision,
    intText col.scale,boolText col.attributes.nullable,boolText col.attributes.unique,
    boolText col.attributes.primaryKey,boolText col.attributes.autoIncrement,
    col.attributes.defaultValue,col.attributes.checkExpr,col.attributes.comment]

def toString (col : Column) : Text := ['|'].intercalate col.fields

def fromString (str : Text) : Option Column := do
  let line := getline '|' ⟨[],str,true⟩
  let id ← (stoull line.token).toOption
  let line := getline '|' line
  let name := line.token
  let line := getline '|' line
  let type ← (stoi line.token).toOption
  let line := getline '|' line
  let length ← (stoull line.token).toOption
  let line := getline '|' line
  let precision ← (stoi line.token).toOption
  let line := getline '|' line
  let scale ← (stoi line.token).toOption
  let line := getline '|' line
  let nullable := line.token == ['1']
  let line := getline '|' line
  let unique := line.token == ['1']
  let line := getline '|' line
  let primaryKey := line.token == ['1']
  let line := getline '|' line
  let autoIncrement := line.token == ['1']
  let line := getline '|' line
  let defaultValue := line.token
  let line := getline '|' line
  let checkExpr := line.token
  let line := getline '|' line
  let comment := line.token
  return ⟨UInt16.ofNat id,name,.ofCode type,UInt64.ofNat length,precision,scale,
    ⟨nullable,unique,primaryKey,autoIncrement,defaultValue,checkExpr,comment⟩⟩

theorem fromString_eq (str : Text) : fromString str = do
    let id ← (stoull (tokenAt '|' str 0)).toOption
    let type ← (stoi (tokenAt '|' str 2)).toOption
    let length ← (stoull (tokenAt '|' str 3)).toOption
    let precision ← (stoi (tokenAt '|' str 4)).toOption
    let scale ← (stoi (tokenAt '|' str 5)).toOption
    return ⟨UInt16.ofNat id,tokenAt '|' str 1,.ofCode type,UInt64.ofNat length,precision,scale,
      ⟨tokenAt '|' str 6 == ['1'],tokenAt '|' str 7 == ['1'],tokenAt '|' str 8 == ['1'],
        tokenAt '|' str 9 == ['1'],tokenAt '|' str 10,tokenAt '|' str 11,tokenAt '|' str 12⟩⟩ := by
  simp only [fromString,tokenAt,Function.iterate_succ_apply',Function.iterate_zero,id_eq]

section Numbers

theorem bar_not_mem_digits (n : ℕ) : '|' ∉ digits n := fun h => by
  have hdigit := isDigit_of_mem_toDigits h
  cases hdigit

theorem bar_not_mem_intText (v : Int32) : '|' ∉ intText v := by
  rw [intText]
  split_ifs
  · rw [List.mem_cons,not_or]
    exact ⟨by decide,bar_not_mem_digits _⟩
  · exact bar_not_mem_digits _

theorem bar_not_mem_boolText (b : Bool) : '|' ∉ boolText b := by cases b <;> decide

theorem boolText_eq (b : Bool) : (boolText b == ['1']) = b := by cases b <;> decide

theorem stoi_minus_digits {n : ℕ} (hn : n ≤ 2^31) :
    stoi ('-'::digits n) = .ok (Int32.ofInt (-n)) := by
  have hne : Nat.toDigits 10 n ≠ [] := Nat.toDigits_ne_nil
  have hvalue := @Nat.ofDigitChars_ten_toDigits n
  have hspace : ('-'::Nat.toDigits 10 n).dropWhile isspace = '-'::Nat.toDigits 10 n :=
    List.dropWhile_cons_of_neg (by decide)
  have hsign : signAt ('-'::Nat.toDigits 10 n) = ['-'] := rfl
  simp only [stoi,digits,hspace,hsign,List.length_singleton,List.drop_succ_cons,List.drop_zero,
    takeWhile_isDigit_toDigits,hvalue]
  rw [if_neg hne]
  simp only [if_true]
  rw [if_neg (by omega)]

theorem stoi_intText (v : Int32) : stoi (intText v) = .ok v := by
  have hlow := Int32.le_toInt v
  have hhigh := Int32.toInt_lt v
  rw [intText]
  split_ifs with hneg
  · have habs : (-(v.toInt.natAbs : ℤ)) = v.toInt := by omega
    rw [stoi_minus_digits (by omega),habs,Int32.ofInt_toInt]
  · have habs : ((v.toInt.natAbs : ℕ) : ℤ) = v.toInt := by omega
    rw [digits,stoi_toDigits _ (by omega),habs,Int32.ofInt_toInt]

end Numbers

section Reading

/-- No text of the column has a bar in it. -/
def Plain (col : Column) : Prop :=
  '|' ∉ col.name ∧ '|' ∉ col.attributes.defaultValue ∧ '|' ∉ col.attributes.checkExpr ∧
    '|' ∉ col.attributes.comment

instance (col : Column) : Decidable col.Plain := inferInstanceAs (Decidable (_ ∧ _ ∧ _ ∧ _))

variable {col col' : Column} {str : Text}

theorem Plain.fields (h : col.Plain) : ∀ f ∈ col.fields, '|' ∉ f := by
  obtain ⟨hname,hdefault,hcheck,hcomment⟩ := h
  simp only [Column.fields,List.forall_mem_cons,bar_not_mem_digits,bar_not_mem_intText,
    bar_not_mem_boolText,hname,hdefault,hcheck,hcomment,not_false_eq_true,true_and,List.not_mem_nil]
  exact nofun

theorem Plain.tokenAt (h : col.Plain) {k : ℕ} (hk : k < col.fields.length) :
    tokenAt '|' col.toString k = col.fields[k] := by
  rw [Column.toString,tokenAt_intercalate hk fun f hf => h.fields f (List.mem_of_mem_take hf)]
  exact takeWhile_of_not_mem (h.fields _ (List.getElem_mem hk))

theorem Plain.fromString_toString (h : col.Plain) : fromString col.toString = some col := by
  have htoken : ∀ k (hk : k < 13), SeparatedFields.tokenAt '|' col.toString k = col.fields[k] :=
    fun k hk => h.tokenAt hk
  have hid : stoull (digits col.id.toNat) = .ok col.id.toNat :=
    stoull_toDigits (col.id.toNat_lt.trans (by decide))
  have hlength : stoull (digits col.length.toNat) = .ok col.length.toNat :=
    stoull_toDigits col.length.toNat_lt
  rw [fromString_eq,htoken 0 (by decide),htoken 1 (by decide),htoken 2 (by decide),
    htoken 3 (by decide),htoken 4 (by decide),htoken 5 (by decide),htoken 6 (by decide),
    htoken 7 (by decide),htoken 8 (by decide),htoken 9 (by decide),htoken 10 (by decide),
    htoken 11 (by decide),htoken 12 (by decide)]
  simp only [Column.fields,List.getElem_cons_zero,List.getElem_cons_succ,hid,hlength,stoi_intText,
    boolText_eq,Except.toOption,Option.bind_eq_bind,Option.bind_some,Option.pure_def,
    ExtendedDataType.ofCode_code,UInt16.ofNat_toNat,UInt64.ofNat_toNat]

/-- The names and the texts of what is read are lines of the text. -/
theorem lines_of_fromString (h : fromString str = some col) :
    col.name = SeparatedFields.tokenAt '|' str 1 ∧
    col.attributes.defaultValue = SeparatedFields.tokenAt '|' str 10 ∧
    col.attributes.checkExpr = SeparatedFields.tokenAt '|' str 11 ∧
    col.attributes.comment = SeparatedFields.tokenAt '|' str 12 := by
  rw [fromString_eq] at h
  simp only [Option.bind_eq_bind,Option.bind_eq_some_iff,Option.pure_def,Option.some.injEq] at h
  obtain ⟨_,_,_,_,_,_,_,_,_,_,rfl⟩ := h
  exact ⟨rfl,rfl,rfl,rfl⟩

/-- A line in front of which no field has a bar in it is the field only if that has none. -/
theorem bar_not_mem_of_tokenAt {k : ℕ} (hk : k < 13)
    (hfront : ∀ f ∈ col.fields.take k, '|' ∉ f)
    (h : col.fields[k] = SeparatedFields.tokenAt '|' col.toString k) : '|' ∉ col.fields[k] := by
  rw [Column.toString,tokenAt_intercalate hk hfront] at h
  exact takeWhile_eq_iff.mp h.symm

theorem fromString_toString_iff : fromString col.toString = some col ↔ col.Plain := by
  refine ⟨fun h => ?_,Plain.fromString_toString⟩
  obtain ⟨hname,hdefault,hcheck,hcomment⟩ := lines_of_fromString h
  have hname : '|' ∉ col.name := @bar_not_mem_of_tokenAt col 1 (by decide) (by
    simp [Column.fields,bar_not_mem_digits]) hname
  have hdefault : '|' ∉ col.attributes.defaultValue := @bar_not_mem_of_tokenAt col 10 (by decide) (by
    simp [Column.fields,bar_not_mem_digits,bar_not_mem_intText,bar_not_mem_boolText,hname]) hdefault
  have hcheck : '|' ∉ col.attributes.checkExpr := @bar_not_mem_of_tokenAt col 11 (by decide) (by
    simp [Column.fields,bar_not_mem_digits,bar_not_mem_intText,bar_not_mem_boolText,hname,hdefault])
      hcheck
  exact ⟨hname,hdefault,hcheck,@bar_not_mem_of_tokenAt col 12 (by decide) (by
    simp [Column.fields,bar_not_mem_digits,bar_not_mem_intText,bar_not_mem_boolText,hname,hdefault,
      hcheck]) hcomment⟩

end Reading

end Column

end Schema
end OrangeSQL
