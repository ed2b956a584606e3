import OrangeSQL.Library.WeakOrders
import OrangeSQL.PageLayout
import OrangeSQL.QueryExecutor

/-! The scan of a table with an order and a limit. The limit ends the loop over the records, and what
has been read by then is sorted. -/
namespace OrangeSQL

open Page TableIterator WeakOrders

/-- What `scan` uses of its options: no limit is zero, and a column comes with its direction. -/
structure ScanOptions where
  limit : ℕ
  orderBy : List (Text × Bool)

namespace Table

/-- A `size_t`, which is -1 for a column that is not there. -/
def getColumnIndex (schema : TableSchema) (name : Text) : ℕ :=
  (schema.columns.findIdx? fun col => decide (col.name = name)).getD (2^64-1)

/-- The comparison of `scan`; only integers are compared, and a column that a row lacks is left out. -/
def rowLess (schema : TableSchema) : List (Text × Bool) → List Value → List Value → Bool
  | [], _, _ => false
  | (col,asc)::orderBy, a, b =>
    match a[getColumnIndex schema col]?, b[getColumnIndex schema col]? with
    | some x, some y =>
      if x.intVal < y.intVal then asc
      else if x.intVal > y.intVal then !asc
      else rowLess schema orderBy a b
    | _, _ => rowLess schema orderBy a b

/-- The loop of `scan` from an iterator on, with what has been read before. -/
def rowsFrom (t : Table) (limit : ℕ) :
    ℕ → TableIterator → List (List Value) → Option (List (List Value))
  | 0, _, _ => none
  | fuel+1, it, results =>
    if it.equals Table.end then some results
    else
      let results := results++[it.deref.2]
      if limit > 0 ∧ results.length ≥ limit then some results
      else do
        let next ← it.increment t fuel
        rowsFrom t limit fuel next results

/-- The scan with options, over any `std::sort`. -/
def scanWith (schema : TableSchema) (t : Table)
    (sort : (List Value → List Value → Bool) → List (List Value) → List (List Value)) (fuel : ℕ)
    (options : ScanOptions) : Option (List (List Value)) := do
  let it ← t.begin fuel
  let results ← rowsFrom t options.limit fuel it []
  if options.orderBy.isEmpty then return results
  else return sort (rowLess schema options.orderBy) results

/-- The sort key of a row: the integers in the columns of the order, as far as the row has them. -/
def sortKey (schema : TableSchema) (orderBy : List (Text × Bool)) (row : List Value) :
    List (Option ℤ) :=
  orderBy.map fun (col,_) => row[getColumnIndex schema col]?.map Value.intVal

/-- The keys of the first rows in order are those of a scan with this limit. -/
def TopRows (schema : TableSchema) (t : Table) (orderBy : List (Text × Bool)) (n : ℕ) : Prop :=
  ∀ sort, Sorts sort → ∃ fuel limited all,
    scanWith schema t sort fuel ⟨n,orderBy⟩ = some limited ∧
    scanWith schema t sort fuel ⟨0,orderBy⟩ = some all ∧
    limited.map (sortKey schema orderBy) = (all.map (sortKey schema orderBy)).take n

section Loop

variable {t : Table} {fuel : ℕ} {it : TableIterator} {results : List (List Value)}
  {out : List (RecordId × List Value)} {n : ℕ}

theorem rowsFrom_zero (t : Table) (fuel : ℕ) (it : TableIterator) (results : List (List Value)) :
    rowsFrom t 0 fuel it results = (t.scanFrom fuel it).map fun out => results++out.map Prod.snd := by
  induction fuel generalizing it results with
  | zero => rfl
  | succ fuel ih =>
    simp only [rowsFrom,scanFrom,gt_iff_lt,lt_irrefl,false_and,if_false]
    split_ifs
    · simp
    cases it.increment t fuel with
    | none => rfl
    | some next =>
      simp only [Option.bind_eq_bind,Option.bind_some,ih]
      cases t.scanFrom fuel next with
      | none => rfl
      | some rest => simp

/-- A limit cuts off what the loop without one reads. -/
theorem rowsFrom_limit (hscan : t.scanFrom fuel it = some out) (hn : results.length < n) :
    rowsFrom t n fuel it results = some ((results++out.map Prod.snd).take n) := by
  induction fuel generalizing it results out with
  | zero => cases hscan
  | succ fuel ih =>
    simp only [rowsFrom,scanFrom] at hscan ⊢
    split_ifs at hscan ⊢ with hend hfull
    · obtain rfl := Option.some.inj hscan
      rw [List.map_nil,List.append_nil,List.take_of_length_le (Nat.le_of_lt hn)]
    · obtain ⟨next,_,hscan⟩ := Option.bind_eq_some_iff.mp hscan
      obtain ⟨rest,_,hscan⟩ := Option.bind_eq_some_iff.mp hscan
      obtain rfl := Option.some.inj hscan
      rw [List.length_append,List.length_singleton] at hfull
      have hlength : (results++[it.deref.2]).length = n := by
        rw [List.length_append,List.length_singleton]
        omega
      have hcons := List.append_cons results it.deref.2 (rest.map Prod.snd)
      rw [List.map_cons,hcons,List.take_left' hlength]
    · obtain ⟨next,hinc,hscan⟩ := Option.bind_eq_some_iff.mp hscan
      obtain ⟨rest,hrest,hscan⟩ := Option.bind_eq_some_iff.mp hscan
      obtain rfl := Option.some.inj hscan
      have hshort : (results++[it.deref.2]).length < n := by
        rw [List.length_append,List.length_singleton] at hfull ⊢
        omega
      have hcons := List.append_cons results it.deref.2 (rest.map Prod.snd)
      rw [hinc,List.map_cons,hcons]
      exact ih hrest hshort

/-- Both scans sort what is read: the rows of the full scan, and the first ones of them. -/
theorem scanWith_of_scan {schema : TableSchema}
    {sort : (List Value → List Value → Bool) → List (List Value) → List (List Value)}
    {orderBy : List (Text × Bool)} (hscan : t.scan fuel = some out) (hn : 0 < n) :
    let sorted := fun rows : List (List Value) =>
      if orderBy.isEmpty then rows else sort (rowLess schema orderBy) rows
    scanWith schema t sort fuel ⟨n,orderBy⟩ = some (sorted ((out.map Prod.snd).take n)) ∧
    scanWith schema t sort fuel ⟨0,orderBy⟩ = some (sorted (out.map Prod.snd)) := by
  obtain ⟨it,hbegin,hfrom⟩ := Option.bind_eq_some_iff.mp hscan
  have hlimited := @rowsFrom_limit t fuel it [] out n hfrom hn
  have hall := rowsFrom_zero t fuel it []
  rw [hfrom,Option.map_some,List.nil_append] at hall
  rw [List.nil_append] at hlimited
  simp only [scanWith,hbegin,hlimited,hall,Option.bind_eq_bind,Option.bind_some]
  constructor
  · split_ifs with hempty
    · rfl
    · rfl
  · split_ifs with hempty
    · rfl
    · rfl

theorem scan_of_scanWith {schema : TableSchema}
    {sort : (List Value → List Value → Bool) → List (List Value) → List (List Value)}
    {orderBy : List (Text × Bool)} {all : List (List Value)}
    (h : scanWith schema t sort fuel ⟨0,orderBy⟩ = some all) : ∃ out, t.scan fuel = some out := by
  obtain ⟨it,hbegin,h⟩ := Option.bind_eq_some_iff.mp h
  obtain ⟨rows,hrows,_⟩ := Option.bind_eq_some_iff.mp h
  rw [rowsFrom_zero] at hrows
  obtain ⟨out,hfrom,_⟩ := Option.map_eq_some_iff.mp hrows
  exact ⟨out,Option.bind_eq_some_iff.mpr ⟨it,hbegin,hfrom⟩⟩

end Loop

section Keys

variable {schema : TableSchema} {orderBy : List (Text × Bool)}

/-- The comparison of keys, column by column with the directions. -/
def keyLess : List Bool → List (Option ℤ) → List (Option ℤ) → Bool
  | asc::directions, some x::xs, some y::ys =>
    if x < y then asc else if x > y then !asc else keyLess directions xs ys
  | _::directions, _::xs, _::ys => keyLess directions xs ys
  | _, _, _ => false

theorem rowLess_eq (schema : TableSchema) (orderBy : List (Text × Bool)) (a b : List Value) :
    rowLess schema orderBy a b = keyLess (orderBy.map Prod.snd) (sortKey schema orderBy a)
      (sortKey schema orderBy b) := by
  induction orderBy with
  | nil => rfl
  | cons order orderBy ih =>
    obtain ⟨col,asc⟩ := order
    unfold sortKey at ih ⊢
    cases ha : a[getColumnIndex schema col]? with
    | none => simp [rowLess,keyLess,ha,ih]
    | some x =>
      cases hb : b[getColumnIndex schema col]? with
      | none => simp [rowLess,keyLess,ha,hb,ih]
      | some y => simp [rowLess,keyLess,ha,hb,ih]

/-- The rows in the order in which they are stored, empty where none can be read. -/
def storedRows (pages : List (PageId × Page)) : List (List Value) :=
  (slots pages).map fun slot => (yieldSlot slot).2

/-- The scan without a limit ends, its comparison is an order of the rows, and there are no rows
behind the limit or those in front of it are the least. -/
def TopRead (schema : TableSchema) (pages : List (PageId × Page)) (orderBy : List (Text × Bool))
    (n : ℕ) : Prop :=
  (∀ e, pages.getLast? = some e → e.2.getRecordCount = 0) ∧
  StrictWeakOn (rowLess schema orderBy) (storedRows pages) ∧
  ((storedRows pages).length ≤ n ∨ FirstLeast (sortKey schema orderBy)
    (keyLess (orderBy.map Prod.snd)) (storedRows pages) n)

/-- Without an order nothing is less and all keys are the same. -/
theorem strictWeakOn_nil (schema : TableSchema) (rows : List (List Value)) :
    StrictWeakOn (rowLess schema []) rows :=
  ⟨fun _ _ => rfl,fun _ _ _ _ _ _ h => absurd h Bool.false_ne_true,fun _ _ _ _ _ _ _ _ => ⟨rfl,rfl⟩⟩

theorem firstLeast_nil (schema : TableSchema) (rows : List (List Value)) (n : ℕ) :
    FirstLeast (sortKey schema []) (keyLess []) rows n :=
  fun _ _ => ⟨fun _ _ => rfl,fun _ _ _ => rfl⟩

section Rows

variable {t : Table} {fuel n : ℕ} {out : List (RecordId × List Value)} {rows : List (List Value)}
  {pages : List (PageId × Page)}

/-- The rows that a full scan reads decide. -/
theorem topRows_of_scan (hscan : t.scan fuel = some out) (hrows : out.map Prod.snd = rows)
    (hn : 0 < n) : TopRows schema t orderBy n ↔ StrictWeakOn (rowLess schema orderBy) rows ∧
      (rows.length ≤ n ∨
        FirstLeast (sortKey schema orderBy) (keyLess (orderBy.map Prod.snd)) rows n) := by
  have hkeys : TopRows schema t orderBy n ↔ ∀ sort, Sorts sort →
      (if orderBy.isEmpty then rows.take n else sort (rowLess schema orderBy) (rows.take n)).map
          (sortKey schema orderBy) =
        ((if orderBy.isEmpty then rows else sort (rowLess schema orderBy) rows).map
          (sortKey schema orderBy)).take n := by
    subst hrows
    refine forall_congr' fun sort => imp_congr_right fun _ => ?_
    constructor
    · rintro ⟨fuel',limited,all,hlimited,hall,heq⟩
      obtain ⟨out',hscan'⟩ := scan_of_scanWith hall
      obtain rfl := scan_unique t hscan hscan'
      obtain ⟨hlimited',hall'⟩ := scanWith_of_scan hscan' hn
      obtain rfl := Option.some.inj (hlimited.symm.trans hlimited')
      obtain rfl := Option.some.inj (hall.symm.trans hall')
      exact heq
    · intro heq
      obtain ⟨hlimited,hall⟩ := scanWith_of_scan hscan hn
      exact ⟨fuel,_,_,hlimited,hall,heq⟩
  rw [hkeys]
  cases orderBy with
  | nil =>
    have hleast := firstLeast_nil schema rows n
    exact iff_of_true (fun _ _ => List.map_take) ⟨strictWeakOn_nil schema rows,Or.inr hleast⟩
  | cons order orderBy =>
    have hless : rowLess schema (order::orderBy) = fun a b => keyLess ((order::orderBy).map Prod.snd)
        (sortKey schema (order::orderBy) a) (sortKey schema (order::orderBy) b) :=
      funext fun a => funext fun b => rowLess_eq schema (order::orderBy) a b
    rw [hless]
    exact sort_take_iff _ _ rows hn

theorem slots_rows (pages : List (PageId × Page)) :
    ((slots pages).map yieldSlot).map Prod.snd = storedRows pages := by
  rw [List.map_map]
  rfl

/-- A scan with an order and a limit gives the first rows in order just when the scan without a limit
ends, its comparison orders the rows, and those that the limit leaves in are the least. -/
theorem topRows_iff (hchain : PageChain t t.firstPage.getPageId pages) (hn : 0 < n) :
    TopRows schema t orderBy n ↔ TopRead schema pages orderBy n := by
  by_cases hends : ∀ e, pages.getLast? = some e → e.2.getRecordCount = 0
  · obtain ⟨fuel,hscan⟩ := scan_chain t hchain hends
    rw [topRows_of_scan hscan (slots_rows pages) hn,TopRead,and_iff_right hends]
  · refine iff_of_false (fun htop => hends fun e he => ?_) fun hread => hends hread.1
    obtain ⟨sort,hsort⟩ := @exists_sorts (List Value)
    obtain ⟨fuel,_,_,_,hall,_⟩ := htop sort hsort
    obtain ⟨out,hscan⟩ := scan_of_scanWith hall
    by_contra hcount
    rw [scan_stray t hchain he hcount fuel] at hscan
    cases hscan

end Rows

section Full

variable {directions : List Bool} {n : ℕ} {pages : List (PageId × Page)}

theorem keyLess_irrefl (directions : List Bool) (x : List (Option ℤ)) :
    keyLess directions x x = false := by
  induction directions generalizing x with
  | nil => rfl
  | cons asc directions ih =>
    cases x with
    | nil => rfl
    | cons v x =>
      cases v with
      | none => exact ih x
      | some v => simp [keyLess,ih]

/-- Keys without gaps are the same if neither is less. -/
theorem keyLess_tied {x y : List ℤ} (hx : x.length = directions.length)
    (hy : y.length = directions.length)
    (hxy : keyLess directions (x.map some) (y.map some) = false)
    (hyx : keyLess directions (y.map some) (x.map some) = false) : x = y := by
  induction directions generalizing x y with
  | nil => rw [List.eq_nil_of_length_eq_zero hx,List.eq_nil_of_length_eq_zero hy]
  | cons asc directions ih =>
    obtain ⟨v,x,rfl⟩ := List.exists_cons_of_length_eq_add_one hx
    obtain ⟨w,y,rfl⟩ := List.exists_cons_of_length_eq_add_one hy
    simp only [List.map_cons,keyLess] at hxy hyx
    rcases lt_trichotomy v w with hlt | rfl | hgt
    · simp only [hlt,if_true,not_lt_of_gt hlt,if_false] at hxy hyx
      rw [hxy] at hyx
      cases hyx
    · simp only [lt_irrefl,if_false] at hxy hyx
      rw [ih (Nat.succ.inj hx) (Nat.succ.inj hy) hxy hyx]
    · simp only [hgt,if_true,not_lt_of_gt hgt,if_false] at hxy hyx
      rw [hyx] at hxy
      cases hxy

theorem keyLess_trans {x y z : List ℤ} (hx : x.length = directions.length)
    (hy : y.length = directions.length) (hz : z.length = directions.length)
    (hxy : keyLess directions (x.map some) (y.map some) = true)
    (hyz : keyLess directions (y.map some) (z.map some) = true) :
    keyLess directions (x.map some) (z.map some) = true := by
  induction directions generalizing x y z with
  | nil => cases hxy
  | cons asc directions ih =>
    obtain ⟨u,x,rfl⟩ := List.exists_cons_of_length_eq_add_one hx
    obtain ⟨v,y,rfl⟩ := List.exists_cons_of_length_eq_add_one hy
    obtain ⟨w,z,rfl⟩ := List.exists_cons_of_length_eq_add_one hz
    simp only [List.map_cons,keyLess] at hxy hyz ⊢
    have hrest := @ih x y z (Nat.succ.inj hx) (Nat.succ.inj hy) (Nat.succ.inj hz)
    cases asc with
    | true => grind
    | false => grind

/-- The key of a row that has all columns of the order. -/
theorem exists_sortKey {row : List Value}
    (h : ∀ order ∈ orderBy, getColumnIndex schema order.1 < row.length) :
    ∃ x : List ℤ, x.length = (orderBy.map Prod.snd).length ∧
      sortKey schema orderBy row = x.map some := by
  refine ⟨orderBy.map fun order => ((row[getColumnIndex schema order.1]?).map Value.intVal).getD 0,
    by simp,?_⟩
  rw [sortKey,List.map_map]
  refine List.map_congr_left fun order horder => ?_
  simp [List.getElem?_eq_getElem (h order horder)]

/-- Where all rows have the columns of the order, the comparison is an order of them in which only
rows with the same key are tied. -/
theorem topRead_iff_of_full (hfull : ∀ row ∈ storedRows pages, ∀ order ∈ orderBy,
      getColumnIndex schema order.1 < row.length) :
    TopRead schema pages orderBy n ↔ (∀ e, pages.getLast? = some e → e.2.getRecordCount = 0) ∧
      ∀ a ∈ (storedRows pages).take n, ∀ b ∈ (storedRows pages).drop n,
        rowLess schema orderBy b a = false := by
  have hkey : ∀ row ∈ storedRows pages, ∃ x : List ℤ,
      x.length = (orderBy.map Prod.snd).length ∧ sortKey schema orderBy row = x.map some :=
    fun row hrow => exists_sortKey (hfull row hrow)
  have hsame : ∀ a ∈ storedRows pages, ∀ b ∈ storedRows pages, Tied (rowLess schema orderBy) a b →
      sortKey schema orderBy a = sortKey schema orderBy b := by
    rintro a ha b hb ⟨hab,hba⟩
    obtain ⟨x,hx,hxkey⟩ := hkey a ha
    obtain ⟨y,hy,hykey⟩ := hkey b hb
    rw [rowLess_eq,hxkey,hykey] at hab hba
    rw [hxkey,hykey,keyLess_tied hx hy hab hba]
  have hweak : StrictWeakOn (rowLess schema orderBy) (storedRows pages) := by
    refine ⟨fun a _ => ?_,fun a ha b hb c hc hab hbc => ?_,fun a ha b hb c hc hab hbc => ?_⟩
    · rw [rowLess_eq,keyLess_irrefl]
    · obtain ⟨x,hx,hxkey⟩ := hkey a ha
      obtain ⟨y,hy,hykey⟩ := hkey b hb
      obtain ⟨z,hz,hzkey⟩ := hkey c hc
      rw [rowLess_eq,hxkey,hykey] at hab
      rw [rowLess_eq,hykey,hzkey] at hbc
      rw [rowLess_eq,hxkey,hzkey]
      exact keyLess_trans hx hy hz hab hbc
    · have hkeys := (hsame a ha b hb hab).trans (hsame b hb c hc hbc)
      unfold Tied
      rw [rowLess_eq,rowLess_eq,hkeys,keyLess_irrefl]
      exact ⟨rfl,rfl⟩
  refine and_congr_right fun _ => ?_
  rw [and_iff_right hweak]
  constructor
  · rintro (hlen | hleast) a ha b hb
    · rw [List.drop_eq_nil_of_le hlen] at hb
      cases hb
    · rw [rowLess_eq]
      exact (hleast a ha).1 b hb
  · intro hleast
    refine Or.inr fun a ha => ⟨fun b hb => ?_,fun b hb htied => ?_⟩
    · rw [← rowLess_eq]
      exact hleast a ha b hb
    · refine hsame a (List.mem_of_mem_take ha) b hb ?_
      unfold Tied
      rw [rowLess_eq,rowLess_eq]
      exact htied

end Full

end Keys

section Small

def oneColumn : TableSchema :=
  { TableSchema.new with columns := [{ ColumnSchema.new with name := ['c'] }] }

/-- A page with the records 7 and 8, in this order, and a last page without records. -/
def ascending : Page := { twoIntegers with header.pageId := 1, header.nextPageId := 2 }

def ascendingTable : Table :=
  ⟨ascending,fun pid => if pid = 1 then some ascending else if pid = 2 then some blank else none⟩

theorem ascendingTable_chain : PageChain ascendingTable ascendingTable.firstPage.getPageId
    [(1,ascending),(2,blank)] :=
  .link (by decide) rfl (.last (by decide) rfl rfl)

theorem topRows_iff_ascending :
    TopRows oneColumn ascendingTable [(['c'],true)] 1 ↔
      TopRead oneColumn [(1,ascending),(2,blank)] [(['c'],true)] 1 :=
  topRows_iff ascendingTable_chain (by decide)

/-- With the greatest value first and a limit of one, the record that is stored first comes. -/
theorem limit_before_order :
    PageChain ascendingTable ascendingTable.firstPage.getPageId [(1,ascending),(2,blank)] ∧
    ¬ TopRows oneColumn ascendingTable [(['c'],false)] 1 := by
  refine ⟨ascendingTable_chain,fun htop => ?_⟩
  obtain ⟨fuel,hscan⟩ := scan_chain ascendingTable ascendingTable_chain fun e he => by
    obtain rfl := Option.some.inj he
    rfl
  have hread := (topRows_of_scan hscan (slots_rows _) (by decide)).mp htop
  have hkeys : (storedRows [(1,ascending),(2,blank)]).map (sortKey oneColumn [(['c'],false)]) =
      [[some 7],[some 8]] := by decide +kernel
  have hlength := congrArg List.length hkeys
  rw [List.length_map] at hlength
  obtain ⟨a,b,hrows⟩ := List.length_eq_two.mp hlength
  rw [hrows] at hkeys hread
  obtain ⟨ha,hb⟩ := List.cons.inj hkeys
  have hb := (List.cons.inj hb).1
  rcases hread.2 with hlen | hleast
  · exact absurd hlen (by simp)
  · have hless := (hleast a (by simp)).1 b (by simp)
    rw [ha,hb] at hless
    exact absurd hless (by decide)

end Small

end Table
end OrangeSQL
