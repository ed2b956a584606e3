import OrangeSQL.FailedStatements

/-! BEGIN and ROLLBACK. Each statement between them has a transaction of its own that ends with the
statement, and ROLLBACK ends only its own. So the rows after it are those before BEGIN if no
statement in between changes a row. -/
namespace OrangeSQL

open Page Store QueryExecutor

namespace QueryExecutor

/-- Every statement of a sequence is harmless in the state that it is executed in. -/
def HarmlessRun (fuel : ℕ) : Database → List (Surroundings × RowStatement) → Prop
  | _, [] => True
  | db, (around,statement)::rest => Harmless fuel db statement ∧
    ∀ status db', execute fuel db around statement = some (status,db') → HarmlessRun fuel db' rest

/-- The statements with BEGIN in front of them and ROLLBACK behind them. -/
def rolledBack (around : Surroundings) (node : TransactionNode)
    (statements : List (Surroundings × RowStatement)) : List (Surroundings × RowStatement) :=
  (around,.begin node)::statements++[(around,.rollback node)]

variable {fuel : ℕ} {db db' : Database}

theorem withTable_catalog {name : Text} {status : Status}
    {work : OpenTable → Store → Option (Status × Store × TransactionManager)}
    (h : withTable fuel db name work = some (status,db')) : db'.catalog = db.catalog := by
  rcases withTable_cases h with ⟨_,rfl⟩ | ⟨_,_,_,_,_,_,_,_,rfl⟩
  · rfl
  · rfl

theorem execute_catalog {around : Surroundings} {status : Status} {statement : RowStatement}
    (h : execute fuel db around statement = some (status,db')) : db'.catalog = db.catalog := by
  obtain ⟨tx,m,db₁,hrun,hcatalog,_⟩ := execute_cases h
  rw [hcatalog]
  cases statement with
  | insert node | update node | delete node =>
    simp only [executeStatement,executeInsert,executeUpdate,executeDelete] at hrun
    have htable := withTable_catalog hrun
    exact htable
  | begin node | commit node | rollback node =>
    obtain ⟨_,rfl⟩ := Prod.mk.inj (Option.some.inj hrun)
    rfl

/-- Harmless statements leave the rows alone, however many there are. -/
theorem executeAll_sameRows {statements : List (Surroundings × RowStatement)}
    (hs : db.store.WellFormed) (h : executeAll fuel db statements = some db')
    (hharmless : HarmlessRun fuel db statements) : db'.store.WellFormed ∧ SameRows db db' := by
  induction statements generalizing db with
  | nil =>
    obtain rfl := Option.some.inj h
    exact ⟨hs,fun _ => rfl⟩
  | cons first rest ih =>
    obtain ⟨around,statement⟩ := first
    obtain ⟨⟨status,db₁⟩,hstep,hrest⟩ := Option.bind_eq_some_iff.mp h
    obtain ⟨hwf,hsame,_⟩ := execute_spec hs hstep
    obtain ⟨hwf',hsame'⟩ := ih hwf hrest (hharmless.2 status db₁ hstep)
    exact ⟨hwf',fun table => (hsame' table).trans (hsame hharmless.1 table)⟩

/-- After the ROLLBACK the live rows of every table are those before the BEGIN, if every statement in
between was harmless. -/
theorem rollback_restores {around : Surroundings} {node : TransactionNode}
    {statements : List (Surroundings × RowStatement)} (hs : db.store.WellFormed)
    (h : executeAll fuel db (rolledBack around node statements) = some db')
    (hharmless : HarmlessRun fuel db (rolledBack around node statements)) : SameRows db db' :=
  (executeAll_sameRows hs h hharmless).2

section Small

/-- An INSERT that is refused and a DELETE on an empty table. -/
def withoutEffect : List (Surroundings × RowStatement) :=
  [(quiet,insertValues [[.ofBool true]]),(quiet,.delete ⟨"t".toList,none⟩)]

theorem liveRows_roomyPage : (onePageDatabase roomyPage).store.liveRows 1 = ∅ := by
  ext ⟨pid,i,row⟩
  simp only [Set.mem_empty_iff_false,iff_false]
  rintro ⟨_,hrow⟩
  obtain ⟨p,hp,hrow⟩ := Option.bind_eq_some_iff.mp hrow
  obtain ⟨_,hsome⟩ := Option.ite_none_right_eq_some.mp hp
  obtain rfl := Option.some.inj hsome
  exact absurd (rowAt_eq_some_iff.mp hrow).1 (Nat.not_lt_zero i)

theorem rollback_restores_withoutEffect :
    ∃ db', executeAll 4 (onePageDatabase roomyPage) (rolledBack quiet ⟨[],false⟩ withoutEffect) =
      some db' ∧ SameRows (onePageDatabase roomyPage) db' := by
  have hs := onePageDatabase_wellFormed roomyPage_placed
  have hrun : ∃ db', executeAll 4 (onePageDatabase roomyPage)
      (rolledBack quiet ⟨[],false⟩ withoutEffect) = some db' := ⟨_,rfl⟩
  obtain ⟨db',hrun⟩ := hrun
  refine ⟨db',hrun,rollback_restores hs hrun ⟨trivial,?_⟩⟩
  intro status₁ db₁ hbegin
  have hstore : db₁.store = (onePageDatabase roomyPage).store :=
    congrArg (fun r => r.2.store) (Option.some.inj hbegin).symm
  have hharmless : Harmless 4 db₁ (insertValues [[.ofBool true]]) :=
    (harmless_congr (execute_catalog hbegin) hstore).mpr (boolean_harmless 4)
  refine ⟨hharmless,?_⟩
  intro status₂ db₂ hinsert
  refine ⟨?_,fun _ _ _ => ⟨trivial,fun _ _ _ => trivial⟩⟩
  intro schema hlook x hx
  have hsame := (execute_spec (hstore ▸ hs) hinsert).2.1 hharmless
  rw [execute_catalog hinsert,execute_catalog hbegin] at hlook
  obtain rfl := Option.some.inj (hlook.symm.trans (onePageDatabase_lookup roomyPage))
  have hempty : db₂.store.liveRows 1 = ∅ := by rw [hsame 1,hstore,liveRows_roomyPage]
  exact absurd hx (hempty ▸ Set.notMem_empty x)

/-- The row of an INSERT is there after the ROLLBACK. -/
theorem inserted_row_stays :
    ∃ db', (onePageDatabase roomyPage).store.WellFormed ∧
      executeAll 2 (onePageDatabase roomyPage)
        (rolledBack quiet ⟨[],false⟩ [(quiet,insertValues [[.ofInt 7]])]) = some db' ∧
      ¬ SameRows (onePageDatabase roomyPage) db' := by
  have hrun : ∃ db', executeAll 2 (onePageDatabase roomyPage)
      (rolledBack quiet ⟨[],false⟩ [(quiet,insertValues [[.ofInt 7]])]) = some db' := ⟨_,rfl⟩
  obtain ⟨db',hrun⟩ := hrun
  refine ⟨db',onePageDatabase_wellFormed roomyPage_placed,hrun,?_⟩
  intro hsame
  have hrow : ((executeAll 2 (onePageDatabase roomyPage)
      (rolledBack quiet ⟨[],false⟩ [(quiet,insertValues [[.ofInt 7]])])).bind fun db =>
        db.store.rowAt 1 0 0).isSome = true := by decide
  rw [hrun,Option.bind_some] at hrow
  obtain ⟨row,hrow⟩ := Option.isSome_iff_exists.mp hrow
  have hlive : (0,0,row) ∈ db'.store.liveRows 1 := ⟨.refl,hrow⟩
  rw [hsame 1] at hlive
  have hnone : (onePageDatabase roomyPage).store.rowAt 1 0 0 = none := by decide
  have hold := hlive.2
  rw [hnone] at hold
  cases hold

end Small

end QueryExecutor
end OrangeSQL
