import FlintDB.Sql.DdlEffects
import FlintDB.Sql.Relations

set_option autoImplicit false

-- The whole result of every kind of statement, for a session that has the database to itself.

namespace FlintDB

open Lib Fallible

theorem Exception.IsSemantic.thrown {e : Exception} (semantic : e.IsSemantic) : e.Thrown := by
  obtain ⟨message, rfl⟩ := semantic
  trivial

namespace Catalog

variable (catalog : Catalog)

theorem createTable_thrown (name : String) (columns : List ColumnDef) (primaryKeyColumn : Option String) :
    Throws Exception.Thrown (catalog.createTable name columns primaryKeyColumn) := by
  have keyed : Throws Exception.Thrown (checkPrimaryKey name columns primaryKeyColumn) := by
    rw [checkPrimaryKey.eq_def]
    split
    · exact .ok _
    · split
      · exact .error trivial
      · split
        · exact .ok _
        · exact .error trivial
  intro e refused
  rw [createTable] at refused
  split at refused
  · cases refused
    trivial
  split at refused
  · cases refused
    trivial
  split at refused
  · cases refused
    trivial
  split at refused
  · rename_i notKeyed
    cases refused
    exact keyed e notKeyed
  · cases primaryKeyColumn <;> cases refused

theorem createIndex_thrown (name tableName columnName : String) :
    Throws Exception.Thrown (catalog.createIndex name tableName columnName) := by
  rw [createIndex]
  split
  · exact .error trivial
  split
  · exact .error trivial
  split
  · exact .error trivial
  split
  · exact .ok _
  · exact .error trivial

end Catalog

namespace Database

variable {origin : Database} {contents : Contents}

theorem lift_still {α : Type} (outcome : Except Exception α) :
    Keeps origin.Still (liftM outcome : DatabaseM α) :=
  Meets.lift (fun _ _ _ unchanged => unchanged) fun _ unchanged => unchanged

theorem executeSelectSingleTable_still (plan : SelectPlan) (access : TableAccessPlan) :
    Keeps origin.Still (executeSelectSingleTable plan access) := by
  refine Meets.get_bind_any fun db _ => Meets.bind (lift_still _) fun table => ?_
  refine Meets.bind (fetchCandidateRows_still access) fun candidates => ?_
  exact Meets.bind (Meets.collect (fun row => lift_still _) candidates) fun rows =>
    Meets.pure _ fun _ unchanged => unchanged

theorem innerSource_still (join : JoinPlan) (innerHeap : Nat) :
    Keeps origin.Still (executeSelectJoin.innerSource join innerHeap) := by
  unfold executeSelectJoin.innerSource
  split
  · exact Meets.bind (indexByName_still _) fun index => Meets.pure _ fun _ unchanged => unchanged
  · exact Meets.bind (heapScan_still _) fun rows => Meets.pure _ fun _ unchanged => unchanged

theorem innerCandidates_still (outerValue : LiteralValue) (innerHeap : Nat) (source : Nat ⊕ List (RID × Bytes)) :
    Keeps origin.Still (executeSelectJoin.innerCandidates outerValue innerHeap source) := by
  cases source with
  | inl index => exact Meets.bind (indexSearch_still _ _) fun rids => fetchRows_still _ _ _
  | inr rows => exact Meets.pure _ fun _ unchanged => unchanged

theorem executeSelectJoin_still (plan : SelectPlan) (join : JoinPlan) :
    Keeps origin.Still (executeSelectJoin plan join) := by
  have matched : ∀ outer inner outerJoinIdx innerJoinIdx innerHeap source outerValues, Keeps origin.Still
      (executeSelectJoin.joinMatched plan join outer inner outerJoinIdx innerJoinIdx innerHeap source outerValues) := by
    intro outer inner outerJoinIdx innerJoinIdx innerHeap source outerValues
    refine Meets.bind (lift_still _) fun outerValue => ?_
    exact Meets.bind (innerCandidates_still _ _ _) fun candidates => Meets.collect (fun row => lift_still _) candidates
  refine Meets.get_bind_any fun db _ => Meets.bind (lift_still _) fun outer => Meets.bind (lift_still _) fun inner => ?_
  refine Meets.bind (lift_still _) fun outerJoinIdx => Meets.bind (lift_still _) fun innerJoinIdx => ?_
  refine Meets.bind (heapFileForTable_still _) fun innerHeap => Meets.bind (innerSource_still _ _) fun source => ?_
  refine Meets.bind (fetchCandidateRows_still _) fun candidates => ?_
  refine Meets.bind (Meets.collect (fun row => ?_) candidates) fun rows => Meets.pure _ fun _ unchanged => unchanged
  exact Meets.bind (lift_still _) fun rows => Meets.collect (fun row => matched _ _ _ _ _ _ _) rows

theorem executeSelect_still (stmt : SelectStatement) : Keeps origin.Still (executeSelect stmt) := by
  refine Meets.get_bind_any fun db _ => Meets.bind (lift_still _) fun plan => ?_
  split
  · exact executeSelectSingleTable_still _ _
  · exact executeSelectJoin_still _ _

def Labelled (names : List String) (result : ExecuteResult) : Prop :=
  result.columnNames = names ∧ result.rowsAffected = 0

section Labels

variable {catalog : Catalog} {plan : SelectPlan}

theorem executeSelectSingleTable_labels {access : TableAccessPlan} {table : TableInfo}
    (found : catalog.findTable access.tableName = some table) :
    Meets (·.catalog = catalog) (executeSelectSingleTable plan access)
      (fun result _ => Labelled (if plan.selectStar then columnNames table else plan.selectList.map ColumnRef.columnName)
        result) fun _ => True := by
  refine Meets.get_bind fun db catalog_eq => ?_
  simp only [catalog_eq, found]
  refine Meets.ok_bind (Meets.bind (Meets.any _) fun candidates => Meets.bind (Meets.any _) fun rows => ?_)
  exact Meets.pure _ fun _ _ => ⟨rfl, rfl⟩

theorem executeSelectJoin_labels {join : JoinPlan} {outer inner : TableInfo}
    (outerFound : catalog.findTable join.outer.tableName = some outer)
    (innerFound : catalog.findTable join.innerTableName = some inner) :
    Meets (·.catalog = catalog) (executeSelectJoin plan join)
      (fun result _ => Labelled (if plan.selectStar then columnNames outer ++ columnNames inner
        else plan.selectList.map ColumnRef.columnName) result) fun _ => True := by
  refine Meets.get_bind fun db catalog_eq => ?_
  simp only [catalog_eq, outerFound, innerFound]
  refine Meets.ok_bind (Meets.ok_bind (Meets.bind (Meets.any _) fun outerJoinIdx => ?_))
  refine Meets.bind (Meets.any _) fun innerJoinIdx => Meets.bind (Meets.any _) fun innerHeap => ?_
  refine Meets.bind (Meets.any _) fun source => Meets.bind (Meets.any _) fun candidates => ?_
  exact Meets.bind (Meets.any _) fun rows => Meets.pure _ fun _ _ => ⟨rfl, rfl⟩

end Labels

theorem resolveSelectList_names {resolve : ColumnRef → Except Exception ColumnRef} {stmt : SelectStatement}
    (keepsName : ∀ column target, resolve column = .ok target → target.columnName = column.columnName)
    {selectList : List ColumnRef} (resolved : resolveSelectList resolve stmt = .ok selectList)
    (listed : stmt.selectStar = false) :
    selectList.map ColumnRef.columnName = stmt.selectList.map ColumnRef.columnName := by
  rw [resolveSelectList, listed] at resolved
  have related := mapM_eq_ok.mp resolved
  generalize stmt.selectList = names at related ⊢
  clear resolved listed
  induction related with
  | nil => rfl
  | cons first _ ih => rw [List.map_cons, List.map_cons, keepsName _ _ first, ih]

theorem executeSelect_answers (lockstep : Lockstep origin.catalog origin.objects contents)
    (distinct : origin.catalog.IndexNamesDistinct) (alone : origin.Alone) {stmt : SelectStatement}
    (meaningful : stmt.Meaningful origin.catalog) :
    ∃ result db, (executeSelect stmt).exec origin = (.ok result, db) ∧ origin.Still db ∧
      result.rows.Perm (naiveSelect origin.catalog contents stmt) ∧ Labelled (stmt.heading origin.catalog) result := by
  have unchanged := still_of_alone alone
  have stores := lockstep.stores
  have indexes := lockstep.indexes distinct
  obtain ⟨plan, planned⟩ := planSelect_meaningful.mpr meaningful
  -- what is left to show of either kind of plan
  have finishes : ∀ {program : DatabaseM ExecuteResult} {result names},
      (executeSelect stmt).exec origin = program.exec origin →
      Yields (Shows (fun _ _ => False) origin.catalog origin.objects) program result →
      Keeps origin.Still program →
      Meets (·.catalog = origin.catalog) program (fun result _ => Labelled names result) (fun _ => True) →
      ∃ db, (executeSelect stmt).exec origin = (.ok result, db) ∧ origin.Still db ∧ Labelled names result := by
    intro program result names runs yields keeps labels
    obtain ⟨db, returns, -⟩ := yields origin unchanged.shows
    have still := keeps origin unchanged
    have labelled := labels origin rfl
    rw [returns] at still labelled
    exact ⟨db, runs.trans returns, still, labelled⟩
  have enters : ∀ {program : DatabaseM ExecuteResult}, (∀ access, plan.access = .table access →
        program = executeSelectSingleTable plan access) →
      (∀ join, plan.access = .join join → program = executeSelectJoin plan join) →
      (executeSelect stmt).exec origin = program.exec origin := by
    intro program single joined
    rw [executeSelect, exec_bind_ok (exec_get origin), planned, exec_bind_ok (exec_liftM _ origin)]
    cases isAccess : plan.access with
    | table access => rw [single access isAccess]
    | join join => rw [joined join isAccess]
  rw [planSelect] at planned
  split at planned
  · cases planned
  · rename_i outer fromTable
    split at planned
    · rename_i noJoin
      obtain ⟨selectList, resolved, planned⟩ := bind_eq_ok.mp planned
      obtain ⟨access, accessPlanned, same⟩ := bind_eq_ok.mp planned
      cases same
      obtain ⟨result, yields, perm⟩ :=
        executeSelectSingleTable_yields stores indexes fromTable noJoin resolved accessPlanned
      obtain ⟨_, _, -, accessTable, -⟩ := fetchCandidateRows_yields (fun _ _ => False) stores indexes accessPlanned
      obtain ⟨db, returns, still, labelled⟩ := finishes (enters (by rintro _ ⟨⟩; rfl) (by rintro _ ⟨⟩)) yields
        (executeSelectSingleTable_still _ _) (executeSelectSingleTable_labels (accessTable ▸ fromTable))
      refine ⟨result, db, returns, still, perm, ?_⟩
      rw [SelectStatement.heading, fromTable, noJoin]
      cases star : stmt.selectStar with
      | true => simpa [star] using labelled
      | false =>
        rw [← resolveSelectList_names (fun _ _ resolves => (resolveSelectColumn_ok resolves).2.2) resolved star]
        simpa [star] using labelled
    · rename_i clause joined
      split at planned
      · cases planned
      · rename_i inner joinTable
        split at planned
        · cases planned
        · rename_i different
          obtain ⟨join, access_eq, plans⟩ := planJoin_ok planned
          obtain ⟨result, yields, perm⟩ :=
            executeSelectJoin_yields stores indexes fromTable joined joinTable different plans
          obtain ⟨onOuter, -, accessPlanned⟩ := plans.split
          obtain ⟨_, _, -, accessTable, -⟩ := fetchCandidateRows_yields (fun _ _ => False) stores indexes accessPlanned
          have outerFound := Catalog.findTable_eq_some.mpr ⟨(Catalog.findTable_eq_some.mp fromTable).1, rfl⟩
          have innerFound := Catalog.findTable_eq_some.mpr ⟨(Catalog.findTable_eq_some.mp joinTable).1, rfl⟩
          have runs : (executeSelect stmt).exec origin = (executeSelectJoin plan join).exec origin :=
            enters (fun access isAccess => by cases access_eq.symm.trans isAccess) fun other isJoin => by
              cases access_eq.symm.trans isJoin
              rfl
          obtain ⟨db, returns, still, labelled⟩ := finishes runs yields (executeSelectJoin_still _ _)
            (executeSelectJoin_labels (accessTable ▸ outerFound) (plans.innerTable ▸ innerFound))
          refine ⟨result, db, returns, still, perm, ?_⟩
          rw [SelectStatement.heading, fromTable, joined]
          rw [plans.star] at labelled
          cases star : stmt.selectStar with
          | true => simpa [star, joinTable] using labelled
          | false =>
            have keepsName : ∀ column target, planJoin.resolve outer inner column = .ok target →
                target.columnName = column.columnName := by
              intro column target resolves
              obtain ⟨side, -, same⟩ := bind_eq_ok.mp resolves
              cases same
              rfl
            rw [← resolveSelectList_names keepsName plans.selectList star]
            simpa [star] using labelled

theorem executeSelect_refused {stmt : SelectStatement} (meaningless : ¬ stmt.Meaningful origin.catalog) :
    ∃ e, e.Thrown ∧ (executeSelect stmt).exec origin = (.error e, origin) := by
  cases planned : planSelect origin.catalog stmt with
  | ok plan => exact absurd (planSelect_meaningful.mp ⟨plan, planned⟩) meaningless
  | error e =>
    refine ⟨e, (planSelect_semantic origin.catalog stmt e planned).thrown, ?_⟩
    rw [executeSelect, exec_bind_ok (exec_get origin), planned, exec_bind_error (exec_liftM _ origin)]

theorem executeCreateTable_answers {stmt : CreateTableStatement} (inactive : origin.activeTxns = ∅) {heapId : Nat}
    {after : Catalog}
    (created : origin.catalog.createTable stmt.tableName stmt.columns stmt.primaryKeyColumn = .ok (heapId, after)) :
    ∃ db, (executeCreateTable stmt).exec origin = (.ok {}, db) := by
  rw [executeCreateTable, exec_bind_ok (requireNoActiveTransaction_exec inactive _)]
  obtain ⟨rfl, fresh, _, _, pushed⟩ := Catalog.createTable_ok created
  rcases pushed with ⟨noKey, rfl⟩ | ⟨key, integer, keyed, rfl⟩
  · rw [exec_bind_ok (createTable_exec created noKey)]
    exact ⟨_, rfl⟩
  · have elsewhere : ∀ index ∈ origin.catalog.indexes, index.tableName ≠ stmt.tableName := fun index isIndex same =>
      fresh (same ▸ Catalog.tableName_mem isIndex)
    have isKey := primaryKeyIndex_pushed (origin.catalog.pushTable ..) elsewhere integer
    rw [exec_bind_ok (createTable_exec_key created keyed isKey)]
    exact ⟨_, rfl⟩

theorem executeCreateTable_refused {stmt : CreateTableStatement} (inactive : origin.activeTxns = ∅) {e : Exception}
    (refused : origin.catalog.createTable stmt.tableName stmt.columns stmt.primaryKeyColumn = .error e) :
    (executeCreateTable stmt).exec origin = (.error e, origin) := by
  have fails : (createTable stmt.tableName stmt.columns stmt.primaryKeyColumn).exec origin = (.error e, origin) := by
    rw [createTable, exec_bind_ok (exec_get origin), refused]
    rfl
  rw [executeCreateTable, exec_bind_ok (requireNoActiveTransaction_exec inactive _), exec_bind_error fails]

theorem executeCreateIndex_returns (stmt : CreateIndexStatement) :
    Meets (fun _ => True) (executeCreateIndex stmt) (fun result _ => result = {}) fun _ => True :=
  Meets.bind (Meets.any _) fun _ => Meets.bind (Meets.any _) fun _ => Meets.pure _ fun _ _ => rfl

theorem requireNoActiveTransaction_active (active : origin.activeTxns ≠ ∅) (statementKind : String) :
    ∃ e, e.Thrown ∧ (requireNoActiveTransaction statementKind).exec origin = (.error e, origin) := by
  rw [requireNoActiveTransaction, exec_bind_ok (exec_get origin), if_neg active]
  exact ⟨.logicError _, trivial, rfl⟩

theorem validateValuesAgainstColumns_semantic (table : TableInfo) (values : List LiteralValue) :
    Throws Exception.IsSemantic (validateValuesAgainstColumns table values) := by
  rw [validateValuesAgainstColumns]
  split
  · exact .error ⟨_, rfl⟩
  · exact .forM (fun _ => requireLiteralMatchesColumn_semantic _ _ _) _

theorem columnIndex_thrown (table : TableInfo) (columnName : String) :
    Throws Exception.Thrown (columnIndex table columnName) := by
  refine .bind (fun e refused => (requireColumn_semantic _ _ e refused).thrown) fun _ => ?_
  split
  · exact .ok _
  · exact .error trivial

theorem resolveAssignments_thrown (table : TableInfo) (assignments : List Assignment) :
    Throws Exception.Thrown (resolveAssignments table assignments) := by
  refine .mapM (fun assignment => ?_) assignments
  refine .bind (fun e refused => (requireColumn_semantic _ _ e refused).thrown) fun column => ?_
  refine .bind (fun e refused => (requireLiteralMatchesColumn_semantic _ _ _ e refused).thrown) fun _ => ?_
  exact .bind (columnIndex_thrown _ _) fun _ => .ok _

theorem checkPrimaryKeyUniqueness_raises (lockstep : Lockstep origin.catalog origin.objects contents)
    {table : TableInfo} (isTable : table ∈ origin.catalog.tables) {values : List LiteralValue}
    (row : RowOf table.columns values) :
    Raises origin.Still (checkPrimaryKeyUniqueness origin.catalog table values) Exception.Thrown := by
  unfold checkPrimaryKeyUniqueness
  cases isKey : origin.catalog.primaryKeyIndex table.name with
  | none => exact Raises.pure _
  | some index =>
    have onTable := Catalog.primaryKeyIndex_onTable isKey
    obtain ⟨key, computed, -⟩ := indexKeyOf_ok isTable onTable row
    simp only [computed]
    refine Raises.ok_bind (Raises.after (indexSearch_reads lockstep isTable onTable key) fun rids => ?_)
    split
    · exact Raises.pure _
    · exact Raises.throw trivial

theorem validateUpdateBatch_raises (lockstep : Lockstep origin.catalog origin.objects contents)
    {table : TableInfo} (isTable : table ∈ origin.catalog.tables) {updates : List RowUpdate}
    (typed : ∀ update ∈ updates, RowOf table.columns update.newValues) :
    Raises origin.Still (validateUpdateBatch origin.catalog table updates) Exception.Thrown := by
  unfold validateUpdateBatch
  split
  · exact Raises.throw trivial
  cases isKey : origin.catalog.primaryKeyIndex table.name with
  | none => exact Raises.pure _
  | some index =>
    have onTable := Catalog.primaryKeyIndex_onTable isKey
    simp only [newKeys_ok isTable onTable typed]
    refine Raises.ok_bind ?_
    split
    · exact Raises.throw trivial
    · have looks : ∀ key, Raises origin.Still (validateUpdateBatch.checkKey table updates index key) Exception.Thrown ∧
          Meets origin.Still (validateUpdateBatch.checkKey table updates index key) (fun _ => origin.Still)
            fun _ => True := by
        intro key
        have reads := fun E => @indexSearch_reads _ _ E lockstep _ isTable _ onTable key
        refine ⟨Raises.after (reads _) fun rids => ?_, Meets.bind (reads _) fun rids => Meets.of_fact fun _ => ?_⟩
        · split
          · exact Raises.throw trivial
          · exact Raises.pure _
        · split
          · exact Meets.throw _ fun _ _ => trivial
          · exact Meets.pure _ fun _ still => still
      exact Raises.forM (fun key _ => (looks key).1) fun key _ => (looks key).2

end Database

namespace Mutation

open Database

variable {db : Database} {contents : Contents}

theorem execute_counts (m : Mutation) :
    Meets (fun _ => True) m.execute (fun result _ => result = { rowsAffected := result.rowsAffected }) fun _ => True := by
  cases m with
  | insert stmt =>
    refine Meets.get_bind_any fun db _ => ?_
    cases found : db.catalog.findTable stmt.tableName with
    | none =>
      simp only [found]
      exact Meets.throw _ fun _ _ => trivial
    | some table =>
      simp only [found]
      refine Meets.bind (Meets.any _) fun _ => Meets.bind (Meets.any _) fun _ => Meets.bind (Meets.any _) fun _ => ?_
      exact Meets.bind (Meets.any _) fun _ => Meets.bind (Meets.any _) fun _ => Meets.pure _ fun _ _ => rfl
  | delete stmt =>
    refine Meets.get_bind_any fun db _ => Meets.bind (Meets.any _) fun _ => Meets.bind (Meets.any _) fun _ => ?_
    refine Meets.bind (Meets.any _) fun _ => Meets.bind (Meets.any _) fun _ => ?_
    exact Meets.bind (Meets.any _) fun _ => Meets.pure _ fun _ _ => rfl
  | update stmt =>
    refine Meets.get_bind_any fun db _ => ?_
    cases found : db.catalog.findTable stmt.tableName with
    | none =>
      simp only [found]
      exact Meets.throw _ fun _ _ => trivial
    | some table =>
      simp only [found]
      refine Meets.bind (Meets.any _) fun _ => Meets.bind (Meets.any _) fun _ => Meets.bind (Meets.any _) fun _ => ?_
      refine Meets.bind (Meets.any _) fun _ => Meets.bind (Meets.any _) fun _ => Meets.bind (Meets.any _) fun _ => ?_
      exact Meets.bind (Meets.any _) fun _ => Meets.pure _ fun _ _ => rfl

variable (keyed : db.catalog.Keyed) (alone : db.Alone) (lockstep : Lockstep db.catalog db.objects contents)
  (unique : ∀ table ∈ db.catalog.tables, table.KeysUnique ((contents table.name).map Prod.snd))
include keyed alone lockstep unique

omit alone in
theorem executeInsert_raises {stmt : InsertStatement} {table : TableInfo}
    (found : db.catalog.findTable stmt.tableName = some table)
    (rejected : (Mutation.insert stmt).Rejected db.catalog contents) :
    Raises db.Still (executeInsert stmt) Exception.Thrown := by
  obtain ⟨isTable, -⟩ := Catalog.findTable_eq_some.mp found
  have refused := (refused_rejected keyed lockstep unique stmt found).mpr rejected
  refine Raises.get_bind fun now still => ?_
  simp only [still.frame.catalog_eq, found]
  have semantic := validateValuesAgainstColumns_semantic table stmt.values
  cases valid : validateValuesAgainstColumns table stmt.values with
  | error e => exact Raises.throw (semantic e valid).thrown
  | ok _ =>
    have row := validateValuesAgainstColumns_ok.mp valid
    refine Raises.ok_bind (Raises.bind (checkPrimaryKeyUniqueness_raises lockstep isTable row)
      (checkPrimaryKeyUniqueness_reads lockstep isTable row) fun _ => Raises.of_fact fun free => ?_)
    refine Raises.after (reads (heapFileForTable_still _) (heapFileForTable_yields found)) fun heap => ?_
    have tooLarge := (refused.resolve_left (not_not_intro row)).resolve_left free
    rw [heapInsert, if_pos tooLarge]
    exact Raises.throw trivial

omit alone in
theorem executeUpdate_raises {stmt : UpdateStatement} {table : TableInfo}
    (found : db.catalog.findTable stmt.tableName = some table)
    (rejected : (Mutation.update stmt).Rejected db.catalog contents) :
    Raises db.Still (executeUpdate stmt) Exception.Thrown := by
  obtain ⟨isTable, -⟩ := Catalog.findTable_eq_some.mp found
  refine Raises.get_bind fun now still => ?_
  simp only [still.frame.catalog_eq, found]
  cases resolves : resolveAssignments table stmt.assignments with
  | error e => exact Raises.throw (resolveAssignments_thrown table _ e resolves)
  | ok assignments =>
    cases planned : planTableAccess db.catalog stmt.tableName stmt.wherePredicates with
    | error e => exact Raises.throw (planTableAccess_semantic _ _ _ e planned).thrown
    | ok access =>
      obtain ⟨candidates, fetched, delivers⟩ := fetchCandidateRows_reads lockstep keyed.distinct found planned
      have isRow : ∀ row ∈ candidates, table.Storable row.2 := fun row isCandidate =>
        lockstep.storable table isTable row (delivers.mem row isCandidate)
      refine Raises.ok_bind (Raises.ok_bind (Raises.after
        (reads (heapFileForTable_still _) (heapFileForTable_yields found)) fun heap => Raises.of_fact fun same => ?_))
      subst same
      refine Raises.after (fetched _) fun rows => Raises.of_fact fun same => ?_
      subst same
      refine Raises.after (matchRows_reads isRow delivers.fits) fun matched => Raises.of_fact fun same => ?_
      have fits : (Mutation.update stmt).WellFormed table :=
        ⟨(planTableAccess_fits found).mp ⟨access, planned⟩, resolveAssignments_fit.mp ⟨assignments, resolves⟩⟩
      have filtered := delivers.filtered
      rw [← same] at filtered
      have refused := (refusedBatch_rejected keyed lockstep unique found fits resolves filtered).mpr rejected
      have typed : ∀ update ∈ updatesOf assignments matched, RowOf table.columns update.newValues :=
        List.forall_mem_map.mpr fun row isMatched =>
          rowOf_assign resolves (isRow row (List.mem_of_mem_filter (same ▸ isMatched))).row
      exact Raises.bind (validateUpdateBatch_raises lockstep isTable typed)
        (validateUpdateBatch_reads lockstep isTable typed) fun _ => Raises.of_fact fun accepted => absurd refused accepted

omit keyed alone lockstep in
theorem executeDelete_refused {stmt : DeleteStatement} (rejected : (Mutation.delete stmt).Rejected db.catalog contents) :
    ∃ e, e.Thrown ∧ (executeDelete stmt).exec db = (.error e, db) := by
  have unplanned : ¬ ∃ access, planTableAccess db.catalog stmt.tableName stmt.wherePredicates = .ok access := by
    cases found : db.catalog.findTable stmt.tableName with
    | none => simp [planTableAccess, found]
    | some table => exact (unplanned_rejected unique stmt found).mpr rejected
  cases planned : planTableAccess db.catalog stmt.tableName stmt.wherePredicates with
  | ok access => exact absurd ⟨access, planned⟩ unplanned
  | error e => exact ⟨e, (planTableAccess_semantic _ _ _ e planned).thrown, executeDelete_unplanned planned⟩

theorem execute_refused {m : Mutation} (rejected : m.Rejected db.catalog contents) :
    ∃ e after, e.Thrown ∧ m.execute.exec db = (.error e, after) ∧ db.Still after := by
  -- what is known of a statement about a known table
  have refused : ∀ {table}, db.catalog.findTable m.tableName = some table → Raises db.Still m.execute Exception.Thrown →
      ∃ e after, e.Thrown ∧ m.execute.exec db = (.error e, after) ∧ db.Still after := by
    intro table found raises
    have ends := execute_relational keyed lockstep alone unique m found db rfl
    cases ran : m.execute.exec db with
    | mk outcome after =>
      rw [ran] at ends
      cases outcome with
      | ok returned => exact absurd rejected ends.1
      | error e =>
        rcases ends with ⟨-, still⟩ | ⟨accepted, -⟩
        · exact ⟨e, after, raises db (still_of_alone alone) e after ran, rfl, still⟩
        · exact absurd rejected accepted
  cases m with
  | insert stmt =>
    cases found : db.catalog.findTable stmt.tableName with
    | none => exact ⟨noSuchTable stmt.tableName, db, trivial, executeInsert_unknown found, still_of_alone alone⟩
    | some table => exact refused found (executeInsert_raises keyed lockstep unique found rejected)
  | update stmt =>
    cases found : db.catalog.findTable stmt.tableName with
    | none => exact ⟨noSuchTable stmt.tableName, db, trivial, executeUpdate_unknown found, still_of_alone alone⟩
    | some table => exact refused found (executeUpdate_raises keyed lockstep unique found rejected)
  | delete stmt =>
    obtain ⟨e, thrown, fails⟩ := executeDelete_refused unique rejected
    exact ⟨e, db, thrown, fails, still_of_alone alone⟩

theorem execute_answers {m : Mutation} (accepted : ¬ m.Rejected db.catalog contents) {table : TableInfo}
    (found : db.catalog.findTable m.tableName = some table) (few : ∀ index, FewKeys db.catalog table
      (m.result table ((contents table.name).map Prod.snd)) index) :
    (∃ e after, m.execute.exec db = (.error e, after) ∧ db.Extended after ∧ ¬ after.HasRoom) ∨
    ∃ after rows, m.execute.exec db =
        (.ok { rowsAffected := m.touched table ((contents table.name).map Prod.snd) }, after) ∧
      (rows.map Prod.snd).Perm (m.result table ((contents table.name).map Prod.snd)) ∧ db.Extended after ∧
      (after.HasRoom → Lockstep db.catalog after.objects (Function.update contents table.name rows)) ∧
      ∀ other ∈ db.catalog.tables,
        other.KeysUnique ((Function.update contents table.name rows other.name).map Prod.snd) := by
  have isTable := (Catalog.findTable_eq_some.mp found).1
  have ends := execute_relational keyed lockstep alone unique m found db rfl
  have counts := execute_counts m db trivial
  cases ran : m.execute.exec db with
  | mk outcome after =>
    rw [ran] at ends counts
    cases outcome with
    | error e =>
      rcases ends with ⟨rejected, -⟩ | ⟨-, cramped⟩
      · exact absurd rejected accepted
      · exact .inl ⟨e, after, rfl, cramped.extended, cramped.cramped fun index _ => few index⟩
    | ok returned =>
      obtain ⟨-, rows, perm, affected, settles⟩ := ends
      have fewAfter : ∀ index, FewKeys db.catalog table (rows.map Prod.snd) index := fun index =>
        (few index).perm perm.symm
      refine .inr ⟨after, rows, ?_, perm, settles.agrees.extended, fun room =>
        settles.lockstep (fewRepeated_update lockstep isTable fewAfter) room, keysUnique_after found accepted unique perm⟩
      rw [← affected, ← counts]

end Mutation

end FlintDB
