import FlintDB.Sql.Printer

set_option autoImplicit false

-- The statements that the grammar derives from the names the lexer lets through.

namespace FlintDB

open Lib

/-- A name in a sentence is one that the lexer lets through. -/
def Terminal.Named : Terminal → Prop
  | identifier name => IsIdentifier name
  | _ => True

def Named (sentence : List Terminal) : Prop := ∀ terminal ∈ sentence, terminal.Named

@[simp] theorem named_nil : Named [] := by simp [Named]

@[simp] theorem named_cons {terminal : Terminal} {sentence : List Terminal} :
    Named (terminal :: sentence) ↔ terminal.Named ∧ Named sentence := List.forall_mem_cons

@[simp] theorem named_append {front back : List Terminal} : Named (front ++ back) ↔ Named front ∧ Named back :=
  List.forall_mem_append

@[simp] theorem named_symbol (type : TokenType) : (Terminal.symbol type).Named := trivial

@[simp] theorem named_identifier (name : String) : (Terminal.identifier name).Named ↔ IsIdentifier name := Iff.rfl

theorem named_tokens {sql : Bytes} {tokens : List Token} (lexed : tokenize sql = .ok tokens) :
    Named (tokens.map Token.terminal) := by
  refine List.forall_mem_map.mpr fun token member => ?_
  rw [Token.terminal]
  split
  · rename_i isName
    exact isIdentifier_iff.mpr ⟨sql, tokens, lexed, token, member, isName, rfl⟩
  all_goals trivial

namespace Grammar

theorem separated_all {α : Type} {separator : TokenType} {L : Production α} {sentence : List Terminal} {as : List α}
    (are : Phrases.Separated (.symbol separator) L sentence as) {T : Terminal → Prop}
    (holds : ∀ terminal ∈ sentence, T terminal) {P : α → Prop}
    (each : ∀ s a, L s a → (∀ terminal ∈ s, T terminal) → P a) : as ≠ [] ∧ ∀ a ∈ as, P a := by
  induction are with
  | last only =>
    refine ⟨List.cons_ne_nil _ _, fun a member => ?_⟩
    rw [List.mem_singleton.mp member]
    exact each _ _ only holds
  | cons first others ih =>
    obtain ⟨front, behind⟩ := List.forall_mem_append.mp holds
    have back := (List.forall_mem_cons.mp behind).2
    exact ⟨List.cons_ne_nil _ _, List.forall_mem_cons.mpr ⟨each _ _ first front, (ih back).2⟩⟩

theorem columnRef_wellFormed {s : List Terminal} {ref : FlintDB.ColumnRef} (isRef : ColumnRef s ref) (named : Named s) :
    ref.WellFormed := by
  cases isRef with
  | plain column => exact ⟨nofun, by simpa using named⟩
  | qualified table column =>
    obtain ⟨isTable, isColumn⟩ := by simpa using named
    refine ⟨?_, isColumn⟩
    rintro _ ⟨⟩
    exact isTable

theorem predicate_wellFormed {s : List Terminal} {predicate : FlintDB.Predicate} (isPredicate : Predicate s predicate)
    (named : Named s) : predicate.column.WellFormed := by
  cases isPredicate with
  | intro isColumn isOp isValue => exact columnRef_wellFormed isColumn (named_append.mp named).1

theorem where_wellFormed {s : List Terminal} {predicates : List FlintDB.Predicate} (isWhere : Where s predicates)
    (named : Named s) : ∀ predicate ∈ predicates, predicate.column.WellFormed := by
  cases isWhere with
  | none => exact nofun
  | some are => exact (separated_all are (named_cons.mp named).2 fun _ _ => predicate_wellFormed).2

theorem columnDef_named {s : List Terminal} {column : FlintDB.ColumnDef × Bool} (isDef : ColumnDef s column)
    (named : Named s) : IsIdentifier column.1.name := by
  cases isDef <;> exact (named_cons.mp named).1

theorem assignment_named {s : List Terminal} {assignment : FlintDB.Assignment} (isAssignment : Assignment s assignment)
    (named : Named s) : IsIdentifier assignment.columnName := by
  cases isAssignment
  exact (named_cons.mp named).1

theorem join_wellFormed {s : List Terminal} {join : Option JoinClause} (isJoin : Join s join) (named : Named s) :
    ∀ clause ∈ join, clause.WellFormed := by
  cases isJoin with
  | none => exact nofun
  | some table isLeft isRight =>
    obtain ⟨isTable, left, right⟩ := by simpa using named
    rintro _ ⟨⟩
    exact ⟨isTable, columnRef_wellFormed isLeft left, columnRef_wellFormed isRight right⟩

theorem selectList_wellFormed {s : List Terminal} {selected : Bool × List FlintDB.ColumnRef}
    (isList : SelectList s selected) (named : Named s) :
    (if selected.1 then selected.2 = [] else selected.2 ≠ []) ∧ ∀ ref ∈ selected.2, ref.WellFormed := by
  cases isList with
  | star => exact ⟨rfl, nofun⟩
  | columns are => exact separated_all are named fun _ _ => columnRef_wellFormed

theorem statement_wellFormed {s : List Terminal} {stmt : FlintDB.Statement} (isStmt : Statement s stmt)
    (named : Named s) : stmt.WellFormed := by
  cases isStmt with
  | createTable table are onePrimaryKey =>
    obtain ⟨isTable, inside⟩ := by simpa using named
    obtain ⟨nonempty, names⟩ := separated_all are inside fun _ _ => columnDef_named
    refine ⟨isTable, by simpa using nonempty, List.forall_mem_map.mpr names, fun key isKey => ?_⟩
    -- the one that is marked is among the columns
    have isMarked := List.mem_of_mem_head? isKey
    obtain ⟨column, isColumn, rfl⟩ := List.mem_map.mp isMarked
    exact List.mem_map_of_mem (List.mem_map_of_mem (List.mem_of_mem_filter isColumn))
  | createIndex index table column => simpa [FlintDB.Statement.WellFormed] using named
  | insert table are =>
    obtain ⟨isTable, inside⟩ := by simpa using named
    exact ⟨isTable, (separated_all are inside fun _ _ _ _ => trivial).1⟩
  | select table isList isJoin isWhere =>
    obtain ⟨list, isTable, join, conditions⟩ := by simpa using named
    obtain ⟨shape, refs⟩ := selectList_wellFormed isList list
    exact ⟨shape, refs, isTable, join_wellFormed isJoin join, where_wellFormed isWhere conditions⟩
  | update table are isWhere =>
    obtain ⟨isTable, inside, conditions⟩ := by simpa using named
    obtain ⟨nonempty, names⟩ := separated_all are inside fun _ _ => assignment_named
    exact ⟨isTable, nonempty, names, where_wellFormed isWhere conditions⟩
  | delete table isWhere =>
    obtain ⟨isTable, conditions⟩ := by simpa using named
    exact ⟨isTable, where_wellFormed isWhere conditions⟩
  | begin => trivial
  | commit => trivial
  | rollback => trivial

end Grammar

theorem parse_wellFormed {sql : Bytes} {stmt : Statement} (parsed : parse sql = .ok stmt) : stmt.WellFormed := by
  obtain ⟨tokens, lexed, sentence, view, derives⟩ := (parse_ok_iff sql stmt).mp parsed
  have named := named_tokens lexed
  rw [view] at named
  have inside := (named_append.mp named).1
  rcases derives with isStmt | ⟨front, rfl, isStmt⟩
  · exact Grammar.statement_wellFormed isStmt inside
  · exact Grammar.statement_wellFormed isStmt (named_append.mp inside).1

/-- Parse returns the statements that are well formed, and no others; each has a text of its own, which is read back as
the same statement whatever text it came from. -/
theorem parsed_iff_wellFormed (stmt : Statement) :
    ((∃ sql, parse sql = .ok stmt) ↔ stmt.WellFormed) ∧
      ∀ sql, parse sql = .ok stmt → parse (printStatement stmt) = .ok stmt :=
  ⟨⟨fun ⟨_, parsed⟩ => parse_wellFormed parsed, fun wellFormed => ⟨_, parse_printStatement wellFormed⟩⟩,
    fun _ parsed => parse_printStatement (parse_wellFormed parsed)⟩

end FlintDB
