import FeatureStore.Error
import FeatureStore.Sql.Timeline

/-!
# Conditions

A condition is a boolean combination of atoms. On the rows of one table the atoms
are tests (`RowCondition`); on features they also include memberships, and these
build on the joins to a table (`Sql.Membership`). The text of a combination stands in
parentheses, so that it can be joined with others.
-/

namespace FeatureStore

/-- A test on the rows that a statement reads. -/
inductive Test where
  | compare (op : Comparison) (left right : Scalar)
  | like (value pattern : Scalar)
  | oneOf (value : Scalar) (list : List Scalar) (negated : Bool)
  | isNull (value : Scalar)
  | between (value lower upper : Scalar)
  | spatial (relation : SpatialRelation) (left right : Scalar)
  | temporal (test : TimeTest)
  deriving DecidableEq, Inhabited

/-- A boolean combination of atoms. -/
inductive Condition (α : Type) where
  | atom (a : α)
  | constant (value : Bool)
  /-- All parts hold. -/
  | all (parts : List (Condition α))
  /-- At least one part holds. -/
  | any (parts : List (Condition α))
  | negation (part : Condition α)
  deriving Inhabited

/-- A condition on the rows of one table. -/
abbrev RowCondition := Condition Test

namespace Test

/-- The text of a test. -/
def sql (dialect : Dialect) (srid : Nat) (test : Test) : Sql :=
  let text (s : Scalar) : Sql := s.sql dialect srid
  match test with
  | .compare op left right => text left ++ .text (" " ++ op.symbol ++ " ") :: text right
  | .like value pattern => dialect.castText (text value) ++ .text " LIKE " :: text pattern
  | .oneOf value list negated =>
    text value ++ .text (if negated then " NOT IN " else " IN ") ::
      Sql.parenthesized (Sql.separated ", " (list.map text))
  | .isNull value => text value ++ Sql.ofText " IS NULL"
  | .between value lower upper =>
    text value ++ .text " BETWEEN " :: text lower ++ .text " AND " :: text upper
  | .spatial relation left right =>
    Sql.around (Dialect.spatialFunction relation ++ "(") (text left ++ .text ", " :: text right)
      ")"
  | .temporal test => test.sql dialect srid

end Test

namespace Condition

/-- The text of a truth value. -/
def constantText (value : Bool) : String := if value then "1=1" else "1=0"

mutual
/-- The text of a condition, from the text of its atoms. -/
def sql {α : Type} (atomSql : α → Sql) : Condition α → Sql
  | .atom a => atomSql a
  | .constant value => Sql.ofText (constantText value)
  | .all parts => Sql.parenthesized (Sql.separated " AND " (listSql atomSql parts))
  | .any parts => Sql.parenthesized (Sql.separated " OR " (listSql atomSql parts))
  | .negation part => Sql.around "NOT (" (part.sql atomSql) ")"

/-- The texts of a list of conditions. -/
def listSql {α : Type} (atomSql : α → Sql) : List (Condition α) → List Sql
  | [] => []
  | part :: rest => part.sql atomSql :: listSql atomSql rest
end

mutual
/-- The truth value of a condition, from the truth values of its atoms. -/
def holds {α : Type} (truth : α → Bool) : Condition α → Bool
  | .atom a => truth a
  | .constant value => value
  | .all parts => allHold truth parts
  | .any parts => anyHolds truth parts
  | .negation part => !part.holds truth

/-- All conditions of a list hold. -/
def allHold {α : Type} (truth : α → Bool) : List (Condition α) → Bool
  | [] => true
  | part :: rest => part.holds truth && allHold truth rest

/-- Some condition of a list holds. -/
def anyHolds {α : Type} (truth : α → Bool) : List (Condition α) → Bool
  | [] => false
  | part :: rest => part.holds truth || anyHolds truth rest
end

/-- All conditions of a list; a single one stands for itself. -/
def conjunction {α : Type} : List (Condition α) → Condition α
  | [] => .constant true
  | [only] => only
  | parts => .all parts

/-- Some condition of a list; a single one stands for itself. -/
def disjunction {α : Type} : List (Condition α) → Condition α
  | [] => .constant false
  | [only] => only
  | parts => .any parts

end Condition

/-! ## From filters to conditions -/

namespace Filter

mutual
/-- The condition that a filter stands for, from the conditions of its predicates and array
relations. A predicate is asked for its negation if it is a list of alternatives that stands
directly under a negation; `negate` makes the negation of every other condition. -/
def lower {α : Type} (predicate : Bool → Predicate → Except Error (Condition α))
    (array : ArrayRelation → Operand → Operand → Except Error (Condition α))
    (negate : Condition α → Condition α) : Filter → Except Error (Condition α)
  | .all args => (lowerList predicate array negate args).map Condition.conjunction
  | .any args => (lowerList predicate array negate args).map Condition.disjunction
  | .negation (.test (.oneOf value list)) => predicate true (.oneOf value list)
  | .negation arg => (arg.lower predicate array negate).map negate
  | .test p => predicate false p
  | .array relation left right => array relation left right
  | .constant value => .ok (.constant value)

/-- The conditions that a list of filters stands for. -/
def lowerList {α : Type} (predicate : Bool → Predicate → Except Error (Condition α))
    (array : ArrayRelation → Operand → Operand → Except Error (Condition α))
    (negate : Condition α → Condition α) : List Filter → Except Error (List (Condition α))
  | [] => .ok []
  | arg :: rest => do
    let condition ← arg.lower predicate array negate
    let conditions ← lowerList predicate array negate rest
    return condition :: conditions
end

end Filter

end FeatureStore
