import DivGuard.Interpreter.Demand
import Std.Data.HashMap

/-!
# Evaluating with a memo

An operand that several nodes use need not be evaluated several times.  The memo keeps the outcomes
found so far, for one graph and one run; errors are not kept, but what was found before one is.
-/

namespace DivGuard

abbrev Memo := Std.HashMap NodeId Outcome

/-- Answers a demand with an evaluation that reads and extends a memo. -/
def Demand.answerMemo (eval : NodeId → Memo → Except UnitError Outcome × Memo) :
    Demand → Memo → Except UnitError Outcome × Memo
  | .done result, memo => (result, memo)
  | .ask operand next, memo =>
    match eval operand memo with
    | (.error e, memo) => (.error e, memo)
    | (.ok outcome, memo) => (next outcome).answerMemo eval memo

namespace Run

/-- Looks a node up and evaluates it only if it is not found, following inputs down to a depth. -/
def evaluateMemoTo (run : Run) (g : Graph) :
    Nat → NodeId → Memo → Except UnitError Outcome × Memo
  | 0, id, memo => (.error (.invalidNode id), memo)
  | depth + 1, id, memo =>
    match memo[id]? with
    | some outcome => (.ok outcome, memo)
    | none =>
      match g.node? id with
      | none => (.error (.invalidNode id), memo)
      | some node =>
        match (run.demand id node).answerMemo (run.evaluateMemoTo g depth) memo with
        | (.error e, memo) => (.error e, memo)
        | (.ok outcome, memo) => (.ok outcome, memo.insert id outcome)

def evaluateMemo (run : Run) (g : Graph) (id : NodeId) (memo : Memo) :
    Except UnitError Outcome × Memo :=
  run.evaluateMemoTo g (g.slots.size + 1) id memo

def evaluateAll (run : Run) (g : Graph) :
    List NodeId → Memo → List (Except UnitError Outcome) × Memo
  | [], memo => ([], memo)
  | id :: ids, memo =>
    let (result, memo) := run.evaluateMemo g id memo
    let (results, memo) := run.evaluateAll g ids memo
    (result :: results, memo)

end Run

end DivGuard
