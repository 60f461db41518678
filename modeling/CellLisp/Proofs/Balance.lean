import CellLisp.Proofs.Session

/-!
# The stack of scopes is balanced

However an evaluation ends, with a value or a fault, it leaves the stack as it found it: the same
scopes in the same order. So between the runs of a session only the global scope is on the stack.
-/

namespace CellLisp

variable {m n : Machine}

theorem eval_stack {depth : Nat} {v : Value} (ends : (eval depth v m).machine? = some n) :
    n.stack = m.stack := by
  obtain ⟨result, leads⟩ := (Process.eval_follows depth v [] m).leads ends
  have start : Process.Balanced m.stack ⟨.code v, [], m⟩ := rfl
  exact start.leads leads

theorem Evaluation.runBody_stack {depth : Nat} {body : Value}
    (ends : (runBody (eval depth) body m).machine? = some n) : n.stack = m.stack := by
  obtain ⟨result, leads⟩ := (Process.body_follows depth body m).leads ends
  have start : Process.Balanced m.stack ⟨.body body, [], m⟩ := rfl
  exact start.leads leads

namespace Session

theorem run_stack {depth : Nat} {source : String}
    (ends : (run depth source m).machine? = some n) : n.stack = m.stack := by
  obtain ⟨final, course⟩ := run_course (.ok .nil) ends
  have idle : Process.Balanced m.stack ⟨.done (.ok .nil), [], m⟩ := rfl
  exact course.balanced idle

theorem Reached.stack (reached : Reached m) : m.stack = [globalScope] := by
  obtain ⟨final, course⟩ := reached.course
  exact course.balanced balanced_start

end Session

/-- Every way out of an evaluation and of a run leaves the stack as it was on the way in. -/
theorem stack_balanced :
    (∀ depth v m n, (eval depth v m).machine? = some n → n.stack = m.stack) ∧
    (∀ depth source m n, (Session.run depth source m).machine? = some n → n.stack = m.stack) ∧
    ∀ m, Session.Reached m → m.stack = [Session.globalScope] :=
  ⟨fun _ _ _ _ => eval_stack, fun _ _ _ _ => Session.run_stack, fun _ => Session.Reached.stack⟩

/-- A block in which a call faults, entered and left three scopes deep. -/
def faultyCall : String := "(block (def z 1) ((lambda (x) (block (def y x) (nope))) 2))"

set_option maxRecDepth 4000 in
theorem stack_balanced_after_faulty_call :
    (∃ m n, (eval 2 (.cons ⟨1⟩) m).fault? = some (.evaluation (.unbound "nope")) ∧
      (eval 2 (.cons ⟨1⟩) m).machine? = some n ∧ n.stack = m.stack) ∧
    ∃ n, (Session.run 9 faultyCall Machine.initial).fault? = some (.evaluation (.unbound "nope")) ∧
      (Session.run 9 faultyCall Machine.initial).machine? = some n ∧
      n.stack = Machine.initial.stack ∧ n.stack = [Session.globalScope] := by
  constructor
  · let m : Machine :=
      ⟨(Machine.initial.store.list [.string "block", .string "nope"]).2, [Session.globalScope]⟩
    obtain ⟨n, ends⟩ : ∃ n, (eval 2 (.cons ⟨1⟩) m).machine? = some n :=
      Option.isSome_iff_exists.mp (by decide +kernel)
    exact ⟨m, n, by decide +kernel, ends, stack_balanced.1 2 _ m n ends⟩
  · obtain ⟨n, ends⟩ : ∃ n, (Session.run 9 faultyCall Machine.initial).machine? = some n :=
      Option.isSome_iff_exists.mp (by decide +kernel)
    refine ⟨n, by decide +kernel, ends, stack_balanced.2.1 9 _ _ n ends, ?_⟩
    exact stack_balanced.2.2 n (.run .initial 9 _ ends)

end CellLisp
