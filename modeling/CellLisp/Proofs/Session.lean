import CellLisp.Proofs.Process.Move
import CellLisp.Proofs.Process.Simulation
import CellLisp.Proofs.Process.Sound
import CellLisp.Session

/-!
# What sessions go through

A session runs texts one after the other on one machine. A run that faults leaves the machine as it
then is, and the session goes on. Between the texts and between the forms of a text the process of
a session is idle: nothing waits, and the next form may be read.
-/

namespace CellLisp.Session

/-- The scope that a session begins with. -/
def globalScope : ScopeId := (Store.empty.newScope .empty).1

/-- A machine that some sequence of runs leaves, from the start of a session. -/
inductive Reached : Machine → Prop
  | initial : Reached Machine.initial
  | run {m n : Machine} (before : Reached m) (depth : Nat) (source : String)
      (left : (run depth source m).machine? = some n) : Reached n

/-- The process of a session takes a step, or it is idle and reads a form. -/
inductive Turn : Process → Process → Prop
  | step {p q : Process} (next : p.next = some q) : Turn p q
  | read {result : Except Fault Value} {m n : Machine} {node : Node} {form : Value}
      (placed : readForm node m = .value form n) : Turn ⟨.done result, [], m⟩ ⟨.code form, [], n⟩

def Course : Process → Process → Prop := Relation.ReflTransGen Turn

/-- A course on which each point that is left again has the property. -/
def Through (P : Process → Prop) : Process → Process → Prop :=
  Relation.ReflTransGen fun p q => P p ∧ Turn p q

def start : Process := ⟨.done (.ok .nil), [], Machine.initial⟩

variable {m n : Machine} {p q : Process} {P : Process → Prop}

theorem Through.course (through : Through P p q) : Course p q :=
  Relation.ReflTransGen.mono (fun _ _ => And.right) _ _ through

theorem course_of_leads (leads : Process.Leads p q) : Course p q :=
  leads.lift id fun _ _ => Turn.step

/-- A form that was read is its node in new cells. -/
theorem exists_of_readForm {node : Node} {form : Value} (placed : readForm node m = .value form n) :
    ∃ d, Datum.ofNode false node = .ok d ∧ form = (m.store.place d).1 ∧
      n = ⟨(m.store.place d).2, m.stack⟩ := by
  unfold readForm at placed
  cases read : Datum.ofNode false node with
  | ok d =>
    rw [read] at placed
    cases placed
    exact ⟨d, rfl, rfl, rfl⟩
  | error f =>
    rw [read] at placed
    cases placed

theorem eq_of_readForm_fault {node : Node} {f : Fault} (unread : readForm node m = .fault f n) :
    n = m := by
  unfold readForm at unread
  cases read : Datum.ofNode false node with
  | ok d =>
    rw [read] at unread
    cases unread
  | error g =>
    rw [read] at unread
    cases unread
    rfl

/-! Runs are courses. -/

/-- The points that running forms passes while one of them is evaluated. -/
inductive PassesForms (depth : Nat) : List Node → Machine → Process → Prop
  | here {node : Node} {nodes : List Node} {m n : Machine} {form : Value} {q : Process}
      (placed : readForm node m = .value form n) (leads : Process.Leads ⟨.code form, [], n⟩ q) :
      PassesForms depth (node :: nodes) m q
  | later {node : Node} {nodes : List Node} {m n k : Machine} {form v : Value} {q : Process}
      (placed : readForm node m = .value form n) (ended : eval depth form n = .value v k)
      (rest : PassesForms depth nodes k q) : PassesForms depth (node :: nodes) m q

/-- The points that running a text passes. -/
def Passes (depth : Nat) (source : String) (m : Machine) (q : Process) : Prop :=
  ∃ nodes, Source.nodes source = .ok nodes ∧ PassesForms depth nodes m q

/-- Where running forms ends it has passed last, unless it evaluated nothing. -/
theorem runForms_ends {depth : Nat} (nodes : List Node) (last : Option Value)
    (ends : (runForms depth last nodes m).machine? = some n) :
    n = m ∨ ∃ final, PassesForms depth nodes m ⟨.done final, [], n⟩ := by
  induction nodes generalizing m last with
  | nil =>
    cases ends
    exact .inl rfl
  | cons node nodes ih =>
    rcases Eval.machine?_bind ends with ⟨f, unread⟩ | ⟨form, m₁, placed, rest⟩
    · exact .inl (eq_of_readForm_fault unread)
    · have follows := Process.eval_follows depth form [] m₁
      rcases Eval.machine?_bind rest with ⟨f, failed⟩ | ⟨v, m₂, evaluated, rest⟩
      · rw [failed] at follows
        exact .inr ⟨.error f, .here placed follows.leads_fault⟩
      · rw [evaluated] at follows
        rcases ih _ rest with rfl | ⟨final, passes⟩
        · exact .inr ⟨.ok v, .here placed follows.leads_value⟩
        · exact .inr ⟨final, .later placed evaluated passes⟩

theorem run_ends {depth : Nat} {source : String}
    (ends : (run depth source m).machine? = some n) :
    n = m ∨ ∃ final, Passes depth source m ⟨.done final, [], n⟩ := by
  unfold run at ends
  cases parsed : Source.nodes source with
  | error f =>
    rw [parsed] at ends
    cases ends
    exact .inl rfl
  | ok nodes =>
    rw [parsed] at ends
    exact (runForms_ends nodes none ends).imp_right fun ⟨final, passes⟩ =>
      ⟨final, nodes, parsed, passes⟩

theorem through_of_leads (each : ∀ t, Process.Leads p t → P t) (leads : Process.Leads p q) :
    Through P p q := by
  induction leads with
  | refl => exact .refl
  | tail before step ih => exact ih.tail ⟨each _ before, .step step⟩

section Through

variable (idle : ∀ result m, P ⟨.done result, [], m⟩) {depth : Nat}

include idle

theorem PassesForms.through {nodes : List Node} (passes : PassesForms depth nodes m q)
    (each : ∀ t, PassesForms depth nodes m t → P t) (result : Except Fault Value) :
    Through P ⟨.done result, [], m⟩ q := by
  have reading {m n : Machine} {node : Node} {form : Value} (result : Except Fault Value)
      (placed : readForm node m = .value form n) :
      Through P ⟨.done result, [], m⟩ ⟨.code form, [], n⟩ := .single ⟨idle result m, .read placed⟩
  induction passes generalizing result with
  | here placed leads =>
    have evaluated := through_of_leads (fun t leads => each t (.here placed leads)) leads
    exact (reading result placed).trans evaluated
  | @later node nodes m n k form v q placed ended rest ih =>
    have follows := Process.eval_follows depth form [] n
    rw [ended] at follows
    have evaluated :=
      through_of_leads (fun t leads => each t (.here placed leads)) follows.leads_value
    have behind := ih (fun t passes => each t (.later placed ended passes)) (.ok v)
    exact ((reading result placed).trans evaluated).trans behind

theorem Passes.through {source : String} (passes : Passes depth source m q)
    (each : ∀ t, Passes depth source m t → P t) (result : Except Fault Value) :
    Through P ⟨.done result, [], m⟩ q := by
  obtain ⟨nodes, parsed, passes⟩ := passes
  exact passes.through idle (fun t passes => each t ⟨nodes, parsed, passes⟩) result

theorem run_through {source : String} (result : Except Fault Value)
    (each : ∀ t, Passes depth source m t → P t)
    (ends : (run depth source m).machine? = some n) :
    ∃ final, Through P ⟨.done result, [], m⟩ ⟨.done final, [], n⟩ := by
  rcases run_ends ends with rfl | ⟨final, passes⟩
  · exact ⟨result, .refl⟩
  · exact ⟨final, passes.through idle each result⟩

end Through

theorem run_course {depth : Nat} {source : String} (result : Except Fault Value)
    (ends : (run depth source m).machine? = some n) :
    ∃ final, Course ⟨.done result, [], m⟩ ⟨.done final, [], n⟩ := by
  obtain ⟨final, through⟩ :=
    run_through (P := fun _ => True) (fun _ _ => trivial) result (fun _ _ => trivial) ends
  exact ⟨final, through.course⟩

theorem Reached.course (reached : Reached m) : ∃ final, Course start ⟨.done final, [], m⟩ := by
  induction reached with
  | initial => exact ⟨.ok .nil, .refl⟩
  | run before depth source left ih =>
    obtain ⟨result, earlier⟩ := ih
    obtain ⟨final, later⟩ := run_course result left
    exact ⟨final, earlier.trans later⟩

/-! What holds at each point of a course. -/

/-- Reading a form is one more way to change the machine outside of blocks and calls. -/
theorem Turn.move {base : List ScopeId} (turn : Turn p q) (balanced : p.Balanced base) :
    p.Move q := by
  cases turn with
  | step next => exact balanced.move next
  | @read result m n node form placed =>
    obtain ⟨d, _, rfl, rfl⟩ := exists_of_readForm placed
    exact .change rfl (.place d)

theorem Turn.sound (turn : Turn p q) (sound : p.Sound) : q.Sound := by
  cases turn with
  | step next => exact sound.next next
  | @read result m n node form placed =>
    obtain ⟨d, _, rfl, rfl⟩ := exists_of_readForm placed
    obtain ⟨store, known⟩ := sound.grounded.machine.store.place d
    have within := Store.within_place m.store d
    have machine : Machine.Sound ⟨(m.store.place d).2, m.stack⟩ :=
      ⟨store, fun i mem => Nat.lt_of_lt_of_le (sound.grounded.machine.stack i mem) within.scopes⟩
    exact ⟨⟨machine, nofun⟩, known⟩

theorem Course.balanced {base : List ScopeId} (course : Course p q) (balanced : p.Balanced base) :
    q.Balanced base := by
  induction course with
  | refl => exact balanced
  | tail _ turn ih => exact ih.next (turn.move ih)

theorem Course.sound (course : Course p q) (sound : p.Sound) : q.Sound := by
  induction course with
  | refl => exact sound
  | tail _ turn ih => exact turn.sound ih

theorem balanced_start : start.Balanced [globalScope] := rfl

theorem sound_start : start.Sound := ⟨⟨Machine.sound_initial, nofun⟩, by rintro _ ⟨⟩; trivial⟩

theorem Reached.sound (reached : Reached m) : m.Sound := by
  obtain ⟨final, course⟩ := reached.course
  exact (course.sound sound_start).grounded.machine

end CellLisp.Session
