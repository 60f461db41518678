import CellLisp.Store

/-!
The machine that programs run on: the store, and a stack of scopes with the innermost first.
Names are looked up from the innermost scope outwards.
-/

namespace CellLisp

structure Machine where
  store : Store
  stack : List ScopeId

namespace Machine

/-- The global scope is the first one of the store. -/
def initial : Machine := ⟨(Store.empty.newScope .empty).2, [(Store.empty.newScope .empty).1]⟩

/-- The innermost scope that binds a name. -/
def binder? (m : Machine) (name : String) : Option ScopeId :=
  m.stack.find? fun i => (m.store.scope i).binds name

def lookup? (m : Machine) (name : String) : Option Value :=
  (m.binder? name).bind fun i => (m.store.scope i).get? name

/-- Rebinds a name where it is bound. -/
def assign? (m : Machine) (name : String) (v : Value) : Option Machine :=
  (m.binder? name).map fun i => { m with store := m.store.bind i name v }

/-- Binds a name in the innermost scope. -/
def define? (m : Machine) (name : String) (v : Value) : Option Machine :=
  m.stack.head?.map fun i => { m with store := m.store.bind i name v }

end Machine

end CellLisp
