import PageCompiler.Island.Module

/-!
A running island: the current values of its states, and the actions that listen. Computed values
are not kept; they follow from the states.
-/

namespace PageCompiler.Island

open Json (Value Object)

structure Hydrated where
  module : Module
  states : Object
  listeners : List Action

namespace Hydrated

/-- At first each state has its initial value, and nothing listens. -/
def ofModule (m : Module) : Hydrated :=
  ⟨m, .ofList (m.script.states.map fun s => (s.name, s.initial)), []⟩

def listens (h : Hydrated) (id : String) : Bool := h.listeners.any fun a => a.id = id

/-- Lets all actions listen that do not listen yet. -/
def attach (h : Hydrated) : Hydrated :=
  { h with
    listeners := h.module.actions.foldl
      (fun as a => if as.any fun b => b.id = a.id then as else as ++ [a]) h.listeners }

def attachable (h : Hydrated) : Nat := h.attach.listeners.length - h.listeners.length

def isAttached (h : Hydrated) : Bool :=
  !h.module.actions.isEmpty && h.listeners.length = h.module.actions.length

def dispatch? (h : Hydrated) (id : String) : Option Hydrated :=
  (h.listeners.find? fun a => a.id = id).map fun a =>
    let current := (h.states.get? a.mutation.target).getD .null
    { h with states := h.states.insert a.mutation.target (a.mutation.apply current) }

/-- The value of a name, where `computed` holds the computed values, the last one first: each of
them depends on a state or on one behind it. -/
def valueFrom (states : Object) : (computed : List Computed) → (name : String) → Option Value
  | [], name => states.get? name
  | c :: earlier, name =>
    if (states.get? name).isNone && c.name = name then
      (valueFrom states earlier c.dependency).map fun v => c.formula.evaluate v
    else valueFrom states earlier name

def value? (h : Hydrated) (name : String) : Option Value :=
  valueFrom h.states h.module.script.computed.reverse name

/-- The texts of all names that can be bound, states first. -/
def bindings (h : Hydrated) : List (String × String) :=
  h.module.script.names.filterMap fun name =>
    (h.value? name).map fun v => (name, displayText v)

end Hydrated

end PageCompiler.Island
