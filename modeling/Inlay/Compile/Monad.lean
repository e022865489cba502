import Inlay.Context

/-!
# Compilations

A compilation reads files, changes its context and leaves a trace of the
calls it makes to the preprocessing hook and to its host. It has no result
where the host gives none, as when references nest without end.
-/

namespace Inlay

/-- A call that a compilation made, with the context at the time. -/
inductive Event where
  | preprocess (view : View) (source name : Text)
  | compile (view : View) (source : Text)

structure Compilation where
  context : Context
  /-- The calls made so far, the latest first. -/
  trace : List Event

abbrev CompileM := ReaderT FileSystem (StateT Compilation Option)

/-- A host turns template text into code. -/
abbrev Host := Text → CompileM Text

namespace CompileM

def fail {α : Type} : CompileM α :=
  fun _ _ => none

def context : CompileM Context :=
  return (← get).context

def view : CompileM View :=
  return (← get).context.toView

def setContext (c : Context) : CompileM Unit :=
  modify fun s => { s with context := c }

def modifyView (f : View → View) : CompileM Unit :=
  modify fun s => { s with context := { s.context with toView := f s.context.toView } }

def emit (e : Event) : CompileM Unit :=
  modify fun s => { s with trace := e :: s.trace }

def report (d : Diagnostic) : CompileM Unit :=
  modifyView (·.report d)

def countOne (name : Text) : CompileM Unit :=
  modifyView (·.countOne name)

end CompileM

def Host.compile (host : Host) (source : Text) : CompileM Text := do
  CompileM.emit (.compile (← CompileM.view) source)
  host source

end Inlay
