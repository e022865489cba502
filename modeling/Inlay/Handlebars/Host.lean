import Inlay.Compile.Embedding
import Inlay.Compile.Reading
import Inlay.Handlebars.Dispatch
import Inlay.Template.Node

/-!
# The Handlebars host

A host for the part of Handlebars that deals with partials: literal text,
variables, references to partials by name, by expression and to the
enclosing block, partial blocks, and inline definitions. Its code is the
inside of a single-quoted literal, which expressions interrupt.

The host calls itself for the texts it meets on its way. It is given by one
step on top of any host, and by the number of steps that may nest.
-/

namespace Inlay.Handlebars

variable (self : Host)

def withLineIndent (indent : Text) (body : CompileM Text) : CompileM Text := do
  let saved := (← CompileM.view).lineIndent
  CompileM.modifyView fun v => { v with lineIndent := indent }
  let code ← body
  CompileM.modifyView fun v => { v with lineIndent := saved }
  return code

/-- The body of the enclosing block, compiled without that block, or its
call at render time. -/
def enclosingBlock (indent : Option Text) : CompileM Text := do
  let v ← CompileM.view
  match v.blocks with
  | body :: outer => do
      CompileM.modifyView fun v => { v with blocks := outer }
      let code ← self.compile (Text.indentLines (indent.getD []) body)
      CompileM.modifyView fun v => { v with blocks := body :: v.blocks }
      return code
  | [] =>
      if v.flags.runtime then
        return v.fragments.splice "LR::pb($cx, $in)".toList
      else do
        CompileM.report .noEnclosingBlock
        return []

def namedReference (name : Text) (indent : Option Text) : CompileM Text := do
  let _ ← readPartial self name
  let v ← CompileM.view
  let target := v.resolvedName name
  if v.flags.runtime then
    return dispatch v (nameLiteral target) indent none
  else embed self target

def dynamicReference (expr : Text) (indent : Option Text) : CompileM Text := do
  CompileM.countOne Counter.dynamicReferences
  let v ← CompileM.view
  if !v.flags.runtime && !v.flags.allowDynamicNames then
    CompileM.report (.dynamicName expr)
  return dispatch v (lookup expr) indent none

def reference (target : Reference) (indent : Option Text) : CompileM Text :=
  withLineIndent (indent.getD []) <|
    match target with
    | .named name => namedReference self name indent
    | .dynamic expr => dynamicReference expr indent
    | .block => enclosingBlock self indent

def embedWithBlock (target body : Text) : CompileM Text := do
  CompileM.modifyView fun v => { v with blocks := body :: v.blocks }
  let code ← embed self target
  CompileM.modifyView fun v => { v with blocks := v.blocks.tail }
  return code

def partialBlock (name body : Text) : CompileM Text :=
  withLineIndent [] do
    let _ ← readPartial self name
    let v ← CompileM.view
    let target := v.resolvedName name
    if v.flags.runtime then do
      let callable ← compileLocal self body
      return dispatch (← CompileM.view) (nameLiteral target) none (some callable)
    else embedWithBlock self target body

/-- Defines an inline partial. The first definition of a name is the source
that is cached for it. -/
def defineInline (name body : Text) : CompileM Unit := do
  CompileM.countOne Counter.inlineDefinitions
  let source := Keyword.unmask body
  CompileM.modifyView fun v => { v with inlines := v.inlines.insert name source }
  if name ∉ (← CompileM.view).cached then
    CompileM.modifyView fun v => { v with cached := v.cached.insert name source }
    let _ ← compileUnit self name

def checkClosed (name : Text) (closed : Bool) : CompileM Unit :=
  if closed then return else CompileM.report (.unclosedBlock name)

def node : Node → CompileM Text
  | .literal text => return text.quote
  | .variable name => return (← CompileM.view).fragments.splice (lookup name)
  | .reference target indent => reference self target indent
  | .block name body closed => do
      checkClosed name closed
      partialBlock self name body
  | .inlinePartial name body closed => do
      checkClosed "inline".toList closed
      defineInline self name body
      return []
  | .strayClose name => do
      CompileM.report (.unexpectedClose name)
      return []

def nodes : List Node → CompileM Text
  | [] => return []
  | n :: ns => do
      let code ← node self n
      return code ++ (← nodes ns)

/-- One step: compiles a text, and leaves the texts met on the way to
`self`. -/
def step : Host :=
  fun source => nodes self source.nodes

/-- The host whose calls may nest `depth` deep. -/
def host : Nat → Host
  | 0 => fun _ => CompileM.fail
  | depth + 1 => step (host depth)

end Inlay.Handlebars
