import ByteMachine.Module.Basic
import ByteMachine.Module.Framing

/-!
Module files. The sections of a module stand in a fixed order, and the properties of a page before
its contents, since they say how wide the counts around the contents are.
-/
namespace ByteMachine.Module

open Framing

/-- The name of the table in front of a page. -/
def propertiesName (s : Section) : String :=
  s.name ++ "_properties"

/-- Writes the properties and then the contents of a page. -/
def writePage {s : Section} (p : Page s) : Action Sink Unit := do
  writeTable (propertiesName s) p.properties
  writeBlock s.name p.width p.contents

def write (m : Module) : Action Sink Unit := do
  writeText "module"
  writeTable "properties" m.properties
  writeTable "exports" m.exports
  writePage m.code
  writePage m.data

/-- Reads the properties and then the contents of a page. -/
def readPage (s : Section) : Action Source (Page s) := do
  let properties ← readTable (propertiesName s)
  let width ← Action.ofExcept properties.width
  let contents ← readBlock s.name width
  Action.ofExcept (Page.make s properties contents)

def read : Action Source Module := do
  readHeader "module"
  let properties ← readTable "properties"
  let exports ← readTable "exports"
  let code ← readPage .code
  let data ← readPage .data
  return ⟨properties, exports, code, data⟩

end ByteMachine.Module
