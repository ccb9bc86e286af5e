import ByteMachine.Assembly.Emit
import ByteMachine.Module.Basic

/-!
From an assembly text to a module: the lines are parsed, the widths are taken from the properties,
the statements are laid out, and then they are emitted with every label known.
-/
namespace ByteMachine

open Assembly

/-- The module that an assembly text describes. -/
def assemble (source : String) : Except Error Module := do
  let items := sections (← parse source)
  let codeProperties := pageProperties .code items
  let dataProperties := pageProperties .data items
  let widths : Widths := ⟨← codeProperties.width, ← dataProperties.width⟩
  let layout ← layOut widths items
  let emitted ← emitAll ⟨widths, layout.symbols⟩ layout.placed.reverse
  let code ← Page.make .code codeProperties (pageContents .code emitted)
  let data ← Page.make .data dataProperties (pageContents .data emitted)
  return ⟨programProperties items, emitted.flatMap Emitted.exports, code, data⟩

end ByteMachine
