import ScriptLang.Fault
import ScriptLang.Source.Line
import ScriptLang.Text.Blank

/-!
# Reports

A report names a fault, the file, and shows the line it points into with a caret
below. The line is shown without its leading blanks and trailing white space;
the caret stands as far right as the fault's byte offset within what is left.
-/

namespace ScriptLang

namespace LineView

/-- The blanks and tabs the line starts with. -/
def indentation (v : LineView) : List Char :=
  v.text.takeWhile fun c => c = ' ' || c = '\t'

/-- The line as a report shows it. -/
def shown (v : LineView) : List Char :=
  Text.trimEnd (v.text.drop v.indentation.length)

/-- Columns from the gutter to the caret. -/
def caretColumn (v : LineView) : Nat := v.column - v.indentation.length

end LineView

/-- A line of the gutter: a bar behind `width` columns. -/
def gutterBar (width : Nat) : String := String.ofList (List.replicate (width + 1) ' ') ++ "|"

/-- The three lines that show a place: bar, text and caret. -/
def LineView.render (v : LineView) : String :=
  let number := toString v.number
  let bar := gutterBar number.length
  let dashes := String.ofList (List.replicate v.caretColumn '-')
  s!"{bar}\n{number} | {String.ofList v.shown}\n{bar} {dashes}^\n"

/-- The report of a fault against the source it arose in. An offset past the
end of that source has no line to show. -/
def Fault.report (f : Fault) (source file : String) : String :=
  let tip := match f.cause.tip? with
    | some t => s!" ({t})"
    | none => ""
  let place := match lineAt? source.toList f.position.offset with
    | some v => v.render
    | none => ""
  s!"Error: {f.cause.name}{tip}\n-> {file}\n{place}"

end ScriptLang
