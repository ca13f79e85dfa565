import YangEvolution.Report.Plain
import YangEvolution.Report.Structured
import YangEvolution.Text.Blank

/-!
Reports for a terminal. Text may be coloured: the line of a finding by its severity, what the old
module had dimmed, and the counts by whether there are errors. JSON never is.
-/

namespace YangEvolution.Report

open Text

inductive Format where
  | text
  | json
  deriving DecidableEq

inductive Style where
  | plain
  | red
  | yellow
  | green
  | cyan
  | dimmed
  | boldRed
  deriving DecidableEq

namespace Format

def name : Format → String
  | .text => "text"
  | .json => "json"

def ofName? : String → Option Format
  | "text" => some .text
  | "json" => some .json
  | _ => none

end Format

namespace Style

/-- The sequence that switches the style on. -/
def start : Style → List Char
  | .plain => []
  | .red => "\x1b[31m".toList
  | .yellow => "\x1b[33m".toList
  | .green => "\x1b[32m".toList
  | .cyan => "\x1b[36m".toList
  | .dimmed => "\x1b[2m".toList
  | .boldRed => "\x1b[1;31m".toList

end Style

/-- The sequence that ends every style. -/
def reset : List Char := "\x1b[0m".toList

/-- Switches a style on again wherever the text itself ends all styles; `skip` characters belong
to a sequence that was looked at already. -/
def resume (start : List Char) (skip : Nat) : List Char → List Char
  | [] => []
  | c :: cs =>
    match skip with
    | 0 =>
      if reset.isPrefixOf (c :: cs) then c :: resume start (reset.length - 1) cs
      else c :: resume start 0 cs
    | 1 => c :: start ++ resume start 0 cs
    | n + 2 => c :: resume start (n + 1) cs

/-- The text in a style, if colours are wanted. -/
def paint (color : Bool) (style : Style) (s : String) : String :=
  if !color || style == .plain then s
  else String.ofList (style.start ++ resume style.start 0 s.toList ++ reset)

/-- The style of a line of a plain report, by what it holds. -/
def lineStyle (line : List Char) : Style :=
  if occurs "[error]".toList line then .red
  else if occurs "[warning]".toList line then .yellow
  else if "old ".toList.isPrefixOf (trimStartChars line) then .dimmed
  else .plain

def terminalText (color : Bool) (c : Catalog) : String :=
  if c.isEmpty then paint color .green "no compatibility findings"
  else
    join "\n" ((lines (plain c).toList).map fun line =>
      paint color (lineStyle line) (String.ofList line))

def terminalSummary (color : Bool) (c : Catalog) : String :=
  paint color (if c.errorCount = 0 then .cyan else .boldRed) (summary c)

/-- The report in a format. -/
def render (color : Bool) (format : Format) (c : Catalog) : String :=
  match format with
  | .text => terminalText color c ++ "\n" ++ terminalSummary color c
  | .json => structured c

end YangEvolution.Report
