import InoBlocks.Code.Generate
import InoBlocks.Number.Reading
import InoBlocks.Sketch.Grammar
import InoBlocks.Text.Display

/-!
# Options

What a conversion between sketches and blocks can be told, by a caller or by the environment.
-/

namespace InoBlocks

/-- The options of a conversion. -/
structure Options where
  /-- One level of indentation. -/
  indent : String := "  "
  /-- Whether generated code begins with a comment that says where it comes from. -/
  header : Bool := true
  /-- Whether that comment gives the time. -/
  timestamp : Bool := true
  /-- Whether generated code is checked. -/
  check : Bool := true
  /-- Whether a sketch whose grammar yields no blocks is skimmed. -/
  fallback : Bool := false
  /-- How many errors the grammar recovers from. -/
  recoveryLimit : Int := defaultRecoveryLimit
  /-- The name of the sketch in diagnostics. -/
  file : String := "<sketch>"
  deriving DecidableEq, Repr

/-- Why options are refused. -/
inductive OptionsFault where
  /-- An indentation that is empty or not of blanks and tabs. -/
  | indent (text : String)
  /-- A limit on recovery below one. -/
  | recoveryLimit (limit : Int)
  deriving DecidableEq, Repr

def OptionsFault.message : OptionsFault → String
  | indent text => "indent must be spaces or tabs, got " ++ Text.quoted text
  | recoveryLimit limit =>
      "max_recovery_attempts must be at least 1, got " ++ Number.signedDecimal limit

namespace Options

def isIndent (text : String) : Bool :=
  text != "" && text.toList.all fun c => c == ' ' || c == '\t'

def checked (o : Options) : Except OptionsFault Options :=
  if !isIndent o.indent then .error (.indent o.indent)
  else if o.recoveryLimit < 1 then .error (.recoveryLimit o.recoveryLimit)
  else .ok o

def style (o : Options) (now : String) : Code.Style where
  indent := o.indent
  header := o.header
  time := if o.timestamp then some now else none
  check := o.check

/-! ## Environment -/

/-- A text in lower case, without blanks at its ends. -/
def plain (s : String) : String :=
  String.ofList ((Text.trim s.toList).map Char.toLower)

def switch? (s : String) : Option Bool :=
  if ["1", "true", "yes", "on"].contains (plain s) then some true
  else if ["0", "false", "no", "off"].contains (plain s) then some false
  else none

def indentSetting? (s : String) : Option String :=
  if plain s == "tab" then
    some "\t"
  else
    (Number.integer? s).bind fun n =>
      if 1 ≤ n && n ≤ 8 then some (String.ofList (List.replicate n.toNat ' ')) else none

def limitSetting? (s : String) : Option Int :=
  (Number.integer? s).filter fun n => 1 ≤ n

/-- The options that the environment gives.  A setting that cannot be read is as if it were not
there. -/
def ofEnvironment (setting? : String → Option String) : Options where
  indent := ((setting? "SKETCHBLOCKS_INDENT").bind indentSetting?).getD "  "
  timestamp := ((setting? "SKETCHBLOCKS_TIMESTAMP").bind switch?).getD true
  fallback := ((setting? "SKETCHBLOCKS_HEURISTIC_FALLBACK").bind switch?).getD false
  recoveryLimit :=
    ((setting? "SKETCHBLOCKS_MAX_RECOVERY").bind limitSetting?).getD defaultRecoveryLimit

def settingNames : List String := [
    "SKETCHBLOCKS_INDENT", "SKETCHBLOCKS_TIMESTAMP", "SKETCHBLOCKS_HEURISTIC_FALLBACK",
    "SKETCHBLOCKS_MAX_RECOVERY"]

end Options

end InoBlocks
