import InoBlocks.Code.Generate
import InoBlocks.CommandLine.Outcome
import InoBlocks.Exchange.Workspace
import InoBlocks.Fault
import InoBlocks.Main
import InoBlocks.Number.Layout
import InoBlocks.Number.Numeral
import InoBlocks.Number.Reading
import InoBlocks.Proofs.Code.CodedReadBack
import InoBlocks.Sketch.Blocks
import InoBlocks.Sketch.Check
import InoBlocks.Sketch.Grammar
import InoBlocks.Sketch.Outline
import InoBlocks.Sketch.RawText
import InoBlocks.Sketch.SafeName
import InoBlocks.Sketch.Walk
import InoBlocks.Skim.Body
import InoBlocks.Skim.Reader
import InoBlocks.Sync.Convert
import InoBlocks.Text.Class
import InoBlocks.Text.Display
import InoBlocks.Text.Trim
import InoBlocks.Text.Utf8
import InoBlocks.Token.Lexer
import InoBlocks.Proofs.Sketch.Clause
import InoBlocks.Proofs.Sketch.Arrival
import InoBlocks.Proofs.Sketch.ClauseReading
import InoBlocks.Proofs.Sketch.Placeless
import InoBlocks.Proofs.Sketch.Quoting
import InoBlocks.Proofs.Sketch.SafeNames
import InoBlocks.Proofs.Sketch.SketchReading
import InoBlocks.Proofs.Exchange.Depth
import InoBlocks.Proofs.Sketch.LocalRecovery
import InoBlocks.Proofs.Code.ValidSketch
import InoBlocks.Proofs.Code.LiteralText
import InoBlocks.Proofs.Code.FilledSketch
import InoBlocks.Proofs.Skim.Agreement
import InoBlocks.Proofs.Skim.SameWords
import InoBlocks.Proofs.Sketch.Layout
import InoBlocks.Proofs.Code.Branches
import InoBlocks.Proofs.Sync.Regeneration
import InoBlocks.Proofs.Code.Refusal
import InoBlocks.Proofs.Sketch.Height
import InoBlocks.Proofs.Sketch.Nesting
import InoBlocks.Proofs.Sketch.KeptWords
import InoBlocks.Proofs.Sync.Exchanged
import InoBlocks.Proofs.Check.TokenMask
import InoBlocks.Proofs.Sketch.RawEstimate
import InoBlocks.Proofs.Sync.EditDistance
import InoBlocks.Proofs.Code.LoopHeaders
import InoBlocks.Proofs.Skim.FunctionBodies
import InoBlocks.Proofs.Number.Rounding
import InoBlocks.Proofs.Number.Sanitized
import InoBlocks.Proofs.Skim.Normalized
import InoBlocks.Proofs.Code.NumberTokens
import InoBlocks.Proofs.Check.LineStructure
import InoBlocks.Proofs.Skim.Levels
import InoBlocks.Proofs.Sketch.Parentheses
import InoBlocks.Proofs.Sketch.Faithful
import InoBlocks.Proofs.Skim.Division
import InoBlocks.Proofs.Sync.NamesKept
