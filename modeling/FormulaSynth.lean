import FormulaSynth.Json.Decode
import FormulaSynth.Main
import FormulaSynth.Proofs.Expr.Meaning
import FormulaSynth.Proofs.Expr.Folding
import FormulaSynth.Proofs.Compiler.Building
import FormulaSynth.Proofs.Formula.Grammar
import FormulaSynth.Proofs.Formula.Recognition
import FormulaSynth.Proofs.Formula.Lexing
import FormulaSynth.Proofs.Formula.Sentences
import FormulaSynth.Proofs.Compiler.Acceptance
import FormulaSynth.Proofs.Compiler.Folding
import FormulaSynth.Proofs.Formula.Depth
import FormulaSynth.Proofs.Playback.Exchange
import FormulaSynth.Proofs.Playback.Rendering
import FormulaSynth.Proofs.Compiler.Safety
import FormulaSynth.Proofs.Expr.Blocks
import FormulaSynth.Proofs.Formula.Viable
import FormulaSynth.Proofs.Formula.Places
import FormulaSynth.Proofs.Compiler.Diagnosis
import FormulaSynth.Proofs.Expr.Normal
import FormulaSynth.Proofs.Formula.Printing
import FormulaSynth.Proofs.Compiler.Reparsing
import FormulaSynth.Proofs.Formula.Spacing
import FormulaSynth.Proofs.Compiler.Spacing
import FormulaSynth.Proofs.Editor.Session
import FormulaSynth.Proofs.Editor.Playing
import FormulaSynth.Proofs.Editor.Sound
import FormulaSynth.Proofs.Program.Agreement
import FormulaSynth.Proofs.Compiler.Normal
import FormulaSynth.Proofs.Log.Rotation
import FormulaSynth.Proofs.Settings.Loading
import FormulaSynth.Proofs.Expr.Draws
import FormulaSynth.Proofs.Compiler.Freezing
import FormulaSynth.Proofs.Compiler.FirstFault
import FormulaSynth.Proofs.Playback.Runs
import FormulaSynth.Proofs.Expr.Variables
import FormulaSynth.Proofs.Compiler.Vocabularies
import FormulaSynth.Proofs.Playback.Buffers
import FormulaSynth.Proofs.Formula.Parts
import FormulaSynth.Proofs.Formula.Pairs
import FormulaSynth.Proofs.Compiler.Size
import FormulaSynth.Proofs.Playback.Counting
import FormulaSynth.Proofs.Settings.Mending
import FormulaSynth.Proofs.Text.Sequences
import FormulaSynth.Proofs.Json.Compact
import FormulaSynth.Proofs.Expr.Texts
import FormulaSynth.Proofs.Word.Arithmetic
import FormulaSynth.Proofs.Word.Scramble
import FormulaSynth.Proofs.Expr.Waves
import FormulaSynth.Proofs.Playback.Sizes
