import TextTransforms.Main
import TextTransforms.Proofs.Inlining.Idempotence
import TextTransforms.Proofs.Call.Grammar
import TextTransforms.Proofs.Inlining.Repetition
import TextTransforms.Proofs.Calculator.Grammar
import TextTransforms.Proofs.Call.Occurrence
import TextTransforms.Proofs.Calculator.Derivation
import TextTransforms.Proofs.Calculator.Acceptance
import TextTransforms.Proofs.Call.Escapes
import TextTransforms.Proofs.Inlining.Escapes
import TextTransforms.Proofs.Calculator.Longest
import TextTransforms.Proofs.Markup.Document
import TextTransforms.Proofs.Markup.Location
import TextTransforms.Proofs.Template.FormatSpec
import TextTransforms.Proofs.Template.WrittenCounts
import TextTransforms.Proofs.Inlining.Flags
import TextTransforms.Proofs.Template.Draws
import TextTransforms.Proofs.Inlining.Drawn
import TextTransforms.Proofs.Inlining.Precisions
import TextTransforms.Proofs.Inlining.InTurn
import TextTransforms.Proofs.Call.Joined
import TextTransforms.Proofs.Call.Agreement
import TextTransforms.Proofs.Number.Numeral
import TextTransforms.Proofs.Template.CountRuns
import TextTransforms.Proofs.Template.Language
import TextTransforms.Proofs.Clipboard.Bare
import TextTransforms.Proofs.Clipboard.Joins
import TextTransforms.Proofs.Calculator.Flips
import TextTransforms.Proofs.Calculator.WholeLine
import TextTransforms.Proofs.Markup.Cloning
import TextTransforms.Proofs.Clipboard.Places
import TextTransforms.Proofs.Calculator.Toggle
import TextTransforms.Proofs.Number.Increment
import TextTransforms.Proofs.Calculator.Words
import TextTransforms.Proofs.Clipboard.Breaks
import TextTransforms.Proofs.Inlining.Pairing
import TextTransforms.Proofs.Inlining.LineByLine
import TextTransforms.Proofs.Text.Slices
import TextTransforms.Proofs.Markup.ByteRange
