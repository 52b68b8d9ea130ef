import TextTransforms.Template.Spec
import TextTransforms.Template.Token

/-!
# Fields

A field is a placeholder while arguments are moved into it. Each of its two
parts is either still written in the template or an argument that was put there;
only written parts are read as references.
-/

namespace TextTransforms

inductive Part where
  | written (text : Text)
  | inlined (text : Text)
  deriving DecidableEq, Repr

namespace Part

def text : Part → Text
  | written t => t
  | inlined t => t

def written? : Part → Option Text
  | written t => some t
  | inlined _ => none

end Part

structure Field where
  argument : Part
  spec : Option Part
  deriving DecidableEq, Repr

namespace Field

def ofPlaceholder (p : Placeholder) : Field := ⟨.written p.argument, p.spec.map .written⟩

def placeholder (f : Field) : Placeholder := ⟨f.argument.text, f.spec.map Part.text⟩

/-- The index written as argument. -/
def index? (f : Field) : Option Nat := f.argument.written?.bind Numeral.index?

/-- Whether the argument is written and empty. -/
def isImplicit (f : Field) : Bool := f.argument == .written []

/-- The count that makes up the whole written spec. -/
def width? (f : Field) : Option Nat :=
  match (f.spec.bind Part.written?).map specPieces with
  | some [.count k] => some k
  | _ => none

end Field

inductive Segment where
  | text (source : Text)
  | field (field : Field)
  deriving DecidableEq, Repr

namespace Segment

def ofToken : Token → Segment
  | .text source => text source
  | .placeholder p => field (.ofPlaceholder p)

def source : Segment → Text
  | text source => source
  | field f => f.placeholder.source

end Segment

/-- Runs a step with state over the fields of a template, from left to right. -/
def mapFields {σ : Type} (step : σ → Field → Field × σ) : σ → List Segment → List Segment × σ
  | s, [] => ([], s)
  | s, .text source :: rest =>
    let (rest, s) := mapFields step s rest
    (.text source :: rest, s)
  | s, .field f :: rest =>
    let (f, s) := step s f
    let (rest, s) := mapFields step s rest
    (.field f :: rest, s)

end TextTransforms
