import TextTransforms.Inlining.Arguments
import TextTransforms.Inlining.Field

/-!
# Passes

Arguments move into a template in six passes over its fields, in this order:
fields with an index, fields with an index and a width, fields without argument,
renamed fields, fields with a trailing `v`, fields with a precision taken from
the list. A last pass writes the references that are left against the arguments
that stay behind.
-/

namespace TextTransforms

/-- A template with the arguments that are being moved into it. -/
structure Draft where
  segments : List Segment
  arguments : Arguments
  deriving DecidableEq, Repr

namespace Draft

/-- Runs a step over the fields, with the arguments as state. -/
def run (step : Arguments → Field → Field × Arguments) (d : Draft) : Draft :=
  let (segments, arguments) := mapFields step d.arguments d.segments
  ⟨segments, arguments⟩

/-- Changes each field by itself. -/
def edit (step : Field → Field) (d : Draft) : Draft := d.run fun as f => (step f, as)

end Draft

/-! ## Indices -/

/-- Puts argument `i` into a field, if it may stand there. -/
def Field.take (as : Arguments) (i : Nat) (f : Field) : Field × Arguments :=
  match as.inlinable? i with
  | some source => ({ f with argument := .inlined source }, as.use i)
  | none => (f, as)

/-- `{N}` and `{N:spec}` take argument `N`. Fields `{N:K$}` are left to the next pass. -/
def inlineIndexed (as : Arguments) (f : Field) : Field × Arguments :=
  match f.width?, f.index? with
  | none, some i => f.take as i
  | _, _ => (f, as)

/-- Puts argument `k` as count into the spec of a field, between `before` and a `$`. -/
def Field.takeCount (as : Arguments) (k : Nat) (before : Text) (f : Field) : Field × Arguments :=
  match as.inlinable? k with
  | some source => ({ f with spec := some (.inlined (before ++ source ++ ['$'])) }, as.use k)
  | none => (f, as)

/-- `{N:K$}` takes argument `N` and, if it did, argument `K` as its width. -/
def inlineWidth (as : Arguments) (f : Field) : Field × Arguments :=
  match f.width?, f.index? with
  | some k, some i =>
    match as.inlinable? i with
    | some _ =>
      let (f, as) := f.take as i
      f.takeCount as k []
    | none => (f, as)
  | _, _ => (f, as)

/-! ## Implicit fields -/

/-- `{}` and `{:spec}` take the next unused argument behind `cursor`. An argument
that may not stand in a field is passed over with the field whose turn it was. -/
def inlineImplicit (s : Nat × Arguments) (f : Field) : Field × Nat × Arguments :=
  let (cursor, as) := s
  if f.isImplicit then
    match as.nextUnused? cursor with
    | some i =>
      let (f, as) := f.take as i
      (f, i + 1, as)
    | none => (f, cursor, as)
  else (f, cursor, as)

/-! ## Names -/

/-- `{name=target}` becomes `{target}`. -/
def renameField (f : Field) : Field :=
  match f.argument with
  | .written t =>
    match Text.cut? '=' t with
    | some (name, target) =>
      let target := Text.trimStart target
      if Text.isWord (Text.trimEnd name) && Text.isWord target then
        { f with argument := .written target }
      else f
    | none => f
  | .inlined _ => f

/-- `{namev:spec}` becomes `{name:spec}`. -/
def stripVerbose (f : Field) : Field :=
  match f.argument, f.spec with
  | .written t, some _ =>
    if t.getLast? = some 'v' ∧ Text.isWord t.dropLast then
      { f with argument := .written t.dropLast }
    else f
  | _, _ => f

/-! ## Precisions -/

/-- `{name:.*}` takes the first unused argument other than `name` as its precision. -/
def inlinePrecision (as : Arguments) (f : Field) : Field × Arguments :=
  if f.spec.map Part.text = some ['.', '*'] ∧ Text.isWord f.argument.text then
    match as.unusedOtherThan? f.argument.text with
    | some i => f.takeCount as i ['.']
    | none => (f, as)
  else (f, as)

/-! ## References that are left -/

def SpecPiece.resolve (as : Arguments) : SpecPiece → Text
  | literal source => source
  | count index => (as.reference? index).getD (Numeral.ofNat index) ++ ['$']

/-- Writes the counts of a spec against the remaining arguments. -/
def resolveSpec (as : Arguments) (spec : Text) : Text :=
  let pieces := specPieces spec
  if pieces.any SpecPiece.isCount then pieces.flatMap (SpecPiece.resolve as) else spec

/-- Writes the references of a field against the remaining arguments. -/
def resolveField (as : Arguments) (f : Field) : Field where
  argument :=
    match f.index?.bind as.reference? with
    | some reference => .written reference
    | none => f.argument
  spec := f.spec.map fun
    | .written spec => .written (resolveSpec as spec)
    | .inlined spec => .inlined spec

namespace Draft

def inlineImplicit (d : Draft) : Draft :=
  let (segments, _, arguments) := mapFields TextTransforms.inlineImplicit (0, d.arguments) d.segments
  ⟨segments, arguments⟩

/-- The six passes that move arguments. -/
def moveArguments (d : Draft) : Draft :=
  d.run inlineIndexed
    |>.run inlineWidth
    |>.inlineImplicit
    |>.edit renameField
    |>.edit stripVerbose
    |>.run inlinePrecision

def resolve (d : Draft) : Draft := d.edit (resolveField d.arguments)

end Draft

end TextTransforms
