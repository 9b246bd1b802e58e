import StructureLayout.Binary.Arithmetic
import StructureLayout.Binary.Encoding
import StructureLayout.Decimal.Shortest
import StructureLayout.Decimal.Numeral
import StructureLayout.Text.Blank
import StructureLayout.Text.Uppercase
import StructureLayout.Text.Placeholder
import StructureLayout.Autoscale.Spec
import StructureLayout.Declaration
import StructureLayout.Placement.Basic
import StructureLayout.Lint
import StructureLayout.Image.Basic
import StructureLayout.Equality
import StructureLayout.Proofs.Placement.Partition
import StructureLayout.Proofs.Placement.DeclaredOffset
import StructureLayout.Proofs.Placement.Repetition
import StructureLayout.Proofs.Image.Store
import StructureLayout.Proofs.Placement.Nesting
import StructureLayout.Proofs.Table.Leaf
import StructureLayout.Proofs.Placement.Padding
import StructureLayout.Proofs.Table.Alignment
import StructureLayout.Proofs.Placement.Translation
import StructureLayout.Proofs.Table.Order
import StructureLayout.Proofs.Lint.Alignment
import StructureLayout.Proofs.Placement.Recasting
import StructureLayout.Proofs.Placement.Scaling
import StructureLayout.Proofs.Image.ByteOrder
import StructureLayout.Proofs.Lint.PartialWord
import StructureLayout.Proofs.Table.Names
import StructureLayout.Proofs.Image.InPlace
import StructureLayout.Proofs.Image.Refusal
import StructureLayout.Proofs.Image.WriteBack
import StructureLayout.Proofs.Placement.Refusal
import StructureLayout.Proofs.Placement.Packing
import StructureLayout.Proofs.Placement.Accounting
import StructureLayout.Proofs.Machine.Arithmetic
import StructureLayout.Proofs.Machine.Placement
import StructureLayout.Proofs.Placement.Misplacement
import StructureLayout.Proofs.Machine.Image
import StructureLayout.Proofs.Machine.Layout
import StructureLayout.Proofs.Placement.Lookup
import StructureLayout.Proofs.Table.Composition
import StructureLayout.Proofs.Lint.Directive
import StructureLayout.Proofs.Placement.Void
import StructureLayout.Proofs.Placement.Annotation
import StructureLayout.Proofs.Binary.Magnitude
import StructureLayout.Proofs.Binary.Nearest
import StructureLayout.Proofs.Binary.Order
import StructureLayout.Proofs.Autoscale.Order
import StructureLayout.Proofs.Binary.Accuracy
import StructureLayout.Proofs.Machine.Scaling
import StructureLayout.Proofs.Autoscale.RoundTrip
import StructureLayout.Proofs.Autoscale.Quantisation
import StructureLayout.Proofs.Binary.Conversion
import StructureLayout.Proofs.Image.Unscaled
import StructureLayout.Proofs.Text.Character
import StructureLayout.Proofs.Text.Trim
import StructureLayout.Proofs.Text.Form
import StructureLayout.Proofs.Decimal.Reading
import StructureLayout.Proofs.Decimal.Shortest
import StructureLayout.Proofs.Autoscale.Grammar
import StructureLayout.Proofs.Autoscale.Acceptance
import StructureLayout.Proofs.Placement.WrittenScale
import StructureLayout.Proofs.Text.Placeholder
import StructureLayout.Proofs.Placement.Instances
