import Stencil.Batch
import Stencil.Descriptor
import Stencil.Diagnostic.Json
import Stencil.Compiler
import Stencil.Proofs.Anchors
import Stencil.Proofs.Answers
import Stencil.Proofs.AroundRoot
import Stencil.Proofs.BareTag
import Stencil.Proofs.Blocks
import Stencil.Proofs.CacheKey
import Stencil.Proofs.CacheTransparency
import Stencil.Proofs.CodeFrame
import Stencil.Proofs.Columns
import Stencil.Proofs.Declaration
import Stencil.Proofs.EmptyLiterals
import Stencil.Proofs.Expressions
import Stencil.Proofs.Filling
import Stencil.Proofs.ForeignArtifacts
import Stencil.Proofs.Fork
import Stencil.Proofs.Grammar
import Stencil.Proofs.HoistedValue
import Stencil.Proofs.Imports
import Stencil.Proofs.InStep
import Stencil.Proofs.Inline
import Stencil.Proofs.JsonText
import Stencil.Proofs.Literals
import Stencil.Proofs.Lockstep
import Stencil.Proofs.Oracles
import Stencil.Proofs.Placement
import Stencil.Proofs.Positions
import Stencil.Proofs.Preorder
import Stencil.Proofs.Printed
import Stencil.Proofs.Printer
import Stencil.Proofs.Progress
import Stencil.Proofs.ReadBack
import Stencil.Proofs.References
import Stencil.Proofs.SplitLiteral
import Stencil.Proofs.SplitTexts
import Stencil.Proofs.Storage
import Stencil.Proofs.Traversal
