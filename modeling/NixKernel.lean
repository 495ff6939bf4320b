import NixKernel.Main
import NixKernel.Proofs.Builder.Built
import NixKernel.Proofs.Builder.LifeCycle
import NixKernel.Proofs.Builder.Lookup
import NixKernel.Proofs.Call
import NixKernel.Proofs.Chain
import NixKernel.Proofs.Characters
import NixKernel.Proofs.CommandLine
import NixKernel.Proofs.Complete
import NixKernel.Proofs.Construct.Duplicate
import NixKernel.Proofs.Construct.Leaves
import NixKernel.Proofs.Construct.Order
import NixKernel.Proofs.Depth
import NixKernel.Proofs.Equal
import NixKernel.Proofs.Errors
import NixKernel.Proofs.Escape
import NixKernel.Proofs.Integers
import NixKernel.Proofs.Lazy
import NixKernel.Proofs.Less
import NixKernel.Proofs.Limit
import NixKernel.Proofs.Machine
import NixKernel.Proofs.Path
import NixKernel.Proofs.Print
import NixKernel.Proofs.Resolve
import NixKernel.Proofs.Scope
import NixKernel.Proofs.Select
import NixKernel.Proofs.Spelling
import NixKernel.Proofs.Table
import NixKernel.Session
