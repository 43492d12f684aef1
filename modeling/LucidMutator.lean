import LucidMutator.Rust.Core
import LucidMutator.Rng.Xorshift
import LucidMutator.Rng.Polynomial
import LucidMutator.Rng.Period
import LucidMutator.Mutator.State
import LucidMutator.Mutator.Logic
import LucidMutator.Mutator.Distance
import LucidMutator.Mutator.Byte
import LucidMutator.Mutator.Block
import LucidMutator.Mutator.Shape
import LucidMutator.Mutator.Magic
import LucidMutator.Mutator.Splice
import LucidMutator.Mutator.Schedule
import LucidMutator.Mutator.Frame
import LucidMutator.Mutator.Session
import LucidMutator.Mutator.Overflow
import LucidMutator.Properties.Operators
import LucidMutator.Properties.Sessions
import LucidMutator.Properties.Generator
import LucidMutator.Properties.Trace
import LucidMutator.Properties.Builds
import LucidMutator.Properties.Draws
import LucidMutator.Properties.MagicBytes
