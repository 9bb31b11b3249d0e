import StackCode.Class.RuntimeType
import StackCode.Class.Writer
import StackCode.Emitter.Operation
import StackCode.Expression.Node
import StackCode.Machine.Run
import StackCode.Proofs.Descriptor.ReadBack
import StackCode.Proofs.Emitter.Exactness
import StackCode.Proofs.Emitter.Faithful
import StackCode.Proofs.Emitter.Height
import StackCode.Proofs.Emitter.Tables
import StackCode.Proofs.Expression.Literals
import StackCode.Proofs.Expression.Verified
import StackCode.Proofs.Loader.Resolution
import StackCode.Proofs.Loader.RuntimeTypes
import StackCode.Proofs.Loader.Writer
import StackCode.Proofs.Machine.Limits
import StackCode.Proofs.Machine.Termination
import StackCode.Proofs.Machine.Changes
import StackCode.Proofs.Machine.Slots
