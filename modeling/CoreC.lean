import CoreC.Machine.Trace
import CoreC.Main
import CoreC.Memory.ByteText
import CoreC.Proofs.Domain.Reflection
import CoreC.Proofs.Kont.Sharing
import CoreC.Proofs.Machine.Ambiguity
import CoreC.Proofs.Machine.Deadlock
import CoreC.Proofs.Machine.Determinism
import CoreC.Proofs.Machine.JumpFrames
import CoreC.Proofs.Machine.LoopBarrier
import CoreC.Proofs.Machine.Privacy
import CoreC.Proofs.Machine.ThreadBudget
import CoreC.Proofs.Machine.Typing
import CoreC.Proofs.Memory.Abstraction
import CoreC.Proofs.Memory.Enumeration
import CoreC.Proofs.Memory.Literals
import CoreC.Proofs.Memory.Movement
import CoreC.Proofs.Memory.RoundTrip
import CoreC.Proofs.Program.Climbing
import CoreC.Proofs.Program.Encoding
import CoreC.Proofs.Program.Labels
import CoreC.Proofs.Task.Conservation
import CoreC.Proofs.Value.Soundness
import CoreC.Task.Encoding
