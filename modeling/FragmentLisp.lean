import FragmentLisp.Main
import FragmentLisp.Proofs.Artifact.RoundTrip
import FragmentLisp.Proofs.Assembly
import FragmentLisp.Proofs.Containment
import FragmentLisp.Proofs.History
import FragmentLisp.Proofs.Lisp.Allocation
import FragmentLisp.Proofs.Lisp.Correctness
import FragmentLisp.Proofs.Lisp.Displacement
import FragmentLisp.Proofs.Lisp.Emission
import FragmentLisp.Proofs.Lisp.Independence
import FragmentLisp.Proofs.Lisp.Interference
import FragmentLisp.Proofs.Lisp.KindSoundness
import FragmentLisp.Proofs.Lisp.Limits
import FragmentLisp.Proofs.Lisp.Nesting
import FragmentLisp.Proofs.Lisp.Places
import FragmentLisp.Proofs.Lisp.Protocol
import FragmentLisp.Proofs.Lisp.Readable
import FragmentLisp.Proofs.Lisp.Relaxation
import FragmentLisp.Proofs.Lisp.Renaming
import FragmentLisp.Proofs.Lisp.Slots
import FragmentLisp.Proofs.Lisp.StackUse
import FragmentLisp.Proofs.Lisp.Termination
import FragmentLisp.Proofs.Machine.Arithmetic
import FragmentLisp.Proofs.Machine.StackEffect
import FragmentLisp.Proofs.Reader.Bytewise
import FragmentLisp.Proofs.Reader.Classification
import FragmentLisp.Proofs.Reader.Rendering
import FragmentLisp.Proofs.Reader.Spans
import FragmentLisp.Proofs.StackDepth.Paths
import FragmentLisp.Proofs.TypeDefinition.Canonical
