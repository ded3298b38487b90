import ActionReprint.Call
import ActionReprint.FileTree
import ActionReprint.LogFormat
import ActionReprint.Main
import ActionReprint.Proofs.Accounting
import ActionReprint.Proofs.Annotations
import ActionReprint.Proofs.Attachment
import ActionReprint.Proofs.Bounds
import ActionReprint.Proofs.Confinement
import ActionReprint.Proofs.DefaultSequence
import ActionReprint.Proofs.Dressing
import ActionReprint.Proofs.Entry
import ActionReprint.Proofs.Extension
import ActionReprint.Proofs.Fragments
import ActionReprint.Proofs.GuardName
import ActionReprint.Proofs.IncludeGuard
import ActionReprint.Proofs.Independence
import ActionReprint.Proofs.Layout
import ActionReprint.Proofs.Leniency
import ActionReprint.Proofs.Padding
import ActionReprint.Proofs.Relocation
import ActionReprint.Proofs.Removal
import ActionReprint.Proofs.Reprinting
import ActionReprint.Proofs.RoundTrip
import ActionReprint.Proofs.Splitting
import ActionReprint.Proofs.Survival
import ActionReprint.Proofs.Terminators
import ActionReprint.Proofs.Tolerance
import ActionReprint.Proofs.TwoPasses
import ActionReprint.Proofs.Unescaping
import ActionReprint.Proofs.Values
