import SparcIU.Main
import SparcIU.Remarks
import SparcIU.Proofs.Reachable
import SparcIU.Proofs.Retry
import SparcIU.Proofs.Transparency
import SparcIU.Proofs.DelayedTransfer
import SparcIU.Proofs.HandlerReturn
import SparcIU.Proofs.Annulment
import SparcIU.Proofs.Alignment
import SparcIU.Proofs.Footprint
import SparcIU.Proofs.Confinement
import SparcIU.Proofs.Checked
import SparcIU.Proofs.AbortSet
import SparcIU.Proofs.TextDecides
import SparcIU.Proofs.Overlay
import SparcIU.Proofs.Restore
import SparcIU.Proofs.GuestMemory
import SparcIU.Proofs.Budgets
import SparcIU.Proofs.Refusal
import SparcIU.Proofs.SwappedFiles
import SparcIU.Proofs.Mapping
import SparcIU.Proofs.Comparison
import SparcIU.Proofs.MultiplyLoop
import SparcIU.Proofs.Report
import SparcIU.Proofs.RegisterFile
import SparcIU.Proofs.DeliveryEffect
import SparcIU.Proofs.SingleMark
import SparcIU.Proofs.MemoryHistory
import SparcIU.Proofs.RangeListing
import SparcIU.Proofs.NumberArguments
import SparcIU.Proofs.SavedState
import SparcIU.Proofs.Formats
