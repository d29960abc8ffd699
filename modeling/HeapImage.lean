import HeapImage.Session.Run
import HeapImage.Guard
import HeapImage.Proofs.Torn
import HeapImage.Proofs.Snapshots
import HeapImage.Proofs.Renaming
import HeapImage.Proofs.Reencoding
import HeapImage.Proofs.Heap.Settled
import HeapImage.Proofs.Rebasing
import HeapImage.Proofs.Accounting
import HeapImage.Proofs.Lifecycle
import HeapImage.Proofs.Heap.StructuralEquality
import HeapImage.Proofs.Writer.Preorder
import HeapImage.Proofs.Image.InPlace
import HeapImage.Proofs.Writer.Room
import HeapImage.Proofs.Integers
import HeapImage.Proofs.Mapping
import HeapImage.Proofs.Image.Integers
import HeapImage.Proofs.LimbInteger.Word128
import HeapImage.Proofs.Image.Rejection
import HeapImage.Proofs.Guards
import HeapImage.Proofs.Writer.Checked
import HeapImage.Proofs.Image.ScanOnce
import HeapImage.Proofs.Blanks
import HeapImage.Proofs.Tables
import HeapImage.Proofs.Strings
import HeapImage.Proofs.Sizes
