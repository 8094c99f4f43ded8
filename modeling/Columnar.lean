import Columnar.File.Reader
import Columnar.File.Writer
import Columnar.Plain.Encoder
import Columnar.Resident
import Columnar.Proofs.Step
import Columnar.Proofs.Varint
import Columnar.Proofs.Text
import Columnar.Proofs.Record.Items
import Columnar.Proofs.Column.Drain
import Columnar.Proofs.File.RoundTrip
import Columnar.Proofs.File.Ledger
import Columnar.Proofs.File.Tiling
import Columnar.Proofs.Hybrid.Batches
import Columnar.Proofs.Hybrid.Levels
import Columnar.Proofs.Compact.Tree
import Columnar.Proofs.Checked.File
import Columnar.Proofs.File.Rebinding
import Columnar.Proofs.Column.Batches
import Columnar.Proofs.Plain.Coalescing
import Columnar.Proofs.Plain.Refusals
import Columnar.Proofs.Plain.Bits
import Columnar.Proofs.Record.Sizes
import Columnar.Proofs.Record.Abreast
import Columnar.Proofs.Compact.Skipped
import Columnar.Proofs.Column.Tokens
import Columnar.Proofs.Plain.Batches
import Columnar.Proofs.Plain.RoundTrip
import Columnar.Proofs.Column.Typed
import Columnar.Proofs.Column.Dictionary
import Columnar.Proofs.File.Counts
import Columnar.Proofs.Compact.Numbers
import Columnar.Proofs.Hybrid.Alphabet
import Columnar.Proofs.File.Disabled
import Columnar.Proofs.File.Apart
import Columnar.Proofs.Compact.Words
import Columnar.Proofs.Hybrid.Packing
