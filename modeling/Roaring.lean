import Roaring.Encoding
import Roaring.Storage
import Roaring.Thresholds.Document
import Roaring.Sorted.Basic
import Roaring.Sorted.Merge
import Roaring.Runs.Merge
import Roaring.Runs.Tracker
import Roaring.Word
import Roaring.Bitset.Bits
import Roaring.Bitset
import Roaring.Container.Convert
import Roaring.Container.Overrun
import Roaring.Container.InPlace
import Roaring.Container.Iter
import Roaring.Bitmap.Basic
import Roaring.Bitmap.Range
import Roaring.Bitmap.Combine
import Roaring.Bitmap.Iter
import Roaring.Bitmap.Relate
import Roaring.Proofs.Search
import Roaring.Proofs.Sorted
import Roaring.Proofs.Bitset
import Roaring.Proofs.Runs.Append
import Roaring.Proofs.Runs.Merge
import Roaring.Proofs.Runs.Tracker
import Roaring.Proofs.Bitset.Runs
import Roaring.Proofs.Container.Settled
import Roaring.Proofs.Container.Combine
import Roaring.Proofs.Container.Query
import Roaring.Proofs.Container.Shapes
import Roaring.Proofs.Bitmap.Index
import Roaring.Proofs.Bitmap.Combine
import Roaring.Proofs.Bitmap.InPlace
import Roaring.Proofs.Bitmap.Iter
import Roaring.Proofs.Bitmap.Query
import Roaring.Proofs.Bitmap.Absorb
import Roaring.Proofs.Split
import Roaring.Proofs.Runs.Edit
import Roaring.Proofs.Runs.Query
import Roaring.Proofs.Sorted.Edit
import Roaring.Proofs.Sorted.Query
import Roaring.Proofs.Bitset.Scan
import Roaring.Proofs.Bitset.Query
import Roaring.Proofs.Container.Update
import Roaring.Proofs.Bitmap.Alter
import Roaring.Proofs.Container.Deferred
import Roaring.Proofs.Container.Chain
import Roaring.Proofs.Bitmap.Update
import Roaring.Proofs.Bitmap.Union
import Roaring.Proofs.Bitmap.Session
import Roaring.Proofs.Container.InPlace
import Roaring.Proofs.Container.Change
import Roaring.Proofs.Container.Session
import Roaring.Proofs.Container.Finish
import Roaring.Proofs.Bitmap.Thresholds
import Roaring.Proofs.Bitmap.Equality
import Roaring.Proofs.Container.Commute
import Roaring.Proofs.Container.Range
import Roaring.Proofs.Bitmap.Rank
import Roaring.Proofs.Bitmap.Range
import Roaring.Proofs.Bitmap.Relate
import Roaring.Proofs.Checked
import Roaring.Proofs.Checked.Bitmap.Columns
import Roaring.Proofs.Checked.Bitmap.Session
import Roaring.Proofs.Bitmap.Lookup
import Roaring.Proofs.Container.Single
import Roaring.Proofs.Bitmap.Single
import Roaring.Proofs.Bitmap.InsertAll
import Roaring.Proofs.Container.Convert
import Roaring.Proofs.Container.Compact
import Roaring.Proofs.Container.Iter
import Roaring.Proofs.Container.Bounds
import Roaring.Proofs.Bitset.Steps
import Roaring.Proofs.Container.BitRuns
import Roaring.Proofs.Buffered
import Roaring.Proofs.Runs.Sets
import Roaring.Proofs.Sorted.Merge
import Roaring.Proofs.Cursor
