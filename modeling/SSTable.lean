import SSTable.Foundation.Execution
import SSTable.Foundation.ByteString
import SSTable.Foundation.Leb128
import SSTable.Foundation.Pieces
import SSTable.Foundation.LinkedList
import SSTable.Foundation.Simulation
import SSTable.Foundation.Cursor
import SSTable.Foundation.Runs
import SSTable.Foundation.Fingerprint
import SSTable.Foundation.Separators
import SSTable.Foundation.Recency
import SSTable.Foundation.Calls
import SSTable.Foundation.Termination
import SSTable.Foundation.Recursion
import SSTable.Foundation.Checksum
import SSTable.Model.Error
import SSTable.Model.Display
import SSTable.Model.Types
import SSTable.Model.Cmp
import SSTable.Model.Filter
import SSTable.Model.Options
import SSTable.Model.BlockHandle
import SSTable.Model.BlockBuilder
import SSTable.Model.Block
import SSTable.Model.FilterBlock
import SSTable.Model.Cache
import SSTable.Model.TableBlock
import SSTable.Model.TableBuilder
import SSTable.Model.TableReader
import SSTable.Model.Lock
import SSTable.Model.ReferenceCrates
import SSTable.Verification.Display
import SSTable.Verification.Entries
import SSTable.Verification.Block.Layout
import SSTable.Verification.Block.Iteration
import SSTable.Verification.Block.Search
import SSTable.Verification.Block.Construction
import SSTable.Verification.Block.Refinement
import SSTable.Verification.Block.Resetting
import SSTable.Verification.Block.EmptyKeys
import SSTable.Verification.Block.Uniqueness
import SSTable.Verification.Block.Raw
import SSTable.Verification.Block.Restarts
import SSTable.Verification.Block.Termination
import SSTable.Verification.Cache.List
import SSTable.Verification.Cache.Map
import SSTable.Verification.Cache.Recency
import SSTable.Verification.Cache.Removal
import SSTable.Verification.Cache.Reinsertion
import SSTable.Verification.Cache.Hits
import SSTable.Verification.Filter.Bloom
import SSTable.Verification.Filter.Block
import SSTable.Verification.Filter.Coverage
import SSTable.Verification.Filter.Raw
import SSTable.Verification.Filter.Answers
import SSTable.Verification.Filter.Exactness
import SSTable.Verification.Table.Plan
import SSTable.Verification.Table.Image
import SSTable.Verification.Table.Building
import SSTable.Verification.Table.Finishing
import SSTable.Verification.Table.Written
import SSTable.Verification.Table.Footer
import SSTable.Verification.Table.Separation
import SSTable.Verification.Table.Order
import SSTable.Verification.Table.View
import SSTable.Verification.Table.Stored
import SSTable.Verification.Table.Damage
import SSTable.Verification.Table.Opening
import SSTable.Verification.Table.Scanning
import SSTable.Verification.Table.Filtering
import SSTable.Verification.Table.RoundTrip
import SSTable.Verification.Table.Offsets
import SSTable.Verification.Table.Walking
import SSTable.Verification.Table.Using
import SSTable.Verification.Table.Trails
import SSTable.Verification.Table.Resetting
import SSTable.Verification.Table.Seeking
import SSTable.Verification.Table.Defects
import SSTable.Verification.Table.Refinement
import SSTable.Verification.Table.Lookup
import SSTable.Verification.Table.Asking
import SSTable.Verification.Table.Getting
import SSTable.Verification.Table.Reads
import SSTable.Verification.Table.Sharing
import SSTable.Verification.Table.Sinks
import SSTable.Verification.Table.Places
import SSTable.Verification.Table.Layout
import SSTable.Verification.Table.ShortReads
import SSTable.Verification.Table.Policies
import SSTable.Verification.Table.FilterDamage
import SSTable.Verification.Table.Corruption
import SSTable.Verification.Table.Malformed
import SSTable.Verification.Table.Failures
import SSTable.Verification.Table.Locking
import SSTable.Verification.Table.Loaded
import SSTable.Verification.Table.Atomicity
import SSTable.Verification.Table.Store
import SSTable.Verification.Table.Costs
import SSTable.Verification.Table.Estimates
import SSTable.Verification.Table.Termination
