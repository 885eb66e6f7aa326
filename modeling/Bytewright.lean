import Bytewright.Verification.Common.Varint
import Bytewright.Verification.Common.Leb128
import Bytewright.Verification.Common.Utf8
import Bytewright.Verification.Common.Hashing
import Bytewright.Verification.Common.BitReader
import Bytewright.Verification.Common.Checksum
import Bytewright.Verification.Common.Cursor
import Bytewright.Verification.Binpack.Records
import Bytewright.Verification.Binpack.Layout
import Bytewright.Verification.Binpack.RoundTrip
import Bytewright.Verification.Binpack.Checksums
import Bytewright.Verification.Binpack.ErrorPositions
import Bytewright.Verification.Binpack.Validation
import Bytewright.Verification.Binpack.Narrowing
import Bytewright.Verification.Binpack.Trees
import Bytewright.Verification.Binpack.Wire
import Bytewright.Verification.Binpack.Accounting
import Bytewright.Verification.Binpack.Locality
import Bytewright.Verification.Binpack.Reencoding
import Bytewright.Verification.Binpack.Traversals
import Bytewright.Verification.Binpack.Truncation
import Bytewright.Verification.Binpack.Repacking
import Bytewright.Verification.Binpack.Findings
import Bytewright.Verification.Streamcodec.RoundTrip
import Bytewright.Verification.Streamcodec.Reassembly
import Bytewright.Verification.Streamcodec.Ranges
import Bytewright.Verification.Streamcodec.FrameReader
import Bytewright.Verification.Streamcodec.Resync
import Bytewright.Verification.Streamcodec.TrailingNoise
import Bytewright.Verification.Streamcodec.Statistics
import Bytewright.Verification.Streamcodec.FlowControl
import Bytewright.Verification.Streamcodec.Ordering
import Bytewright.Verification.Streamcodec.Gaps
import Bytewright.Verification.Streamcodec.ArrivalOrder
import Bytewright.Verification.Streamcodec.Tokens
import Bytewright.Verification.Streamcodec.RunLength
import Bytewright.Verification.Streamcodec.HeaderCrc
import Bytewright.Verification.Streamcodec.Redelivery
import Bytewright.Verification.Streamcodec.Generations
import Bytewright.Verification.Streamcodec.Sorting
import Bytewright.Verification.Streamcodec.Truncation
import Bytewright.Verification.Minidb.Durability
import Bytewright.Verification.Minidb.TornTail
import Bytewright.Verification.Minidb.Stages
import Bytewright.Verification.Minidb.Pages
import Bytewright.Verification.Minidb.PageIsolation
import Bytewright.Verification.Minidb.StringTable
import Bytewright.Verification.Minidb.SlottedTable
import Bytewright.Verification.Minidb.Overflow
import Bytewright.Verification.Minidb.Index
import Bytewright.Verification.Minidb.Fields
import Bytewright.Verification.Minidb.Catalog
import Bytewright.Verification.Minidb.Layout
import Bytewright.Verification.Minidb.Image
import Bytewright.Verification.Minidb.Cursor
import Bytewright.Verification.Minidb.Chains
import Bytewright.Verification.Minidb.Indexed
import Bytewright.Verification.Cfgscript.Grammar
import Bytewright.Verification.Cfgscript.Soundness
import Bytewright.Verification.Cfgscript.Completeness
import Bytewright.Verification.Cfgscript.Expressions
import Bytewright.Verification.Cfgscript.Scanning
import Bytewright.Verification.Cfgscript.Literals
import Bytewright.Verification.Cfgscript.Spelling
import Bytewright.Verification.Cfgscript.Reparse
import Bytewright.Verification.Cfgscript.Statements
import Bytewright.Verification.Cfgscript.Accepted
import Bytewright.Verification.Cfgscript.Evaluation
import Bytewright.Verification.Cfgscript.Nesting
import Bytewright.Verification.Cfgscript.Reserialize
import Bytewright.Verification.Cfgscript.PathGrammar
import Bytewright.Verification.Cfgscript.Paths
import Bytewright.Verification.Cfgscript.LastWrite
import Bytewright.Verification.Cfgscript.Leaves
import Bytewright.Verification.Cfgscript.Patch
import Bytewright.Verification.Cfgscript.Diff
import Bytewright.Verification.Cfgscript.Places
import Bytewright.Verification.Cfgscript.Lookup
import Bytewright.Verification.Cfgscript.Indexing
import Bytewright.Verification.Cfgscript.Offsets
import Bytewright.Verification.Cfgscript.Scoping
import Bytewright.Verification.Cfgscript.Appending
import Bytewright.Verification.Cfgscript.Division
import Bytewright.Verification.Cfgscript.Reformatting
import Bytewright.Verification.Cfgscript.Unicode
import Bytewright.Verification.Cfgscript.Comparisons
import Bytewright.Verification.Cfgscript.Schema
import Bytewright.Verification.Cfgscript.Reordering
import Bytewright.Verification.Cfgscript.Documents
import Bytewright.Verification.Cfgscript.Exactness
import Bytewright.Verification.Corruption
