import StorjUplink.Lib.Fallible
import StorjUplink.Lib.Buffer
import StorjUplink.Lib.Sweep
import StorjUplink.Lib.Interpolation
import StorjUplink.Lib.MachineInt
import StorjUplink.Ec.Gf
import StorjUplink.Ec.Matrix
import StorjUplink.Ec.Fec
import StorjUplink.Enc.Cipher
import StorjUplink.Enc.Transform
import StorjUplink.Enc.Padded
import StorjUplink.Uplink.Pipeline
import StorjUplink.Uplink.Decode
import StorjUplink.Uplink.Subsets
import StorjUplink.Uplink.Window
import StorjUplink.Uplink.Reconstruct
import StorjUplink.Client.Error
import StorjUplink.Client.Upload
import StorjUplink.Client.Sticky
import StorjUplink.Client.Download
import StorjUplink.Lib.Incremental
import StorjUplink.Rpc.Frame
import StorjUplink.Rpc.Conn
import StorjUplink.Lib.KeyTree
import StorjUplink.Access.Sharing
import StorjUplink.Access.Faithful
import StorjUplink.Enc.Path
import StorjUplink.Enc.Store
import StorjUplink.Enc.Encrypt
import StorjUplink.Enc.Walk
import StorjUplink.Enc.Rebuild
import StorjUplink.Enc.Prefix
import StorjUplink.Access.Codec
import StorjUplink.Access.Caveat
import StorjUplink.Access.Chain
import StorjUplink.Access.Limit
import StorjUplink.Access.Grant
import StorjUplink.Uplink.Pool
import StorjUplink.Uplink.Wakeup
import StorjUplink.Lib.Heaviest
import StorjUplink.Uplink.Cohort
import StorjUplink.Uplink.Collect
import StorjUplink.Lib.Stateful
import StorjUplink.Lib.Wire
import StorjUplink.Rpc.Call
import StorjUplink.Rpc.Isolation
import StorjUplink.Rpc.Noise
import StorjUplink.Access.Table
import StorjUplink.Access.Runs
import StorjUplink.Access.Sample
import StorjUplink.Access.Override
import StorjUplink.Access.State
import StorjUplink.Access.Ideal
import StorjUplink.Client.GrantStore
import StorjUplink.Client.Listing
import StorjUplink.Client.Reader
import StorjUplink.Client.Drain
import StorjUplink.Access.Reload
import StorjUplink.Access.Shared
import StorjUplink.Access.Confined
import StorjUplink.Rpc.Assembly
import StorjUplink.Uplink.Nonce
import StorjUplink.Uplink.Range
import StorjUplink.Access.Times
import StorjUplink.Uplink.Verdict
import StorjUplink.Client.Parts
import StorjUplink.Uplink.Orders
import StorjUplink.Uplink.Draw
import StorjUplink.Uplink.PieceSize
import StorjUplink.Access.Verbatim
import StorjUplink.Lib.BitPoly
import StorjUplink.Enc.Segment
import StorjUplink.Ec.Simd
import StorjUplink.Lib.Pivot
import StorjUplink.Ec.Invert
import StorjUplink.Rpc.Deferred
import StorjUplink.Client.Segments
import StorjUplink.Client.SegmentRead
import StorjUplink.Client.UserData
import StorjUplink.Client.Commits
import StorjUplink.Lib.KeyedStore
import StorjUplink.Client.Objects
import StorjUplink.Client.ObjectStore
import StorjUplink.Client.ObjectRead
import StorjUplink.Enc.Below
import StorjUplink.Lib.Paging
import StorjUplink.Client.ListKeys
import StorjUplink.Client.ListObjects
import StorjUplink.Client.Pending
import StorjUplink.Client.ListUploads
