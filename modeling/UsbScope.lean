import UsbScope.Lib.Bytes
import UsbScope.Lib.RangeMap
import UsbScope.Lib.Spool
import UsbScope.Common.Abi
import UsbScope.Lib.Machine
import UsbScope.Lib.Result
import UsbScope.Common.Wire
import UsbScope.Capture.Reassembler
import UsbScope.Capture.Completeness
import UsbScope.Capture.Accounting
import UsbScope.Capture.Streams
import UsbScope.Capture.Order
import UsbScope.Ebpf.Probe
import UsbScope.Capture.Decode
import UsbScope.Ebpf.Emit
import UsbScope.Ebpf.Copy
import UsbScope.Ebpf.Parts
import UsbScope.Ebpf.IsoCopy
import UsbScope.Ebpf.Agreement
import UsbScope.Filter.Expr
import UsbScope.Filter.Parse
import UsbScope.Ebpf.Tracking
import UsbScope.Filter.Kernel
import UsbScope.Pcapng.Reader
import UsbScope.Pcapng.Writer
import UsbScope.Pcapng.ReadBack
import UsbScope.Pcapng.RoundTrip
import UsbScope.Pcapng.Steps
import UsbScope.Pcapng.Producers
import UsbScope.Pcapng.Rewrite
import UsbScope.Pcapng.Acceptance
import UsbScope.Pcapng.Pairing
import UsbScope.Filter.Refine
import UsbScope.Pcapng.Selection
import UsbScope.Ebpf.Attribution
import UsbScope.Lib.Parser
import UsbScope.Pcapng.Framing
import UsbScope.Pcapng.Isolation
import UsbScope.Pcapng.Orders
import UsbScope.Capture.Gaps
import UsbScope.Filter.Search
import UsbScope.Pcapng.Consumers
import UsbScope.Capture.Storage
import UsbScope.App.Audio
import UsbScope.App.Consume
import UsbScope.Lib.Groups
import UsbScope.Pcapng.Layout
import UsbScope.App.Rotation
import UsbScope.Capture.Archive
import UsbScope.App.Run
import UsbScope.App.Replay
import UsbScope.Filter.Lex
import UsbScope.Filter.Meaning
import UsbScope.Filter.Numbers
import UsbScope.Filter.Predicates
import UsbScope.Filter.Inverse
import UsbScope.Filter.Substring
import UsbScope.Filter.Balance
import UsbScope.Filter.Nesting
import UsbScope.Lib.Checked
import UsbScope.Pcapng.Checked
import UsbScope.Pcapng.Blocks
import UsbScope.Ebpf.Scatter
import UsbScope.Ebpf.Pages
import UsbScope.Ebpf.Arm64
import UsbScope.App.KernelConfig
import UsbScope.Capture.Rejection
import UsbScope.App.Latency
import UsbScope.App.Alike
import UsbScope.App.Statistics
import UsbScope.Filter.Hex
import UsbScope.Filter.Patterns
import UsbScope.Capture.Ranges
import UsbScope.Lib.FileSystem
import UsbScope.Lib.Lookup
import UsbScope.App.Destinations
import UsbScope.App.Aliasing
import UsbScope.App.InFlight
import UsbScope.App.Files
import UsbScope.App.Limits
import UsbScope.App.KernelSymbols
