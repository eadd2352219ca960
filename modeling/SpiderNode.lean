import SpiderNode.Codec.Chunked
import SpiderNode.Text.Utf16
import SpiderNode.Text.Encoding
import SpiderNode.Net.Pool
import SpiderNode.Net.Socket
import SpiderNode.Net.Conservation
import SpiderNode.Net.Run
import SpiderNode.Buffer.Native
import SpiderNode.Buffer.Encoders
import SpiderNode.Buffer.Views
import SpiderNode.Net.Agreement
import SpiderNode.Text.Inflate
import SpiderNode.Http.Outgoing
import SpiderNode.Http.Sending
import SpiderNode.Http.Framing
import SpiderNode.Http.Incoming
import SpiderNode.Http.Trailers
import SpiderNode.Http.Ending
import SpiderNode.Http.Bodiless
import SpiderNode.Http.Chunks
import SpiderNode.Http.Finished
import SpiderNode.Http.Queued
import SpiderNode.Http.Flow
import SpiderNode.Http.Pipeline
import SpiderNode.Machine.Runs
import SpiderNode.Http.Agent
import SpiderNode.Http.Tracking
import SpiderNode.Http.Dispatch
import SpiderNode.Events.Emitter
import SpiderNode.Events.Snapshot
import SpiderNode.Events.Once
import SpiderNode.Links.Ring
import SpiderNode.Timers.Idle
import SpiderNode.Timers.Order
import SpiderNode.Timers.Armed
import SpiderNode.Timers.Cleared
import SpiderNode.Process.Ticks
import SpiderNode.Process.Signals
import SpiderNode.Text.Characters
import SpiderNode.Text.StringDecoder
import SpiderNode.Buffer.Base64
import SpiderNode.Buffer.Slices
import SpiderNode.Buffer.WriteUtf8
import SpiderNode.Buffer.Strings
import SpiderNode.Buffer.Windows
import SpiderNode.Native.Ranges
import SpiderNode.Files.Position
import SpiderNode.Files.ReadStream
import SpiderNode.Net.Turns
import SpiderNode.Net.Lifecycle
import SpiderNode.Net.Shared
import SpiderNode.Net.Ondata
import SpiderNode.Net.Entries
import SpiderNode.Net.Writes
import SpiderNode.Net.Callbacks
import SpiderNode.Net.Descriptors
import SpiderNode.Streams.Pipe
import SpiderNode.Process.Child
import SpiderNode.Modules.Load
import SpiderNode.Files.Path
import SpiderNode.Modules.Resolve
import SpiderNode.Modules.Candidates
import SpiderNode.Files.Closing
import SpiderNode.Tls.SecurePair
import SpiderNode.Tls.Locks
import SpiderNode.Tls.Destroyed
import SpiderNode.Tls.Queues
import SpiderNode.Tls.Wakeup
import SpiderNode.Text.Numerals
import SpiderNode.Text.Json
import SpiderNode.Debugger.Protocol
import SpiderNode.Debugger.Messages
import SpiderNode.Debugger.Chunks
import SpiderNode.Debugger.Client
import SpiderNode.Tty.Keypress
import SpiderNode.Buffer.Alphabet
import SpiderNode.Handles.Container
import SpiderNode.Handles.Scopes
import SpiderNode.Handles.Local
import SpiderNode.Links.Chain
import SpiderNode.Handles.Weak
import SpiderNode.Handles.ObjectWrap
import SpiderNode.Objects.Property
import SpiderNode.Objects.Accessors
import SpiderNode.Objects.Named
import SpiderNode.Objects.Hidden
import SpiderNode.Exceptions.TryCatch
import SpiderNode.Exceptions.Scoping
import SpiderNode.Net.Empty
import SpiderNode.Files.Ranged
import SpiderNode.Files.Content
import SpiderNode.Files.WriteStream
import SpiderNode.Files.Stored
import SpiderNode.Files.System
import SpiderNode.Files.WholeFile
import SpiderNode.Modules.Ancestors
import SpiderNode.Net.Reconnect
import SpiderNode.Templates.Instances
import SpiderNode.Buffer.WriteAscii
import SpiderNode.Http.HeaderMap
import SpiderNode.Http.Merging
import SpiderNode.Buffer.Hex
import SpiderNode.Trees.Walk
import SpiderNode.Files.Directory
import SpiderNode.Files.Resolved
import SpiderNode.Files.Normalize
import SpiderNode.Files.Relative
import SpiderNode.Regex.Backtracking
import SpiderNode.Files.SplitPath
import SpiderNode.Query.Parse
import SpiderNode.Files.Windows.Relative
import SpiderNode.Query.Decode
import SpiderNode.Tty.EmitKey
import SpiderNode.Inspect.Literal
import SpiderNode.Assert.DeepEqual
import SpiderNode.Inspect.Format
import SpiderNode.Readline.Interface
import SpiderNode.Urls.Delimiters
import SpiderNode.Urls.Stable
import SpiderNode.Urls.Resolve
import SpiderNode.Links.Queues
import SpiderNode.Machine.Calls
import SpiderNode.Timers.LinkList
import SpiderNode.Files.Stack
import SpiderNode.Readline.Completion
import SpiderNode.Files.Realpath
import SpiderNode.Files.NextPart
import SpiderNode.Files.Scanning
import SpiderNode.Files.Cached
import SpiderNode.Files.SyncLoop
import SpiderNode.Files.RealpathCache
import SpiderNode.Trees.Links
import SpiderNode.Files.AsyncLoop
import SpiderNode.Files.FileSystem
import SpiderNode.Files.SameFile
import SpiderNode.Machine.Scanner
import SpiderNode.Machine.Chunking
import SpiderNode.Machine.Bytewise
import SpiderNode.Machine.Reading
import SpiderNode.Machine.Keywords
import SpiderNode.HttpParser.Execute
import SpiderNode.HttpParser.Chunks
import SpiderNode.HttpParser.Sound
import SpiderNode.HttpParser.Calls
import SpiderNode.HttpParser.Reading
import SpiderNode.HttpParser.Url
import SpiderNode.HttpParser.FirstLine
import SpiderNode.HttpParser.HeaderLines
import SpiderNode.HttpParser.Bodies
import SpiderNode.HttpParser.Messages
import SpiderNode.Machine.Following
import SpiderNode.HttpParser.Binding
import SpiderNode.Http.Session
import SpiderNode.Http.Receiving
import SpiderNode.HttpParser.Upgrades
import SpiderNode.Http.Upgrading
import SpiderNode.Http.Closing
import SpiderNode.Http.Delivery
