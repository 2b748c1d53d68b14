import MuxHiredis.Lib.Machine
import MuxHiredis.Lib.Resumable
import MuxHiredis.Lib.Logged
import MuxHiredis.Lib.Census
import MuxHiredis.Lib.Words
import MuxHiredis.Lib.Grammar
import MuxHiredis.Lib.Layout
import MuxHiredis.Lib.Forest
import MuxHiredis.Lib.Chains
import MuxHiredis.Lib.Relay
import MuxHiredis.Lib.Locks
import MuxHiredis.Lib.Attempts
import MuxHiredis.Lib.Descriptors
import MuxHiredis.Lib.Linked
import MuxHiredis.Sds
import MuxHiredis.Reply
import MuxHiredis.Reader.Scan
import MuxHiredis.Reader.Basic
import MuxHiredis.Reader.Numbers
import MuxHiredis.Reader.Item
import MuxHiredis.Reader.Refine
import MuxHiredis.Reader.Chunking
import MuxHiredis.Reader.Progress
import MuxHiredis.Reader.Encoding
import MuxHiredis.Reader.RoundTrip
import MuxHiredis.Reader.Building
import MuxHiredis.Reader.Freeing
import MuxHiredis.Reader.Descent
import MuxHiredis.Reader.Stack
import MuxHiredis.Reader.Calls
import MuxHiredis.Reader.Bounds
import MuxHiredis.Dict
import MuxHiredis.Format.Basic
import MuxHiredis.Format.Bytes
import MuxHiredis.Format.RoundTrip
import MuxHiredis.Format.Length
import MuxHiredis.Format.Conversion
import MuxHiredis.Format.Template
import MuxHiredis.Format.Cursor
import MuxHiredis.Async.Context
import MuxHiredis.Async.Command
import MuxHiredis.Async.Callbacks
import MuxHiredis.Async.Growth
import MuxHiredis.Async.Ledger
import MuxHiredis.Async.ExactlyOnce
import MuxHiredis.Async.Batching
import MuxHiredis.Async.PubSub
import MuxHiredis.Async.Registered
import MuxHiredis.Async.Teardown
import MuxHiredis.Async.Lifecycle
import MuxHiredis.Async.Monitor
import MuxHiredis.Async.Subscribe
import MuxHiredis.Async.Tables
import MuxHiredis.Async.Interest
import MuxHiredis.Async.Routes
import MuxHiredis.Mux.Session
import MuxHiredis.Mux.Record
import MuxHiredis.Mux.Client
import MuxHiredis.Mux.Released
import MuxHiredis.Mux.Current
import MuxHiredis.Mux.Reconnect
import MuxHiredis.Mux.Handover
import MuxHiredis.Mux.Pipe
import MuxHiredis.Mux.Moves
import MuxHiredis.Mux.Reference
import MuxHiredis.Mux.Posted
import MuxHiredis.Mux.Ownership
import MuxHiredis.Mux.Locking
import MuxHiredis.Mux.Failure
import MuxHiredis.Mux.Establish
import MuxHiredis.Mux.Registrations
import MuxHiredis.Net.Descriptor
import MuxHiredis.Net.Output
import MuxHiredis.Net.Blocking
import MuxHiredis.Ae.Files
import MuxHiredis.Ae.Timers
import MuxHiredis.Ae.Loop
import MuxHiredis.Ae.Dispatch
import MuxHiredis.Ae.TimePass
import MuxHiredis.Ae.Runs
import MuxHiredis.Lib.Separated
import MuxHiredis.Sds.Quote
import MuxHiredis.Sds.Split
import MuxHiredis.Lib.Doubly
import MuxHiredis.Adlist.Nodes
import MuxHiredis.Adlist.Iterating
import MuxHiredis.Mux.Withdraw
import MuxHiredis.Mux.Waking
import MuxHiredis.Adlist.Runs
import MuxHiredis.Ae.Adapter
import MuxHiredis.Ae.Watching
