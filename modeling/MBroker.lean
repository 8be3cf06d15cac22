import MBroker.Lib.Transition
import MBroker.Lib.Refinement
import MBroker.Fs.Refines
import MBroker.Fs.Leaks
import MBroker.Fs.Offsets
import MBroker.Fs.Collateral
import MBroker.Fs.Interference
import MBroker.Fs.FailedOpens
import MBroker.Fs.Lengths
import MBroker.Fs.Lives
import MBroker.Lib.Guard
import MBroker.Lib.Ring
import MBroker.Lib.Stutter
import MBroker.Queue.Wedge
import MBroker.Queue.Stall
import MBroker.Queue.Linear
import MBroker.Broker.Handoff
import MBroker.Broker.Relay
import MBroker.Broker.Deliver
import MBroker.Broker.Publish
import MBroker.Broker.Handlers
import MBroker.Broker.Answers
import MBroker.Broker.Table
import MBroker.Broker.Dispatch
import MBroker.Broker.Service
import MBroker.Broker.Balance
import MBroker.Broker.Naming
import MBroker.Broker.Admission
import MBroker.Broker.Framing
import MBroker.Broker.Listing
import MBroker.Broker.Storage
import MBroker.Wire.Fields
import MBroker.Clients.SendLoop
import MBroker.Clients.Login
import MBroker.Clients.Request
import MBroker.Fs.Lending
import MBroker.Broker.Lifetime
import MBroker.Broker.Stuck
import MBroker.Broker.Feed
import MBroker.Fs.Isolation
import MBroker.Fs.Alike
import MBroker.Broker.ListFormat
