import Grapevine.Lib.Bytes
import Grapevine.Lib.Joined
import Grapevine.Lib.Base64
import Grapevine.Lib.Stream
import Grapevine.Lib.Tree
import Grapevine.Lib.Update
import Grapevine.Lib.Common
import Grapevine.Lib.Latest
import Grapevine.Lib.LastWrite
import Grapevine.Lib.Comp
import Grapevine.Lib.Layers
import Grapevine.Lib.Intern
import Grapevine.Lib.Frontier
import Grapevine.Lib.Sorting
import Grapevine.Lib.ReadThrough
import Grapevine.Lib.Runs
import Grapevine.Lib.Paging
import Grapevine.Lib.Preorder
import Grapevine.Lib.Best
import Grapevine.Lib.Reader
import Grapevine.Lib.Net
import Grapevine.Data.Pdu
import Grapevine.Data.Ids
import Grapevine.Members.Tables
import Grapevine.Members.Shared
import Grapevine.Timeline.Count
import Grapevine.Timeline.Scan
import Grapevine.Timeline.Overflow
import Grapevine.Timeline.PduCache
import Grapevine.Api.Wrapper
import Grapevine.Lib.Loop
import Grapevine.Api.Transaction
import Grapevine.Api.Destination
import Grapevine.Members.Consistent
import Grapevine.Members.Roster
import Grapevine.Account.Uiaa
import Grapevine.Keys.Store
import Grapevine.Keys.Fetch
import Grapevine.Keys.JoinKeys
import Grapevine.Keys.Trusted
import Grapevine.Sync.Sliding
import Grapevine.Sync.Timeline
import Grapevine.Sync.LastCount
import Grapevine.Sync.ToDevice
import Grapevine.Sync.Tokens
import Grapevine.Sync.Updates
import Grapevine.Sync.Watch
import Grapevine.Sync.Windows
import Grapevine.Sync.Writers
import Grapevine.Sync.KeyChanges
import Grapevine.Sync.AccountData
import Grapevine.State.Compressor
import Grapevine.State.Snapshots
import Grapevine.State.Content
import Grapevine.Lib.Faults
import Grapevine.State.Failing
import Grapevine.State.LayerBound
import Grapevine.State.Migrated
import Grapevine.Rooms.Short
import Grapevine.Rooms.Db
import Grapevine.Rooms.Notifications
import Grapevine.Rooms.Visibility
import Grapevine.Rooms.Append
import Grapevine.Rooms.RelationStore
import Grapevine.Rooms.Search
import Grapevine.Rooms.SearchMigration
import Grapevine.Rooms.Aliases
import Grapevine.Rooms.Frames
import Grapevine.Rooms.CurrentState
import Grapevine.Rooms.Seats
import Grapevine.Rooms.Isolation
import Grapevine.Rooms.Failures
import Grapevine.Rooms.Build
import Grapevine.Events.AuthChain
import Grapevine.Events.Outliers
import Grapevine.Events.AuthFetch
import Grapevine.Events.Upgrade
import Grapevine.Rooms.Spaces
import Grapevine.Rooms.SpaceCache
import Grapevine.Rooms.StateMap
import Grapevine.Events.Redactions
import Grapevine.Events.Expects
import Grapevine.Events.AuthCreate
import Grapevine.Events.SoftFail
import Grapevine.Events.Staleness
import Grapevine.Events.Incoming
import Grapevine.Events.PrevEvents
import Grapevine.Events.Addressed
import Grapevine.Events.Join
import Grapevine.Events.Validate
import Grapevine.Events.JoinState
import Grapevine.Events.Extremities
import Grapevine.Events.Forks
import Grapevine.Events.Handlers
import Grapevine.Events.AuthWalk
import Grapevine.Events.ChainExact
import Grapevine.Events.ChainFresh
import Grapevine.Events.ChainSingle
import Grapevine.Events.Told
import Grapevine.Events.Carried
import Grapevine.Events.Seated
import Grapevine.Events.ResolvedState
import Grapevine.Events.SeatedCalls
import Grapevine.Events.MemberRuns
import Grapevine.Api.StateRoutes
import Grapevine.Api.MissingEvents
import Grapevine.Sending.Requests
import Grapevine.Sending.Transactions
import Grapevine.Sending.Handler
import Grapevine.Sending.Flights
import Grapevine.Sending.FailedSelection
import Grapevine.Sending.Codec
import Grapevine.Sending.Delivery
import Grapevine.Sending.Edus
import Grapevine.Sync.Receipts
import Grapevine.Sending.EduLimit
import Grapevine.Sync.LazyLoading
import Grapevine.Rooms.Pagination
import Grapevine.Rooms.History
import Grapevine.Rooms.Relations
import Grapevine.Rooms.SearchPages
import Grapevine.Sync.LazyAnswers
import Grapevine.Sync.LazyRuns
import Grapevine.Utils.TokenSet
import Grapevine.Utils.Cleanup
import Grapevine.Users.Keys
import Grapevine.Users.OneTimeKeys
import Grapevine.Users.Query
import Grapevine.Users.DeviceQuery
import Grapevine.Users.Devices
import Grapevine.Users.Removal
import Grapevine.Users.KeyCounts
import Grapevine.Users.KeyBackups
import Grapevine.Users.BackupKeys
import Grapevine.Api.TxnIds
import Grapevine.Media.Thumbnails
import Grapevine.Media.Metadata
import Grapevine.Config.Proxy
import Grapevine.Database.Watchers
import Grapevine.Database.Batches
import Grapevine.Rooms.Typing
import Grapevine.Sending.Transactions
