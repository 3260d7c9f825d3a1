import CryptoCex.Lib.Loop
import CryptoCex.Core.Uncrossed
import CryptoCex.Core.FillOrKill
import CryptoCex.Core.StopExact
import CryptoCex.Core.Reload
import CryptoCex.Core.Priority
import CryptoCex.Core.PostOnly
import CryptoCex.Core.Slices
import CryptoCex.Core.Depth
import CryptoCex.Core.StopQueue
import CryptoCex.Core.StopDrain
import CryptoCex.Core.TriggerOrder
import CryptoCex.Proto.Framing
import CryptoCex.Server.Reject
import CryptoCex.Server.Published
import CryptoCex.Server.Admission
import CryptoCex.Server.Exclusive
import CryptoCex.Server.Replay
import CryptoCex.Server.LogFiles
import CryptoCex.Server.Recovery
import CryptoCex.Server.Halt
import CryptoCex.Server.CancelAll
import CryptoCex.Server.Acks
import CryptoCex.Server.OpenTable
import CryptoCex.Server.Departed
import CryptoCex.Server.Overflow
import CryptoCex.Server.Time
import CryptoCex.Server.Record
import CryptoCex.Server.Resources
import CryptoCex.Settlement.Pipeline
import CryptoCex.Settlement.Redelivery
import CryptoCex.Settlement.Explained
import CryptoCex.Settlement.Conserved
import CryptoCex.Settlement.Fees
import CryptoCex.Settlement.Progress
import CryptoCex.Settlement.StatusWrites
import CryptoCex.Settlement.Copies
import CryptoCex.Settlement.Cover
import CryptoCex.Settlement.Floor
import CryptoCex.Settlement.Clearance
import CryptoCex.Api.Refund
import CryptoCex.Api.Correlation
import CryptoCex.Api.Funds
import CryptoCex.Api.ReserveProofs
import CryptoCex.Api.Reconnect
import CryptoCex.Api.Pnl
import CryptoCex.Api.RateLimit
import CryptoCex.Api.Hmac
import CryptoCex.Api.ListOrders
import CryptoCex.Auth.Refresh
import CryptoCex.Auth.Login
import CryptoCex.Api.Freeze
import CryptoCex.Ws.Replay
import CryptoCex.Ws.Subscriptions
import CryptoCex.Ws.Live
import CryptoCex.Ws.Isolation
import CryptoCex.Web.Client
import CryptoCex.Web.BookCopy
import CryptoCex.Web.DecimalStrings
import CryptoCex.MarketData.MarketMaker
import CryptoCex.MarketData.Venue
import CryptoCex.Web.ReplayFrames
import CryptoCex.Lib.TwoPhase
import CryptoCex.Lib.Paging
import CryptoCex.Settlement.Statements
import CryptoCex.Settlement.Passbook
import CryptoCex.Settlement.Serializable
import CryptoCex.Api.LedgerHistory
import CryptoCex.Server.AckTruth
