import Sqex.Proto.PoolBooks
import Sqex.Exchange.RehomeConflict
import Sqex.Exchange.Muted
import Sqex.Exchange.CopyFrame
import Sqex.Exchange.RosterAgreement
import Sqex.Proto.TimelineAuthority
import Sqex.Chat.ChainFork
import Sqex.Chat.CounterRepeat
import Sqex.Voice.JitterOrder
import Sqex.Voice.JitterGap
import Sqex.Relay.Ephemerals
import Sqex.Exchange.Audience
import Sqex.Exchange.PrekeysOnce
import Sqex.Exchange.FeedFaults
import Sqex.Exchange.FeedCommitments
import Sqex.Exchange.FeedDirectory
import Sqex.Proto.AgreementWire
import Sqex.Exchange.Homes
import Sqex.Chat.BadEnvelopes
import Sqex.Chat.GapsAsked
import Sqex.Exchange.TailLines
import Sqex.Chat.Publishing
import Sqex.Chat.FileReturns
import Sqex.Exchange.NameHands
import Sqex.Exchange.Unswept
import Sqex.Voice.RoomWatch
import Sqex.Voice.Muting
import Sqex.Exchange.SessionsPaired
import Sqex.Exchange.MailCollection
import Sqex.Chat.OneContent
import Sqex.Chat.ForkVerdict
import Sqex.Chat.Resets
import Sqex.Chat.Refiled
import Sqex.Chat.TimedRows
import Sqex.Chat.Correspondents
import Sqex.Exchange.Quotas
import Sqex.Chat.Stranded
import Sqex.Chat.PrekeyRuns
import Sqex.Exchange.AdminBatch
import Sqex.Exchange.Handovers
import Sqex.Exchange.Attestations
import Sqex.Exchange.TunnelCeiling
import Sqex.Exchange.Awaited
import Sqex.Exchange.EventsKept
import Sqex.Exchange.Standing
import Sqex.Exchange.BackupsWhole
import Sqex.Exchange.CatchupRuns
import Sqex.Exchange.CarriedUploads
import Sqex.Exchange.Signals
import Sqex.Proto.TimelineEdits
import Sqex.Exchange.HolesClosed
import Sqex.Discovery.Predecessors
import Sqex.Chat.CitationProved
import Sqex.Relay.Ceiling
import Sqex.Relay.ControlWire
import Sqex.Exchange.Rooms
import Sqex.Exchange.Admissions
import Sqex.Exchange.Profiles
import Sqex.Exchange.Waking
import Sqex.Chat.SessionEnds
