import Ionosphere.Smtp.BdatFraming
import Ionosphere.Imap.StartTls
import Ionosphere.Smtp.Chunking
import Ionosphere.Imap.Fifo
import Ionosphere.Imap.Gating
import Ionosphere.Pop3.Stls
import Ionosphere.Pop3.Maildrop
import Ionosphere.Lmtp.Replies
import Ionosphere.ManageSieve.Fifo
import Ionosphere.Srs.Chain
import Ionosphere.Dns.Containment
import Ionosphere.Regex.Language
import Ionosphere.Server.Resync
import Ionosphere.Server.Readers
import Ionosphere.Store.MaildropLock
import Ionosphere.Store.BlobGrace
import Ionosphere.Mta.Notices
import Ionosphere.Mta.StsCache
import Ionosphere.Mta.Suppressions
import Ionosphere.Mta.Transfer
import Ionosphere.Mta.ClientTls
import Ionosphere.MailAuth.OverSigning
import Ionosphere.MailAuth.ArcChain
import Ionosphere.Sieve.Complete
import Ionosphere.Dns.Names
import Ionosphere.Core.ScramExchange
import Ionosphere.Pop3.Multiline
import Ionosphere.Core.FailsClosed
import Ionosphere.Mime.RoundTrip
import Ionosphere.Server.CopyUid
import Ionosphere.Store.Forest
import Ionosphere.Imap.OutputStrings
import Ionosphere.Core.GlobCaptures
import Ionosphere.Regex.LetterCase
import Ionosphere.Server.StoreFlags
import Ionosphere.Store.Queries
import Ionosphere.Imap.SortThread
import Ionosphere.MailAuth.HeaderCanon
import Ionosphere.Imap.SavedSearch
import Ionosphere.MailAuth.OrgDomain
import Ionosphere.MailAuth.SpfExplanation
import Ionosphere.MailAuth.SpfExpansion
import Ionosphere.Core.Ulid
import Ionosphere.Mime.Encoding
import Ionosphere.Sieve.Variables
import Ionosphere.MailAuth.SpfBudget
import Ionosphere.Sieve.Literals
import Ionosphere.Core.ThrottleKey
import Ionosphere.Store.SecondFactor
import Ionosphere.Store.WriterQueue
import Ionosphere.Core.PeerLimit
