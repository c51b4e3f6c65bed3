import Overbook.Async.Soundness
import Overbook.Store.Frame
import Overbook.Bookings.Events
import Overbook.Outbox.Disjoint
import Overbook.Outbox.Order
import Overbook.Outbox.Identity
import Overbook.Idempotency.OneBooking
import Overbook.Idempotency.Retry
import Overbook.Notifications.Errors
import Overbook.Notifications.Shutdown
import Overbook.Notifications.Dedup
import Overbook.Pipeline
import Overbook.RateLimit.Exact
import Overbook.RateLimit.Enforced
import Overbook.RateLimit.Skew
import Overbook.Redis.FailOpen
import Overbook.Redis.SingleFlight
import Overbook.Redis.Recall
import Overbook.Redis.Staleness
import Overbook.Outbox.Loop
import Overbook.Metrics.Http
import Overbook.Trace.Forwarded
import Overbook.Outbox.Recovery
import Overbook.Async.Progress
import Overbook.Async.Linearizable
import Overbook.Bookings.Linear
import Overbook.Idempotency.Cleanup
import Overbook.Bookings.Accepted
import Overbook.Bookings.Integrity
import Overbook.Bookings.Drift
import Overbook.Bookings.Contention
import Overbook.Outbox.Isolation
import Overbook.Outbox.Backoff
import Overbook.Bookings.AllOrNothing
import Overbook.Notifications.Duplicates
import Overbook.Notifications.Headers
import Overbook.DeadLetters
import Overbook.Readers
import Overbook.Lifecycle
import Overbook.Concurrency.Semaphore
import Overbook.Events.Pages
import Overbook.RateLimit.Denied
import Overbook.Idempotency.MemberOrder
import Overbook.Retrying
import Overbook.Notifications.EndsOnce
import Overbook.Notifications.Accounting
import Overbook.Notifications.AllEnd
import Overbook.Notified
import Overbook.Outbox.Stats
import Overbook.Async.Completion
import Overbook.Bookings.Locks
import Overbook.Bookings.Prepared
import Overbook.Bookings.Oversold
import Overbook.Progress
