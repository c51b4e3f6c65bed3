import Mathlib.Data.Rat.Floor

/-! The part of the configuration that the modelled code reads, with its defaults. -/
namespace Overbook

/- An instant or a duration in milliseconds. -/
abbrev Time := Nat

abbrev Uuid := String

abbrev Replica := Nat

inductive BookingLockStrategy where
  | none
  | pessimistic
  | optimistic
  deriving DecidableEq, Repr

structure Topics where
  booking : String := "booking.events"
  retry : String := "booking.events.retry"
  dlq : String := "booking.events.dlq"

structure KafkaConfig where
  consumerGroup : String := "overbook-notifications"
  topics : Topics := {}

structure BookingConfig where
  lockStrategy : BookingLockStrategy := .pessimistic
  optimisticMaxRetries : Int := 5

structure CacheConfig where
  enabled : Bool := true
  ttlSeconds : Int := 30
  ttlJitterSeconds : Int := 10
  stampedeProtection : Bool := true
  lockTtlMs : Int := 5000
  staleSeconds : Int := 60

structure OutboxConfig where
  enabled : Bool := true
  batchSize : Int := 100
  maxAttempts : Int := 10
  directPublishMode : Bool := false
  crashAfterCommit : Bool := false

structure NotificationsConfig where
  maxAttempts : Int := 3
  retryBaseMs : Int := 500
  retryMaxMs : Int := 30000

structure RateLimitConfig where
  enabled : Bool := true
  capacity : Int := 20
  refillPerSecond : Rat := 10

structure AppConfiguration where
  kafka : KafkaConfig := {}
  booking : BookingConfig := {}
  cache : CacheConfig := {}
  outbox : OutboxConfig := {}
  notifications : NotificationsConfig := {}
  rateLimit : RateLimitConfig := {}

/-- What an operation throws: an HTTP exception that the modelled code raises, or anything else. -/
inductive Err where
  | notFound (message : String)
  | conflict (message : String)
  | unprocessableEntity (message : String)
  | other (message : String)
  deriving DecidableEq

def Err.message : Err → String
  | notFound m => m
  | conflict m => m
  | unprocessableEntity m => m
  | other m => m

end Overbook
