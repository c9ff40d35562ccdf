import Qualify.Fault
import Qualify.Sat.Basic

namespace Qualify

-- A span of time. The nanoseconds stay below a full second.
structure Duration where
  seconds : UInt64
  nanos : Nat
deriving DecidableEq, Repr

namespace Duration

-- Nanoseconds beyond a full second are carried over. There is no span whose seconds need more than
-- 64 bits.
def ofParts? (seconds nanos : Nat) : Option Duration :=
  let whole := seconds + nanos / 1000000000
  if whole < 0x10000000000000000 then some ⟨UInt64.ofNat whole, nanos % 1000000000⟩ else none

def ofMillis (millis : Nat) : Duration :=
  ⟨UInt64.ofNat (millis / 1000), millis % 1000 * 1000000⟩

def millis (duration : Duration) : Nat :=
  duration.seconds.toNat * 1000 + duration.nanos / 1000000

def isZero (duration : Duration) : Bool :=
  duration.seconds == 0 && duration.nanos == 0

def nanoseconds (duration : Duration) : Nat :=
  duration.seconds.toNat * 1000000000 + duration.nanos

-- A part of a second counts as a full one. There may be no room for it in 64 bits.
def wholeSeconds (duration : Duration) : Except Fault UInt64 :=
  if duration.nanos = 0 then .ok duration.seconds
  else if duration.seconds.toNat + 1 < 0x10000000000000000 then .ok (duration.seconds + 1)
  else .error .overflow

-- How a time limit is handed to an external solver: in whole seconds, and at least one of them.
def argument? (flag : Option String) (limit : Option Duration) : Except Fault (Option String) :=
  match flag, limit with
  | some flag, some limit => do
      let seconds ← limit.wholeSeconds
      return some (flag ++ toString (max seconds 1).toNat)
  | _, _ => .ok none

-- The moment when a limit ends that begins now. Moments are counted in nanoseconds, and there are
-- none whose seconds need more than 63 bits.
def deadline (now : Nat) (limit : Option Duration) : Except Fault (Option Nat) :=
  match limit with
  | none => .ok none
  | some limit =>
      let moment := now + limit.nanoseconds
      if moment < 0x8000000000000000 * 1000000000 then .ok (some moment) else .error .overflow

end Duration

inductive Backend where
  | maxSat
  | smt
deriving DecidableEq, Repr

-- How to solve: by which backend and under which time limit, whether preferences count for an
-- external solver, whether solutions are checked, and where files go.
structure Settings where
  backend : Backend
  timeout : Option Duration
  optimizing : Bool
  verifying : Bool
  command : String
  timeoutFlag : Option String
  cnfPath : Option String
  scriptPath : Option String
  scriptLogPath : Option String
  statisticsPath : Option String
  resultPath : Option String
deriving DecidableEq, Repr

namespace Settings

def standard : Settings where
  backend := .maxSat
  timeout := none
  optimizing := true
  verifying := true
  command := "z3"
  timeoutFlag := some "-T:"
  cnfPath := none
  scriptPath := none
  scriptLogPath := none
  statisticsPath := none
  resultPath := none

-- A procedure under the time limit. A limit of zero has passed before any work is done. Whether
-- another one passes is up to the procedure, which may give up on any call.
def limited (settings : Settings) (sat : Sat.Procedure) : Sat.Procedure :=
  if settings.timeout.any (·.isZero) then .silent else sat

end Settings

end Qualify
