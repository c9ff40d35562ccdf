import Mathlib.Order.Bounds.Basic
import Qualify.Proofs.Script.Naming

namespace Qualify

namespace Duration

-- Some whole seconds are a limit for the span: at least one, and no less than it lasts.
def Covers (span : Duration) (seconds : Nat) : Prop :=
  1 ≤ seconds ∧ span.nanoseconds ≤ seconds * 1000000000

-- The whole seconds that a span takes up, where one that has begun counts. For the longest spans
-- they do not fit in 64 bits.
def ceiling (span : Duration) : Nat :=
  span.seconds.toNat + if 0 < span.nanos then 1 else 0

theorem wholeSeconds_of_lt {span : Duration} (h : span.ceiling < 0x10000000000000000) :
    ∃ seconds, span.wholeSeconds = .ok seconds ∧ seconds.toNat = span.ceiling := by
  unfold ceiling at h ⊢
  unfold wholeSeconds
  by_cases hnanos : span.nanos = 0
  · exact ⟨span.seconds, if_pos hnanos, by simp [hnanos]⟩
  · have hpositive : 0 < span.nanos := Nat.pos_of_ne_zero hnanos
    rw [if_pos hpositive] at h ⊢
    refine ⟨span.seconds + 1, by rw [if_neg hnanos, if_pos h], ?_⟩
    rw [UInt64.toNat_add]
    exact Nat.mod_eq_of_lt h

theorem wholeSeconds_of_le {span : Duration} (h : 0x10000000000000000 ≤ span.ceiling) :
    span.wholeSeconds = .error .overflow := by
  have hlt := span.seconds.toNat_lt
  unfold ceiling at h
  unfold wholeSeconds
  split at h
  · next hpositive => rw [if_neg (Nat.ne_of_gt hpositive), if_neg (Nat.not_lt.mpr h)]
  · omega

theorem toNat_max_one (seconds : UInt64) : (max seconds 1).toNat = max seconds.toNat 1 := by
  have hone : seconds ≤ 1 ↔ seconds.toNat ≤ 1 := UInt64.le_iff_toNat_le
  change (if seconds ≤ 1 then 1 else seconds).toNat = max seconds.toNat 1
  by_cases h : seconds ≤ 1
  · rw [if_pos h, Nat.max_eq_right (hone.mp h)]
    rfl
  · have hlarge : ¬seconds.toNat ≤ 1 := mt hone.mpr h
    rw [if_neg h]
    omega

-- The argument holds the ceiling if it fits in 64 bits, but never zero.
theorem argument?_eq (flag : String) (span : Duration) :
    argument? (some flag) (some span) =
      if span.ceiling < 0x10000000000000000 then .ok (some (flag ++ toString (max span.ceiling 1)))
      else .error .overflow := by
  rw [argument?]
  split
  · next hlt =>
      obtain ⟨seconds, hseconds, htoNat⟩ := wholeSeconds_of_lt hlt
      rw [Except.bind_of_ok hseconds, toNat_max_one, htoNat]
      rfl
  · next hle => rw [Except.bind_of_error (wholeSeconds_of_le (Nat.not_lt.mp hle))]

section Least

variable {span : Duration} (hnanos : span.nanos < 1000000000)
include hnanos

theorem nanoseconds_le_iff {seconds : Nat} :
    span.nanoseconds ≤ seconds * 1000000000 ↔ span.ceiling ≤ seconds := by
  unfold nanoseconds ceiling
  split <;> omega

theorem isLeast_covers : IsLeast {seconds | span.Covers seconds} (max span.ceiling 1) := by
  constructor
  · refine ⟨by omega, ?_⟩
    rw [nanoseconds_le_iff hnanos]
    omega
  · rintro seconds ⟨hone, hle⟩
    rw [nanoseconds_le_iff hnanos] at hle
    omega

-- The ceiling fits in 64 bits, unless the span is longer than the largest number of seconds.
theorem ceiling_lt_iff :
    span.ceiling < 0x10000000000000000 ↔
      span.nanoseconds ≤ 0xFFFFFFFFFFFFFFFF * 1000000000 := by
  rw [nanoseconds_le_iff hnanos]
  omega

end Least

end Duration

namespace Script

section Run

variable (script : Script) {settings : Settings} {host : Host}
  (hwritable : ∀ path, settings.scriptPath = some path → host.canWrite path = true)
  (hstart : host.canStart settings.command = true)
include hwritable hstart

-- The files that are written have no influence on the run.
theorem runs_run {argument : Option String}
    (hargument : Duration.argument? settings.timeoutFlag settings.timeout = .ok argument) :
    (script.run settings host).2.runs = host.runs ++ [⟨argument.toList, script.text⟩] := by
  have hfilter : settings.scriptPath.filter (fun path => !host.canWrite path) = none := by
    simpa [Option.filter_eq_none_iff] using hwritable
  unfold run
  simp [hfilter, hargument, Host.start, hstart]

omit hstart in
-- Without an argument nothing is started.
theorem run_of_fault {cause : Fault}
    (hargument : Duration.argument? settings.timeoutFlag settings.timeout = .error cause) :
    (script.run settings host).1 = .error (.fault cause) ∧
      (script.run settings host).2.runs = host.runs := by
  have hfilter : settings.scriptPath.filter (fun path => !host.canWrite path) = none := by
    simpa [Option.filter_eq_none_iff] using hwritable
  unfold run
  simp [hfilter, hargument]

end Run

-- The external solver is given the least number of whole seconds that covers the time limit, if
-- this number fits in 64 bits. For a limit beyond there is no argument, and the run breaks off
-- before anything is started.
theorem run_covers_limit_iff (script : Script) {settings : Settings} {host : Host} {flag : String}
    {limit : Duration} (hflag : settings.timeoutFlag = some flag)
    (hlimit : settings.timeout = some limit) (hnanos : limit.nanos < 1000000000)
    (hwritable : ∀ path, settings.scriptPath = some path → host.canWrite path = true)
    (hstart : host.canStart settings.command = true) :
    ((∃ seconds, IsLeast {seconds | limit.Covers seconds} seconds ∧
        (script.run settings host).2.runs =
          host.runs ++ [⟨[flag ++ toString seconds], script.text⟩]) ↔
      limit.nanoseconds ≤ 0xFFFFFFFFFFFFFFFF * 1000000000) ∧
    (0xFFFFFFFFFFFFFFFF * 1000000000 < limit.nanoseconds →
      (script.run settings host).1 = .error (.fault .overflow) ∧
        (script.run settings host).2.runs = host.runs) := by
  have hargument : Duration.argument? settings.timeoutFlag settings.timeout = _ :=
    (congrArg₂ _ hflag hlimit).trans (Duration.argument?_eq flag limit)
  have hbeyond : 0xFFFFFFFFFFFFFFFF * 1000000000 < limit.nanoseconds →
      (script.run settings host).1 = .error (.fault .overflow) ∧
        (script.run settings host).2.runs = host.runs := by
    intro hlong
    rw [if_neg (mt (Duration.ceiling_lt_iff hnanos).mp (Nat.not_le.mpr hlong))] at hargument
    exact script.run_of_fault hwritable hargument
  refine ⟨⟨?_, fun hfits => ?_⟩, hbeyond⟩
  · rintro ⟨seconds, -, hpassed⟩
    by_contra hlong
    rw [(hbeyond (Nat.not_le.mp hlong)).2] at hpassed
    simp at hpassed
  · refine ⟨_, Duration.isLeast_covers hnanos, ?_⟩
    rw [if_pos ((Duration.ceiling_lt_iff hnanos).mpr hfits)] at hargument
    exact script.runs_run hwritable hstart hargument

section Sample

open Registry

def limitedSettings (limit : Duration) : Settings :=
  { Solver.externalSettings with timeout := some limit }

theorem limitedSettings_writable (limit : Duration) (host : Host) (path : String)
    (h : (limitedSettings limit).scriptPath = some path) : host.canWrite path = true := by
  cases h

def longLimit : Duration :=
  ⟨0xFFFFFFFFFFFFFFFE, 1⟩

theorem longLimit_run_covers_limit_iff :
    ∃ script, ofConstraints taint flow .satisfy = .ok script ∧
      IsLeast {seconds | longLimit.Covers seconds} 18446744073709551615 ∧
      (script.run (limitedSettings longLimit) Solver.printingHost).2.runs =
        [⟨["-T:18446744073709551615"], script.text⟩] := by
  obtain ⟨script, hscript⟩ : ∃ script, ofConstraints taint flow .satisfy = .ok script := ⟨_, rfl⟩
  have hleast : IsLeast {seconds | longLimit.Covers seconds} 18446744073709551615 :=
    Duration.isLeast_covers (by decide)
  obtain ⟨hiff, -⟩ := run_covers_limit_iff script rfl rfl (by decide)
    (limitedSettings_writable longLimit Solver.printingHost) rfl
  obtain ⟨seconds, hseconds, hruns⟩ := hiff.mpr (by decide)
  rw [hseconds.unique hleast] at hruns
  exact ⟨script, hscript, hleast, hruns⟩

def longestLimit : Duration :=
  ⟨0xFFFFFFFFFFFFFFFF, 1⟩

-- There is a number of seconds for the longest limits, but no argument.
theorem longestLimit_breaks_off :
    ∃ script, ofConstraints taint flow .satisfy = .ok script ∧
      IsLeast {seconds | longestLimit.Covers seconds} 18446744073709551616 ∧
      (script.run (limitedSettings longestLimit) Solver.printingHost).1 =
        .error (.fault .overflow) ∧
      (script.run (limitedSettings longestLimit) Solver.printingHost).2.runs = [] := by
  obtain ⟨script, hscript⟩ : ∃ script, ofConstraints taint flow .satisfy = .ok script := ⟨_, rfl⟩
  refine ⟨script, hscript, Duration.isLeast_covers (by decide), ?_⟩
  exact script.run_of_fault (limitedSettings_writable longestLimit _) rfl

end Sample

end Script

end Qualify
