import Mathlib.Logic.Basic

/-! The status and the launch type of a unified job. -/

namespace Forail

/-- `UnifiedJobTemplate.JOB_STATUS_CHOICES`. -/
inductive Status
  | new | pending | waiting | running | successful | failed | error | canceled
  deriving DecidableEq

/-- The job has ended: one of `successful`, `failed`, `error`, `canceled`. -/
def Status.terminal : Status → Bool
  | .successful | .failed | .error | .canceled => true
  | .new | .pending | .waiting | .running => false

/-- `ACTIVE_STATES`. -/
def Status.active : Status → Bool
  | .new | .pending | .waiting | .running => true
  | .successful | .failed | .error | .canceled => false

/-- The statuses of a task that the task manager counts as running. -/
def Status.started : Status → Bool
  | .waiting | .running => true
  | .new | .pending | .successful | .failed | .error | .canceled => false

/-- `UnifiedJob.LAUNCH_TYPE_CHOICES`. -/
inductive LaunchType
  | manual | relaunch | callback | scheduled | dependency | workflow | webhook | sync | scm
  deriving DecidableEq

end Forail
