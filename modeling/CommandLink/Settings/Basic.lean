import CommandLink.Frame.Coverage

namespace CommandLink

structure Settings where
  /-- Milliseconds without input after which a partial frame is dropped. -/
  idleTimeout : UInt32 := 2000
  /-- A full input queue drops its oldest octet, not the newest. -/
  rxOverwrite : Bool := false
  /-- A leading zero is answered with a zero. -/
  zeroSync : Bool := true
  /-- Framing errors are answered with an error tag. -/
  errorReplies : Bool := false
  coverage : Coverage := .tagAndPayload
  deriving DecidableEq

inductive SettingsError where
  | zeroIdleTimeout
  | idleTimeoutTooLong (longest : UInt32)
  deriving DecidableEq

def SettingsError.message : SettingsError → String
  | .zeroIdleTimeout => "ZeroIdleTimeout"
  | .idleTimeoutTooLong m => "IdleTimeoutTooLong \x7b max_ms: " ++ toString m.toNat ++ " \x7d"

/-- The idle timeout has to be positive and one that timers can be armed with. -/
def Settings.validate (s : Settings) (longest : UInt32) : Except SettingsError Unit :=
  if s.idleTimeout = 0 then .error .zeroIdleTimeout
  else if longest < s.idleTimeout then .error (.idleTimeoutTooLong longest)
  else .ok ()

end CommandLink
