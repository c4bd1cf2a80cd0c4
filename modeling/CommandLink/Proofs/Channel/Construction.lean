import CommandLink.Channel.Hub
import CommandLink.Proofs.Channel.Record
import CommandLink.Proofs.Device.Link
import CommandLink.Proofs.Timer.History

namespace CommandLink

variable {C : Type} {n s : Nat}

namespace Channel

variable {settings : Settings} {table : Table C} {timers : TimerQueue s}

end Channel

namespace Channel

variable {ch : Channel C n s}

open Dispatch

end Channel

namespace Session

open Channel

end Session

end CommandLink
