import CommandLink.Channel.Basic
import CommandLink.Device.Handlers
import CommandLink.LinkFile.Reader
import CommandLink.Transmit.Packet

namespace CommandLink

/-- The device on its one link, with one timer and queues for one packet. -/
structure Station where
  timers : TimerQueue 1
  link : Channel Device Frame.packetLength 1
  device : Device

namespace Station

/-- Octets of a transfer to the transmitter. -/
def burst : Nat := 64

/-- Start with the configuration of a link file, or with the standard one
where it cannot be read. -/
def start (linkFile : List Char) : Except OpenError Station :=
  let configuration : LinkFile.Configuration :=
    match LinkFile.read linkFile with
    | .ok c => c
    | .error _ => {}
  let timers : TimerQueue 1 := .new 1 Timer.standardLongest
  (Channel.new Frame.packetLength configuration.settings Device.table timers).map
    fun (link, timers) => ⟨timers, link, {}⟩

/-- The clock, which wraps. -/
def now (st : Station) : UInt32 := UInt32.ofNat st.device.uptime

def advance (st : Station) (ms : Nat) : Station :=
  { st with device.uptime := st.device.uptime + ms }

def receive (st : Station) (bs : List UInt8) : Nat × Station :=
  let (stored, link, timers) := st.link.receive st.timers bs st.now
  (stored, { st with link, timers })

def process (st : Station) : Outcome × Station :=
  let (outcome, link, device) := st.link.process st.device
  (outcome, { st with link, device })

def processAll (st : Station) : Nat × Station :=
  let (frames, link, device) := st.link.processAll st.device
  (frames, { st with link, device })

def flush (st : Station) : List UInt8 × Station :=
  let (sent, tx) := Packet.packets burst st.link.tx
  (sent.flatten, { st with link.tx := tx })

def tick (st : Station) : Bool × Station :=
  let (expiry, timers) := st.timers.expire st.now
  let (cleared, link) := st.link.handleExpired timers expiry
  (cleared, { st with timers, link })

def resync (st : Station) : Station :=
  let (link, timers) := st.link.resync st.timers st.now
  { st with link, timers }

end Station

end CommandLink
