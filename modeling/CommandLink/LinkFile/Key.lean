namespace CommandLink.LinkFile

inductive Heading where
  | link
  | uart
  deriving DecidableEq

def Heading.name : Heading → String
  | .link => "link"
  | .uart => "uart"

def Heading.ofName? (cs : List Char) : Option Heading :=
  [link, uart].find? fun h => h.name.toList = cs

inductive Key where
  | idleTimeout
  | rxOverwrite
  | zeroSync
  | errorReplies
  | checksum
  | baudrate
  | dataBits
  | parity
  | stopBits
  deriving DecidableEq

namespace Key

def heading : Key → Heading
  | .idleTimeout | .rxOverwrite | .zeroSync | .errorReplies | .checksum => .link
  | .baudrate | .dataBits | .parity | .stopBits => .uart

def name : Key → String
  | .idleTimeout => "idle_timeout_ms"
  | .rxOverwrite => "rx_overwrite"
  | .zeroSync => "zero_sync"
  | .errorReplies => "error_replies"
  | .checksum => "checksum"
  | .baudrate => "baudrate"
  | .dataBits => "data_bits"
  | .parity => "parity"
  | .stopBits => "stop_bits"

def all : List Key :=
  [.idleTimeout, .rxOverwrite, .zeroSync, .errorReplies, .checksum,
   .baudrate, .dataBits, .parity, .stopBits]

def ofName? (h : Heading) (cs : List Char) : Option Key :=
  all.find? fun k => k.heading = h && k.name.toList = cs

end Key

end CommandLink.LinkFile
