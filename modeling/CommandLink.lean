import CommandLink.Channel.Hub
import CommandLink.Device.Station
import CommandLink.LinkFile.Build
import CommandLink.Main
import CommandLink.Settings.OfValue
import CommandLink.Proofs.Command.Sound
import CommandLink.Proofs.Frame.Encode
import CommandLink.Proofs.Ring.Loss
import CommandLink.Proofs.Dispatch.Head
import CommandLink.Proofs.Dispatch.Account
import CommandLink.Proofs.Dispatch.Zeros
import CommandLink.Proofs.Channel.Script
import CommandLink.Proofs.Channel.Steps
import CommandLink.Proofs.Channel.Session
import CommandLink.Proofs.Channel.Record
import CommandLink.Proofs.Channel.Wire
import CommandLink.Proofs.Channel.Chunks
import CommandLink.Proofs.Channel.Stream
import CommandLink.Proofs.Channel.Handshake
import CommandLink.Proofs.Channel.Ledger
import CommandLink.Proofs.Channel.System
import CommandLink.Proofs.Channel.IdleReset
import CommandLink.Proofs.Channel.Healing
import CommandLink.Proofs.Channel.Relocate
import CommandLink.Proofs.Channel.Site
import CommandLink.Proofs.Channel.Isolation
import CommandLink.Proofs.Frame.Message
import CommandLink.Proofs.Channel.Transcript
import CommandLink.Proofs.Ring.Fifo
import CommandLink.Proofs.Timer.Firing
import CommandLink.Proofs.Timer.Staleness
import CommandLink.Proofs.Checksum.Bits
import CommandLink.Proofs.Checksum.Patterns
import CommandLink.Proofs.Channel.EarlyTick
import CommandLink.Proofs.Channel.Headroom
import CommandLink.Proofs.Frame.Damage
import CommandLink.Proofs.Channel.Construction
import CommandLink.Proofs.Dispatch.Congestion
import CommandLink.Proofs.LinkFile.Acceptance
import CommandLink.Proofs.Dispatch.Deeds
import CommandLink.Proofs.Device.Contract
import CommandLink.Proofs.Channel.Arrival
import CommandLink.Proofs.Timer.Remaining
import CommandLink.Proofs.Transmit.Delivery
import CommandLink.Proofs.Channel.Pump
import CommandLink.Proofs.Command.Validity
import CommandLink.Proofs.Checksum.Pieces
import CommandLink.Proofs.LinkFile.Reading
import CommandLink.Proofs.LinkFile.Comments
import CommandLink.Proofs.LinkFile.SlowLink
import CommandLink.Proofs.Channel.Packets
import CommandLink.Proofs.Line.TransferTime
import CommandLink.Proofs.LinkFile.Report
