import NivonaEmulator.Crypto
import NivonaEmulator.Lib.SlotTable
import NivonaEmulator.Lib.Decimal
import NivonaEmulator.Lib.BigEndian
import NivonaEmulator.Lib.Runs
import NivonaEmulator.Families
import NivonaEmulator.Nvs
import NivonaEmulator.Store
import NivonaEmulator.Device
import NivonaEmulator.Fsm
import NivonaEmulator.Core
import NivonaEmulator.Maint
import NivonaEmulator.Brew
import NivonaEmulator.MaintCycle
import NivonaEmulator.Lib.Chunks
import NivonaEmulator.Link
import NivonaEmulator.MachineRun
import NivonaEmulator.Dispatch
import NivonaEmulator.Receive
import NivonaEmulator.System
import NivonaEmulator.FrameOpening
import NivonaEmulator.FrameFeed
import NivonaEmulator.Client
import NivonaEmulator.Session
import NivonaEmulator.LinkRule
import NivonaEmulator.SessionGate
import NivonaEmulator.Handshake
import NivonaEmulator.SessionRoundTrip
import NivonaEmulator.VariableLength
import NivonaEmulator.Exclusion
import NivonaEmulator.HardPrompt
import NivonaEmulator.ResponseRoundTrip
import NivonaEmulator.Lib.Interleaving
import NivonaEmulator.WireFrames
import NivonaEmulator.StoreMirror
import NivonaEmulator.RebootTransparency
import NivonaEmulator.AlphaReboot
import NivonaEmulator.Rejection
import NivonaEmulator.WriteEffect
import NivonaEmulator.Lib.TaskLife
import NivonaEmulator.TaskLives
import NivonaEmulator.PromptMask
import NivonaEmulator.Counters
import NivonaEmulator.RegisterEvents
import NivonaEmulator.Accounting
import NivonaEmulator.Gauges
import NivonaEmulator.Lib.Cadence
import NivonaEmulator.WearCadence
import NivonaEmulator.Sections
import NivonaEmulator.Uninterrupted
import NivonaEmulator.ProcessCode
import NivonaEmulator.Lib.Lockstep
import NivonaEmulator.InStep
import NivonaEmulator.Subscription
import NivonaEmulator.PeerIsolation
import NivonaEmulator.DiagRecord
import NivonaEmulator.DiagReport
import NivonaEmulator.Lib.ChainedCheck
import NivonaEmulator.HuVerifier
import NivonaEmulator.Wifi
import NivonaEmulator.FactoryDefault
import NivonaEmulator.BrewRequest
import NivonaEmulator.Lib.BoundedMap
import NivonaEmulator.Lib.SlotArray
import NivonaEmulator.RegisterTables
import NivonaEmulator.Lib.CheckedBuffer
import NivonaEmulator.Lib.KeystreamLoop
import NivonaEmulator.Rc4
import NivonaEmulator.ParserSafety
import NivonaEmulator.Lib.Shares
import NivonaEmulator.Lib.Ticks
import NivonaEmulator.BrewRamp
import NivonaEmulator.BrewProgress
import NivonaEmulator.Lib.CheckedInt
import NivonaEmulator.BrewOverflow
import NivonaEmulator.FlashWrites
import NivonaEmulator.BootEntries
import NivonaEmulator.FactoryReset
import NivonaEmulator.Lib.Publish
import NivonaEmulator.ConsumableTasks
import NivonaEmulator.PromptTasks
import NivonaEmulator.Lib.Handles
import NivonaEmulator.TelnetSockets
import NivonaEmulator.Lib.LineBuffer
import NivonaEmulator.TelnetLines
import NivonaEmulator.UiHome
import NivonaEmulator.UiPicker
import NivonaEmulator.Ota
import NivonaEmulator.DiagText
import NivonaEmulator.RegisterTasks
import NivonaEmulator.Lib.SequentialObject
import NivonaEmulator.Lib.SharedText
import NivonaEmulator.DisReads
import NivonaEmulator.NotifyTasks
import NivonaEmulator.CycleReports
import NivonaEmulator.RegisterFlash
import NivonaEmulator.GattAccess
